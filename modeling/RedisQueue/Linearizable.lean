import RedisQueue.Deferred
import RedisQueue.Leases
import RedisQueue.Worker

/-!
# Linearizability of `lease`, `complete` and `publish`

`lease` is a `BRPOPLPUSH` and a `SETEX`, `complete` an `LREM` and a `DEL`. For payloads
pushed once an operation can be thought of as taking place at its first command: the lists
are then already right, and the lease table of the sequential order is ahead of the real
one by the second commands that are still to come (`Deferred.Ahead`).

* `Op.run`: a whole operation, the program of `worker.py` run with nobody in between;
  `op_of_alone`: a client's commands do the same when nobody comes in between.
* `Spans`: the operations of a run, each with the instants of its first and last command.
* `linearizable`: ordered by their first commands the operations give the same answers
  and the same final state.

An expiry is a step of its own; one that finds no key does nothing and is no operation.
-/
namespace RedisQueue
open Program Interleave

variable {W K : Type}

inductive Op (W K : Type) where
  | publish (v : Bytes)
  | lease (w : W) (r : Option Bytes)
  | complete (w : W) (v : Bytes)
  | expire (k : K)

section Sequential
variable [DecidableEq K] (P : Params W K)

/-- A whole operation on its own, from `s`; `none` if a `lease` returns something else. -/
def Op.run (s : Server K) : Op W K → Option (Server K)
  | .publish v => some ((redis (.rpush v)).run Server.handle s).srv
  | .lease w r =>
    let res := ((P.subscriber w).lease 5 true (some 2)).run Server.handle s
    if res.out = .ret r then some res.srv else none
  | .complete w v =>
    let res := ((P.subscriber w).complete v).run Server.handle s
    if res.out = .ret () then some res.srv else none
  | .expire k => some (s.delete k)

/-- The operations one after another. -/
def runOps (s : Server K) (ops : List (Op W K)) : Option (Server K) := ops.foldlM (Op.run P) s

variable {P} {s : Server K} {w : W} {v : Bytes}

theorem op_lease_none (hm : s.main = []) : Op.run P s (.lease w none) = some s := by
  simp [Op.run, run_lease_nil _ hm]

theorem op_lease_some {l : List Bytes} (hm : s.main = l ++ [v]) (hv : v ≠ []) :
    Op.run P s (.lease w (some v)) =
      some ({ s with main := l, processing := v :: s.processing }.setex (P.itemKey v) (P.session w)) := by
  simp [Op.run, run_lease_snoc _ hm hv (by decide : (0 : Int) < 5), Params.subscriber]

theorem op_complete : Op.run P s (.complete w v) = some ((s.lrem 0 v).delete (P.itemKey v)) := by
  simp [Op.run, run_complete, Params.subscriber]

@[simp] theorem runOps_singleton (op : Op W K) : runOps P s [op] = Op.run P s op := by
  simp [runOps]

end Sequential

/-! ## The operations of a run -/

/-- The operation whose first command the event is, on a server in state `s`. -/
def Ev.op (s : Server K) : Ev W K → Option (Op W K)
  | .rpush v => some (.publish v)
  | .pop w r => some (.lease w r)
  | .lrem w v _ => some (.complete w v)
  | .expire k => if (s.leases k).isSome then some (.expire k) else none
  | _ => none

/-- The write a client in the middle of an operation is going to make. -/
def Mode.owes (P : Params W K) (w : W) : Mode → Option (K × Option Bytes)
  | .idle => none
  | .leasing v => some (P.itemKey v, some (P.session w))
  | .completing v => some (P.itemKey v, none)

/-- What all the clients owe. -/
def debts (P : Params W K) {σ : Type} (c : Config W σ Client) (w : W) : Option (K × Option Bytes) :=
  (c.loc w).mode.owes P w

/-- The sequential server `s` is the concurrent one with the second commands already executed. -/
structure Ahead (P : Params W K) (s : Server K) (c : Config W (Server K) Client) : Prop where
  main : s.main = c.srv.main
  processing : s.processing = c.srv.processing
  leases : Deferred.Ahead (debts P c) s.leases c.srv.leases

theorem mode_of_move {l l' : Client} {e : Ev W K} (h : l.move e = some l') (hh : e.hands = none)
    (hr : e.removes = none) (hs : e.sets = none) (hd : e.dels = none) : l'.mode = l.mode := by
  cases client_move_iff.1 h with
  | popEmpty => cases hh
  | pop => cases hh
  | lrem => cases hr
  | setex => cases hs
  | del => cases hd
  | _ => rfl

section Modes
variable {l l' : Client} {w : W} {v : Bytes} {n : Nat}

theorem mode_of_pop (h : Client.Step (K := K) l (.pop w (some v)) l') (hv : v ≠ []) :
    l.mode = .idle ∧ l'.mode = .leasing v := by
  cases h with
  | popEmpty => exact absurd rfl hv
  | pop => exact ⟨rfl, rfl⟩

theorem mode_of_lrem (h : Client.Step (K := K) l (.lrem w v n) l') :
    l.mode = .idle ∧ l'.mode = .completing v := by
  cases h with
  | lrem => exact ⟨rfl, rfl⟩

theorem mode_of_setex (h : Client.Step (K := K) l (.setex w v) l') :
    l.mode = .leasing v ∧ l'.mode = .idle := by
  cases h with
  | setex => exact ⟨rfl, rfl⟩

theorem mode_of_del (h : Client.Step (K := K) l (.del w v) l') :
    l.mode = .completing v ∧ l'.mode = .idle := by
  cases h with
  | del => exact ⟨rfl, rfl⟩

end Modes

theorem debts_update [DecidableEq W] [DecidableEq K] {P : Params W K} {c c' : Config W (Server K) Client}
    {e : Ev W K} {w : W} (hw : e.who = some w) (he : (clients P).exec c e = some c') :
    debts P c' = Function.update (debts P c) w ((c'.loc w).mode.owes P w) := by
  funext x
  by_cases hx : x = w
  · subst hx; simp [debts]
  · have hne : e.who ≠ some x := fun heq => hx (Option.some.inj (heq.symm.trans hw))
    rw [Function.update_of_ne hx, debts, exec_frame (clients P) hne he]
    rfl

section Simulation
variable [DecidableEq W] [DecidableEq K] {P : Params W K} {s : Server K} {tr : List (Ev W K)}
  {c c' : Config W (Server K) Client} {e : Ev W K} {w : W} {v : Bytes}

theorem debts_of_exec (he : (clients P).exec c e = some c') (hh : e.hands = none)
    (hr : e.removes = none) (hs : e.sets = none) (hd : e.dels = none) : debts P c' = debts P c := by
  funext x
  by_cases hx : e.who = some x
  · simp only [debts, mode_of_move (exec_move (clients P) hx he) hh hr hs hd]
  · simp only [debts, exec_frame (clients P) hx he]

/-- A client that owes a write to the key of `v` was handed an item with that key. -/
theorem handed_of_debt (h : (clients P).run (ready .empty) tr = some c) {k : K} {x : Option Bytes}
    (ho : debts P c w = some (k, x)) : ∃ v, P.itemKey v = k ∧ (w, v) ∈ handed tr ∧
      ((c.loc w).mode = .leasing v ∨ (c.loc w).mode = .completing v ∧ x = none) := by
  unfold debts at ho
  cases hm : (c.loc w).mode with
  | idle => rw [hm] at ho; cases ho
  | leasing v =>
    rw [hm] at ho
    cases ho
    exact ⟨v, rfl, handed_of_inHand h (by simp [Client.inHand, hm]), .inl rfl⟩
  | completing v =>
    rw [hm] at ho
    cases ho
    exact ⟨v, rfl, removed_handed h (removed_of_completing h hm), .inr ⟨rfl, rfl⟩⟩

/-- While a lease has popped and not set its key, the key is absent. -/
theorem leases_none_of_leasing (h : (clients P).run (ready .empty) tr = some c)
    (hkey : CollisionFree P tr) (h1 : (published tr).count v ≤ 1) (hv : v ≠ [])
    (hm : (c.loc w).mode = .leasing v) : c.srv.leases (P.itemKey v) = none := by
  have hhand : (w, v) ∈ handed tr := handed_of_inHand h (by simp [Client.inHand, hm])
  cases hx : c.srv.leases (P.itemKey v) with
  | none => rfl
  | some x =>
    have hpos := List.count_pos_iff.2 (lease_holder h hkey h1 hhand hx).1
    have hbal := lease_ledger w hv h
    have hle : (handed tr).count (w, v) ≤ ((handed tr).map Prod.snd).count v :=
      List.count_le_count_map (f := Prod.snd)
    have hone := handed_count_le h h1
    simp [ready, hm] at hbal
    omega

theorem step_of_client (hw : e.who = some w) (he : (clients P).exec c e = some c') :
    Client.Step (c.loc w) e (c'.loc w) :=
  client_move_iff.1 (exec_move (clients P) hw he)

theorem published_of_main (h : (clients P).run (ready .empty) tr = some c) (hv : v ∈ c.srv.main) :
    v ∈ published tr := by
  have hpos := List.count_pos_iff.2 hv
  have hbal := published_eq (v := v) h
  exact List.count_pos_iff.1 (by omega)

/-- Nobody owes a write to the key of a payload that is still in the main list. -/
theorem not_owed_of_main (h : (clients P).run (ready .empty) tr = some c) (hp : Proper P tr)
    (hv : v ∈ c.srv.main) (x : W) (y : Option Bytes) : debts P c x ≠ some (P.itemKey v, y) := by
  intro ho
  obtain ⟨u, hku, hu, -⟩ := handed_of_debt h ho
  obtain rfl := hp.collisionFree u (handed_published h hu) v (published_of_main h hv) hku
  have hpos := List.count_pos_iff.2 hv
  have hpos' := List.count_pos_iff.2 (mem_items.2 ⟨x, hu⟩)
  have hbal := published_eq (v := u) h
  have hone := hp.count_le u
  omega

/-- Nobody else owes a write to the key of an item a client has in hand. -/
theorem not_owed_of_inHand (h : (clients P).run (ready .empty) tr = some c) (hp : Proper P tr)
    (hv : v ∈ (c.loc w).inHand) (hidle : (c.loc w).mode = .idle) (x : W) (y : Option Bytes) :
    debts P c x ≠ some (P.itemKey v, y) := by
  intro ho
  obtain ⟨u, hku, hu, -⟩ := handed_of_debt h ho
  obtain ⟨rfl, rfl⟩ := handed_same_key h hp.collisionFree (hp.count_le v) (handed_of_inHand h hv) hu hku
  simp [debts, hidle, Mode.owes] at ho

/-- A step between operations, or a whole operation, that touches no lease key. -/
theorem ahead_of_exec {s' : Server K} (ha : Ahead P s c) (he : (clients P).exec c e = some c')
    (hh : e.hands = none) (hr : e.removes = none) (hs : e.sets = none) (hd : e.dels = none)
    (hm : s'.main = c'.srv.main) (hp : s'.processing = c'.srv.processing)
    (hl : c'.srv.leases = c.srv.leases) (hl' : s'.leases = s.leases) : Ahead P s' c' :=
  ⟨hm, hp, by rw [debts_of_exec he hh hr hs hd, hl, hl']; exact ha.leases⟩

/-- A first command: the sequential server gets the second one at once, the client owes it. -/
theorem ahead_start {s' : Server K} {k : K} {x : Option Bytes} (ha : Ahead P s c)
    (he : (clients P).exec c e = some c') (hw : e.who = some w) (hidle : (c.loc w).mode = .idle)
    (howes : (c'.loc w).mode.owes P w = some (k, x)) (hfree : ∀ y z, debts P c y ≠ some (k, z))
    (hm : s'.main = c'.srv.main) (hp : s'.processing = c'.srv.processing)
    (hl : c'.srv.leases = c.srv.leases) (hl' : s'.leases = Function.update s.leases k x) :
    Ahead P s' c' := by
  refine ⟨hm, hp, ?_⟩
  have hdebts := debts_update hw he
  rw [howes] at hdebts
  rw [hl, hl']
  exact Deferred.start ha.leases hdebts (by simp [debts, hidle, Mode.owes]) hfree

/-- A second command: the client pays its debt. -/
theorem ahead_finish {k : K} {x : Option Bytes} (ha : Ahead P s c) (he : (clients P).exec c e = some c')
    (hw : e.who = some w) (howes : (c.loc w).mode.owes P w = some (k, x))
    (hidle : (c'.loc w).mode = .idle) (hm : c'.srv.main = c.srv.main)
    (hp : c'.srv.processing = c.srv.processing)
    (hl : c'.srv.leases = Function.update c.srv.leases k x) : Ahead P s c' := by
  refine ⟨ha.main.trans hm.symm, ha.processing.trans hp.symm, ?_⟩
  have hdebts := debts_update hw he
  rw [hidle] at hdebts
  rw [hl]
  exact Deferred.finish ha.leases hdebts howes

/-- The pop of a lease is the whole lease. -/
theorem ahead_pop (h : (clients P).run (ready .empty) tr = some c)
    (he : (clients P).exec c (.pop w (some v)) = some c') (hp : Proper P tr) (ha : Ahead P s c) :
    ∃ s', Op.run P s (.lease w (some v)) = some s' ∧ Ahead P s' c' := by
  have hserve : serve P c.srv (.pop w (some v)) = some c'.srv := exec_serve (clients P) he
  obtain ⟨l, hm, hsrv⟩ := serve_pop_some.1 hserve
  have hv : v ∈ c.srv.main := by simp [hm]
  have hne := hp.nonempty v (published_of_main h hv)
  obtain ⟨hidle, hmode⟩ := mode_of_pop (step_of_client (w := w) rfl he) hne
  refine ⟨_, op_lease_some (ha.main.trans hm) hne, ?_⟩
  refine ahead_start ha he rfl hidle (by rw [hmode]; rfl) (not_owed_of_main h hp hv) ?_ ?_ ?_ rfl
  · rw [hsrv]; rfl
  · rw [hsrv, ← ha.processing]; rfl
  · rw [hsrv]

/-- The `LREM` of a completion is the whole completion. -/
theorem ahead_lrem {n : Nat} (h : (clients P).run (ready .empty) tr = some c)
    (he : (clients P).exec c (.lrem w v n) = some c') (hp : Proper P tr) (ha : Ahead P s c) :
    ∃ s', Op.run P s (.complete w v) = some s' ∧ Ahead P s' c' := by
  have hserve : serve P c.srv (.lrem w v n) = some c'.srv := exec_serve (clients P) he
  obtain ⟨-, hsrv⟩ := serve_lrem.1 hserve
  have hhand : v ∈ (c.loc w).inHand := inHand_of_lrem (exec_move (clients P) rfl he)
  obtain ⟨hidle, hmode⟩ := mode_of_lrem (step_of_client (w := w) rfl he)
  refine ⟨_, op_complete, ?_⟩
  refine ahead_start ha he rfl hidle (by rw [hmode]; rfl) (not_owed_of_inHand h hp hhand hidle) ?_ ?_ ?_ rfl
  · rw [hsrv]; exact ha.main
  · simp [hsrv, Server.lrem, Server.delete, ha.processing]
  · rw [hsrv]; rfl

/-- A key that expires is not about to be set, so it expires in both. -/
theorem ahead_expire {k : K} (h : (clients P).run (ready .empty) tr = some c)
    (he : (clients P).exec c (.expire k) = some c') (hp : Proper P tr) (ha : Ahead P s c)
    (hk : c.srv.leases k ≠ none) : Ahead P (s.delete k) c' := by
  have hserve : serve P c.srv (.expire k) = some c'.srv := exec_serve (clients P) he
  have hsrv : c'.srv = c.srv.delete k := (Option.some.inj hserve).symm
  refine ⟨hsrv ▸ ha.main, hsrv ▸ ha.processing, ?_⟩
  rw [debts_of_exec he rfl rfl rfl rfl, hsrv]
  refine Deferred.write ha.leases fun w y ho => ?_
  obtain ⟨v, rfl, hw, hm | ⟨_, rfl⟩⟩ := handed_of_debt h ho
  · have hv := handed_published h hw
    exact absurd (leases_none_of_leasing h hp.collisionFree (hp.count_le v) (hp.nonempty v hv) hm) hk
  · rfl

/-- **One step of the simulation**: a first command is the whole operation, a second command
pays the debt. -/
theorem ahead_step (h : (clients P).run (ready .empty) tr = some c) (he : (clients P).exec c e = some c')
    (hp : Proper P tr) (ha : Ahead P s c) :
    ∃ s', runOps P s (e.op c.srv).toList = some s' ∧ Ahead P s' c' := by
  have hserve : serve P c.srv e = some c'.srv := exec_serve (clients P) he
  have hquiet : e.hands = none → e.removes = none → e.sets = none → e.dels = none →
      c'.srv = c.srv → Ahead P s c' := by
    intro hh hr hs hd hsrv
    exact ahead_of_exec ha he hh hr hs hd (hsrv ▸ ha.main) (hsrv ▸ ha.processing) (by rw [hsrv]) rfl
  cases e with
  | rpush v =>
    have hsrv : c'.srv = c.srv.rpush v := (Option.some.inj hserve).symm
    refine ⟨s.rpush v, runOps_singleton _, ahead_of_exec ha he rfl rfl rfl rfl ?_ ?_ ?_ rfl⟩
    · simp [hsrv, Server.rpush, ha.main]
    · simp [hsrv, Server.rpush, ha.processing]
    · rw [hsrv]; rfl
  | llen w q n => exact ⟨s, rfl, hquiet rfl rfl rfl rfl (serve_llen.1 hserve).2⟩
  | work w v => exact ⟨s, rfl, hquiet rfl rfl rfl rfl (Option.some.inj hserve).symm⟩
  | raise w v => exact ⟨s, rfl, hquiet rfl rfl rfl rfl (Option.some.inj hserve).symm⟩
  | crash w => exact ⟨s, rfl, hquiet rfl rfl rfl rfl (Option.some.inj hserve).symm⟩
  | pop w r =>
    cases r with
    | none =>
      obtain ⟨hm, hsrv⟩ := serve_pop_none.1 hserve
      refine ⟨s, ?_, hquiet rfl rfl rfl rfl hsrv⟩
      exact (runOps_singleton _).trans (op_lease_none (ha.main.trans hm))
    | some v =>
      obtain ⟨s', hop, ha'⟩ := ahead_pop h he hp ha
      exact ⟨s', (runOps_singleton _).trans hop, ha'⟩
  | lrem w v n =>
    obtain ⟨s', hop, ha'⟩ := ahead_lrem h he hp ha
    exact ⟨s', (runOps_singleton _).trans hop, ha'⟩
  | setex w v =>
    have hsrv : c'.srv = c.srv.setex (P.itemKey v) (P.session w) := (Option.some.inj hserve).symm
    obtain ⟨hmode, hidle⟩ := mode_of_setex (step_of_client (w := w) rfl he)
    refine ⟨s, rfl, ahead_finish ha he rfl (by rw [hmode]; rfl) hidle ?_ ?_ ?_⟩ <;> rw [hsrv] <;> rfl
  | del w v =>
    have hsrv : c'.srv = c.srv.delete (P.itemKey v) := (Option.some.inj hserve).symm
    obtain ⟨hmode, hidle⟩ := mode_of_del (step_of_client (w := w) rfl he)
    refine ⟨s, rfl, ahead_finish ha he rfl (by rw [hmode]; rfl) hidle ?_ ?_ ?_⟩ <;> rw [hsrv] <;> rfl
  | expire k =>
    cases hk : c.srv.leases k with
    | none =>
      -- nothing happens
      have hsrv : c'.srv = c.srv.delete k := (Option.some.inj hserve).symm
      refine ⟨s, by simp [Ev.op, hk, runOps], hquiet rfl rfl rfl rfl ?_⟩
      rw [hsrv, Server.delete, ← hk, Function.update_eq_self]
    | some x =>
      exact ⟨s.delete k, by simp [Ev.op, hk, Op.run], ahead_expire h he hp ha (by simp [hk])⟩

end Simulation

/-! ## One operation alone -/

section Alone
variable [DecidableEq W] [DecidableEq K] {P : Params W K}

/-- The commands of an operation, with nobody in between. -/
inductive Alone : Op W K → List (Ev W K) → Prop where
  | publish (v) : Alone (.publish v) [.rpush v]
  | timeout (w) : Alone (.lease w none) [.pop w none]
  | lease (w v) (hv : v ≠ []) : Alone (.lease w (some v)) [.pop w (some v), .setex w v]
  | complete (w v n) : Alone (.complete w v) [.lrem w v n, .del w v]
  | expire (k) : Alone (.expire k) [.expire k]

/-- **Clients execute the programs**: the commands of an operation, one after another, do what
the program of the operation does. -/
theorem op_of_alone {op : Op W K} {es : List (Ev W K)} {c c' : Config W (Server K) Client}
    (ha : Alone op es) (h : (clients P).run c es = some c') : Op.run P c.srv op = some c'.srv := by
  obtain ⟨e, es, rfl⟩ : ∃ e es', es = e :: es' := by cases ha <;> exact ⟨_, _, rfl⟩
  obtain ⟨d, he, hes⟩ := (run_cons (clients P)).1 h
  have hs : serve P c.srv e = some d.srv := exec_serve (clients P) he
  cases ha with
  | publish v => cases hes; exact hs
  | expire k => cases hes; exact hs
  | timeout w =>
    cases hes
    obtain ⟨hm, hd⟩ := serve_pop_none.1 hs
    rw [op_lease_none hm, hd]
  | lease w v hv =>
    obtain ⟨_, he', hnil⟩ := (run_cons (clients P)).1 hes
    cases hnil
    obtain ⟨l, hm, hd⟩ := serve_pop_some.1 hs
    have hs' : serve P d.srv (.setex w v) = some c'.srv := exec_serve (clients P) he'
    rw [op_lease_some hm hv, ← hd]
    exact hs'
  | complete w v n =>
    obtain ⟨_, he', hnil⟩ := (run_cons (clients P)).1 hes
    cases hnil
    have hs' : serve P d.srv (.del w v) = some c'.srv := exec_serve (clients P) he'
    rw [op_complete, ← (serve_lrem.1 hs).2]
    exact hs'

end Alone

/-! ## The sequential order -/

section Order
variable [DecidableEq W] [DecidableEq K]

/-- The operation `op` of the run `tr` has its first command at the first instant, its last
command at the second. -/
inductive Spans (P : Params W K) (tr : List (Ev W K)) : Op W K → Nat → Nat → Prop where
  | publish (pre v post) (h : tr = pre ++ .rpush v :: post) :
    Spans P tr (.publish v) pre.length pre.length
  | timeout (pre w post) (h : tr = pre ++ .pop w none :: post) :
    Spans P tr (.lease w none) pre.length pre.length
  | lease (pre w v mid post) (h : tr = pre ++ .pop w (some v) :: (mid ++ .setex w v :: post))
    (hmid : ∀ e ∈ mid, e.who ≠ some w) :
    Spans P tr (.lease w (some v)) pre.length (pre.length + 1 + mid.length)
  | complete (pre w v n mid post) (h : tr = pre ++ .lrem w v n :: (mid ++ .del w v :: post))
    (hmid : ∀ e ∈ mid, e.who ≠ some w) :
    Spans P tr (.complete w v) pre.length (pre.length + 1 + mid.length)
  | expire (pre k post d) (h : tr = pre ++ .expire k :: post)
    (hrun : (clients P).run (ready .empty) pre = some d) (hk : d.srv.leases k ≠ none) :
    Spans P tr (.expire k) pre.length pre.length

/-- A sequential order of the operations of `tr`, each at the instant of its first command,
that ends in `s`. -/
structure Linearizes (P : Params W K) (tr : List (Ev W K)) (lin : List (Nat × Op W K)) (s : Server K) :
    Prop where
  ordered : (lin.map Prod.fst).Pairwise (· < ·)
  each : ∀ t op, (t, op) ∈ lin ↔ ∃ last, t ≤ last ∧ Spans P tr op t last
  outcome : runOps P .empty (lin.map Prod.snd) = some s

/-- The event at instant `t` is the first command of `op`. -/
def Starts (P : Params W K) (tr : List (Ev W K)) (t : Nat) (op : Op W K) : Prop :=
  ∃ pre e post d, tr = pre ++ e :: post ∧ pre.length = t ∧
    (clients P).run (ready .empty) pre = some d ∧ e.op d.srv = some op

variable {P : Params W K} {tr post : List (Ev W K)} {c c' : Config W (Server K) Client} {e : Ev W K}
  {w : W} {v : Bytes} {t : Nat} {op : Op W K}

theorem starts_lt (h : Starts P tr t op) : t < tr.length := by
  obtain ⟨pre, e, post, d, rfl, rfl, -⟩ := h
  simp

theorem starts_snoc (h : (clients P).run (ready .empty) tr = some c) :
    Starts P (tr ++ [e]) t op ↔ Starts P tr t op ∨ t = tr.length ∧ e.op c.srv = some op := by
  constructor
  · rintro ⟨pre, x, post, d, htr, rfl, hd, hop⟩
    rcases List.eq_nil_or_concat post with rfl | ⟨post, y, rfl⟩
    · obtain ⟨rfl, hx⟩ := List.append_inj' htr rfl
      cases hx
      obtain rfl : c = d := Option.some.inj (h.symm.trans hd)
      exact .inr ⟨rfl, hop⟩
    · rw [List.concat_eq_append, ← List.cons_append, ← List.append_assoc] at htr
      exact .inl ⟨pre, x, post, d, (List.append_inj' htr rfl).1, rfl, hd, hop⟩
  · rintro (⟨pre, x, post, d, rfl, rfl, hd, hop⟩ | ⟨rfl, hop⟩)
    · exact ⟨pre, x, post ++ [e], d, by simp, rfl, hd, hop⟩
    · exact ⟨tr, e, [], c, rfl, rfl, h, hop⟩

/-- **The run of the simulation**: the operations in the order of their first commands. -/
theorem exists_order : ∀ tr c, (clients P).run (ready .empty) tr = some c → Proper P tr →
    ∃ (lin : List (Nat × Op W K)) (s : Server K),
      (lin.map Prod.fst).Pairwise (· < ·) ∧ (∀ t op, (t, op) ∈ lin ↔ Starts P tr t op) ∧
      runOps P .empty (lin.map Prod.snd) = some s ∧ Ahead P s c := by
  refine run_induct (clients P) ?_ ?_
  · intro _
    refine ⟨[], .empty, .nil, fun t op => ?_, rfl, rfl, rfl, Deferred.ahead_refl _⟩
    constructor
    · intro h; cases h
    · intro h; exact absurd (starts_lt h) (Nat.not_lt_zero t)
  · intro tr c e c' hrun ih he hp
    obtain ⟨lin, s, hord, hmem, hops, ha⟩ := ih hp.of_snoc
    obtain ⟨s', hstep, ha'⟩ := ahead_step hrun he hp.of_snoc ha
    refine ⟨lin ++ (e.op c.srv).toList.map (tr.length, ·), s', ?_, fun t op => ?_, ?_, ha'⟩
    · rw [List.map_append, List.pairwise_append]
      refine ⟨hord, by cases e.op c.srv <;> simp, fun a ha b hb => ?_⟩
      obtain ⟨⟨t, op⟩, htop, rfl⟩ := List.mem_map.1 ha
      have hlt := starts_lt ((hmem t op).1 htop)
      have hb' : b = tr.length := by
        cases hop : e.op c.srv with
        | none => simp [hop] at hb
        | some o => simpa [hop] using hb
      rw [hb']
      exact hlt
    · rw [starts_snoc hrun, List.mem_append, hmem]
      cases e.op c.srv <;> simp [eq_comm]
    · have hsnd : (((e.op c.srv).toList.map (tr.length, ·)).map Prod.snd) = (e.op c.srv).toList := by
        cases e.op c.srv <;> rfl
      rw [List.map_append, hsnd, runOps, List.foldlM_append]
      exact (congrArg (· >>= fun s => runOps P s (e.op c.srv).toList) hops).trans hstep

/-! ## First and last commands -/

theorem dead_stays (h : (clients P).run c post = some c') (hdead : (c.loc w).alive = false) :
    c'.loc w = c.loc w := by
  refine run_rel (clients P) (R := fun c c' => (c.loc w).alive = false → c'.loc w = c.loc w)
    (p := fun _ => True) (fun _ _ => rfl) (fun a b d h1 h2 ha => ?_) (fun c e c' _ he hdead => ?_)
    (fun _ _ => trivial) h hdead
  · have hb := h1 ha
    exact (h2 (hb ▸ ha)).trans hb
  · by_cases hw : e.who = some w
    · have hm := client_move_iff.1 (exec_move (clients P) hw he)
      generalize c'.loc w = l' at hm ⊢
      generalize c.loc w = l at hm hdead ⊢
      cases hm <;> cases hdead
    · exact exec_frame (clients P) hw he

/-- A client in the middle of an operation that is idle in the end has taken the next step
of the operation. -/
theorem finishes (h : (clients P).run c post = some c') (hm : (c.loc w).mode ≠ .idle)
    (hdone : (c'.loc w).mode = .idle) : ∃ mid e rest l, post = mid ++ e :: rest ∧
      (∀ x ∈ mid, x.who ≠ some w) ∧ e.who = some w ∧ Client.Step (c.loc w) e l ∧ l.mode = .idle := by
  induction post generalizing c with
  | nil => cases h; exact absurd hdone hm
  | cons e es ih =>
    obtain ⟨d, he, hes⟩ := (run_cons _).1 h
    by_cases hw : e.who = some w
    · have hstep := client_move_iff.1 (exec_move (clients P) hw he)
      refine ⟨[], e, es, d.loc w, rfl, by simp, hw, hstep, ?_⟩
      by_contra hmode
      -- the step was the crash, and nothing follows it
      have hdead : (d.loc w).alive = false := by
        generalize d.loc w = l' at hstep hmode
        generalize c.loc w = l at hstep hm
        cases hstep with
        | crash => rfl
        | setex => exact absurd rfl hmode
        | del => exact absurd rfl hmode
        | _ => exact absurd rfl hm
      rw [dead_stays hes hdead] at hdone
      exact hmode hdone
    · have hframe := exec_frame (clients P) hw he
      obtain ⟨mid, x, rest, l, rfl, hmid, hx, hstep, hl⟩ := ih hes (by rw [hframe]; exact hm)
      refine ⟨e :: mid, x, rest, l, rfl, ?_, hx, hframe ▸ hstep, hl⟩
      simpa using ⟨hw, hmid⟩

theorem setex_of_leasing (h : (clients P).run c post = some c') (hm : (c.loc w).mode = .leasing v)
    (hdone : (c'.loc w).mode = .idle) :
    ∃ mid rest, post = mid ++ .setex w v :: rest ∧ ∀ x ∈ mid, x.who ≠ some w := by
  obtain ⟨mid, e, rest, l, rfl, hmid, hw, hstep, hl⟩ := finishes h (by rw [hm]; simp) hdone
  generalize c.loc w = l₀ at hstep hm
  cases hstep with
  | setex => cases hm; cases hw; exact ⟨mid, rest, rfl, hmid⟩
  | crash => cases hm; cases hl
  | _ => cases hm

theorem del_of_completing (h : (clients P).run c post = some c') (hm : (c.loc w).mode = .completing v)
    (hdone : (c'.loc w).mode = .idle) :
    ∃ mid rest, post = mid ++ .del w v :: rest ∧ ∀ x ∈ mid, x.who ≠ some w := by
  obtain ⟨mid, e, rest, l, rfl, hmid, hw, hstep, hl⟩ := finishes h (by rw [hm]; simp) hdone
  generalize c.loc w = l₀ at hstep hm
  cases hstep with
  | del => cases hm; cases hw; exact ⟨mid, rest, rfl, hmid⟩
  | crash => cases hm; cases hl
  | _ => cases hm

theorem starts_of_spans {last : Nat} (h : (clients P).run (ready .empty) tr = some c)
    (hs : Spans P tr op t last) : Starts P tr t op := by
  cases hs with
  | publish pre v post htr =>
    subst htr
    obtain ⟨d, hd, -⟩ := (run_append _).1 h
    exact ⟨pre, _, post, d, rfl, rfl, hd, rfl⟩
  | timeout pre w post htr =>
    subst htr
    obtain ⟨d, hd, -⟩ := (run_append _).1 h
    exact ⟨pre, _, post, d, rfl, rfl, hd, rfl⟩
  | lease pre w v mid post htr =>
    subst htr
    obtain ⟨d, hd, -⟩ := (run_append _).1 h
    exact ⟨pre, _, _, d, rfl, rfl, hd, rfl⟩
  | complete pre w v n mid post htr =>
    subst htr
    obtain ⟨d, hd, -⟩ := (run_append _).1 h
    exact ⟨pre, _, _, d, rfl, rfl, hd, rfl⟩
  | expire pre k post d htr hd hk =>
    refine ⟨pre, _, post, d, htr, rfl, hd, ?_⟩
    rw [Ev.op, if_pos (Option.isSome_iff_ne_none.2 hk)]

/-- When every started operation has finished, every first command has its last one. -/
theorem spans_of_starts (h : (clients P).run (ready .empty) tr = some c) (hp : Proper P tr)
    (hdone : ∀ w, (c.loc w).mode = .idle) (hs : Starts P tr t op) :
    ∃ last, t ≤ last ∧ Spans P tr op t last := by
  obtain ⟨pre, e, post, d, rfl, rfl, hd, hop⟩ := hs
  obtain ⟨d', hd', hrest⟩ := (run_append _).1 h
  obtain rfl : d = d' := Option.some.inj (hd.symm.trans hd')
  obtain ⟨d₁, he, hpost⟩ := (run_cons _).1 hrest
  cases e with
  | rpush v => cases hop; exact ⟨_, Nat.le_refl _, .publish pre v post rfl⟩
  | pop w r =>
    cases hop
    cases r with
    | none => exact ⟨_, Nat.le_refl _, .timeout pre w post rfl⟩
    | some v =>
      have hserve : serve P d.srv (.pop w (some v)) = some d₁.srv := exec_serve (clients P) he
      obtain ⟨l, hm, -⟩ := serve_pop_some.1 hserve
      have hv : v ∈ published (pre ++ .pop w (some v) :: post) := by
        rw [published, List.filterMap_append]
        exact List.mem_append_left _ (published_of_main hd (by simp [hm]))
      have hmode := (mode_of_pop (step_of_client (w := w) rfl he) (hp.nonempty v hv)).2
      obtain ⟨mid, rest, rfl, hmid⟩ := setex_of_leasing hpost hmode (hdone w)
      exact ⟨_, by omega, .lease pre w v mid rest rfl hmid⟩
  | lrem w v n =>
    cases hop
    have hmode := (mode_of_lrem (step_of_client (w := w) rfl he)).2
    obtain ⟨mid, rest, rfl, hmid⟩ := del_of_completing hpost hmode (hdone w)
    exact ⟨_, by omega, .complete pre w v n mid rest rfl hmid⟩
  | expire k =>
    simp only [Ev.op, Option.ite_none_right_eq_some] at hop
    obtain ⟨hk, hop⟩ := hop
    cases hop
    exact ⟨_, Nat.le_refl _, .expire pre k post d rfl hd (Option.isSome_iff_ne_none.1 hk)⟩
  | _ => cases hop

end Order

/-- **Linearizability**: when every started operation has finished there is a sequential
order of whole operations, each placed at its first command, in which every `lease` returns
the same item and which ends in the same lists and the same lease table. -/
theorem linearizable [DecidableEq W] [DecidableEq K] (P : Params W K) {tr : List (Ev W K)}
    {c : Config W (Server K) Client} (h : (clients P).run (ready .empty) tr = some c) (hp : Proper P tr)
    (hdone : ∀ w, (c.loc w).mode = .idle) : ∃ lin, Linearizes P tr lin c.srv := by
  obtain ⟨lin, s, hord, hmem, hops, ha⟩ := exists_order tr c h hp
  have hs : s = c.srv := Server.ext ha.main ha.processing
    (Deferred.settled ha.leases fun w => by simp [debts, hdone w, Mode.owes])
  refine ⟨lin, hord, fun t op => ?_, hs ▸ hops⟩
  rw [hmem]
  constructor
  · exact spans_of_starts h hp hdone
  · rintro ⟨last, -, hspan⟩
    exact starts_of_spans h hspan

/-- The lease of worker 0 is still without its `SETEX` when worker 1 leases and completes. -/
def overlapRun : List (Ev Nat Bytes) :=
  [.rpush [97], .rpush [98], .pop 0 (some [98]), .pop 1 (some [97]), .setex 1 [97], .lrem 1 [97] 1,
   .expire [98], .setex 0 [98], .del 1 [97]]

theorem linearizable_overlapRun : ∃ c lin, (clients plainParams).run (ready .empty) overlapRun = some c ∧
    Linearizes plainParams overlapRun lin c.srv := by
  obtain ⟨c, hc, h0, h1, hloc⟩ : ∃ c, (clients plainParams).run (ready .empty) overlapRun = some c ∧
      (c.loc 0).mode = .idle ∧ (c.loc 1).mode = .idle ∧ ∀ w, w ≠ 0 → w ≠ 1 → c.loc w = ⟨.idle, [], true⟩ := by
    refine ⟨_, rfl, rfl, rfl, fun w h0 h1 => ?_⟩
    simp [h0, h1, ready]
  have hdone : ∀ w, (c.loc w).mode = .idle := by
    intro w
    by_cases hw0 : w = 0
    · rw [hw0]; exact h0
    · by_cases hw1 : w = 1
      · rw [hw1]; exact h1
      · rw [hloc w hw0 hw1]
  obtain ⟨lin, hlin⟩ := linearizable plainParams hc ⟨by decide, by decide, fun _ _ _ _ h => h⟩ hdone
  exact ⟨c, lin, hc, hlin⟩

end RedisQueue
