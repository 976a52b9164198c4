import RedisQueue.HandOver
import RedisQueue.Progress

/-!
# An item whose worker crashed

`lease` announces that after the lease duration "other workers can pick the same item"
(`worker.py:72-74`). But workers pop from the main list only, and no worker moves an
element back to it: an item in the processing list is out of reach.

* A worker returns `v` from `lease` again only if another copy of `v` is on its way: popped
  by a live worker that has not set the lease yet, or in the main list with enough workers
  to get to it (`recoverable_iff`). A worker that leases an undecodable payload does not
  survive it.
* A payload pushed once is lost with its worker (`not_recoverable_of_once`).
-/
namespace RedisQueue
open Interleave

variable {W K : Type}

/-- What `lease` returns, at the event after which it does. -/
def Ev.returns : Ev W K → Option (W × Bytes)
  | .setex w v => some (w, v)
  | .pop w (some []) => some (w, [])
  | _ => none

/-- Live and in the loop of `daemon.py:34`. -/
def Worker.InLoop (l : Worker) : Prop := l.alive = true ∧ l.pc ≠ .exited ∧ ∀ q, l.pc ≠ .probe false q

/-- The payloads that are popped before the next copy of `v`. -/
def ahead (v : Bytes) (main : List Bytes) : List Bytes := main.reverse.takeWhile (· ≠ v)

def undecodable (v : Bytes) : Bool := (decode v).isNone

@[simp] theorem ahead_snoc_self (v : Bytes) (l : List Bytes) : ahead v (l ++ [v]) = [] := by
  simp [ahead]

@[simp] theorem ahead_snoc_ne {u v : Bytes} (h : u ≠ v) (l : List Bytes) :
    ahead v (l ++ [u]) = u :: ahead v l := by
  simp [ahead, h]

section Moves
variable {l l' : Worker} {e : Ev W K} {v : Bytes}

/-- A worker becomes able to pop only by its own steps from points where it was able to. -/
theorem capable_of_move (h : l.move e = some l') (hw : e.working = true) (hc : l'.Capable) : l.Capable := by
  cases move_iff.1 h with
  | setex w v => exact ⟨rfl, by simp, fun u hu => hc.2.2 u (by simpa using hu)⟩
  | work w v hd =>
    refine ⟨rfl, by simp, fun u hu => ?_⟩
    obtain rfl : v = u := by simpa using hu
    exact hd
  | raise w v hd => exact absurd hc.1 (by simp)
  | crash => cases hw
  | _ => exact ⟨rfl, by simp, by simp⟩

/-- The way to the `SETEX` of `v` is through the pop of `v`. -/
theorem pop_of_move (h : l.move e = some ⟨.setex v, true⟩) : ∃ w, e = .pop w (some v) := by
  generalize hl' : (⟨.setex v, true⟩ : Worker) = l' at h
  cases move_iff.1 h with
  | pop w u =>
    split at hl' <;> cases hl'
    exact ⟨w, rfl⟩
  | probeMain g w n =>
    split at hl'
    · cases hl'
    · cases g <;> cases hl'
  | probeProcessing g w n =>
    unfold afterEmpty at hl'
    split at hl'
    · split at hl' <;> cases hl'
    · cases hl'
  | _ => cases hl'

end Moves

variable [DecidableEq W] [DecidableEq K] {P : Params W K}

/-- `v` is in the processing list without a lease, a worker that popped it has crashed, and
another one is still in its loop. -/
structure Stranded (P : Params W K) (tr : List (Ev W K)) (c : Config W (Server K) Worker) (v : Bytes) :
    Prop where
  run : (daemon P).run start tr = some c
  item : v ∈ c.srv.processing
  noLease : c.srv.leases (P.itemKey v) = none
  popper : ∃ w, (w, v) ∈ handed tr ∧ (c.loc w).alive = false
  other : ∃ w, (c.loc w).InLoop

/-- Steps of the remaining workers lead to a `lease` that returns `v`. -/
def Recoverable (P : Params W K) (c : Config W (Server K) Worker) (v : Bytes) : Prop :=
  ∃ tr c', (daemon P).run c tr = some c' ∧ (∀ e ∈ tr, e.working = true) ∧
    ∃ e ∈ tr, ∃ w, e.returns = some (w, v)

def CrashRecoverable (P : Params W K) : Prop := ∀ tr c v, Stranded P tr c v → Recoverable P c v

/-- More workers can pop than payloads ahead of `v` will take with them. -/
def InReach (c : Config W (Server K) Worker) (v : Bytes) : Prop :=
  v ∈ c.srv.main ∧ ∃ ws : List W, ws.Nodup ∧ (∀ w ∈ ws, (c.loc w).Capable) ∧
    (ahead v c.srv.main).countP undecodable < ws.length

/-- Another copy of `v` is on its way to a live worker. -/
def StillComing (c : Config W (Server K) Worker) (v : Bytes) : Prop :=
  (∃ w, c.loc w = ⟨.setex v, true⟩) ∨ InReach c v

section Stuck
variable {c c' : Config W (Server K) Worker} {e : Ev W K} {w : W} {v : Bytes}

/-- With no copy of `v` on its way, none is popped. -/
theorem not_pop_of_not_inReach (h : ¬ InReach c v) : (daemon P).exec c (.pop w (some v)) ≠ some c' := by
  intro he
  have hs : serve P c.srv (.pop w (some v)) = some c'.srv := exec_serve (daemon P) he
  obtain ⟨l, hm, -⟩ := serve_pop_some.1 hs
  refine h ⟨by simp [hm], [w], by simp, fun x hx => ?_, by simp [hm]⟩
  obtain rfl := List.mem_singleton.1 hx
  rw [(step_pop_some.1 (step_of_exec rfl he)).1]
  exact ⟨rfl, by simp, by simp⟩

theorem capable_of_exec {x : W} (he : (daemon P).exec c e = some c') (hw : e.working = true)
    (hc : (c'.loc x).Capable) : (c.loc x).Capable := by
  by_cases hx : e.who = some x
  · exact capable_of_move (exec_move (daemon P) hx he) hw hc
  · rw [exec_frame (daemon P) hx he] at hc
    exact hc

/-- No step of a worker brings `v` into reach. -/
theorem not_inReach_step (he : (daemon P).exec c e = some c') (hw : e.working = true)
    (h : ¬ InReach c v) : ¬ InReach c' v := by
  rintro ⟨hv, ws, hnd, hcap, hlen⟩
  have hcap' : ∀ w ∈ ws, (c.loc w).Capable := fun w hws => capable_of_exec he hw (hcap w hws)
  rcases serve_lists (exec_serve (daemon P) he) with
    ⟨_, _, _, hm, _⟩ | ⟨x, rfl, _, _⟩ | ⟨x, u, rfl, hm, _⟩ | ⟨x, u, n, rfl, _, hm, _⟩
  · exact h ⟨hm ▸ hv, ws, hnd, hcap', hm ▸ hlen⟩
  · cases hw
  · have huv : u ≠ v := by
      rintro rfl
      exact not_pop_of_not_inReach h he
    have hmain : v ∈ c.srv.main := by rw [hm]; exact List.mem_append_left _ hv
    by_cases hu : undecodable u = true
    · -- the worker that popped `u` is lost with it
      obtain ⟨hpop, hpopped⟩ := step_pop_some.1 (step_of_exec rfl he)
      have hx : ¬ (c'.loc x).Capable := by
        rw [hpopped]
        intro hc
        refine hc.2.2 u ?_ (by simpa [undecodable] using hu)
        by_cases h0 : u = []
        · exact .inr (if_pos h0)
        · exact .inl (if_neg h0)
      have hxws : x ∉ ws := fun hmem => hx (hcap x hmem)
      have hcx : (c.loc x).Capable := by
        rw [hpop]
        exact ⟨rfl, by simp, by simp⟩
      refine h ⟨hmain, x :: ws, List.nodup_cons.2 ⟨hxws, hnd⟩, ?_, ?_⟩
      · intro w hws
        rcases List.mem_cons.1 hws with rfl | hws
        · exact hcx
        · exact hcap' w hws
      · rw [hm, ahead_snoc_ne huv, List.countP_cons_of_pos hu, List.length_cons]
        omega
    · refine h ⟨hmain, ws, hnd, hcap', ?_⟩
      rw [hm, ahead_snoc_ne huv, List.countP_cons_of_neg hu]
      exact hlen
  · exact h ⟨hm ▸ hv, ws, hnd, hcap', hm ▸ hlen⟩

/-- **The step lemma of losing `v`**: no worker's step returns `v`, and none sends it back. -/
theorem not_stillComing_step (he : (daemon P).exec c e = some c') (hw : e.working = true)
    (h : ¬ StillComing c v) : ¬ StillComing c' v ∧ ∀ w, e.returns ≠ some (w, v) := by
  rw [StillComing, not_or] at h
  refine ⟨?_, fun w hr => ?_⟩
  · rintro (⟨x, hx⟩ | hin)
    · by_cases hwho : e.who = some x
      · have hmove := exec_move (daemon P) hwho he
        rw [hx] at hmove
        obtain ⟨y, rfl⟩ := pop_of_move hmove
        exact not_pop_of_not_inReach h.2 he
      · exact h.1 ⟨x, by rw [← hx, exec_frame (daemon P) hwho he]⟩
    · exact not_inReach_step he hw h.2 hin
  · cases e with
    | setex x u =>
      cases hr
      exact h.1 ⟨w, (step_setex.1 (step_of_exec rfl he)).1⟩
    | pop x r =>
      cases r with
      | none => cases hr
      | some u =>
        cases u with
        | nil => cases hr; exact not_pop_of_not_inReach h.2 he
        | cons b u => cases hr
    | _ => cases hr

theorem not_recoverable (h : ¬ StillComing c v) : ¬ Recoverable P c v := by
  rintro ⟨tr, c', hrun, hworking, hret⟩
  induction tr generalizing c with
  | nil => obtain ⟨e, he, -⟩ := hret; cases he
  | cons e es ih =>
    obtain ⟨d, he, hrun⟩ := (run_cons _).1 hrun
    obtain ⟨hd, hnone⟩ := not_stillComing_step he (hworking e (by simp)) h
    obtain ⟨x, hx, w, hr⟩ := hret
    rcases List.mem_cons.1 hx with rfl | hx
    · exact hnone w hr
    · exact ih hd hrun (fun y hy => hworking y (by simp [hy])) ⟨x, hx, w, hr⟩

end Stuck

section Reach
variable {c c' d : Config W (Server K) Worker} {w : W} {v : Bytes}

theorem recoverable_of_reaches (h : (daemon P).Reaches (fun e => e.working = true) c d)
    (hd : Recoverable P d v) : Recoverable P c v := by
  obtain ⟨xs, hx, hxw⟩ := h
  obtain ⟨ys, c', hy, hyw, e, he, hr⟩ := hd
  refine ⟨xs ++ ys, c', (run_append _).2 ⟨d, hx, hy⟩, fun e he => ?_, e, by simp [he], hr⟩
  rcases List.mem_append.1 he with he | he
  · exact hxw e he
  · exact hyw e he

theorem recoverable_of_returns {e : Ev W K} (he : (daemon P).exec c e = some c') (hw : e.working = true)
    (hr : e.returns = some (w, v)) : Recoverable P c v :=
  ⟨[e], c', (run_cons _).2 ⟨c', he, rfl⟩, by simpa using hw, e, by simp, w, hr⟩

theorem recoverable_of_setex (h : c.loc w = ⟨.setex v, true⟩) : Recoverable P c v :=
  recoverable_of_returns (w := w) (exec_step h rfl rfl (.setex w v)) rfl rfl

/-- A worker that pops `v` returns it. -/
theorem recoverable_of_pop (hl : c.loc w = ⟨.pop, true⟩) {main : List Bytes} (hm : c.srv.main = main ++ [v]) :
    Recoverable P c v := by
  have he := exec_pop (P := P) hl hm
  by_cases hv : v = []
  · subst hv
    exact recoverable_of_returns he rfl rfl
  · refine recoverable_of_reaches (reaches_step _ (by rfl) he) (recoverable_of_setex (w := w) ?_)
    simp [hv]

/-- Ready to pop: nothing between the worker and its next `BRPOPLPUSH` but its own steps. -/
def Worker.Steady (l : Worker) : Prop := l.Capable ∧ ∀ g, l.pc ≠ .probe g .processing

/-- A worker that has popped an item it can decode will be back for more. -/
theorem steady_of_popped {u : Bytes} (hdec : decode u ≠ none) :
    (⟨if u = [] then .item u else .setex u, true⟩ : Worker).Steady := by
  by_cases h0 : u = []
  · subst h0
    exact ⟨⟨rfl, by simp, by simpa using hdec⟩, by simp⟩
  · exact ⟨⟨rfl, by simp [h0], by simpa [h0] using hdec⟩, by simp [h0]⟩

/-- The workers `ws`, one for each undecodable payload ahead of `v` and one more, get to it. -/
theorem recoverable_of_steady : ∀ (main : List Bytes) (c : Config W (Server K) Worker) (ws : List W),
    c.srv.main = main → v ∈ main → ws.Nodup → (∀ w ∈ ws, (c.loc w).Steady) →
    (ahead v main).countP undecodable < ws.length → Recoverable P c v := by
  intro main
  induction main using List.reverseRecOn with
  | nil => intro c ws _ hv; cases hv
  | append_singleton main u ih =>
    intro c ws hm hv hnd hsteady hlen
    cases ws with
    | nil => cases hlen
    | cons w ws =>
      obtain ⟨hnw, hnd'⟩ := List.nodup_cons.1 hnd
      have hw := hsteady w (by simp)
      obtain ⟨d, hreach, hdm, -, hdw⟩ := drive_to_pop (P := P) (w := w) (by simp [hm]) hw.1 hw.2
      have hstay : ∀ x, x ≠ w → d.loc x = c.loc x := fun x hx =>
        reaches_frame _ (fun e he heq => hx (Option.some.inj (heq.symm.trans he.1))) hreach
      refine recoverable_of_reaches (reaches_mono _ (fun e he => he.2) hreach) ?_
      rw [hm] at hdm
      by_cases huv : u = v
      · subst huv
        exact recoverable_of_pop hdw hdm
      · have hvm : v ∈ main := by simpa [Ne.symm huv] using hv
        refine recoverable_of_reaches (reaches_step _ (by rfl) (exec_pop hdw hdm)) ?_
        rw [ahead_snoc_ne huv] at hlen
        have hothers : ∀ x ∈ ws, (Function.update d.loc w
            (⟨if u = [] then .item u else .setex u, true⟩ : Worker) x).Steady := by
          intro x hx
          have hxw : x ≠ w := fun h => hnw (h ▸ hx)
          rw [Function.update_of_ne hxw, hstay x hxw]
          exact hsteady x (by simp [hx])
        by_cases hu : undecodable u = true
        · rw [List.countP_cons_of_pos hu, List.length_cons] at hlen
          exact ih _ ws rfl hvm hnd' hothers (by omega)
        · rw [List.countP_cons_of_neg hu] at hlen
          refine ih _ (w :: ws) rfl hvm hnd (fun x hx => ?_) hlen
          rcases List.mem_cons.1 hx with rfl | hx
          · simp only [Function.update_self]
            exact steady_of_popped (by simpa [undecodable] using hu)
          · exact hothers x hx

/-- With something in the processing list no worker that is reading its length exits. -/
theorem steady_of_capable (ws : List W) (hp : c.srv.processing ≠ []) (hcap : ∀ w ∈ ws, (c.loc w).Capable) :
    ∃ d, (daemon P).Reaches (fun e => e.working = true) c d ∧ d.srv = c.srv ∧
      ∀ w ∈ ws, (d.loc w).Steady := by
  have hread : ∀ d : Config W (Server K) Worker, ∀ w ∈ ws,
      (d.srv = c.srv ∧ ∀ w ∈ ws, (d.loc w).Capable) →
      ∃ d', (daemon P).Reaches (Solo w) d d' ∧ (d'.srv = c.srv ∧ ∀ w ∈ ws, (d'.loc w).Capable) ∧
        ∀ g, (d'.loc w).pc ≠ .probe g .processing := by
    rintro d w hw ⟨hsrv, hcap⟩
    by_cases hpc : ∃ g, (d.loc w).pc = .probe g .processing
    · obtain ⟨g, hpc⟩ := hpc
      have hl : d.loc w = ⟨.probe g .processing, true⟩ := Worker.ext hpc (hcap w hw).1
      have hn : d.srv.processing.length ≠ 0 := fun h => hp (hsrv ▸ List.length_eq_zero_iff.1 h)
      have he := exec_step (P := P) hl rfl (serve_llen.2 ⟨rfl, rfl⟩)
        (.probeProcessing g w d.srv.processing.length)
      rw [decide_eq_false hn] at he
      refine ⟨_, reaches_step _ ⟨rfl, rfl⟩ he, ⟨hsrv, fun x hx => ?_⟩, ?_⟩
      · by_cases hxw : x = w
        · subst hxw
          simp only [Function.update_self]
          cases g <;> exact ⟨rfl, by simp [afterEmpty], by simp [afterEmpty]⟩
        · simp only [Function.update_of_ne hxw]
          exact hcap x hx
      · simp only [Function.update_self]
        cases g <;> simp [afterEmpty]
    · rw [not_exists] at hpc
      exact ⟨d, reaches_refl _ _ d, ⟨hsrv, hcap⟩, hpc⟩
  obtain ⟨d, hr, ⟨hsrv, hcap'⟩, hQ⟩ := reaches_sweep (daemon P)
    (I := fun d => d.srv = c.srv ∧ ∀ w ∈ ws, (d.loc w).Capable)
    (Q := fun l => ∀ g, l.pc ≠ .probe g .processing) (p := fun e => e.working = true)
    ws hread c ⟨rfl, hcap⟩
  exact ⟨d, hr, hsrv, fun w hw => ⟨hcap' w hw, hQ w hw⟩⟩

end Reach

/-! ## When `lease` can return the item again -/

/-- A payload pushed once is lost with the worker that popped it. -/
theorem not_recoverable_of_once {tr : List (Ev W K)} {c : Config W (Server K) Worker} {v : Bytes}
    (hs : Stranded P tr c v) (h1 : (published tr).count v ≤ 1) : ¬ Recoverable P c v := by
  have hc := client_run_of_daemon hs.run
  obtain ⟨w, hw, hdead⟩ := hs.popper
  refine not_recoverable (P := P) ?_
  rintro (⟨x, hx⟩ | ⟨hm, -⟩)
  · have hhand : v ∈ ((c.map Worker.toClient).loc x).inHand :=
      mem_toClient_inHand.2 (by rw [hx]; rfl)
    obtain rfl := handed_unique hc h1 hw (handed_of_inHand hc hhand)
    rw [hx] at hdead
    cases hdead
  · have hmain := published_eq (v := v) hc
    have hpos := List.count_pos_iff.2 hm
    have hmem : v ∈ (handed tr).map Prod.snd := mem_items.2 ⟨w, hw⟩
    have hpos' := List.count_pos_iff.2 hmem
    simp only [Config.map] at hmain
    omega

/-- Worker 0 crashes before its `SETEX`; worker 1 is in its loop. -/
def strandedRun : List (Ev Nat Bytes) :=
  [.rpush [97], .llen 0 .main 1, .llen 1 .main 1, .llen 0 .main 1, .llen 1 .main 1, .pop 0 (some [97]), .crash 0]

theorem crash_not_recoverable : ¬ CrashRecoverable plainParams := by
  intro h
  obtain ⟨c, hc, hp, hl, h0, h1⟩ : ∃ c, (daemon plainParams).run start strandedRun = some c ∧
      c.srv.processing = [[97]] ∧ c.srv.leases [97] = none ∧ (c.loc 0).alive = false ∧
      c.loc 1 = ⟨.pop, true⟩ := ⟨_, rfl, rfl, rfl, rfl, rfl⟩
  have hs : Stranded plainParams strandedRun c [97] :=
    ⟨hc, by simp [hp], hl, ⟨0, by decide, h0⟩, 1, by rw [h1]; exact ⟨rfl, by simp, by simp⟩⟩
  exact not_recoverable_of_once hs (by decide) (h _ _ _ hs)

/-- **When a crashed worker's item is recoverable**: exactly when another copy of it is
already on its way to a live worker. -/
theorem recoverable_iff (P : Params W K) {tr : List (Ev W K)} {c : Config W (Server K) Worker} {v : Bytes}
    (hs : Stranded P tr c v) : Recoverable P c v ↔ StillComing c v := by
  constructor
  · intro h
    by_contra hn
    exact not_recoverable hn h
  · rintro (⟨w, hw⟩ | ⟨hv, ws, hnd, hcap, hlen⟩)
    · exact recoverable_of_setex hw
    · obtain ⟨d, hr, hsrv, hsteady⟩ :=
        steady_of_capable (P := P) ws (List.ne_nil_of_mem hs.item) hcap
      refine recoverable_of_reaches hr (recoverable_of_steady _ d ws rfl ?_ hnd hsteady ?_)
      · rw [hsrv]; exact hv
      · rw [hsrv]; exact hlen

/-- `a` pushed twice: worker 1 can still pop the second copy. -/
def repushedRun : List (Ev Nat Bytes) :=
  [.rpush [97], .rpush [97], .llen 0 .main 2, .llen 1 .main 2, .llen 0 .main 2, .llen 1 .main 2,
   .pop 0 (some [97]), .crash 0]

theorem recoverable_iff_repushedRun :
    ∃ c, Stranded plainParams repushedRun c [97] ∧ Recoverable plainParams c [97] := by
  obtain ⟨c, hc, hm, hp, hl, h0, h1⟩ : ∃ c, (daemon plainParams).run start repushedRun = some c ∧
      c.srv.main = [[97]] ∧ c.srv.processing = [[97]] ∧ c.srv.leases [97] = none ∧
      (c.loc 0).alive = false ∧ c.loc 1 = ⟨.pop, true⟩ := ⟨_, rfl, rfl, rfl, rfl, rfl, rfl⟩
  have hs : Stranded plainParams repushedRun c [97] :=
    ⟨hc, by simp [hp], hl, ⟨0, by decide, h0⟩, 1, by rw [h1]; exact ⟨rfl, by simp, by simp⟩⟩
  refine ⟨c, hs, (recoverable_iff plainParams hs).2 (.inr ⟨by simp [hm], [1], by simp, ?_, ?_⟩)⟩
  · simp [h1, Worker.Capable]
  · rw [hm]; decide

end RedisQueue
