import RedisQueue.Empty
import RedisQueue.Progress

/-!
# Parallel drain

Without publishers and crashes, on decodable payloads, the workers empty the queue between
them (`parallel_drain`). `Draining` is the invariant: an element of the processing list is
still carried by some worker, and no worker has seen an empty main list too early. With
equal payloads one worker's `LREM` may take another worker's element as well, which keeps
the invariant.
-/
namespace RedisQueue
open Interleave

variable {W K : Type}

/-- Nobody publishes, nobody crashes. -/
def Ev.peaceful : Ev W K → Bool
  | .rpush _ | .crash _ => false
  | _ => true

theorem pushes_of_peaceful {e : Ev W K} (h : e.peaceful = true) : e.pushes = none := by
  cases e <;> first | rfl | cases h

theorem peaceful_of_working {e : Ev W K} (h : e.working = true) : e.peaceful = true := by
  cases e <;> first | rfl | cases h

structure Draining (c : Config W (Server K) Worker) : Prop where
  alive : ∀ w, (c.loc w).alive = true
  /-- What is in the main list or in a worker's hands can be decoded. -/
  decodable : ∀ v, v ∈ c.srv.main ∨ (∃ w, (c.loc w).pc.carries = some v) → decode v ≠ none
  /-- A worker that has read 0 has read it after the last pop. -/
  seen : ∀ w, (∃ g, (c.loc w).pc = .probe g .processing) ∨ (c.loc w).pc = .exited → c.srv.main = []
  carried : ∀ v ∈ c.srv.processing, ∃ w, (c.loc w).pc.carries = some v

theorem draining_launch {M : List Bytes} (hM : ∀ v ∈ M, decode v ≠ none) (L : K → Option Bytes) :
    Draining (launch (W := W) ⟨M, [], L⟩) where
  alive _ := rfl
  decodable v h := by
    rcases h with h | ⟨w, h⟩
    · exact hM v h
    · cases h
  seen w h := by
    rcases h with ⟨g, h⟩ | h <;> cases h
  carried v h := by cases h

theorem Draining.capable {c : Config W (Server K) Worker} (hi : Draining c) {w : W} (hx : (c.loc w).pc ≠ .exited) : (c.loc w).Capable := by
  refine ⟨hi.alive w, hx, fun u hu => hi.decodable u (.inr ⟨w, ?_⟩)⟩
  rcases hu with h | h <;> rw [h] <;> rfl

/-- When no worker carries an item the processing list is empty. -/
theorem Draining.processing_nil {c : Config W (Server K) Worker} (hi : Draining c)
    (hc : ∀ w, (c.loc w).pc.carries = none) :
    c.srv.processing = [] := by
  refine List.eq_nil_iff_forall_not_mem.2 fun v hv => ?_
  obtain ⟨w, hw⟩ := hi.carried v hv
  rw [hc w] at hw
  cases hw

section Moves
variable {l l' : Worker} {e : Ev W K} {v : Bytes}

/-- A worker has an item in its hands from its pop to its `LREM`. -/
theorem carries_of_move (h : l.move e = some l') :
    (∃ w v, e = .pop w (some v) ∧ l'.pc.carries = some v) ∨
    (∃ w v n, e = .lrem w v n ∧ l.pc.carries = some v ∧ l'.pc.carries = none) ∨
    (e.hands = none ∧ e.removes = none ∧ l'.pc.carries = l.pc.carries) := by
  cases move_iff.1 h with
  | pop w v => exact .inl ⟨w, v, rfl, by by_cases hv : v = [] <;> simp [hv, PC.carries]⟩
  | lrem w v n => exact .inr (.inl ⟨w, v, n, rfl, rfl, rfl⟩)
  | probeMain g w n =>
    refine .inr (.inr ⟨rfl, rfl, ?_⟩)
    by_cases hn : n = 0
    · simp [hn, PC.carries]
    · cases g <;> simp [hn, PC.carries, afterEmpty]
  | probeProcessing g w n =>
    refine .inr (.inr ⟨rfl, rfl, ?_⟩)
    cases g
    · rfl
    · by_cases hn : n = 0 <;> simp [hn, PC.carries, afterEmpty]
  | _ => exact .inr (.inr ⟨rfl, rfl, rfl⟩)

/-- The way to a second read, and out of the loop, is through a read of 0. -/
theorem read_of_move (h : l.move e = some l')
    (hpc : (∃ g, l'.pc = .probe g .processing) ∨ l'.pc = .exited) :
    (∃ w, e = .llen w .main 0) ∨ ∃ g, l.pc = .probe g .processing := by
  cases move_iff.1 h with
  | probeMain g w n =>
    by_cases hn : n = 0
    · subst hn; exact .inl ⟨w, rfl⟩
    · rw [if_neg hn] at hpc
      cases g <;> rcases hpc with ⟨_, h⟩ | h <;> cases h
  | probeProcessing g w n => exact .inr ⟨g, rfl⟩
  | crash w pc hx => exact .inr (hpc.resolve_right hx)
  | pop w v =>
    by_cases hv : v = [] <;> rcases hpc with ⟨_, h⟩ | h <;> simp [hv] at h
  | _ => rcases hpc with ⟨_, h⟩ | h <;> cases h

end Moves

section Invariant
variable [DecidableEq W] [DecidableEq K] {P : Params W K} {c c' : Config W (Server K) Worker} {e : Ev W K}

theorem carries_of_exec (he : (daemon P).exec c e = some c') (x : W) :
    (∃ v, e = .pop x (some v) ∧ c.loc x = ⟨.pop, true⟩ ∧ (c'.loc x).pc.carries = some v) ∨
    (∃ v n, e = .lrem x v n ∧ (c.loc x).pc.carries = some v ∧ (c'.loc x).pc.carries = none) ∨
    (c'.loc x).pc.carries = (c.loc x).pc.carries := by
  by_cases hx : e.who = some x
  · rcases carries_of_move (exec_move (daemon P) hx he) with
      ⟨w, v, rfl, h⟩ | ⟨w, v, n, rfl, h, h'⟩ | ⟨_, _, h⟩
    · cases hx; exact .inl ⟨v, rfl, (step_pop_some.1 (step_of_exec rfl he)).1, h⟩
    · cases hx; exact .inr (.inl ⟨v, n, rfl, h, h'⟩)
    · exact .inr (.inr h)
  · rw [exec_frame (daemon P) hx he]
    exact .inr (.inr rfl)

theorem alive_step (he : (daemon P).exec c e = some c') (hq : e.peaceful = true) (hi : Draining c) (w : W) :
    (c'.loc w).alive = true := by
  by_cases hw : e.who = some w
  · have hdec := hi.decodable
    have hstep := step_of_exec hw he
    generalize c'.loc w = l' at hstep ⊢
    generalize hl : c.loc w = l at hstep
    cases hstep with
    | crash => cases hq
    | raise _ v hd => exact absurd hd (hdec v (.inr ⟨w, by rw [hl]; rfl⟩))
    | _ => rfl
  · rw [exec_frame (daemon P) hw he]
    exact hi.alive w

/-- What is in the main list or in a worker's hands was so before. -/
theorem fresh_step (he : (daemon P).exec c e = some c') (hq : e.peaceful = true) {v : Bytes}
    (hv : v ∈ c'.srv.main ∨ ∃ w, (c'.loc w).pc.carries = some v) :
    v ∈ c.srv.main ∨ ∃ w, (c.loc w).pc.carries = some v := by
  rcases hv with hv | ⟨w, hv⟩
  · rcases serve_lists (exec_serve (daemon P) he) with
      ⟨_, _, _, hm, _⟩ | ⟨x, rfl, _, _⟩ | ⟨x, u, rfl, hm, _⟩ | ⟨x, u, n, rfl, _, hm, _⟩
    · exact .inl (hm ▸ hv)
    · cases hq
    · exact .inl (by rw [hm]; exact List.mem_append_left _ hv)
    · exact .inl (hm ▸ hv)
  · rcases carries_of_exec he w with ⟨u, rfl, _, hu⟩ | ⟨u, n, rfl, _, hu⟩ | hu
    · obtain rfl : u = v := Option.some.inj (hu.symm.trans hv)
      have hs : serve P c.srv (.pop w (some u)) = some c'.srv := exec_serve (daemon P) he
      obtain ⟨l, hm, -⟩ := serve_pop_some.1 hs
      exact .inl (by simp [hm])
    · rw [hu] at hv; cases hv
    · exact .inr ⟨w, hu ▸ hv⟩

theorem seen_step (he : (daemon P).exec c e = some c') (hq : e.peaceful = true) (hi : Draining c) {w : W}
    (hw : (∃ g, (c'.loc w).pc = .probe g .processing) ∨ (c'.loc w).pc = .exited) : c'.srv.main = [] := by
  have hp := pushes_of_peaceful hq
  by_cases hwho : e.who = some w
  · rcases read_of_move (exec_move (daemon P) hwho he) hw with ⟨x, rfl⟩ | hpc
    · obtain ⟨hsrv, hm⟩ := read_zero he
      rw [hsrv]; exact hm
    · exact main_nil_step he hp (hi.seen w (.inl hpc))
  · rw [exec_frame (daemon P) hwho he] at hw
    exact main_nil_step he hp (hi.seen w hw)

/-- An element that no `LREM` takes out keeps its worker. -/
theorem carried_of_kept (he : (daemon P).exec c e = some c') (hi : Draining c) {v : Bytes}
    (hv : v ∈ c.srv.processing) (hne : ∀ x n, e ≠ .lrem x v n) : ∃ w, (c'.loc w).pc.carries = some v := by
  obtain ⟨w, hw⟩ := hi.carried v hv
  refine ⟨w, ?_⟩
  rcases carries_of_exec he w with ⟨u, rfl, hl, _⟩ | ⟨u, n, rfl, hu, _⟩ | hu
  · rw [hl] at hw; cases hw
  · obtain rfl : u = v := Option.some.inj (hu.symm.trans hw)
    exact absurd rfl (hne w n)
  · exact hu.trans hw

/-- An `LREM` leaves no copy of its payload, so what is left is still carried. -/
theorem carried_step (he : (daemon P).exec c e = some c') (hq : e.peaceful = true) (hi : Draining c)
    {v : Bytes} (hv : v ∈ c'.srv.processing) : ∃ w, (c'.loc w).pc.carries = some v := by
  rcases serve_lists (exec_serve (daemon P) he) with
    ⟨_, _, hr, _, hp⟩ | ⟨x, rfl, _, _⟩ | ⟨x, u, rfl, _, hp⟩ | ⟨x, u, n, rfl, _, _, hp⟩
  · exact carried_of_kept he hi (hp ▸ hv) (fun x n h => by rw [h] at hr; cases hr)
  · cases hq
  · rw [hp] at hv
    rcases List.mem_cons.1 hv with rfl | hv
    · refine ⟨x, ?_⟩
      rw [(step_pop_some.1 (step_of_exec rfl he)).2]
      by_cases h0 : v = [] <;> simp [h0, PC.carries]
    · exact carried_of_kept he hi hv (fun _ _ h => by cases h)
  · rw [hp] at hv
    obtain ⟨hv, hne⟩ := List.mem_filter.1 hv
    refine carried_of_kept he hi hv fun y m h => ?_
    cases h
    simp at hne

/-- **`Draining` is kept by every peaceful step.** -/
theorem draining_step (he : (daemon P).exec c e = some c') (hq : e.peaceful = true) (hi : Draining c) :
    Draining c' where
  alive := alive_step he hq hi
  decodable v hv := hi.decodable v (fresh_step he hq hv)
  seen _ hw := seen_step he hq hi hw
  carried _ hv := carried_step he hq hi hv

theorem draining_run {tr : List (Ev W K)} (h : (daemon P).run c tr = some c')
    (hq : ∀ e ∈ tr, e.peaceful = true) (hi : Draining c) : Draining c' :=
  run_rel (daemon P) (R := fun c c' => Draining c → Draining c') (p := fun e => e.peaceful = true)
    (fun _ h => h) (fun _ _ _ h1 h2 h => h2 (h1 h)) (fun _ _ _ hp he hi => draining_step he hp hi) hq h hi

theorem draining_reaches {p : Ev W K → Prop} (hp : ∀ e, p e → e.working = true)
    (h : (daemon P).Reaches p c c') (hi : Draining c) : Draining c' := by
  obtain ⟨tr, hr, hq⟩ := h
  exact draining_run hr (fun e he => peaceful_of_working (hp e (hq e he))) hi

/-! ## From every reachable state to the end -/

/-- Some worker pops the main list empty. -/
theorem drain_main (w : W) : ∀ (main : List Bytes) (c : Config W (Server K) Worker), c.srv.main = main →
    Draining c → ∃ c', (daemon P).Reaches (fun e => e.working = true) c c' ∧ c'.srv.main = [] := by
  intro main
  induction main using List.reverseRecOn with
  | nil => intro c hm _; exact ⟨c, reaches_refl _ _ c, hm⟩
  | append_singleton main v ih =>
    intro c hm hi
    have hne : c.srv.main ≠ [] := by simp [hm]
    have hx : (c.loc w).pc ≠ .exited := fun h => hne (hi.seen w (.inr h))
    have hread : ∀ g, (c.loc w).pc ≠ .probe g .processing := fun g h => hne (hi.seen w (.inl ⟨g, h⟩))
    obtain ⟨d, hd, hdm, -, hdw⟩ := drive_to_pop (P := P) hne (hi.capable hx) hread
    have hpop := reaches_step (daemon P) (p := Solo w) ⟨rfl, rfl⟩ (exec_pop hdw (hdm.trans hm))
    have hd' := reaches_mono _ (fun e he => he.2) (reaches_trans _ hd hpop)
    obtain ⟨c', hc', hm'⟩ := ih _ rfl (draining_reaches (fun _ he => he) hd' hi)
    exact ⟨c', reaches_trans _ hd' hc', hm'⟩

/-- Every worker finishes the item it has. -/
theorem drain_hands (ws : List W) (hi : Draining c) (hm : c.srv.main = []) :
    ∃ c', (daemon P).Reaches (fun e => e.working = true) c c' ∧ c'.srv.main = [] ∧
      ∀ w ∈ ws, (c'.loc w).pc.busy = false := by
  have hdrive : ∀ c : Config W (Server K) Worker, ∀ w ∈ ws, (Draining c ∧ c.srv.main = []) →
      ∃ c', (daemon P).Reaches (Solo w) c c' ∧ (Draining c' ∧ c'.srv.main = []) ∧
        (c'.loc w).pc.busy = false := by
    rintro c w _ ⟨hi, hm⟩
    by_cases hb : (c.loc w).pc.busy = true
    · have hx : (c.loc w).pc ≠ .exited := fun h => by rw [h] at hb; cases hb
      obtain ⟨c', hr, hm', -, hl⟩ := finish_item (P := P) (hi.capable hx) hb
      exact ⟨c', hr, ⟨draining_reaches (fun _ he => he.2) hr hi, hm'.trans hm⟩, by rw [hl]; rfl⟩
    · exact ⟨c, reaches_refl _ _ c, ⟨hi, hm⟩, by simpa using hb⟩
  obtain ⟨c', hr, ⟨_, hm'⟩, hb⟩ := reaches_sweep (daemon P)
    (I := fun c => Draining c ∧ c.srv.main = []) (Q := fun l => l.pc.busy = false)
    (p := fun e => e.working = true) ws hdrive c ⟨hi, hm⟩
  exact ⟨c', hr, hm', hb⟩

/-- Every worker leaves its loop. -/
theorem drain_exit (ws : List W) (ha : ∀ w, (c.loc w).alive = true) (hm : c.srv.main = [])
    (hp : c.srv.processing = []) (hb : ∀ w, (c.loc w).pc.busy = false) :
    ∃ c', (daemon P).Reaches (fun e => e.working = true) c c' ∧ ∀ w ∈ ws, c'.loc w = ⟨.exited, true⟩ := by
  let I : Config W (Server K) Worker → Prop := fun c => c.srv.main = [] ∧ c.srv.processing = [] ∧
    ∀ w, (c.loc w).alive = true ∧ (c.loc w).pc.busy = false
  have hdrive : ∀ c, ∀ w ∈ ws, I c → ∃ c', (daemon P).Reaches (Solo w) c c' ∧ I c' ∧
      c'.loc w = ⟨.exited, true⟩ := by
    rintro c w _ ⟨hm, hp, hw⟩
    obtain ⟨c', hr, hm', hp', hl⟩ := drive_to_exit (P := P) hm hp (hw w).1 (hw w).2
    refine ⟨c', hr, ⟨hm'.trans hm, List.sublist_nil.1 (hp ▸ hp'), fun x => ?_⟩, hl⟩
    by_cases hxw : x = w
    · subst hxw; rw [hl]; exact ⟨rfl, rfl⟩
    · rw [reaches_frame _ (fun e he heq => hxw (Option.some.inj (heq.symm.trans he.1))) hr]
      exact hw x
  obtain ⟨c', hr, -, hQ⟩ := reaches_sweep (daemon P) (I := I) (Q := fun l => l = ⟨.exited, true⟩)
    (p := fun e => e.working = true) ws hdrive c ⟨hm, hp, fun w => ⟨ha w, hb w⟩⟩
  exact ⟨c', hr, hQ⟩

theorem carries_of_not_busy {pc : PC} (h : pc.busy = false) : pc.carries = none := by
  cases pc <;> first | rfl | cases h

/-- **No dead end**: from every state of the drain all the workers can leave their loops. -/
theorem drain_reaches_exit (w : W) (ws : List W) (hws : ∀ w, w ∈ ws) (hi : Draining c) :
    ∃ c', (daemon P).Reaches (fun e => e.working = true) c c' ∧ ∀ w, c'.loc w = ⟨.exited, true⟩ := by
  obtain ⟨c₁, hr₁, hm₁⟩ := drain_main (P := P) w _ c rfl hi
  have hi₁ := draining_reaches (fun _ he => he) hr₁ hi
  obtain ⟨c₂, hr₂, hm₂, hb₂⟩ := drain_hands (P := P) ws hi₁ hm₁
  have hi₂ := draining_reaches (fun _ he => he) hr₂ hi₁
  have hp₂ := hi₂.processing_nil fun w => carries_of_not_busy (hb₂ w (hws w))
  obtain ⟨c₃, hr₃, hx⟩ := drain_exit (P := P) ws hi₂.alive hm₂ hp₂ fun w => hb₂ w (hws w)
  exact ⟨c₃, reaches_trans _ (reaches_trans _ hr₁ hr₂) hr₃, fun w => hx w (hws w)⟩

end Invariant

/-! ## The end -/

section End
variable [DecidableEq W] [DecidableEq K] {P : Params W K} {tr : List (Ev W K)}
  {c c' : Config W (Server K) Worker} {s : Server K}

/-- A worker that was handed `v` has worked on it, or is about to. -/
theorem work_ledger (w : W) (v : Bytes) (h : (daemon P).run c tr = some c') :
    (if (c.loc w).pc = .setex v ∨ (c.loc w).pc = .item v then 1 else 0) + (handed tr).count (w, v) =
      (if (c'.loc w).pc = .setex v ∨ (c'.loc w).pc = .item v then 1 else 0) + (worked tr).count (w, v) := by
  refine observed_ledger (daemon P) w v (fun l => if l.pc = .setex v ∨ l.pc = .item v then 1 else 0)
    hands_who works_who (fun l e l' hw hm => ?_) h
  cases move_iff.1 hm with
  | pop x u =>
    cases hw
    by_cases hu : u = []
    · subst hu; simp [Ev.hands, Ev.works, List.count_cons]
    · by_cases huv : u = v <;> simp [Ev.hands, Ev.works, hu, huv]
  | work x u hd =>
    cases hw
    by_cases huv : u = v <;> simp [Ev.hands, Ev.works, huv]
  | setex x u => simp [Ev.hands, Ev.works]
  | probeMain g x n => by_cases hn : n = 0 <;> cases g <;> simp [hn, Ev.hands, Ev.works, afterEmpty]
  | probeProcessing g x n => by_cases hn : n = 0 <;> cases g <;> simp [hn, Ev.hands, Ev.works, afterEmpty]
  | _ => simp [Ev.hands, Ev.works]

/-- The items a worker holds a lease for: from its `SETEX` to its `DEL`. -/
def PC.leases : PC → Option Bytes
  | .item v | .lrem v | .del v => some v
  | _ => none

theorem leases_of_exec {e : Ev W K} {x : W} {u : Bytes} (he : (daemon P).exec c e = some c')
    (h : (c.loc x).pc.leases = some u) : (c'.loc x).pc.leases = some u ∨ e = .del x u := by
  by_cases hx : e.who = some x
  · have hstep := step_of_exec hx he
    generalize c'.loc x = l' at hstep ⊢
    generalize c.loc x = l at hstep h
    cases hstep with
    | del y v => cases h; cases hx; exact .inr rfl
    | _ => first | exact .inl h | cases h
  · rw [exec_frame (daemon P) hx he]
    exact .inl h

/-- A key set in the run is gone, or some worker is yet to delete it. -/
theorem leased_gone_or_pending : ∀ tr c, (daemon P).run (launch s) tr = some c →
    ∀ w v, (w, v) ∈ leased tr → c.srv.leases (P.itemKey v) = none ∨
      ∃ x u, P.itemKey u = P.itemKey v ∧ (c.loc x).pc.leases = some u := by
  refine run_induct (daemon P) (by simp [leased]) ?_
  intro tr c e c' _ ih he w v hl
  have hset : ∀ x u, e = .setex x u → (c'.loc x).pc.leases = some u := by
    rintro x u rfl
    rw [(step_setex.1 (step_of_exec rfl he)).2]
    rfl
  rw [leased_snoc, List.mem_append] at hl
  rcases hl with hl | hl
  · rcases ih w v hl with hnone | ⟨x, u, hkey, hpc⟩
    · rcases serve_leases (exec_serve (daemon P) he) with
        hs | ⟨x, u, rfl, hs⟩ | ⟨x, u, rfl, hs⟩ | ⟨k, rfl, hs⟩
      · exact .inl (hs ▸ hnone)
      · by_cases hkey : P.itemKey u = P.itemKey v
        · exact .inr ⟨x, u, hkey, hset x u rfl⟩
        · exact .inl (by rw [hs, Function.update_of_ne (Ne.symm hkey)]; exact hnone)
      · exact .inl (by rw [hs]; exact update_none _ hnone)
      · exact .inl (by rw [hs]; exact update_none _ hnone)
    · rcases leases_of_exec he hpc with hpc | rfl
      · exact .inr ⟨x, u, hkey, hpc⟩
      · have hs : serve P c.srv (.del x u) = some c'.srv := exec_serve (daemon P) he
        rw [← Option.some.inj hs]
        exact .inl (by simp [Server.delete, hkey])
  · cases e with
    | setex x u =>
      obtain ⟨rfl, rfl⟩ : x = w ∧ u = v := by simpa [Ev.sets, eq_comm] using hl
      exact .inr ⟨x, u, rfl, hset x u rfl⟩
    | _ => simp [Ev.sets] at hl

end End

/-- **Parallel drain**: `n + 1` workers, any decodable payloads, any interleaving. -/
theorem parallel_drain {n : Nat} (P : Params (Fin (n + 1)) K) [DecidableEq K] {M : List Bytes}
    {L : K → Option Bytes} (hM : ∀ v ∈ M, decode v ≠ none) {tr : List (Ev (Fin (n + 1)) K)}
    {c : Config (Fin (n + 1)) (Server K) Worker} (h : (daemon P).run (launch ⟨M, [], L⟩) tr = some c)
    (hq : ∀ e ∈ tr, e.peaceful = true) :
    (∃ c', (daemon P).Reaches (fun e => e.working = true) c c' ∧ ∀ w, c'.loc w = ⟨.exited, true⟩) ∧
    ((∀ w, (c.loc w).pc = .exited) →
      c.srv.main = [] ∧ c.srv.processing = [] ∧
      (∀ w v, (w, v) ∈ leased tr → c.srv.leases (P.itemKey v) = none) ∧
      ((worked tr).map Prod.snd).Perm M) := by
  have hi := draining_run h hq (draining_launch hM L)
  refine ⟨drain_reaches_exit 0 (List.finRange _) List.mem_finRange hi, fun hx => ⟨?_, ?_, ?_, ?_⟩⟩
  · exact hi.seen 0 (.inr (hx 0))
  · exact hi.processing_nil fun w => by rw [hx w]; rfl
  · intro w v hl
    refine (leased_gone_or_pending tr c h w v hl).resolve_right ?_
    rintro ⟨x, u, _, hpc⟩
    rw [hx x] at hpc
    cases hpc
  · -- everything was popped, and everything popped was worked on
    have hwork : (worked tr).Perm (handed tr) := by
      refine List.perm_iff_count.2 fun ⟨w, v⟩ => ?_
      have hbal := work_ledger w v h
      simp [launch, hx w] at hbal
      omega
    refine (hwork.map Prod.snd).trans (List.perm_iff_count.2 fun v => ?_)
    have hbal := main_ledger v (client_run_of_daemon h)
    have hpub : published tr = [] := published_eq_nil.2 fun e he => pushes_of_peaceful (hq e he)
    simp only [Config.map, ready, hi.seen 0 (.inr (hx 0)), hpub, List.count_nil] at hbal
    omega

/-- Two workers, the payload `a` twice: worker 0 removes both entries, worker 1 finds its own gone. -/
def drainRun : List (Ev (Fin 2) Bytes) :=
  [.llen 0 .main 2, .llen 1 .main 2, .llen 0 .main 2, .llen 1 .main 2, .pop 0 (some [97]), .pop 1 (some [97]),
   .setex 0 [97], .setex 1 [97], .work 0 [97], .lrem 0 [97] 2, .work 1 [97], .lrem 1 [97] 0, .del 1 [97],
   .llen 1 .main 0, .llen 1 .processing 0, .del 0 [97], .llen 0 .main 0, .llen 0 .processing 0]

theorem parallel_drain_drainRun :
    ∃ c, (daemon ⟨id, fun w => [w.val.toUInt8]⟩).run (launch ⟨[[97], [97]], [], fun _ => none⟩) drainRun = some c ∧
      c.srv.processing = [] ∧ ((worked drainRun).map Prod.snd).Perm [[97], [97]] := by
  obtain ⟨c, hc, hx⟩ : ∃ c, (daemon ⟨id, fun w => [w.val.toUInt8]⟩).run
      (launch ⟨[[97], [97]], [], fun _ => none⟩) drainRun = some c ∧ ∀ w, (c.loc w).pc = .exited :=
    ⟨_, rfl, by decide⟩
  obtain ⟨-, hp, -, hwork⟩ := (parallel_drain (n := 1) _ (by decide) hc (by decide)).2 hx
  exact ⟨c, hc, hp, hwork⟩

end RedisQueue
