import RedisQueue.JobEnd

/-!
# Workers under pushes, none of them failing

`Drain.lean` has the workers alone with what is in the queue. When items come in at any time, a
worker may leave too early, on reading two empty lists, and the others are left with the
items pushed after that. What stays true is `Flowing`: everything in the processing list is in the hands
of a live worker. One worker that is still in its loop, and not between the two reads of `empty()`,
is enough to get everything done (`flow_finishes`).
-/
namespace RedisQueue
open Interleave

variable {W K : Type}

def Ev.isCrash : Ev W K → Bool
  | .crash _ => true
  | _ => false

structure Flowing (c : Config W (Server K) Worker) : Prop where
  alive : ∀ w, (c.loc w).alive = true
  main : ∀ v ∈ c.srv.main, decode v ≠ none
  hands : ∀ w v, (c.loc w).pc.carries = some v → decode v ≠ none
  carried : ∀ v ∈ c.srv.processing, ∃ w, (c.loc w).pc.carries = some v

/-- In its loop, or before it, and not between the two reads of `empty()`. -/
structure Worker.Looping (l : Worker) : Prop where
  stays : l.pc ≠ .exited
  fresh : ∀ g, l.pc ≠ .probe g .processing

theorem flowing_launch {M : List Bytes} (hM : ∀ v ∈ M, decode v ≠ none) (L : K → Option Bytes) :
    Flowing (launch (W := W) ⟨M, [], L⟩) := by
  refine ⟨fun _ => rfl, hM, fun w v h => ?_, fun v h => ?_⟩ <;> cases h

theorem holds_worker (ok : Bytes → Prop) : Holds (W := W) (K := K) ok Worker.move fun l => l.pc.carries.toList where
  pop l w v l' _ h := by
    rcases carries_of_move h with ⟨x, u, he, hu⟩ | ⟨x, u, n, he, _⟩ | ⟨hh, _⟩
    · cases he
      simp [hu]
    · cases he
    · cases hh
  keep l e l' u h hu := by
    have hl : l.pc.carries = some u := Option.mem_toList.1 hu
    rcases carries_of_move h with ⟨x, v, rfl, _⟩ | ⟨x, v, n, rfl, hv, _⟩ | ⟨_, _, hkeep⟩
    · rw [(step_pop_some.1 (move_iff.1 h)).1] at hl
      cases hl
    · obtain rfl : v = u := Option.some.inj (hv.symm.trans hl)
      exact .inr ⟨x, n, rfl⟩
    · exact .inl (by rw [hkeep]; exact hu)

section Flow
variable [DecidableEq W] [DecidableEq K] {P : Params W K} {c c' : Config W (Server K) Worker} {e : Ev W K}
  {tr : List (Ev W K)} {w : W}

/-- **`Flowing` is kept by every step** but a crash and the push of an item that cannot be decoded. -/
theorem flowing_step (he : (daemon P).exec c e = some c') (hq : e.isCrash = false)
    (hpush : ∀ v, e.pushes = some v → decode v ≠ none) (hf : Flowing c) : Flowing c' where
  alive w := by
    by_cases hw : e.who = some w
    · have hdec := hf.hands w
      have hstep := step_of_exec hw he
      generalize c'.loc w = l' at hstep ⊢
      generalize c.loc w = l at hstep hdec
      cases hstep with
      | crash => cases hq
      | raise _ v hd => exact absurd hd (hdec v rfl)
      | _ => rfl
    · rw [exec_frame (daemon P) hw he]
      exact hf.alive w
  main := main_ok_step (onQueue_daemon P) he hpush hf.main
  hands w v hv := by
    rcases carries_back he hv with rfl | hv
    · exact popped_ok (onQueue_daemon P) he hf.main
    · exact hf.hands w v hv
  carried v hv := by
    have hheld := processing_held_step (onQueue_daemon P) (holds_worker (W := W) (K := K) _) he hf.main
      (fun v hv => by simpa using hf.carried v hv)
    simpa using hheld v hv

theorem flowing_run (h : (daemon P).run c tr = some c') (hq : ∀ e ∈ tr, e.isCrash = false)
    (hpush : ∀ v ∈ published tr, decode v ≠ none) (hf : Flowing c) : Flowing c' := by
  refine run_rel (daemon P) (R := fun c c' => Flowing c → Flowing c')
    (p := fun e => e.isCrash = false ∧ ∀ v, e.pushes = some v → decode v ≠ none) (fun _ h => h)
    (fun _ _ _ h1 h2 h => h2 (h1 h)) (fun _ _ _ hp he hf => flowing_step he hp.1 hp.2 hf) (fun e he => ?_) h hf
  exact ⟨hq e he, fun v hv => hpush v (List.mem_filterMap.2 ⟨e, he, hv⟩)⟩

theorem flowing_reaches {p : Ev W K → Prop} (hp : ∀ e, p e → e.working = true)
    (h : (daemon P).Reaches p c c') (hf : Flowing c) : Flowing c' := by
  obtain ⟨tr, hr, htr⟩ := h
  refine flowing_run hr (fun e he => ?_) (fun v hv => ?_) hf
  · have hw := hp e (htr e he)
    cases e <;> first | rfl | cases hw
  · obtain ⟨e, he, hv⟩ := List.mem_filterMap.1 hv
    rw [pushes_of_peaceful (peaceful_of_working (hp e (htr e he)))] at hv
    cases hv

omit [DecidableEq W] [DecidableEq K] in
theorem Flowing.capable (hf : Flowing c) (hx : (c.loc w).pc ≠ .exited) : (c.loc w).Capable := by
  refine ⟨hf.alive w, hx, fun u hu => hf.hands w u ?_⟩
  rcases hu with h | h <;> rw [h] <;> rfl

omit [DecidableEq W] [DecidableEq K] in
theorem Flowing.draining (hf : Flowing c) (hm : c.srv.main = []) : Draining c where
  alive := hf.alive
  decodable v hv := by
    rcases hv with hv | ⟨w, hw⟩
    · exact hf.main v hv
    · exact hf.hands w v hw
  seen _ _ := hm
  carried := hf.carried

/-- A worker in its loop pops the main list empty. -/
theorem flow_main : ∀ (main : List Bytes) (c : Config W (Server K) Worker), c.srv.main = main → Flowing c →
    (c.loc w).Looping → ∃ c', (daemon P).Reaches (fun e => e.working = true) c c' ∧ c'.srv.main = [] := by
  intro main
  induction main using List.reverseRecOn with
  | nil => intro c hm _ _; exact ⟨c, reaches_refl _ _ c, hm⟩
  | append_singleton main v ih =>
    intro c hm hf hl
    have hne : c.srv.main ≠ [] := by simp [hm]
    obtain ⟨d, hd, hdm, -, hdw⟩ := drive_to_pop (P := P) hne (hf.capable hl.stays) hl.fresh
    have hpop := reaches_step (daemon P) (p := Solo w) ⟨rfl, rfl⟩ (exec_pop hdw (hdm.trans hm))
    have hd' := reaches_mono _ (fun e he => he.2) (reaches_trans _ hd hpop)
    obtain ⟨c', hc', hm'⟩ := ih _ rfl (flowing_reaches (fun _ he => he) hd' hf) (by
      by_cases hv : v = [] <;> exact ⟨by simp [hv], by simp [hv]⟩)
    exact ⟨c', reaches_trans _ hd' hc', hm'⟩

/-- **One worker in its loop is enough**: all workers can leave with nothing left in the queue. -/
theorem flow_finishes (ws : List W) (hws : ∀ w, w ∈ ws) (hf : Flowing c) (hl : (c.loc w).Looping) :
    ∃ c', (daemon P).Reaches (fun e => e.working = true) c c' ∧ (∀ w, c'.loc w = ⟨.exited, true⟩) ∧
      c'.srv.main = [] ∧ c'.srv.processing = [] := by
  obtain ⟨d, hd, hm⟩ := flow_main (P := P) _ c rfl hf hl
  have hi := (flowing_reaches (fun _ he => he) hd hf).draining hm
  obtain ⟨c', hc', hx⟩ := drain_reaches_exit (P := P) w ws hws hi
  have hi' := draining_reaches (fun _ he => he) hc' hi
  refine ⟨c', reaches_trans _ hd hc', hx, hi'.seen w (.inr (by rw [hx w])), ?_⟩
  exact hi'.processing_nil fun w => by rw [hx w]; rfl

omit [DecidableEq W] [DecidableEq K] in
/-- When all have left, nothing is being processed. -/
theorem Flowing.processing_nil (hf : Flowing c) (hx : ∀ w, (c.loc w).pc = .exited) : c.srv.processing = [] := by
  refine List.eq_nil_iff_forall_not_mem.2 fun v hv => ?_
  obtain ⟨w, hw⟩ := hf.carried v hv
  rw [hx w] at hw
  cases hw

/-- When nobody is about to work on an item, all that was handed out has been worked on. -/
theorem worked_perm_handed {s : Server K} (h : (daemon P).run (launch s) tr = some c)
    (hidle : ∀ w v, ¬((c.loc w).pc = .setex v ∨ (c.loc w).pc = .item v)) : (worked tr).Perm (handed tr) := by
  refine List.perm_iff_count.2 fun ⟨w, v⟩ => ?_
  have hbal := work_ledger w v h
  rw [if_neg (hidle w v)] at hbal
  simp [launch] at hbal
  omega

end Flow

end RedisQueue
