import RedisQueue.Job

/-!
# Can the Job still finish

Nothing is pushed any more; pods fail and are restarted. The Job can come to its end from a state of
its run exactly if the state is `Finishable`: every payload left can be decoded, and an element of
the processing list is either carried by a live worker or has an equal in the main list, whose
`LREM` will take it out too (`job_can_finish_iff`). `Sound` is what every such run keeps.

The steps of the pods are steps of the `sub` processes of `Daemon.lean` (`exec_forget`,
`exec_remember`), so the invariants are proved there.
-/
namespace RedisQueue
open Interleave

variable {W W' K : Type}

/-- The workers in a run without pushes. -/
structure Sound (c : Config W (Server K) Worker) : Prop where
  worked : ∀ w v, (c.loc w).pc = .lrem v → decode v ≠ none
  undecodable : ∀ w v, (c.loc w).pc.carries = some v → decode v = none → v ∈ c.srv.processing
  seen : ∀ w, (∃ g, (c.loc w).pc = .probe g .processing) ∨ (c.loc w).pc = .exited → c.srv.main = []
  done : ∀ w, (c.loc w).pc = .exited → c.srv.processing = []

/-- What is left can be decoded, and nothing in the processing list has been given up. -/
structure Finishable (c : Config W (Server K) Worker) : Prop where
  main : ∀ v ∈ c.srv.main, decode v ≠ none
  processing : ∀ v ∈ c.srv.processing, decode v ≠ none
  kept : ∀ v ∈ c.srv.processing, v ∈ c.srv.main ∨
    ∃ w, (c.loc w).alive = true ∧ (c.loc w).pc.carries = some v

theorem sound_launch (s : Server K) : Sound (launch (W := W) s) := by
  refine ⟨nofun, nofun, fun w h => ?_, nofun⟩
  rcases h with ⟨g, h⟩ | h <;> cases h

/-- When everybody has left nothing is left. -/
theorem Sound.finishable {c : Config W (Server K) Worker} (hs : Sound c) (w : W)
    (hx : (c.loc w).pc = .exited) : Finishable c := by
  have hm := hs.seen w (.inr hx)
  have hp := hs.done w hx
  refine ⟨?_, ?_, ?_⟩ <;> simp [hm, hp]

section Moves
variable {l l' : Worker} {e : Ev W K} {v : Bytes}

/-- To the `LREM` of an item leads only its work. -/
theorem decoded_of_move (h : l.move e = some l') (hpc : l'.pc = .lrem v) : l.pc = .lrem v ∨ decode v ≠ none := by
  rcases move_to_lrem h hpc with hl | ⟨w, rfl⟩
  · exact .inl hl
  · cases move_iff.1 h with
    | work _ _ hd => exact .inr hd

/-- A live worker is still alive, unless it crashed or raised. -/
theorem alive_of_move (h : l.move e = some l') (hw : e.working = true) :
    l'.alive = true ∨ ∃ u, l.pc.carries = some u ∧ decode u = none := by
  cases move_iff.1 h with
  | raise w u hd => exact .inr ⟨u, rfl, hd⟩
  | crash => cases hw
  | _ => exact .inl rfl

end Moves

section Steps
variable [DecidableEq W] [DecidableEq K] {P : Params W K} {c c' : Config W (Server K) Worker} {e : Ev W K}

omit [DecidableEq W] in
theorem onQueue_daemon (P : Params W K) : OnQueue (daemon P) := onQueue_workers _ P

/-- What a worker carries after a step it carried before, or has just popped. -/
theorem carries_back (he : (daemon P).exec c e = some c') {w : W} {v : Bytes}
    (hv : (c'.loc w).pc.carries = some v) : e = .pop w (some v) ∨ (c.loc w).pc.carries = some v := by
  rcases carries_of_exec he w with ⟨u, rfl, _, hu⟩ | ⟨u, n, rfl, _, hu⟩ | hu
  · exact .inl (by rw [Option.some.inj (hu.symm.trans hv)])
  · rw [hu] at hv; cases hv
  · exact .inr (hu ▸ hv)

/-- What a worker carried it still carries, or has just removed. -/
theorem carries_on (he : (daemon P).exec c e = some c') {w : W} {v : Bytes}
    (hv : (c.loc w).pc.carries = some v) : (∃ n, e = .lrem w v n) ∨ (c'.loc w).pc.carries = some v := by
  rcases carries_of_exec he w with ⟨u, rfl, hl, _⟩ | ⟨u, n, rfl, hu, _⟩ | hu
  · rw [hl] at hv; cases hv
  · exact .inl ⟨n, by rw [Option.some.inj (hu.symm.trans hv)]⟩
  · exact .inr (hu.trans hv)

/-- A worker removes what it carries, and could decode it. -/
theorem lrem_decoded (he : (daemon P).exec c e = some c') (hs : Sound c) {w : W} {v : Bytes} {n : ℕ}
    (h : e = .lrem w v n) : (c.loc w).pc.carries = some v ∧ decode v ≠ none := by
  subst h
  have hpc : (c.loc w).pc = .lrem v := by rw [(step_lrem.1 (step_of_exec rfl he)).1]
  exact ⟨by rw [hpc]; rfl, hs.worked w v hpc⟩

/-- What cannot be decoded stays in the processing list. -/
theorem undecodable_stays (he : (daemon P).exec c e = some c') (hs : Sound c) {v : Bytes} (hd : decode v = none)
    (hv : v ∈ c.srv.processing) : v ∈ c'.srv.processing := by
  rcases serve_lists (exec_serve (daemon P) he) with
    ⟨_, _, _, _, hp⟩ | ⟨x, _, _, hp⟩ | ⟨w, x, _, _, hp⟩ | ⟨w, x, n, hx, _, _, hp⟩
  · exact hp ▸ hv
  · exact hp ▸ hv
  · rw [hp]; exact List.mem_cons_of_mem _ hv
  · have hne : v ≠ x := fun h => (lrem_decoded he hs hx).2 (h ▸ hd)
    rw [hp]
    exact List.mem_filter.2 ⟨hv, by simpa using hne⟩

/-- A worker that has read 0, or has left since, has an empty main list behind it. -/
theorem seen_kept {w : W} (he : (daemon P).exec c e = some c') (hq : e.pushes = none)
    (h : (∃ g, (c.loc w).pc = .probe g .processing) ∨ (c.loc w).pc = .exited → c.srv.main = [])
    (hw : (∃ g, (c'.loc w).pc = .probe g .processing) ∨ (c'.loc w).pc = .exited) : c'.srv.main = [] := by
  refine (onQueue_daemon P).main_nil he hq ?_
  by_cases hwho : e.who = some w
  · rcases read_of_move (exec_move (daemon P) hwho he) hw with ⟨x, rfl⟩ | hpc
    · exact (read_zero he).2
    · exact h (.inl hpc)
  · rw [exec_frame (daemon P) hwho he] at hw
    exact h hw

/-- **`Sound` is kept by every step but a push.** -/
theorem sound_step (he : (daemon P).exec c e = some c') (hq : e.pushes = none) (hs : Sound c) : Sound c' where
  worked w v hpc := by
    by_cases hw : e.who = some w
    · exact (decoded_of_move (exec_move (daemon P) hw he) hpc).elim (hs.worked w v) id
    · rw [exec_frame (daemon P) hw he] at hpc
      exact hs.worked w v hpc
  undecodable w v hv hd := by
    rcases carries_back he hv with rfl | hv
    · have hsrv : serve P c.srv (.pop w (some v)) = some c'.srv := exec_serve (daemon P) he
      obtain ⟨l, -, hs'⟩ := serve_pop_some.1 hsrv
      rw [hs']
      exact List.mem_cons_self
    · exact undecodable_stays he hs hd (hs.undecodable w v hv hd)
  seen w := seen_kept he hq (hs.seen w)
  done w hw := by
    by_cases hold : (c.loc w).pc = .exited
    · have hrun : (daemon P).run c [e] = some c' := (run_cons _).2 ⟨c', he, rfl⟩
      have hb : BothEmpty c' := bothEmpty_stays hrun (by simpa using hq) ⟨hs.seen w (.inr hold), hs.done w hold⟩
      exact hb.2
    · have hwho : e.who = some w := by
        by_contra hne
        rw [exec_frame (daemon P) hne he] at hw
        exact hold hw
      obtain ⟨x, rfl⟩ := leave_of_move (exec_move (daemon P) hwho he) hold hw
      obtain ⟨heq, hp⟩ := read_zero he
      rw [heq]
      exact hp

theorem main_back (he : (daemon P).exec c e = some c') (hq : e.pushes = none) {v : Bytes}
    (hv : v ∈ c'.srv.main) : v ∈ c.srv.main := by
  rcases serve_lists (exec_serve (daemon P) he) with
    ⟨_, _, _, hm, _⟩ | ⟨x, rfl, _, _⟩ | ⟨w, x, _, hm, _⟩ | ⟨w, x, n, _, _, hm, _⟩
  · exact hm ▸ hv
  · cases hq
  · rw [hm]; exact List.mem_append_left _ hv
  · exact hm ▸ hv

theorem alive_back (he : (daemon P).exec c e = some c') {w : W} (h : (c'.loc w).alive = true) :
    (c.loc w).alive = true := by
  by_cases hw : e.who = some w
  · have hstep := step_of_exec hw he
    generalize c.loc w = l at hstep ⊢
    generalize c'.loc w = l' at hstep
    cases hstep <;> rfl
  · rw [exec_frame (daemon P) hw he] at h
    exact h

theorem popped_carries {w : W} {v : Bytes} (he : (daemon P).exec c (.pop w (some v)) = some c') :
    v ∈ c.srv.main ∧ (c'.loc w).pc.carries = some v := by
  have hsrv : serve P c.srv (.pop w (some v)) = some c'.srv := exec_serve (daemon P) he
  obtain ⟨l, hm, -⟩ := serve_pop_some.1 hsrv
  refine ⟨by simp [hm], ?_⟩
  rw [(step_pop_some.1 (step_of_exec rfl he)).2]
  by_cases hv : v = [] <;> simp [hv, PC.carries]

/-- **Giving up is final**: if the workers can finish after a step, they could before. -/
theorem finishable_back (he : (daemon P).exec c e = some c') (hq : e.pushes = none) (hs : Sound c)
    (hf : Finishable c') : Finishable c where
  main v hv := by
    rcases serve_lists (exec_serve (daemon P) he) with
      ⟨_, _, _, hm, _⟩ | ⟨x, rfl, _, _⟩ | ⟨w, x, _, hm, hp⟩ | ⟨w, x, n, _, _, hm, _⟩
    · exact hf.main v (hm ▸ hv)
    · cases hq
    · rw [hm, List.mem_append, List.mem_singleton] at hv
      rcases hv with hv | rfl
      · exact hf.main v hv
      · exact hf.processing v (hp ▸ List.mem_cons_self)
    · exact hf.main v (hm ▸ hv)
  processing v hv hd := hf.processing v (undecodable_stays he hs hd hv) hd
  kept v hv := by
    by_cases hv' : v ∈ c'.srv.processing
    · rcases hf.kept v hv' with hm | ⟨w, ha, hw⟩
      · exact .inl (main_back he hq hm)
      · rcases carries_back he hw with rfl | hw
        · exact .inl (popped_carries he).1
        · exact .inr ⟨w, alive_back he ha, hw⟩
    · -- it has just been removed, by a worker that carried it
      rcases serve_lists (exec_serve (daemon P) he) with
        ⟨_, _, _, _, hp⟩ | ⟨x, rfl, _, _⟩ | ⟨w, x, _, _, hp⟩ | ⟨w, x, n, rfl, _, _, hp⟩
      · exact absurd (hp ▸ hv) hv'
      · cases hq
      · exact absurd (hp ▸ List.mem_cons_of_mem _ hv) hv'
      · have hvx : v = x := by
          by_contra hne
          exact hv' (hp ▸ List.mem_filter.2 ⟨hv, by simpa using hne⟩)
        subst hvx
        refine .inr ⟨w, ?_, (lrem_decoded he hs rfl).1⟩
        rw [(step_lrem.1 (step_of_exec rfl he)).1]

/-- **`Finishable` is kept by the steps of live workers.** -/
theorem finishable_step (he : (daemon P).exec c e = some c') (hw : e.working = true) (hs : Sound c)
    (ha : ∀ w, (c.loc w).alive = true) (hf : Finishable c) :
    (∀ w, (c'.loc w).alive = true) ∧ Finishable c' := by
  have hq : e.pushes = none := pushes_of_peaceful (peaceful_of_working hw)
  have halive : ∀ w, (c'.loc w).alive = true := by
    intro w
    by_cases hwho : e.who = some w
    · refine (alive_of_move (exec_move (daemon P) hwho he) hw).resolve_right ?_
      rintro ⟨u, hu, hd⟩
      exact hf.processing u (hs.undecodable w u hu hd) hd
    · rw [exec_frame (daemon P) hwho he]
      exact ha w
  -- what was kept is kept, unless it is removed
  have hkeep : ∀ v ∈ c.srv.processing, (∀ w n, e ≠ .lrem w v n) → (v ∈ c.srv.main → v ∈ c'.srv.main) →
      v ∈ c'.srv.main ∨ ∃ w, (c'.loc w).alive = true ∧ (c'.loc w).pc.carries = some v := by
    intro v hv hne hmain
    rcases hf.kept v hv with hm | ⟨w, _, hw⟩
    · exact .inl (hmain hm)
    · rcases carries_on he hw with ⟨n, rfl⟩ | hw
      · exact absurd rfl (hne w n)
      · exact .inr ⟨w, halive w, hw⟩
  refine ⟨halive, fun v hv => hf.main v (main_back he hq hv), fun v hv => ?_, fun v hv => ?_⟩
  · rcases serve_lists (exec_serve (daemon P) he) with
      ⟨_, _, _, _, hp⟩ | ⟨x, rfl, _, _⟩ | ⟨w, x, rfl, hm, hp⟩ | ⟨w, x, n, _, _, _, hp⟩
    · exact hf.processing v (hp ▸ hv)
    · cases hq
    · rw [hp] at hv
      rcases List.mem_cons.1 hv with rfl | hv
      · exact hf.main v (popped_carries he).1
      · exact hf.processing v hv
    · rw [hp] at hv
      exact hf.processing v (List.mem_filter.1 hv).1
  · rcases serve_lists (exec_serve (daemon P) he) with
      ⟨_, _, hr, hm, hp⟩ | ⟨x, rfl, _, _⟩ | ⟨w, x, rfl, hm, hp⟩ | ⟨w, x, n, rfl, _, hm, hp⟩
    · exact hkeep v (hp ▸ hv) (fun w n h => by rw [h] at hr; cases hr) fun h => hm ▸ h
    · cases hq
    · by_cases hvx : v = x
      · subst hvx
        exact .inr ⟨w, halive w, (popped_carries he).2⟩
      · have hv' : v ∈ c.srv.processing := by simpa [hp, hvx] using hv
        refine hkeep v hv' (fun _ _ h => by cases h) fun h => ?_
        simpa [hm, hvx] using h
    · rw [hp] at hv
      obtain ⟨hv', hne⟩ := List.mem_filter.1 hv
      refine hkeep v hv' (fun y m h => ?_) fun h => hm ▸ h
      cases h
      simp at hne

end Steps

/-! ## Live workers finish -/

/-- Everybody alive, and nothing in the way. -/
structure Ready (c : Config W (Server K) Worker) : Prop where
  alive : ∀ w, (c.loc w).alive = true
  sound : Sound c
  finishable : Finishable c

section Finish
variable [DecidableEq W] [DecidableEq K] {P : Params W K} {c c' : Config W (Server K) Worker}

theorem ready_reaches {p : Ev W K → Prop} (hp : ∀ e, p e → e.working = true)
    (h : (daemon P).Reaches p c c') (hr : Ready c) : Ready c' := by
  obtain ⟨tr, hrun, htr⟩ := h
  refine run_rel (daemon P) (R := fun c c' => Ready c → Ready c') (p := p) (fun _ h => h)
    (fun _ _ _ h1 h2 h => h2 (h1 h)) (fun c e c' he hexec hr => ?_) htr hrun hr
  obtain ⟨ha, hf⟩ := finishable_step hexec (hp e he) hr.sound hr.alive hr.finishable
  exact ⟨ha, sound_step hexec (pushes_of_peaceful (peaceful_of_working (hp e he))) hr.sound, hf⟩

omit [DecidableEq W] [DecidableEq K] in
theorem Ready.capable (hr : Ready c) {w : W} (hx : (c.loc w).pc ≠ .exited) : (c.loc w).Capable := by
  refine ⟨hr.alive w, hx, fun u hu hd => ?_⟩
  have hcarries : (c.loc w).pc.carries = some u := by rcases hu with h | h <;> rw [h] <;> rfl
  exact hr.finishable.processing u (hr.sound.undecodable w u hcarries hd) hd

omit [DecidableEq W] [DecidableEq K] in
/-- With the main list empty the workers are draining. -/
theorem Ready.draining (hr : Ready c) (hm : c.srv.main = []) : Draining c where
  alive := hr.alive
  decodable v hv hd := by
    rcases hv with hv | ⟨w, hw⟩
    · exact hr.finishable.main v hv hd
    · exact hr.finishable.processing v (hr.sound.undecodable w v hw hd) hd
  seen _ _ := hm
  carried v hv := by
    rcases hr.finishable.kept v hv with h | ⟨w, _, hw⟩
    · rw [hm] at h; cases h
    · exact ⟨w, hw⟩

/-- Some worker pops the main list empty. -/
theorem ready_main (w : W) : ∀ (main : List Bytes) (c : Config W (Server K) Worker), c.srv.main = main →
    Ready c → ∃ c', (daemon P).Reaches (fun e => e.working = true) c c' ∧ Ready c' ∧ c'.srv.main = [] := by
  intro main
  induction main using List.reverseRecOn with
  | nil => intro c hm hr; exact ⟨c, reaches_refl _ _ c, hr, hm⟩
  | append_singleton main v ih =>
    intro c hm hr
    have hne : c.srv.main ≠ [] := by simp [hm]
    have hx : (c.loc w).pc ≠ .exited := fun h => hne (hr.sound.seen w (.inr h))
    have hread : ∀ g, (c.loc w).pc ≠ .probe g .processing := fun g h => hne (hr.sound.seen w (.inl ⟨g, h⟩))
    obtain ⟨d, hd, hdm, -, hdw⟩ := drive_to_pop (P := P) hne (hr.capable hx) hread
    have hpop := reaches_step (daemon P) (p := Solo w) ⟨rfl, rfl⟩ (exec_pop hdw (hdm.trans hm))
    have hd' := reaches_mono _ (fun e he => he.2) (reaches_trans _ hd hpop)
    obtain ⟨c', hc', hr', hm'⟩ := ih _ rfl (ready_reaches (fun _ he => he) hd' hr)
    exact ⟨c', reaches_trans _ hd' hc', hr', hm'⟩

/-- **From a ready state all workers can leave.** -/
theorem ready_finishes (w : W) (ws : List W) (hws : ∀ w, w ∈ ws) (hr : Ready c) :
    ∃ c', (daemon P).Reaches (fun e => e.working = true) c c' ∧ ∀ w, c'.loc w = ⟨.exited, true⟩ := by
  obtain ⟨d, hd, hrd, hm⟩ := ready_main (P := P) w _ c rfl hr
  obtain ⟨c', hc', hx⟩ := drain_reaches_exit (P := P) w ws hws (hrd.draining hm)
  exact ⟨c', reaches_trans _ hd hc', hx⟩

end Finish

section Again
variable [DecidableEq W]

/-- A worker started again, in place of `w`. -/
def startAgain (c : Config W (Server K) Worker) (w : W) : Config W (Server K) Worker :=
  ⟨c.srv, Function.update c.loc w ⟨.probe false .main, true⟩⟩

theorem startAgain_loc (d : Config W (Server K) Worker) (w x : W) :
    (startAgain d w).loc x = ⟨.probe false .main, true⟩ ∨ x ≠ w ∧ (startAgain d w).loc x = d.loc x := by
  by_cases hx : x = w
  · subst hx; exact .inl (Function.update_self ..)
  · exact .inr ⟨hx, Function.update_of_ne hx ..⟩

theorem sound_startAgain {d : Config W (Server K) Worker} (hs : Sound d) (w : W) : Sound (startAgain d w) := by
  refine ⟨fun x v hx => ?_, fun x v hx => ?_, fun x hx => ?_, fun x hx => ?_⟩
  · rcases startAgain_loc d w x with h | ⟨-, h⟩ <;> rw [h] at hx
    · cases hx
    · exact hs.worked x v hx
  · rcases startAgain_loc d w x with h | ⟨-, h⟩ <;> rw [h] at hx
    · cases hx
    · exact hs.undecodable x v hx
  · rcases startAgain_loc d w x with h | ⟨-, h⟩ <;> rw [h] at hx
    · rcases hx with ⟨g, hx⟩ | hx <;> cases hx
    · exact hs.seen x hx
  · rcases startAgain_loc d w x with h | ⟨-, h⟩ <;> rw [h] at hx
    · cases hx
    · exact hs.done x hx

/-- A dead worker's item was given up before it is started again. -/
theorem finishable_startAgain {d : Config W (Server K) Worker} {w : W} (hw : (d.loc w).alive = false) :
    Finishable (startAgain d w) ↔ Finishable d := by
  have hkept : ∀ v, (∃ x, ((startAgain d w).loc x).alive = true ∧ ((startAgain d w).loc x).pc.carries = some v) ↔
      ∃ x, (d.loc x).alive = true ∧ (d.loc x).pc.carries = some v := by
    intro v
    constructor
    · rintro ⟨x, ha, hx⟩
      rcases startAgain_loc d w x with h | ⟨-, h⟩ <;> rw [h] at ha hx
      · cases hx
      · exact ⟨x, ha, hx⟩
    · rintro ⟨x, ha, hx⟩
      have hne : x ≠ w := by
        rintro rfl
        rw [hw] at ha
        cases ha
      have hstay : (startAgain d w).loc x = d.loc x := Function.update_of_ne hne ..
      exact ⟨x, hstay ▸ ha, hstay ▸ hx⟩
  constructor
  · intro hf
    exact ⟨hf.main, hf.processing, fun v hv => (hf.kept v hv).imp_right (hkept v).1⟩
  · intro hf
    exact ⟨hf.main, hf.processing, fun v hv => (hf.kept v hv).imp_right (hkept v).2⟩

end Again

/-! ## From workers to pods -/

/-- The same event by other names of the workers. -/
def Ev.rename (f : W → W') : Ev W K → Ev W' K
  | .rpush v => .rpush v
  | .llen w q n => .llen (f w) q n
  | .pop w r => .pop (f w) r
  | .setex w v => .setex (f w) v
  | .work w v => .work (f w) v
  | .raise w v => .raise (f w) v
  | .lrem w v n => .lrem (f w) v n
  | .del w v => .del (f w) v
  | .crash w => .crash (f w)
  | .expire k => .expire k

@[simp] theorem rename_who (f : W → W') (e : Ev W K) : (e.rename f).who = e.who.map f := by cases e <;> rfl

@[simp] theorem rename_pushes (f : W → W') (e : Ev W K) : (e.rename f).pushes = e.pushes := by cases e <;> rfl

@[simp] theorem rename_working (f : W → W') (e : Ev W K) : (e.rename f).working = e.working := by cases e <;> rfl

theorem step_rename {f : W → W'} {l l' : Worker} {e : Ev W K} :
    Worker.Step l (e.rename f) l' ↔ Worker.Step l e l' := by
  constructor
  · intro h
    cases e <;> cases h <;> constructor <;> assumption
  · intro h
    cases h <;> constructor <;> assumption

@[simp] theorem rename_move (f : W → W') (l : Worker) (e : Ev W K) : l.move (e.rename f) = l.move e :=
  Option.ext fun l' => by
    rw [move_iff, move_iff, step_rename]

/-- The workers of the running incarnations `n`. -/
def Params.now (P : Params (W × ℕ) K) (n : W → ℕ) : Params W K := ⟨P.itemKey, fun w => P.session (w, n w)⟩

/-- The running workers of the pods. -/
abbrev running (c : Config W (Server K) (Pod Worker)) : Config W (Server K) Worker := c.map Pod.worker

def PodEv.pushes : PodEv W K → Option Bytes
  | .act e => e.pushes
  | .restart _ => none

/-- The steps of the pods themselves: no push, no crash, no expiry. -/
def PodEv.working : PodEv W K → Bool
  | .act e => e.working
  | .restart _ => true

theorem pushes_of_published {tr : List (PodEv W K)} (h : published (podActs tr) = []) : ∀ e ∈ tr, e.pushes = none := by
  intro e he
  cases e with
  | restart w => rfl
  | act e => exact published_eq_nil.1 h e (List.mem_filterMap.2 ⟨_, he, rfl⟩)

section Pods
variable [DecidableEq W] [DecidableEq K] {P : Params (W × ℕ) K} {c c' : Config W (Server K) (Pod Worker)}
  {n : W → ℕ}

/-- A step of a pod is a step of its worker. -/
theorem exec_forget {e : Ev (W × ℕ) K} (hn : ∀ w, (c.loc w).incarnation = n w)
    (he : (jobs pythonPod P).exec c (.act e) = some c') :
    (daemon (P.now n)).exec (running c) (e.rename Prod.fst) = some (running c') := by
  cases hw : e.who with
  | none =>
    obtain ⟨hs, hloc⟩ := (exec_podAct_env hw).1 he
    refine (exec_env (daemon (P.now n)) (by simp [daemon, hw])).2 ⟨?_, ?_⟩
    · cases e <;> first | exact hs | cases hw
    · simp only [running, Config.map, hloc]
  | some i =>
    obtain ⟨w, m⟩ := i
    obtain ⟨rfl, hs, l, hl, hloc⟩ := (exec_podAct hw).1 he
    refine (exec_client (daemon (P.now n)) (w := w) (by simp [daemon, hw])).2 ⟨?_, l, ?_, ?_⟩
    · cases e <;> first | exact hs | (cases hw; rw [hn] at hs; exact hs)
    · exact (rename_move _ _ _).trans hl
    · funext x
      by_cases hx : x = w
      · subst hx; simp [Config.map, hloc]
      · simp [Config.map, hloc, hx]

/-- A step of a running worker is a step of its pod. -/
theorem exec_remember {e : Ev W K} {d : Config W (Server K) Worker} (hn : ∀ w, (c.loc w).incarnation = n w)
    (he : (daemon (P.now n)).exec (running c) e = some d) :
    ∃ c', (jobs pythonPod P).exec c (.act (e.rename fun w => (w, n w))) = some c' ∧ running c' = d ∧
      ∀ w, (c'.loc w).incarnation = n w := by
  cases hw : e.who with
  | none =>
    obtain ⟨hs, hloc⟩ := (exec_env (daemon (P.now n)) hw).1 he
    refine ⟨⟨d.srv, c.loc⟩, (exec_podAct_env (by simp [hw])).2 ⟨?_, rfl⟩, Config.ext rfl hloc.symm, hn⟩
    cases e <;> exact hs
  | some w =>
    obtain ⟨hs, l, hl, hloc⟩ := (exec_client (daemon (P.now n)) hw).1 he
    refine ⟨⟨d.srv, Function.update c.loc w ⟨n w, l⟩⟩, (exec_podAct (w := w) (n := n w) (by simp [hw])).2
      ⟨(hn w).symm, ?_, l, (rename_move _ _ _).trans hl, rfl⟩, Config.ext rfl ?_, fun x => ?_⟩
    · cases e <;> exact hs
    · rw [hloc]
      funext x
      by_cases hx : x = w
      · subst hx; simp [Config.map]
      · simp [Config.map, hx]
    · by_cases hx : x = w
      · subst hx; simp
      · simp [hx, hn x]

/-- What the running workers can do, the pods can. -/
theorem reaches_remember {d : Config W (Server K) Worker} (hn : ∀ w, (c.loc w).incarnation = n w)
    (h : (daemon (P.now n)).Reaches (fun e => e.working = true) (running c) d) :
    ∃ c', (jobs pythonPod P).Reaches (fun e => e.working = true) c c' ∧ running c' = d := by
  obtain ⟨tr, hrun, hp⟩ := h
  obtain ⟨c', hc', rfl, -⟩ := run_simulates (daemon (P.now n)) (jobs pythonPod P)
    (R := fun d c => running c = d ∧ ∀ w, (c.loc w).incarnation = n w) (p := fun e => e.working = true)
    (f := fun e => [PodEv.act (e.rename fun w => (w, n w))]) (by
      rintro _ c e d _ ⟨rfl, hn⟩ he
      obtain ⟨c', hc', hd, hn'⟩ := exec_remember hn he
      exact ⟨c', (run_cons _).2 ⟨c', hc', rfl⟩, hd, hn'⟩) hp ⟨rfl, hn⟩ hrun
  refine ⟨c', ⟨_, hc', fun e he => ?_⟩, rfl⟩
  obtain ⟨a, ha, hea⟩ := List.mem_flatMap.1 he
  obtain rfl := List.mem_singleton.1 hea
  simpa [PodEv.working] using hp a ha

/-! ## The Job -/

theorem running_restart {w : W} (he : (jobs pythonPod P).exec c (.restart w) = some c') :
    ((running c).loc w).alive = false ∧ running c' = startAgain (running c) w := by
  obtain ⟨hf, rfl⟩ := exec_restart.1 he
  refine ⟨by simpa [pythonPod, Config.map] using hf, Config.ext rfl (funext fun x => ?_)⟩
  by_cases hx : x = w
  · subst hx; simp [startAgain, Config.map, pythonPod]
  · simp [startAgain, Config.map, hx]

/-- **Every step but a push** keeps `Sound`, and makes nothing finishable. -/
theorem job_step {e : PodEv W K} (he : (jobs pythonPod P).exec c e = some c') (hq : e.pushes = none)
    (hs : Sound (running c)) :
    Sound (running c') ∧ (Finishable (running c') → Finishable (running c)) := by
  cases e with
  | restart w =>
    obtain ⟨hdead, hrun⟩ := running_restart he
    rw [hrun]
    exact ⟨sound_startAgain hs w, (finishable_startAgain hdead).1⟩
  | act e =>
    have hexec := exec_forget (n := fun w => (c.loc w).incarnation) (fun _ => rfl) he
    have hq' : (e.rename Prod.fst).pushes = none := by rw [rename_pushes]; exact hq
    exact ⟨sound_step hexec hq' hs, finishable_back hexec hq' hs⟩

theorem job_run {tr : List (PodEv W K)} (h : (jobs pythonPod P).run c tr = some c')
    (hq : ∀ e ∈ tr, e.pushes = none) (hs : Sound (running c)) :
    Sound (running c') ∧ (Finishable (running c') → Finishable (running c)) := by
  refine run_rel (jobs pythonPod P) (R := fun c c' => Sound (running c) →
      Sound (running c') ∧ (Finishable (running c') → Finishable (running c))) (p := fun e => e.pushes = none)
    (fun _ hs => ⟨hs, id⟩) (fun a b d h1 h2 ha => ?_) (fun _ _ _ hq he hs => job_step he hq hs) hq h hs
  obtain ⟨hb, hba⟩ := h1 ha
  obtain ⟨hd, hdb⟩ := h2 hb
  exact ⟨hd, hba ∘ hdb⟩

/-- All failed pods are started again. -/
theorem restart_all (ws : List W) (hws : ∀ w, w ∈ ws) (hs : Sound (running c)) (hf : Finishable (running c)) :
    ∃ c', (jobs pythonPod P).Reaches (fun e => e.working = true) c c' ∧ Ready (running c') := by
  have hdrive : ∀ c, ∀ w ∈ ws, (Sound (running c) ∧ Finishable (running c)) →
      ∃ c', (jobs pythonPod P).Reaches (fun e => (jobs pythonPod P).who e = some w ∧ e.working = true) c c' ∧
        (Sound (running c') ∧ Finishable (running c')) ∧ (c'.loc w).worker.alive = true := by
    rintro c w _ ⟨hs, hf⟩
    by_cases ha : (c.loc w).worker.alive = true
    · exact ⟨c, reaches_refl _ _ c, ⟨hs, hf⟩, ha⟩
    · have hdead : (c.loc w).worker.alive = false := by simpa using ha
      have he := (exec_restart (C := pythonPod) (P := P) (c := c) (w := w)).2
        ⟨by simpa [pythonPod] using hdead, rfl⟩
      obtain ⟨-, hrun⟩ := running_restart he
      refine ⟨_, reaches_step _ ⟨rfl, rfl⟩ he, ?_, by simp [pythonPod]⟩
      rw [hrun]
      exact ⟨sound_startAgain hs w, (finishable_startAgain hdead).2 hf⟩
  obtain ⟨c', hr, ⟨hs', hf'⟩, ha⟩ := reaches_sweep (jobs pythonPod P)
    (I := fun c => Sound (running c) ∧ Finishable (running c)) (Q := fun l => l.worker.alive = true)
    (p := fun e => e.working = true) ws hdrive c ⟨hs, hf⟩
  exact ⟨c', hr, fun w => ha w (hws w), hs', hf'⟩

end Pods

/-- **When the Job can still finish**: from a state reached without pushes, by any failures and
restarts, all pods can come to exit with 0 exactly if every payload left can be decoded and every
element of the processing list is carried by a live worker or has an equal in the main list. Then
the pods' own steps and restarts are enough. -/
theorem job_can_finish_iff {n : ℕ} [DecidableEq K] (P : Params (Fin (n + 1) × ℕ) K) {s : Server K}
    {tr : List (PodEv (Fin (n + 1)) K)} {c : Config (Fin (n + 1)) (Server K) (Pod Worker)}
    (h : (jobs pythonPod P).run (jobLaunch pythonPod s) tr = some c) (hq : published (podActs tr) = []) :
    ((∃ c', (jobs pythonPod P).Reaches (fun e => e.pushes = none) c c' ∧ ∀ w, (c'.loc w).Done) ↔
      Finishable (running c)) ∧
    (Finishable (running c) →
      ∃ c', (jobs pythonPod P).Reaches (fun e => e.working = true) c c' ∧ ∀ w, (c'.loc w).Done) := by
  have hs : Sound (running c) := (job_run h (pushes_of_published hq) (sound_launch s)).1
  have hfin : Finishable (running c) →
      ∃ c', (jobs pythonPod P).Reaches (fun e => e.working = true) c c' ∧ ∀ w, (c'.loc w).Done := by
    intro hf
    obtain ⟨d, hd, hr⟩ := restart_all (P := P) (List.finRange _) List.mem_finRange hs hf
    obtain ⟨x, hx, hexit⟩ := ready_finishes (P := P.now fun w => (d.loc w).incarnation) 0 (List.finRange _)
      List.mem_finRange hr
    obtain ⟨c', hc', rfl⟩ := reaches_remember (fun _ => rfl) hx
    exact ⟨c', reaches_trans _ hd hc', fun w => congrArg Worker.pc (hexit w)⟩
  refine ⟨⟨?_, fun hf => ?_⟩, hfin⟩
  · rintro ⟨c', ⟨tr', hrun, hp⟩, hdone⟩
    obtain ⟨hs', hback⟩ := job_run hrun hp hs
    exact hback (hs'.finishable 0 (hdone 0))
  · obtain ⟨c', hr, hdone⟩ := hfin hf
    refine ⟨c', reaches_mono _ (fun e he => ?_) hr, hdone⟩
    cases e with
    | restart w => rfl
    | act e => exact pushes_of_peaceful (peaceful_of_working he)

/-- Pod `w` crashes with one of two equal items. -/
def equalRun (w : Fin 2) : List (PodEv (Fin 2) Bytes) :=
  [.act (.llen (w, 0) .main 2), .act (.llen (w, 0) .main 2), .act (.pop (w, 0) (some [97])), .act (.crash (w, 0))]

/-- The other item takes the lost one with it. -/
theorem job_can_finish_iff_equalRun : ∃ c, (jobs pythonPod ⟨id, fun _ => []⟩).run
    (jobLaunch pythonPod ⟨[[97], [97]], [], fun _ => none⟩) (equalRun 0) = some c ∧
    ∃ c', (jobs pythonPod ⟨id, fun _ => []⟩).Reaches (fun e => e.working = true) c c' ∧ ∀ w, (c'.loc w).Done := by
  obtain ⟨c, hc, hm, hp⟩ : ∃ c, (jobs pythonPod ⟨id, fun _ => []⟩).run
      (jobLaunch pythonPod ⟨[[97], [97]], [], fun _ => none⟩) (equalRun 0) = some c ∧
      c.srv.main = [[97]] ∧ c.srv.processing = [[97]] := ⟨_, rfl, rfl, rfl⟩
  have hdec : decode [97] ≠ none := by decide
  refine ⟨c, hc, (job_can_finish_iff (n := 1) _ hc (by decide)).2 ⟨?_, ?_, ?_⟩⟩
  · simpa [Config.map, hm] using hdec
  · simpa [Config.map, hp] using hdec
  · simp [Config.map, hm, hp]

end RedisQueue
