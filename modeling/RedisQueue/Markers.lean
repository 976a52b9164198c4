import Mathlib.Algebra.Order.BigOperators.Group.Finset
import Mathlib.Data.Fintype.BigOperators
import RedisQueue.Drain
import RedisQueue.Marker

/-!
# A marker for every worker

`Marker.lean` looks at one worker and the marker that ends it. Here are all of them. A worker of
`redis-cpp-queue` leaves on the marker it has popped, and puts none back; so the markers
in the main list and those that workers have left on, or are about to, are as many as there were and
have been pushed (`markers_conserved`), and all workers can leave exactly if there is one for each
(`markers_end_iff`). `pub_daemon.cpp` pushes none, and the push of `c-hiredis-producer/src/main.c:44` is
commented out.
-/
namespace RedisQueue
open Interleave

variable {W K : Type}

section Count
variable [DecidableEq K] {P : Params W K} {s s' : Server K} {e : Ev W K}

theorem main_of_serve (v : Bytes) (h : serve P s e = some s') :
    s'.main.count v + (e.hands.toList.map Prod.snd).count v = s.main.count v + e.pushes.toList.count v := by
  rcases serve_lists h with ⟨hp, hh, -, hm, -⟩ | ⟨u, rfl, hm, -⟩ | ⟨w, u, rfl, hm, -⟩ | ⟨w, u, n, rfl, -, hm, -⟩
  · simp [hp, hh, hm]
  · simp [Ev.hands, Ev.pushes, hm, List.count_append]
  · simp [Ev.hands, Ev.pushes, hm, List.count_append]
  · simp [Ev.hands, Ev.pushes, hm]

end Count

namespace SubDaemon

/-- The marker a worker has left on, or is about to leave on. -/
def Worker.marker (l : Worker) : Nat := if l.pc = .exited ∨ l.pc = .setex Rds.EOQ then 1 else 0

@[simp] theorem marker_setex (v : Bytes) (b : Bool) :
    Worker.marker ⟨.setex v, b⟩ = if v = Rds.EOQ then 1 else 0 := by
  simp [Worker.marker]

@[simp] theorem marker_exited (b : Bool) : Worker.marker ⟨.exited, b⟩ = 1 := rfl

/-- A worker gets a marker by popping it. -/
theorem marker_of_step {l l' : Worker} {e : Ev W K} (h : Worker.Step l e l') :
    l'.marker = l.marker + (e.hands.toList.map Prod.snd).count Rds.EOQ := by
  cases h with
  | probeMain w n => by_cases hn : n = 0 <;> simp [Worker.marker, Ev.hands, hn]
  | probeProcessing w n => rfl
  | timeout w => rfl
  | pop w v => by_cases hv : v = Rds.EOQ <;> simp [Worker.marker, Ev.hands, hv]
  | setex w v => by_cases hv : v = Rds.EOQ <;> simp [Worker.marker, Ev.hands, hv]
  | lrem w v n => rfl
  | del w v => rfl
  | crash w pc hx => simp [Worker.marker, Ev.hands]


section Markers
variable [DecidableEq W] [DecidableEq K] {P : Params W K} {tr : List (Ev W K)}
  {c c' : Config W (Server K) Worker} {w : W}

/-- The markers to come and those that workers have. -/
def markers [Fintype W] (c : Config W (Server K) Worker) : Nat :=
  c.funds (fun s => s.main.count Rds.EOQ) Worker.marker

/-- **Markers are conserved**: only pushes add to them. -/
theorem markers_conserved [Fintype W] (h : (subDaemons P).run c tr = some c') :
    markers c' = markers c + (published tr).count Rds.EOQ := by
  rw [published, count_filterMap]
  refine run_conserves (subDaemons P) _ _ (fun e => e.pushes.toList.count Rds.EOQ) ?_ ?_ h
  · intro s e s' l l' w hw hs hl
    have hmain := main_of_serve Rds.EOQ hs
    have hown := marker_of_step (move_iff.1 hl)
    omega
  · intro s e s' hw hs
    have hmain := main_of_serve Rds.EOQ hs
    have hnone : e.hands = none := by
      refine Option.eq_none_iff_forall_ne_some.2 fun p hp => ?_
      cases hw.symm.trans (hands_who e p hp)
    rw [hnone] at hmain
    exact hmain

/-! ## Leaving -/

/-- Dead workers stay, and so their markers are lost. -/
def Steady (c : Config W (Server K) Worker) : Prop :=
  ∀ w, (c.loc w).alive = true ∨ (c.loc w).pc = .exited

theorem steady_back {e : Ev W K} (he : (subDaemons P).exec c e = some c') (h : Steady c') : Steady c := by
  intro w
  by_cases hw : e.who = some w
  · have hstep := subDaemon_step hw he
    generalize c.loc w = l at hstep ⊢
    generalize c'.loc w = l' at hstep
    cases hstep <;> exact .inl rfl
  · have hstay := exec_frame (subDaemons P) hw he
    exact hstay ▸ h w

/-! ## A worker by itself -/

/-- By its own steps worker `w` leaves. -/
def CanLeave (P : Params W K) (w : W) (c : Config W (Server K) Worker) : Prop :=
  (subDaemons P).Gets (fun e => e.working = true) w (fun d => (d.loc w).pc = .exited) c

variable {l l' : Worker} {s : Server K} {v : Bytes}

theorem canLeave_step {e : Ev W K} (hl : c.loc w = l) (he : e.who = some w) (hw : e.working = true)
    (hs : serve P c.srv e = some s) (hstep : Worker.Step l e l')
    (hrest : ∀ d : Config W (Server K) Worker, d.srv = s → d.loc w = l' → CanLeave P w d) : CanLeave P w c := by
  have hexec : (subDaemons P).exec c e = some ⟨s, Function.update c.loc w l'⟩ :=
    (exec_client (subDaemons P) he).2 ⟨hs, l', by rw [hl]; exact move_iff.2 hstep, rfl⟩
  exact gets_trans _ (gets_step _ (Q := fun d => d.srv = s ∧ d.loc w = l') he hw hexec ⟨rfl, by simp⟩)
    fun d hd => hrest d hd.1 hd.2

/-- `complete`, and back to the top of the loop. -/
theorem complete_then (hl : c.loc w = ⟨.lrem v, true⟩)
    (hrest : ∀ d : Config W (Server K) Worker, d.srv.main = c.srv.main → d.loc w = ⟨.pop, true⟩ → CanLeave P w d) :
    CanLeave P w c := by
  refine canLeave_step hl rfl rfl (serve_lrem.2 ⟨rfl, rfl⟩) (.lrem w v _) fun d hs hd => ?_
  refine canLeave_step hd rfl rfl (e := .del w v) rfl (.del w v) fun d' hs' hd' => hrest d' ?_ hd'
  rw [hs', hs]
  rfl

theorem lease_then (hv : v ≠ Rds.EOQ) (hl : c.loc w = ⟨.setex v, true⟩)
    (hrest : ∀ d : Config W (Server K) Worker, d.srv.main = c.srv.main → d.loc w = ⟨.pop, true⟩ → CanLeave P w d) :
    CanLeave P w c := by
  have hstep := Worker.Step.setex (K := K) w v
  rw [if_neg hv] at hstep
  refine canLeave_step hl rfl rfl (e := .setex w v) rfl hstep fun d hs hd => ?_
  refine complete_then hd fun d' hm hd' => hrest d' ?_ hd'
  rw [hm, hs]
  rfl

/-- The marker ends the worker that has it. -/
theorem leave_on_marker (hl : c.loc w = ⟨.setex Rds.EOQ, true⟩) : CanLeave P w c :=
  canLeave_step hl rfl rfl (e := .setex w Rds.EOQ) rfl (.setex w Rds.EOQ) fun _ _ hd =>
    gets_refl _ (by simp [hd])

/-- From the pop; the induction is on what is left to pop. -/
theorem leave_from_pop (w : W) : ∀ (main : List Bytes) (c : Config W (Server K) Worker), c.srv.main = main →
    Rds.EOQ ∈ main → c.loc w = ⟨.pop, true⟩ → CanLeave P w c := by
  intro main
  induction main using List.reverseRecOn with
  | nil => intro c _ hmem; cases hmem
  | append_singleton main v ih =>
    intro c hm hmem hl
    refine canLeave_step hl rfl rfl (serve_pop_some.2 ⟨main, hm, rfl⟩) (.pop w v) fun d hs hd => ?_
    by_cases hv : v = Rds.EOQ
    · subst hv
      exact leave_on_marker hd
    · have hleft : Rds.EOQ ∈ main := by simpa [Ne.symm hv] using hmem
      exact lease_then hv hd fun d' hm' hd' => ih d' (by rw [hm', hs]) hleft hd'

/-- **A live worker can leave** when it has a marker, or there is one to pop. -/
theorem can_leave (ha : (c.loc w).alive = true) (hmem : (c.loc w).marker = 1 ∨ Rds.EOQ ∈ c.srv.main) :
    CanLeave P w c := by
  have hpop : ∀ d : Config W (Server K) Worker, d.srv.main = c.srv.main → Rds.EOQ ∈ c.srv.main →
      d.loc w = ⟨.pop, true⟩ → CanLeave P w d := fun d hm hmem hd => leave_from_pop w _ d hm hmem hd
  obtain ⟨pc, hpc⟩ : ∃ pc, c.loc w = ⟨pc, true⟩ := ⟨(c.loc w).pc, by rw [← ha]⟩
  rw [hpc] at hmem
  cases pc with
  | exited => exact gets_refl _ (by rw [hpc])
  | setex v =>
    by_cases hv : v = Rds.EOQ
    · subst hv
      exact leave_on_marker hpc
    · have hin : Rds.EOQ ∈ c.srv.main := hmem.resolve_left (by simp [hv])
      exact lease_then hv hpc fun d hm hd => hpop d hm hin hd
  | pop => exact hpop c rfl (hmem.resolve_left (by simp [Worker.marker])) hpc
  | lrem v =>
    have hin : Rds.EOQ ∈ c.srv.main := hmem.resolve_left (by simp [Worker.marker])
    exact complete_then hpc fun d hm hd => hpop d hm hin hd
  | del v =>
    have hin : Rds.EOQ ∈ c.srv.main := hmem.resolve_left (by simp [Worker.marker])
    refine canLeave_step hpc rfl rfl (e := .del w v) rfl (.del w v) fun d hs hd => hpop d ?_ hin hd
    rw [hs]
    rfl
  | probe q =>
    have hin : Rds.EOQ ∈ c.srv.main := hmem.resolve_left (by simp [Worker.marker])
    have hread : ∀ d : Config W (Server K) Worker, d.srv = c.srv → d.loc w = ⟨.probe .processing, true⟩ →
        CanLeave P w d := fun d hs hd =>
      canLeave_step hd rfl rfl (serve_llen.2 ⟨rfl, rfl⟩) (.probeProcessing w _) fun x hs' hx =>
        hpop x (by rw [hs', hs]) hin hx
    cases q with
    | processing => exact hread c rfl hpc
    | main =>
      have hne : (c.srv.queue .main).length ≠ 0 := fun h => by
        rw [Server.queue, List.length_eq_zero_iff] at h
        rw [h] at hin
        cases hin
      have hstep := Worker.Step.probeMain (K := K) w (c.srv.queue .main).length
      rw [if_pos hne] at hstep
      exact canLeave_step hpc rfl rfl (serve_llen.2 ⟨rfl, rfl⟩) hstep hread

/-! ## All of them -/

theorem steady_on {e : Ev W K} (he : (subDaemons P).exec c e = some c') (hw : e.working = true) (h : Steady c) :
    Steady c' := by
  intro x
  by_cases hx : e.who = some x
  · have hstep := subDaemon_step hx he
    generalize c.loc x = l at hstep
    generalize c'.loc x = l' at hstep ⊢
    cases hstep with
    | crash => cases hw
    | _ => exact .inl rfl
  · have hstay := exec_frame (subDaemons P) hx he
    exact hstay ▸ h x

theorem marker_le (l : Worker) : l.marker ≤ 1 := by
  unfold Worker.marker
  split <;> omega

omit [DecidableEq K] in
/-- With a marker for everybody, who has none finds one. -/
theorem marker_found {n : ℕ} {c : Config (Fin n) (Server K) Worker} (h : n ≤ markers c) (w : Fin n) :
    (c.loc w).marker = 1 ∨ Rds.EOQ ∈ c.srv.main := by
  by_cases hw : (c.loc w).marker = 1
  · exact .inl hw
  · have hlt : (c.loc w).marker < 1 := Nat.lt_of_le_of_ne (marker_le _) hw
    have hsum : ∑ x, (c.loc x).marker < ∑ _x : Fin n, 1 :=
      Finset.sum_lt_sum (fun x _ => marker_le _) ⟨w, Finset.mem_univ w, hlt⟩
    rw [← Finset.card_eq_sum_ones, Finset.card_univ, Fintype.card_fin] at hsum
    have htotal : n ≤ c.srv.main.count Rds.EOQ + ∑ x, (c.loc x).marker := h
    exact .inr (List.count_pos_iff.1 (by omega))

theorem markers_kept [Fintype W] {p : Ev W K → Prop} (hp : ∀ e, p e → e.pushes = none)
    (h : (subDaemons P).Reaches p c c') : markers c' = markers c := by
  obtain ⟨tr, hrun, hall⟩ := h
  have hpub : published tr = [] := published_eq_nil.2 fun e he => hp e (hall e he)
  rw [markers_conserved hrun, hpub]
  rfl

end Markers

/-- **When all workers can leave**: without a further push exactly if none of them has crashed and there is a
marker for each, in the main list or in its hands. Then their own steps are enough. -/
theorem markers_end_iff {n : ℕ} [DecidableEq K] (P : Params (Fin n) K) (c : Config (Fin n) (Server K) Worker) :
    ((∃ c', (subDaemons P).Reaches (fun e => e.pushes = none) c c' ∧ ∀ w, (c'.loc w).pc = .exited) ↔
      Steady c ∧ n ≤ markers c) ∧
    (Steady c ∧ n ≤ markers c →
      ∃ c', (subDaemons P).Reaches (fun e => e.working = true) c c' ∧ ∀ w, (c'.loc w).pc = .exited) := by
  have hquiet : ∀ e : Ev (Fin n) K, e.working = true → e.pushes = none := fun e he =>
    pushes_of_peaceful (peaceful_of_working he)
  have hfin : Steady c ∧ n ≤ markers c →
      ∃ c', (subDaemons P).Reaches (fun e => e.working = true) c c' ∧ ∀ w, (c'.loc w).pc = .exited := by
    intro hc
    have hdrive : ∀ c, ∀ w ∈ List.finRange n, (Steady c ∧ n ≤ markers c) →
        ∃ d, (subDaemons P).Reaches (fun e => (subDaemons P).who e = some w ∧ e.working = true) c d ∧
          (Steady d ∧ n ≤ markers d) ∧ (d.loc w).pc = .exited := by
      rintro c w - ⟨hs, hn⟩
      have hleave : CanLeave P w c := (hs w).elim (fun ha => can_leave ha (marker_found hn w)) fun hx => gets_refl _ hx
      obtain ⟨d, hd, hx⟩ := hleave
      have hsteady : Steady c → Steady d := by
        obtain ⟨tr, hrun, hp⟩ := hd
        exact run_rel (subDaemons P) (R := fun c d => Steady c → Steady d) (fun _ => id)
          (fun _ _ _ h1 h2 => h2 ∘ h1) (fun _ _ _ hp he => steady_on he hp.2) hp hrun
      have hkept : markers d = markers c := markers_kept (fun e he => hquiet e he.2) hd
      exact ⟨d, hd, ⟨hsteady hs, hkept ▸ hn⟩, hx⟩
    obtain ⟨c', hc', -, hx⟩ := reaches_sweep (subDaemons P) (I := fun c => Steady c ∧ n ≤ markers c)
      (Q := fun l => l.pc = .exited) (p := fun e => e.working = true) (List.finRange n) hdrive c hc
    exact ⟨c', hc', fun w => hx w (List.mem_finRange w)⟩
  refine ⟨⟨?_, fun h => ?_⟩, hfin⟩
  · rintro ⟨c', hc', hx⟩
    have hkept : markers c' = markers c := markers_kept (fun _ => id) hc'
    have hall : ∀ w, (c'.loc w).marker = 1 := fun w => if_pos (.inl (hx w))
    have hsum : ∑ w, (c'.loc w).marker = n := by simp [hall]
    obtain ⟨tr, hrun, hp⟩ := hc'
    have hsteady : Steady c' → Steady c :=
      run_rel (subDaemons P) (R := fun c d => Steady d → Steady c) (fun _ => id)
        (fun _ _ _ h1 h2 => h1 ∘ h2) (fun _ _ _ _ he => steady_back he) hp hrun
    refine ⟨hsteady fun w => .inr (hx w), ?_⟩
    rw [← hkept, markers, Config.funds]
    omega
  · obtain ⟨c', hc', hx⟩ := hfin h
    exact ⟨c', reaches_mono _ hquiet hc', hx⟩

end SubDaemon

end RedisQueue
