import RedisQueue.Daemon

/-!
# One worker running alone

From any point of its program a live worker can go on by itself: finish the item it
carries (`finish_item`), come to its next `BRPOPLPUSH` while the main list is not empty
(`drive_to_pop`), or leave its loop when both lists are empty (`drive_to_exit`). The
exception is a worker about to decode an item that is not UTF-8.
-/
namespace RedisQueue
open Interleave

variable {W K : Type}

/-- The steps of a worker's program: no push, no crash, no expiry. -/
def Ev.working : Ev W K → Bool
  | .rpush _ | .crash _ | .expire _ => false
  | _ => true

/-- A step of the program of `w`. -/
def Solo (w : W) (e : Ev W K) : Prop := e.who = some w ∧ e.working = true

/-- Alive, in its loop or on its way there, and not about to raise. -/
def Worker.Capable (l : Worker) : Prop :=
  l.alive = true ∧ l.pc ≠ .exited ∧ ∀ u, l.pc = .setex u ∨ l.pc = .item u → decode u ≠ none

section Solo
variable [DecidableEq W] [DecidableEq K] {P : Params W K} {c : Config W (Server K) Worker} {w : W}

/-- `w` alone can come to `l`; the main list stays, the processing list may lose elements. -/
def DrivesTo (P : Params W K) (w : W) (c : Config W (Server K) Worker) (l : Worker) : Prop :=
  ∃ c', (daemon P).Reaches (Solo w) c c' ∧ c'.srv.main = c.srv.main ∧
    c'.srv.processing.Sublist c.srv.processing ∧ c'.loc w = l

theorem drivesTo_refl : DrivesTo P w c (c.loc w) :=
  ⟨c, reaches_refl _ _ c, rfl, List.Sublist.refl _, rfl⟩

/-- One step of `w`, and on from there. -/
theorem drivesTo_step {e : Ev W K} {s : Server K} {l l' l'' : Worker} (hl : c.loc w = l)
    (he : Solo w e) (hs : serve P c.srv e = some s) (hm : Worker.Step l e l')
    (hmain : s.main = c.srv.main) (hproc : s.processing.Sublist c.srv.processing)
    (hon : ∀ d : Config W (Server K) Worker, d.srv = s → d.loc w = l' → DrivesTo P w d l'') :
    DrivesTo P w c l'' := by
  have hexec := exec_step hl he.1 hs hm
  obtain ⟨c', hr, h1, h2, h3⟩ := hon ⟨s, Function.update c.loc w l'⟩ rfl (Function.update_self ..)
  exact ⟨c', reaches_trans _ (reaches_step _ he hexec) hr, h1.trans hmain, h2.trans hproc, h3⟩

theorem finish_del {v : Bytes} (hl : c.loc w = ⟨.del v, true⟩) :
    DrivesTo P w c ⟨.probe true .main, true⟩ :=
  drivesTo_step (s := c.srv.delete (P.itemKey v)) hl ⟨rfl, rfl⟩ rfl (.del w v) rfl (List.Sublist.refl _)
    fun _ _ hd => hd ▸ drivesTo_refl

theorem finish_lrem {v : Bytes} (hl : c.loc w = ⟨.lrem v, true⟩) :
    DrivesTo P w c ⟨.probe true .main, true⟩ :=
  drivesTo_step hl ⟨rfl, rfl⟩ (serve_lrem.2 ⟨rfl, rfl⟩) (.lrem w v _) rfl List.filter_sublist
    fun _ _ hd => finish_del hd

theorem finish_work {v : Bytes} (hv : decode v ≠ none) (hl : c.loc w = ⟨.item v, true⟩) :
    DrivesTo P w c ⟨.probe true .main, true⟩ :=
  drivesTo_step hl ⟨rfl, rfl⟩ rfl (.work w v hv) rfl (List.Sublist.refl _) fun _ _ hd => finish_lrem hd

theorem finish_setex {v : Bytes} (hv : decode v ≠ none) (hl : c.loc w = ⟨.setex v, true⟩) :
    DrivesTo P w c ⟨.probe true .main, true⟩ :=
  drivesTo_step (s := c.srv.setex (P.itemKey v) (P.session w)) hl ⟨rfl, rfl⟩ rfl (.setex w v) rfl
    (List.Sublist.refl _) fun _ _ hd => finish_work hv hd

/-- The program points from the pop of an item to the end of its turn. -/
def PC.busy : PC → Bool
  | .setex _ | .item _ | .lrem _ | .del _ => true
  | _ => false

/-- **A worker finishes its item** and is back at the top of its loop. -/
theorem finish_item (hc : (c.loc w).Capable) (hb : (c.loc w).pc.busy = true) :
    DrivesTo P w c ⟨.probe true .main, true⟩ := by
  obtain ⟨halive, -, hdec⟩ := hc
  obtain ⟨pc, hpc⟩ : ∃ pc, c.loc w = ⟨pc, true⟩ := ⟨(c.loc w).pc, Worker.ext rfl halive⟩
  rw [hpc] at hb hdec
  cases pc with
  | setex v => exact finish_setex (hdec v (.inl rfl)) hpc
  | item v => exact finish_work (hdec v (.inr rfl)) hpc
  | lrem v => exact finish_lrem hpc
  | del v => exact finish_del hpc
  | _ => cases hb

/-! ## A queue with items -/

theorem guard_to_pop (hm : c.srv.main ≠ []) (hl : c.loc w = ⟨.probe true .main, true⟩) :
    DrivesTo P w c ⟨.pop, true⟩ := by
  refine drivesTo_step hl ⟨rfl, rfl⟩ (serve_llen.2 ⟨rfl, rfl⟩) (.probeMain true w _) rfl
    (List.Sublist.refl _) fun d _ hd => ?_
  have hlen : (c.srv.queue .main).length ≠ 0 := fun h => hm (List.length_eq_zero_iff.1 h)
  rw [if_neg hlen] at hd
  exact hd ▸ drivesTo_refl

theorem report_to_guard (hm : c.srv.main ≠ []) (hl : c.loc w = ⟨.probe false .main, true⟩) :
    DrivesTo P w c ⟨.probe true .main, true⟩ := by
  refine drivesTo_step hl ⟨rfl, rfl⟩ (serve_llen.2 ⟨rfl, rfl⟩) (.probeMain false w _) rfl
    (List.Sublist.refl _) fun d _ hd => ?_
  have hlen : (c.srv.queue .main).length ≠ 0 := fun h => hm (List.length_eq_zero_iff.1 h)
  rw [if_neg hlen] at hd
  exact hd ▸ drivesTo_refl

theorem drivesTo_trans {l l' : Worker} (h : DrivesTo P w c l)
    (h' : ∀ d : Config W (Server K) Worker, d.srv.main = c.srv.main →
      d.srv.processing.Sublist c.srv.processing → d.loc w = l → DrivesTo P w d l') :
    DrivesTo P w c l' := by
  obtain ⟨d, hr, hm, hp, hl⟩ := h
  obtain ⟨c', hr', hm', hp', hl'⟩ := h' d hm hp hl
  exact ⟨c', reaches_trans _ hr hr', hm'.trans hm, hp'.trans hp, hl'⟩

/-- **A worker comes to its next pop** when there is something to pop, unless it is about
to read the length of the processing list. -/
theorem drive_to_pop (hm : c.srv.main ≠ []) (hc : (c.loc w).Capable)
    (hread : ∀ g, (c.loc w).pc ≠ .probe g .processing) : DrivesTo P w c ⟨.pop, true⟩ := by
  obtain ⟨pc, hpc⟩ : ∃ pc, c.loc w = ⟨pc, true⟩ := ⟨(c.loc w).pc, Worker.ext rfl hc.1⟩
  have hbusy : pc.busy = true → DrivesTo P w c ⟨.pop, true⟩ := fun hb =>
    drivesTo_trans (finish_item hc (by rw [hpc]; exact hb)) fun d hd _ hl => guard_to_pop (hd ▸ hm) hl
  cases pc with
  | probe g q =>
    cases q with
    | processing => rw [hpc] at hread; exact absurd rfl (hread g)
    | main =>
      cases g with
      | true => exact guard_to_pop hm hpc
      | false => exact drivesTo_trans (report_to_guard hm hpc) fun d hd _ hl => guard_to_pop (hd ▸ hm) hl
  | pop => exact hpc ▸ drivesTo_refl
  | exited => rw [hpc] at hc; exact absurd rfl hc.2.1
  | setex v => exact hbusy rfl
  | item v => exact hbusy rfl
  | lrem v => exact hbusy rfl
  | del v => exact hbusy rfl

/-! ## An empty queue -/

theorem read_processing {g : Bool} {n : Nat} (hn : c.srv.processing.length = n)
    (hl : c.loc w = ⟨.probe g .processing, true⟩) : DrivesTo P w c ⟨afterEmpty g (n = 0), true⟩ :=
  drivesTo_step (e := .llen w .processing n) hl ⟨rfl, rfl⟩ (serve_llen.2 ⟨hn, rfl⟩) (.probeProcessing g w n)
    rfl (List.Sublist.refl _) fun _ _ hd => hd ▸ drivesTo_refl

theorem guard_to_exit (hm : c.srv.main = []) (hp : c.srv.processing = [])
    (hl : c.loc w = ⟨.probe true .main, true⟩) : DrivesTo P w c ⟨.exited, true⟩ := by
  refine drivesTo_step hl ⟨rfl, rfl⟩ (serve_llen.2 ⟨rfl, rfl⟩) (.probeMain true w _) rfl
    (List.Sublist.refl _) fun d hs hd => ?_
  have hlen : (c.srv.queue .main).length = 0 := List.length_eq_zero_iff.2 hm
  rw [if_pos hlen] at hd
  exact read_processing (n := 0) (by rw [hs, hp]; rfl) hd

/-- **A worker leaves its loop** when both lists are empty and it carries nothing. -/
theorem drive_to_exit (hm : c.srv.main = []) (hp : c.srv.processing = []) (ha : (c.loc w).alive = true)
    (hb : (c.loc w).pc.busy = false) : DrivesTo P w c ⟨.exited, true⟩ := by
  have hempty : ∀ d : Config W (Server K) Worker, d.srv.main = c.srv.main →
      d.srv.processing.Sublist c.srv.processing → d.srv.main = [] ∧ d.srv.processing = [] := by
    intro d h1 h2
    exact ⟨h1.trans hm, List.sublist_nil.1 (hp ▸ h2)⟩
  have hguard : DrivesTo P w c ⟨.probe true .main, true⟩ → DrivesTo P w c ⟨.exited, true⟩ := fun h =>
    drivesTo_trans h fun d h1 h2 hl => guard_to_exit (hempty d h1 h2).1 (hempty d h1 h2).2 hl
  obtain ⟨pc, hpc⟩ : ∃ pc, c.loc w = ⟨pc, true⟩ := ⟨(c.loc w).pc, Worker.ext rfl ha⟩
  rw [hpc] at hb
  cases pc with
  | probe g q =>
    cases g with
    | true =>
      cases q with
      | main => exact guard_to_exit hm hp hpc
      | processing => exact read_processing (n := 0) (by rw [hp]; rfl) hpc
    | false =>
      cases q with
      | processing => exact hguard (read_processing rfl hpc)
      | main =>
        refine hguard (drivesTo_step hpc ⟨rfl, rfl⟩ (serve_llen.2 ⟨rfl, rfl⟩) (.probeMain false w _) rfl
          (List.Sublist.refl _) fun d hs hd => ?_)
        split at hd
        · exact read_processing rfl hd
        · exact hd ▸ drivesTo_refl
  | pop =>
    refine hguard (drivesTo_step hpc ⟨rfl, rfl⟩ (serve_pop_none.2 ⟨hm, rfl⟩) (.timeout w) rfl
      (List.Sublist.refl _) fun _ _ hd => hd ▸ drivesTo_refl)
  | exited => exact hpc ▸ drivesTo_refl
  | _ => cases hb

end Solo

end RedisQueue
