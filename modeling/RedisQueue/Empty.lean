import RedisQueue.HandOver

/-!
# What `empty()` tells a worker

`empty()` reads the main list first and the processing list second, in two commands
(`worker.py:47-48`). An item on its way through the queue moves in the same direction,
so once publishing is over a True answer is final (`no_false_exit`). While publishers are
active it is not a snapshot: a push between the two reads goes unseen, and the processing
list may be emptied before it is read (`empty_not_snapshot`, `snapshot_of_quiet`).
-/
namespace RedisQueue
open Interleave

variable {W K : Type} [DecidableEq W] [DecidableEq K] {P : Params W K}

/-- The events from the start of a call of `empty()` by `w` to its answer True. -/
def TrueCall (w : W) (call : List (Ev W K)) : Prop :=
  ∃ gap mid, call = gap ++ .llen w .main 0 :: (mid ++ [.llen w .processing 0]) ∧
    ∀ e ∈ gap ++ mid, e.who ≠ some w

/-- `c'` has both lists empty. -/
def BothEmpty {L : Type} (c : Config W (Server K) L) : Prop := c.srv.main = [] ∧ c.srv.processing = []

section Quiet
variable {tr : List (Ev W K)} {c c' : Config W (Server K) Worker}

theorem main_nil_step {e : Ev W K} (he : (daemon P).exec c e = some c') (hp : e.pushes = none)
    (hm : c.srv.main = []) : c'.srv.main = [] := by
  rcases serve_lists (exec_serve (daemon P) he) with
    ⟨_, _, _, h, _⟩ | ⟨x, rfl, _, _⟩ | ⟨w, x, rfl, h, _⟩ | ⟨w, x, n, rfl, _, h, _⟩
  · exact h.trans hm
  · cases hp
  · rw [hm] at h; simp at h
  · exact h.trans hm

/-- Without pushes an empty main list stays empty. -/
theorem main_stays_nil (h : (daemon P).run c tr = some c') (hq : ∀ e ∈ tr, e.pushes = none)
    (hm : c.srv.main = []) : c'.srv.main = [] :=
  run_rel (daemon P) (R := fun c c' => c.srv.main = [] → c'.srv.main = [])
    (p := fun e => e.pushes = none) (fun _ h => h) (fun _ _ _ h1 h2 h => h2 (h1 h))
    (fun _ _ _ hp he hm => main_nil_step he hp hm) hq h hm

/-- Without pushes, two empty lists stay empty. -/
theorem bothEmpty_stays (h : (daemon P).run c tr = some c') (hq : ∀ e ∈ tr, e.pushes = none)
    (hb : BothEmpty c) : BothEmpty c' := by
  refine run_rel (daemon P) (R := fun c c' => BothEmpty c → BothEmpty c')
    (p := fun e => e.pushes = none) (fun _ h => h) (fun _ _ _ h1 h2 h => h2 (h1 h)) ?_ hq h hb
  rintro c e c' hp he ⟨hm, hr⟩
  rcases serve_lists (exec_serve (daemon P) he) with
    ⟨_, _, _, h, h'⟩ | ⟨x, rfl, _, _⟩ | ⟨w, x, rfl, h, _⟩ | ⟨w, x, n, rfl, _, h, h'⟩
  · exact ⟨h.trans hm, h'.trans hr⟩
  · cases hp
  · rw [hm] at h; simp at h
  · exact ⟨h.trans hm, by rw [h', hr]; rfl⟩

/-- A worker about to remove `v` has worked on it. -/
theorem worked_of_lrem : ∀ tr c, (daemon P).run start tr = some c →
    ∀ w v, (c.loc w).pc = .lrem v → (w, v) ∈ worked tr := by
  refine run_induct (daemon P) (by simp [start, launch]) ?_
  intro tr c e c' hrun ih he w v hpc
  rw [worked_snoc]
  by_cases hw : e.who = some w
  · rcases move_to_lrem (exec_move (daemon P) hw he) hpc with hpc | ⟨x, rfl⟩
    · exact List.mem_append_left _ (ih w v hpc)
    · cases hw
      exact List.mem_append_right _ (by simp [Ev.works])
  · have hframe := exec_frame (daemon P) hw he
    exact List.mem_append_left _ (ih w v (hframe ▸ hpc))

/-- `v` was removed, after its last pop, by a worker that was handed it and worked on it. -/
def CompletedLast (tr : List (Ev W K)) (v : Bytes) : Prop :=
  ∃ w n before after, tr = before ++ .lrem w v n :: after ∧ v ∉ (handed after).map Prod.snd ∧
    (w, v) ∈ handed before ∧ (w, v) ∈ worked before

/-- A popped payload is in the processing list, or the last thing that happened to it is its
removal by a worker that had finished with it. -/
theorem popped_or_completed : ∀ tr c, (daemon P).run start tr = some c →
    ∀ v ∈ (handed tr).map Prod.snd, v ∈ c.srv.processing ∨ CompletedLast tr v := by
  refine run_induct (daemon P) (by simp [handed]) ?_
  intro tr c e c' hrun ih he v hv
  rcases serve_lists (exec_serve (daemon P) he) with
    ⟨_, h2, _, _, hp⟩ | ⟨x, rfl, _, hp⟩ | ⟨w, x, rfl, _, hp⟩ | ⟨w, x, n, rfl, _, _, hp⟩
  · rw [handed_snoc, h2, Option.toList, List.append_nil] at hv
    rcases ih v hv with h | ⟨w, n, l, r, rfl, hr, hh, hw⟩
    · exact .inl (hp ▸ h)
    · exact .inr ⟨w, n, l, r ++ [e], by simp, by simpa [h2] using hr, hh, hw⟩
  · rw [handed_snoc] at hv
    rcases ih v (by simpa [Ev.hands] using hv) with h | ⟨w, n, l, r, rfl, hr, hh, hw⟩
    · exact .inl (hp ▸ h)
    · exact .inr ⟨w, n, l, r ++ [.rpush x], by simp, by simpa [Ev.hands] using hr, hh, hw⟩
  · by_cases hx : v = x
    · subst hx; exact .inl (by rw [hp]; exact List.mem_cons_self)
    · have hv' : v ∈ (handed tr).map Prod.snd := by simpa [Ev.hands, hx] using hv
      rcases ih v hv' with h | ⟨w', n, l, r, rfl, hr, hh, hw⟩
      · exact .inl (by rw [hp]; exact List.mem_cons_of_mem _ h)
      · exact .inr ⟨w', n, l, r ++ [.pop w (some x)], by simp, by simpa [Ev.hands, hx] using hr, hh, hw⟩
  · have hv' : v ∈ (handed tr).map Prod.snd := by simpa [Ev.hands] using hv
    by_cases hx : v = x
    · subst hx
      have hpc : (c.loc w).pc = .lrem v := by rw [(step_lrem.1 (step_of_exec rfl he)).1]
      have hhand : v ∈ ((c.map Worker.toClient).loc w).inHand :=
        mem_toClient_inHand.2 (by rw [hpc]; rfl)
      exact .inr ⟨w, n, tr, [], rfl, by simp [handed],
        handed_of_inHand (client_run_of_daemon hrun) hhand, worked_of_lrem tr c hrun w v hpc⟩
    · rcases ih v hv' with h | ⟨w', n', l, r, rfl, hr, hh, hw⟩
      · exact .inl (by rw [hp]; exact List.mem_filter.2 ⟨h, by simpa using hx⟩)
      · exact .inr ⟨w', n', l, r ++ [.lrem w x n], by simp, by simpa [Ev.hands] using hr, hh, hw⟩

end Quiet

/-! ## Once publishing is over -/

section Quiesced
variable {w : W} {call post : List (Ev W K)} {c c' : Config W (Server K) Worker}

theorem read_zero {q : QType} (h : (daemon P).exec c (.llen w q 0) = some c') :
    c'.srv = c.srv ∧ c.srv.queue q = [] := by
  have hs : serve P c.srv (.llen w q 0) = some c'.srv := exec_serve (daemon P) h
  obtain ⟨hn, heq⟩ := serve_llen.1 hs
  exact ⟨heq, List.length_eq_zero_iff.1 hn⟩

/-- The first read finds the main list empty for good, the second the processing list. -/
theorem bothEmpty_of_trueCall (hcall : TrueCall w call) (h : (daemon P).run c call = some c')
    (hq : ∀ e ∈ call, e.pushes = none) : BothEmpty c' := by
  obtain ⟨gap, mid, rfl, -⟩ := hcall
  obtain ⟨c₁, -, h⟩ := (run_append _).1 h
  obtain ⟨c₂, hmain, h⟩ := (run_cons _).1 h
  obtain ⟨c₃, hmid, h⟩ := (run_snoc _).1 h
  obtain ⟨heq, hm⟩ := read_zero hmain
  obtain ⟨heq', hp⟩ := read_zero h
  have hm₂ : c₂.srv.main = [] := by rw [heq]; exact hm
  have hm₃ : c₃.srv.main = [] :=
    main_stays_nil hmid (fun e he => hq e (by simp [he])) hm₂
  exact ⟨by rw [heq']; exact hm₃, by rw [heq']; exact hp⟩

/-- Nothing is popped from a queue that is empty and stays so. -/
theorem handed_eq_nil_of_bothEmpty (h : (daemon P).run c post = some c') (hq : published post = [])
    (hb : BothEmpty c) : handed post = [] := by
  have hc := (worker_is_client P).run h
  suffices hnil : (handed post).map Prod.snd = [] from List.map_eq_nil_iff.1 hnil
  refine List.eq_nil_iff_forall_not_mem.2 fun v hv => ?_
  have hpos := List.count_pos_iff.2 hv
  have hbal := main_ledger v hc
  simp only [Config.map, hb.1, hq, List.count_nil] at hbal
  omega

end Quiesced

/-- **No false "queue empty, exiting"**: a call of `empty()` that starts after the last push
and answers True is right, at its second read and for ever after: every published occurrence
has been popped, and every payload completed after its last pop. -/
theorem no_false_exit (P : Params W K) {w : W} {pre call post : List (Ev W K)}
    {c : Config W (Server K) Worker} (h : (daemon P).run start (pre ++ call ++ post) = some c)
    (hcall : TrueCall w call) (hquiet : published (call ++ post) = []) :
    (∀ post₁ post₂ c₁, post = post₁ ++ post₂ →
      (daemon P).run start (pre ++ call ++ post₁) = some c₁ → BothEmpty c₁) ∧
    ((handed (pre ++ call)).map Prod.snd).Perm (published (pre ++ call ++ post)) ∧
    handed post = [] ∧
    ∀ v ∈ published (pre ++ call ++ post), CompletedLast (pre ++ call) v := by
  have hq := published_eq_nil.1 hquiet
  obtain ⟨d, hd, hpost⟩ := (run_append _).1 h
  obtain ⟨c₀, -, hrun⟩ := (run_append _).1 hd
  have hb : BothEmpty d := bothEmpty_of_trueCall hcall hrun fun e he => hq e (by simp [he])
  have hpub : published (pre ++ call ++ post) = published (pre ++ call) := by
    have hnil : published post = [] := published_eq_nil.2 fun e he => hq e (by simp [he])
    rw [published, List.filterMap_append]
    exact (congrArg _ hnil).trans (List.append_nil _)
  have hperm : ((handed (pre ++ call)).map Prod.snd).Perm (published (pre ++ call)) := by
    refine List.perm_iff_count.2 fun v => ?_
    have hbal := published_eq (v := v) (client_run_of_daemon hd)
    simp only [Config.map, hb.1, List.count_nil] at hbal
    omega
  refine ⟨?_, hpub ▸ hperm, ?_, fun v hv => ?_⟩
  · rintro post₁ post₂ c₁ rfl h₁
    obtain ⟨d', hd', h₁⟩ := (run_append _).1 h₁
    obtain rfl : d = d' := Option.some.inj (hd.symm.trans hd')
    exact bothEmpty_stays h₁ (fun e he => hq e (by simp [he])) hb
  · exact handed_eq_nil_of_bothEmpty hpost (published_eq_nil.2 fun e he => hq e (by simp [he])) hb
  · rw [hpub] at hv
    rcases popped_or_completed _ d hd v (hperm.mem_iff.2 hv) with hv | hv
    · rw [hb.2] at hv; cases hv
    · exact hv

/-- Worker 1 finds the queue empty after worker 0 has finished the one item. -/
def quietRun : List (Ev Nat Bytes) :=
  [.rpush [97], .llen 0 .main 1, .llen 1 .main 1, .llen 0 .main 1, .pop 0 (some [97])]

def quietCall : List (Ev Nat Bytes) :=
  [.setex 0 [97], .llen 1 .main 0, .work 0 [97], .lrem 0 [97] 1, .llen 1 .processing 0]

theorem no_false_exit_quietRun :
    ∃ c, (daemon plainParams).run start (quietRun ++ quietCall ++ [.del 0 [97]]) = some c ∧
      BothEmpty c ∧ CompletedLast (quietRun ++ quietCall) [97] := by
  obtain ⟨c, hc⟩ : ∃ c, (daemon plainParams).run start (quietRun ++ quietCall ++ [.del 0 [97]]) = some c :=
    ⟨_, rfl⟩
  have hcall : TrueCall 1 quietCall := ⟨[.setex 0 [97]], [.work 0 [97], .lrem 0 [97] 1], rfl, by decide⟩
  have h := no_false_exit plainParams hc hcall rfl
  exact ⟨c, hc, h.1 [.del 0 [97]] [] c rfl hc, h.2.2.2 [97] (by decide)⟩

/-! ## While publishers are active -/

/-- At some instant of the call, its start and its return included, both lists are empty. -/
def SnapshotIn (P : Params W K) (pre call : List (Ev W K)) : Prop :=
  ∃ n ≤ call.length, ∃ c, (daemon P).run start (pre ++ call.take n) = some c ∧ BothEmpty c

/-- Whenever `empty()` returns True the queue was empty at some instant of the call. -/
def EmptyIsSnapshot (P : Params W K) : Prop :=
  ∀ w pre call post c, (daemon P).run start (pre ++ call ++ post) = some c → TrueCall w call →
    SnapshotIn P pre call

/-- Worker 0 holds `a` when worker 1 reads the main list. -/
def busyRun : List (Ev Nat Bytes) :=
  [.rpush [97], .llen 0 .main 1, .llen 1 .main 1, .llen 0 .main 1, .pop 0 (some [97]), .setex 0 [97]]

/-- Between the two reads of worker 1 `b` is pushed and `a` completed. -/
def overtakenCall : List (Ev Nat Bytes) :=
  [.llen 1 .main 0, .rpush [98], .work 0 [97], .lrem 0 [97] 1, .llen 1 .processing 0]

/-- Worker 1 leaves its loop on a queue that holds an item all the time. -/
theorem empty_not_snapshot : ¬ EmptyIsSnapshot plainParams := by
  intro h
  have hcall : TrueCall 1 overtakenCall :=
    ⟨[], [.rpush [98], .work 0 [97], .lrem 0 [97] 1], rfl, by decide⟩
  obtain ⟨n, hn, c, hc, hb⟩ := h 1 busyRun overtakenCall [] _ rfl hcall
  have hnever : ∀ n ≤ overtakenCall.length,
      ((daemon plainParams).run start (busyRun ++ overtakenCall.take n)).map
        (fun c => c.srv.main.length + c.srv.processing.length) ≠ some 0 := by decide
  exact hnever n hn (by rw [hc]; simp [hb.1, hb.2])

/-- Read as empty, and nothing pushed since: still empty. -/
theorem main_nil_of_read {P : Params W K} {c c' : Config W (Server K) Worker} {w : W} {tr : List (Ev W K)}
    (h : (daemon P).run c (.llen w .main 0 :: tr) = some c') (hpush : ∀ e ∈ tr, e.pushes = none) :
    c'.srv.main = [] := by
  obtain ⟨d, hread, hrun⟩ := (run_cons _).1 h
  obtain ⟨heq, hm⟩ := read_zero hread
  exact main_stays_nil hrun hpush (by rw [heq]; exact hm)

/-- The first push between the two reads of a call that answers True, if there is one, finds
the processing list empty. -/
def FirstPushQuiet (P : Params W K) (tr : List (Ev W K)) : Prop :=
  ∀ w pre before x after post c,
    tr = pre ++ .llen w .main 0 :: (before ++ .rpush x :: (after ++ .llen w .processing 0 :: post)) →
    (∀ e ∈ before ++ after, e.who ≠ some w) → published before = [] →
    (daemon P).run start (pre ++ .llen w .main 0 :: before) = some c → c.srv.processing = []

/-- **When `empty()` is a snapshot**: in a run where no push overtakes a call of `empty()`
while an item is being processed, every True answer was right at some instant of its call. -/
theorem snapshot_of_quiet (P : Params W K) {tr : List (Ev W K)} {c : Config W (Server K) Worker}
    (h : (daemon P).run start tr = some c) (hpush : FirstPushQuiet P tr) {w : W}
    {pre call post : List (Ev W K)} (htr : tr = pre ++ call ++ post) (hcall : TrueCall w call) :
    SnapshotIn P pre call := by
  obtain ⟨gap, mid, rfl, hw⟩ := hcall
  subst htr
  obtain ⟨d, hd, -⟩ := (run_append _).1 h
  rw [← List.append_assoc] at hd
  obtain ⟨c₀, hgap, hreads⟩ := (run_append _).1 hd
  cases hpub : published mid with
  | nil =>
    -- no push: the second read is the instant
    have hq : ∀ e ∈ Ev.llen w .main 0 :: (mid ++ [Ev.llen w .processing 0]), e.pushes = none := by
      have hmid := published_eq_nil.1 hpub
      simpa [or_imp, forall_and, Ev.pushes] using hmid
    have hb : BothEmpty d :=
      bothEmpty_of_trueCall ⟨[], mid, rfl, fun e he => hw e (List.mem_append_right _ he)⟩ hreads hq
    refine ⟨_, Nat.le_refl _, d, ?_, hb⟩
    rw [List.take_length, ← List.append_assoc]
    exact hd
  | cons x xs =>
    -- the instant is the one just before the first push
    obtain ⟨before, e, after, rfl, hbefore, he, -⟩ := List.filterMap_eq_cons_iff.1 hpub
    obtain rfl : e = .rpush x := by cases e <;> cases he; rfl
    rw [List.append_assoc, ← List.cons_append] at hreads
    obtain ⟨c₂, hrun, -⟩ := (run_append _).1 hreads
    have hpre : (daemon P).run start (pre ++ gap ++ .llen w .main 0 :: before) = some c₂ :=
      (run_append _).2 ⟨c₀, hgap, hrun⟩
    have hm₂ : c₂.srv.main = [] := main_nil_of_read hrun hbefore
    have hp₂ : c₂.srv.processing = [] := by
      refine hpush w (pre ++ gap) before x after post c₂ (by simp) (fun e he => hw e ?_)
        (published_eq_nil.2 hbefore) hpre
      simp only [List.mem_append, List.mem_cons] at he ⊢
      tauto
    refine ⟨gap.length + (before.length + 1), by simp, c₂, ?_, hm₂, hp₂⟩
    have htake : (gap ++ Ev.llen w .main 0 :: (before ++ Ev.rpush x :: after ++ [Ev.llen w .processing 0])).take
        (gap.length + (before.length + 1)) = gap ++ Ev.llen w .main 0 :: before := by
      rw [List.take_length_add_append]
      simp
    rw [htake, ← List.append_assoc]
    exact hpre

/-- A push between the two reads, on an empty queue. -/
def harmlessCall : List (Ev Nat Bytes) := [.llen 1 .main 0, .rpush [97], .llen 1 .processing 0]

theorem snapshot_of_quiet_harmlessCall : SnapshotIn plainParams [] harmlessCall := by
  obtain ⟨c, hrun⟩ : ∃ c, (daemon plainParams).run start ([] ++ harmlessCall ++ []) = some c := ⟨_, rfl⟩
  have hcall : TrueCall 1 harmlessCall := ⟨[], [.rpush [97]], rfl, by decide⟩
  refine snapshot_of_quiet plainParams hrun ?_ rfl hcall
  intro w pre before x after post c htr _ _ hc
  have hempty : ∀ n ≤ harmlessCall.length,
      ((daemon plainParams).run start (harmlessCall.take n)).map (fun c => c.srv.processing.length) = some 0 := by
    decide
  have htake : harmlessCall.take (pre.length + (before.length + 1)) = pre ++ .llen w .main 0 :: before := by
    rw [show harmlessCall = _ from htr, List.take_length_add_append]
    simp
  have hlen : pre.length + (before.length + 1) ≤ harmlessCall.length := by
    rw [show harmlessCall = _ from htr]
    simp
  have hzero := hempty _ hlen
  rw [htake, hc] at hzero
  exact List.length_eq_zero_iff.1 (Option.some.inj hzero)

end RedisQueue
