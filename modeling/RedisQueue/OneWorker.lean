import RedisQueue.CppWorker

/-!
# One Python worker and nobody else

What the `sub` process does alone on a queue: it works off the main list from the right,
each item takes its equals out of the processing list, and the loop ends exactly when
nothing foreign was in the processing list (`worker_alone`). `RedisSubscriber.sub` is the
process with at most `n` turns of its loop.
-/
namespace RedisQueue
open Program

variable {K : Type}

/-- The `sub` action (`daemon.py:32-47`): the report, then the loop. -/
def RedisSubscriber.sub (q : RedisSubscriber K) (n : Nat) : Run K Ctl := do
  let _ ← RedisSubscriber.report (K := K)
  loop q.subTurn n

/-! ## One turn -/

section Turn
variable [DecidableEq K] (q : RedisSubscriber K) {s : Server K}

/-- The turn on an empty main list: nothing to do. -/
theorem turn_idle (hm : s.main = []) :
    (q.subTurn.run Server.handle s).out = (if s.processing = [] then .ret .leave else .ret .again) ∧
    (q.subTurn.run Server.handle s).srv = s ∧ workedItems (q.subTurn.run Server.handle s).log = [] := by
  by_cases hp : s.processing = []
  · rw [if_pos hp]
    simp [RedisSubscriber.subTurn, run_bind, run_empty, hm, hp, workedItems]
  · rw [if_neg hp, py_turn_wait q hm hp]
    exact ⟨rfl, rfl, rfl⟩

/-- The report reads the two lengths. -/
theorem run_report (s : Server K) : (RedisSubscriber.report.run Server.handle s).out = .ret .again ∧
    (RedisSubscriber.report.run Server.handle s).srv = s ∧
    workedItems (RedisSubscriber.report.run Server.handle s).log = [] := by
  by_cases hm : s.main = [] <;> simp [RedisSubscriber.report, run_bind, run_empty, hm, workedItems]

end Turn

/-! ## The whole run -/

section Alone
variable [DecidableEq K] (q : RedisSubscriber K)

/-- The queue after a worker alone has emptied the main list `M`. -/
def drained (M P : List Bytes) (L : K → Option Bytes) : Server K :=
  ⟨[], P.filter (!M.contains ·), fun k => if k ∈ M.map q.itemKey then none else L k⟩

theorem drained_nil (P : List Bytes) (L : K → Option Bytes) : drained q [] P L = ⟨[], P, L⟩ := by
  simp [drained]

theorem drained_snoc (l P : List Bytes) (L : K → Option Bytes) (v : Bytes) :
    drained q (l ++ [v]) P L = drained q l (P.filter (· ≠ v)) (Function.update L (q.itemKey v) none) := by
  refine Server.ext rfl ?_ (funext fun k => ?_)
  · simp only [drained, List.filter_filter]
    refine List.filter_congr fun u _ => ?_
    simp [Bool.and_comm]
  · simp only [drained, List.map_append, List.mem_append, List.map_cons, List.map_nil, List.mem_singleton,
      Function.update_apply]
    by_cases hk : k = q.itemKey v
    · simp [hk]
    · simp [hk]

/-- **The items**: the first turns work on the main list from the right. -/
theorem loop_items : ∀ (M : List Bytes) (P : List Bytes) (L : K → Option Bytes), (∀ v ∈ M, decode v ≠ none) →
    ∃ log, (workedItems log).map some = M.reverse.map decode ∧ ∀ n,
      (loop q.subTurn (M.length + n)).run Server.handle ⟨M, P, L⟩ =
        ⟨log ++ ((loop q.subTurn n).run Server.handle (drained q M P L)).log,
          ((loop q.subTurn n).run Server.handle (drained q M P L)).srv,
          ((loop q.subTurn n).run Server.handle (drained q M P L)).out⟩ := by
  intro M
  induction M using List.reverseRecOn with
  | nil =>
    intro P L _
    refine ⟨[], rfl, fun n => ?_⟩
    rw [drained_nil, List.length_nil, Nat.zero_add, List.nil_append]
  | append_singleton l v ih =>
    intro P L hdec
    obtain ⟨item, hd⟩ := Option.ne_none_iff_exists'.1 (hdec v (by simp))
    obtain ⟨ho, hs, hw⟩ := turn_item q (s := ⟨l ++ [v], P, L⟩) rfl hd
    obtain ⟨log, hlog, hrun⟩ := ih (P.filter (· ≠ v)) (Function.update L (q.itemKey v) none)
      fun u hu => hdec u (by simp [hu])
    refine ⟨(q.subTurn.run Server.handle ⟨l ++ [v], P, L⟩).log ++ log, ?_, fun n => ?_⟩
    · simp [hw, hlog, hd]
    · have hlen : (l ++ [v]).length + n = l.length + n + 1 := by simp; omega
      rw [hlen, run_loop_again ho, hs, hrun n, drained_snoc, List.append_assoc]

/-- With a foreign element in the processing list the loop goes on for ever. -/
theorem loop_waits {M P : List Bytes} {L : K → Option Bytes} (hdec : ∀ v ∈ M, decode v ≠ none)
    (hP : ∃ v ∈ P, v ∉ M) (n : Nat) : ((loop q.subTurn n).run Server.handle ⟨M, P, L⟩).out = .ret .again := by
  refine (run_loop_keeps (I := fun s : Server K => (∀ v ∈ s.main, decode v ≠ none) ∧
    ∃ v ∈ s.processing, v ∉ s.main) (p := fun _ => True) ?_ n ⟨M, P, L⟩ ⟨hdec, hP⟩).1
  rintro s ⟨hdec, u, hu, hum⟩
  rcases List.eq_nil_or_concat' s.main with hm | ⟨l, v, hm⟩
  · rw [py_turn_wait q hm (List.ne_nil_of_mem hu)]
    exact ⟨rfl, ⟨hdec, u, hu, hum⟩, fun _ _ => trivial⟩
  · obtain ⟨item, hd⟩ := Option.ne_none_iff_exists'.1 (hdec v (by simp [hm]))
    obtain ⟨ho, hs, -⟩ := turn_item q hm hd
    rw [hm, List.mem_append, not_or, List.mem_singleton] at hum
    refine ⟨ho, ?_, fun _ _ => trivial⟩
    rw [hs]
    refine ⟨fun x hx => hdec x (by simp [hm, hx]), u, List.mem_filter.2 ⟨hu, ?_⟩, hum.1⟩
    simpa using hum.2

/-- On an empty main list nothing is worked on any more, and the queue stays as it is. -/
theorem loop_idle {s : Server K} (hm : s.main = []) (n : Nat) :
    ((loop q.subTurn n).run Server.handle s).srv = s ∧
      workedItems ((loop q.subTurn n).run Server.handle s).log = [] := by
  obtain ⟨ho, hs, hw⟩ := turn_idle q hm
  induction n with
  | zero => exact ⟨rfl, rfl⟩
  | succ n ih =>
    by_cases hp : s.processing = []
    · rw [if_pos hp] at ho
      rw [run_loop_stop (by simp [ho])]
      exact ⟨hs, hw⟩
    · rw [if_neg hp] at ho
      rw [run_loop_again ho, hs, workedItems_append, hw]
      exact ih

variable {q}

/-- The process is its loop, as far as the queue, the work and the end are concerned. -/
theorem run_sub (n : Nat) (s : Server K) :
    ((q.sub n).run Server.handle s).out = ((loop q.subTurn n).run Server.handle s).out ∧
    ((q.sub n).run Server.handle s).srv = ((loop q.subTurn n).run Server.handle s).srv ∧
    workedItems ((q.sub n).run Server.handle s).log =
      workedItems ((loop q.subTurn n).run Server.handle s).log := by
  obtain ⟨ho, hs, hw⟩ := run_report s
  rw [RedisSubscriber.sub, run_bind, ho]
  simp only [hs, workedItems_append, hw, List.nil_append, and_self]

theorem drained_processing_nil {M P : List Bytes} {L : K → Option Bytes} :
    (drained q M P L).processing = [] ↔ ∀ v ∈ P, v ∈ M := by
  simp [drained, List.filter_eq_nil_iff]

end Alone

/-- **One worker alone**: it works on the main list from right to left, leaves the queue
`drained`, and ends exactly when nothing foreign was in the processing list. -/
theorem worker_alone [DecidableEq K] (q : RedisSubscriber K) (M P : List Bytes) (L : K → Option Bytes)
    (hM : ∀ v ∈ M, decode v ≠ none) :
    (∀ n, M.length ≤ n →
      (workedItems ((q.sub n).run Server.handle ⟨M, P, L⟩).log).map some = M.reverse.map decode ∧
      ((q.sub n).run Server.handle ⟨M, P, L⟩).srv = drained q M P L) ∧
    ((∃ n, ((q.sub n).run Server.handle ⟨M, P, L⟩).out = .ret .leave) ↔ ∀ v ∈ P, v ∈ M) ∧
    ((∃ v ∈ P, v ∉ M) → ∀ n, ((q.sub n).run Server.handle ⟨M, P, L⟩).out = .ret .again) := by
  obtain ⟨log, hlog, hrun⟩ := loop_items q M P L hM
  have hwait : (∃ v ∈ P, v ∉ M) → ∀ n, ((q.sub n).run Server.handle ⟨M, P, L⟩).out = .ret .again :=
    fun hP n => (run_sub n _).1.trans (loop_waits q hM hP n)
  refine ⟨fun n hn => ?_, ⟨fun ⟨n, hn⟩ => ?_, fun hP => ⟨M.length + 1, ?_⟩⟩, hwait⟩
  · obtain ⟨k, rfl⟩ := Nat.exists_eq_add_of_le hn
    obtain ⟨hs, hw⟩ := loop_idle q (s := drained q M P L) rfl k
    obtain ⟨-, hs', hw'⟩ := run_sub (q := q) (M.length + k) ⟨M, P, L⟩
    rw [hs', hw', hrun k, workedItems_append, hw, List.append_nil]
    exact ⟨hlog, hs⟩
  · by_contra hP
    push Not at hP
    rw [hwait hP n] at hn
    cases hn
  · have hleave := (turn_idle q (s := drained q M P L) rfl).1
    rw [if_pos (drained_processing_nil.2 hP)] at hleave
    rw [(run_sub _ _).1, hrun 1, run_loop_stop (by simp [hleave])]
    exact hleave

/-- The item twice in the main list, its equal and a foreign element in the processing list. -/
theorem worker_alone_orphan :
    ((RedisSubscriber.sub (⟨[1], id⟩ : RedisSubscriber Bytes) 7).run Server.handle
      ⟨[[97], [98], [97]], [[99], [97]], fun _ => none⟩).out = .ret .again :=
  (worker_alone ⟨[1], id⟩ [[97], [98], [97]] [[99], [97]] (fun _ => none) (by decide)).2.2
    ⟨[99], by decide, by decide⟩ 7

end RedisQueue
