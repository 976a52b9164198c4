import RedisQueue.Drain
import RedisQueue.Hands
import RedisQueue.Linearizable

/-!
# The workers as a Kubernetes Job

The worker Jobs of both prototypes run several pods with `restartPolicy: OnFailure`
(`worker-job.yaml`): a container that fails is started again, from the beginning and with a new
session, and one that has exited with 0 stays down. A `Pod` is the number of the running
incarnation with its local state.

| here | there |
| --- | --- |
| `Container` | the `command` of the pod: its automaton, where it starts, and when it has failed |
| `PodEv.restart` | `restartPolicy: OnFailure` (`gpu_workload_v1`, `_v2/redis_worker/templates/worker-job.yaml:11`) |
| `pythonPod` | `python3 /daemon.py redis-server 6379 foo --action=sub` (`_v2`, `:15`) |

A failed pod need not be started again, so that a Job that has given up (its back-off limit) is
a run too. Each incarnation is a worker of its own to the queue, so a run of the Job is a run of
`W × ℕ` workers (`run_of_job`). What a pod had in its hands when it failed, no later incarnation
gets back: a payload is worked on at most as often as it was pushed (`job_no_rework`), and from the
first such failure on no pod leaves any more (`job_blocked`).
-/
namespace RedisQueue
open Interleave

variable {W K L : Type}

structure Container (W K L : Type) where
  move : L → Ev (W × ℕ) K → Option L
  init : L
  /-- The container has ended, and not with 0. -/
  failed : L → Bool
  stopped : ∀ l, failed l = true → ∀ e, move l e = none

@[ext] structure Pod (L : Type) where
  incarnation : ℕ
  worker : L

inductive PodEv (W K : Type) where
  | act (e : Ev (W × ℕ) K)
  | restart (w : W)

def PodEv.who : PodEv W K → Option W
  | .act e => e.who.map Prod.fst
  | .restart w => some w

def PodEv.act? : PodEv W K → Option (Ev (W × ℕ) K)
  | .act e => some e
  | .restart _ => none

/-- What the workers and publishers did, the restarts left out. -/
def podActs (tr : List (PodEv W K)) : List (Ev (W × ℕ) K) := tr.filterMap PodEv.act?

@[simp] theorem podActs_snoc (tr : List (PodEv W K)) (e : PodEv W K) : podActs (tr ++ [e]) = podActs tr ++ e.act?.toList :=
  filterMap_snoc _ tr e

theorem podActs_append (tr tr' : List (PodEv W K)) : podActs (tr ++ tr') = podActs tr ++ podActs tr' := List.filterMap_append

def Container.podMove (C : Container W K L) : Pod L → PodEv W K → Option (Pod L)
  | ⟨n, l⟩, .act e => if e.who.map Prod.snd = some n then (C.move l e).map (⟨n, ·⟩) else none
  | ⟨n, l⟩, .restart _ => if C.failed l then some ⟨n + 1, C.init⟩ else none

def jobs [DecidableEq K] (C : Container W K L) (P : Params (W × ℕ) K) :
    System W (PodEv W K) (Server K) (Pod L) where
  who := PodEv.who
  serve
    | s, .act e => serve P s e
    | s, .restart _ => some s
  move := C.podMove

/-- Every pod in its first incarnation, the queue in state `s`. -/
def jobLaunch (C : Container W K L) (s : Server K) : Config W (Server K) (Pod L) := ⟨s, fun _ => ⟨0, C.init⟩⟩

/-! ## The incarnations are workers of one queue -/

/-- The workers `d` are the incarnations of the pods `c`, past, present and future. -/
structure Shadows (C : Container W K L) (c : Config W (Server K) (Pod L)) (d : Config (W × ℕ) (Server K) L) :
    Prop where
  srv : d.srv = c.srv
  present : ∀ w, d.loc (w, (c.loc w).incarnation) = (c.loc w).worker
  past : ∀ w n, n < (c.loc w).incarnation → C.failed (d.loc (w, n)) = true
  future : ∀ w n, (c.loc w).incarnation < n → d.loc (w, n) = C.init

theorem shadows_launch (C : Container W K L) (s : Server K) :
    Shadows C (jobLaunch C s) ⟨s, fun _ => C.init⟩ := by
  refine ⟨rfl, fun _ => rfl, fun w n h => ?_, fun _ _ _ => rfl⟩
  exact absurd h (Nat.not_lt_zero n)

section Jobs
variable [DecidableEq W] [DecidableEq K] {C : Container W K L} {P : Params (W × ℕ) K} {s : Server K}
  {tr : List (PodEv W K)} {c c' : Config W (Server K) (Pod L)} {d : Config (W × ℕ) (Server K) L}

theorem exec_restart {w : W} : (jobs C P).exec c (.restart w) = some c' ↔
    C.failed (c.loc w).worker = true ∧
      c' = ⟨c.srv, Function.update c.loc w ⟨(c.loc w).incarnation + 1, C.init⟩⟩ := by
  rw [exec_client (jobs C P) (w := w) rfl]
  simp only [jobs, Container.podMove]
  constructor
  · rintro ⟨hs, l, hl, hloc⟩
    split at hl <;> cases hl
    rename_i hf
    exact ⟨hf, Config.ext (Option.some.inj hs).symm hloc⟩
  · rintro ⟨hf, rfl⟩
    exact ⟨rfl, _, if_pos hf, rfl⟩

/-- A pod's step is the step of its running incarnation. -/
theorem exec_podAct {e : Ev (W × ℕ) K} {w : W} {n : ℕ} (hw : e.who = some (w, n)) :
    (jobs C P).exec c (.act e) = some c' ↔ n = (c.loc w).incarnation ∧ serve P c.srv e = some c'.srv ∧
      ∃ l, C.move (c.loc w).worker e = some l ∧ c'.loc = Function.update c.loc w ⟨n, l⟩ := by
  have hwho : (jobs C P).who (.act e) = some w := by simp [jobs, PodEv.who, hw]
  rw [exec_client (jobs C P) hwho]
  simp only [jobs, Container.podMove, hw, Option.map_some, Option.some.injEq]
  constructor
  · rintro ⟨hs, p, hp, hloc⟩
    split at hp
    · rename_i hn
      obtain ⟨l, hl, rfl⟩ := Option.map_eq_some_iff.1 hp
      exact ⟨hn, hs, l, hl, hn ▸ hloc⟩
    · cases hp
  · rintro ⟨rfl, hs, l, hl, hloc⟩
    exact ⟨hs, _, by rw [if_pos rfl, hl]; rfl, hloc⟩

theorem exec_podAct_env {e : Ev (W × ℕ) K} (hw : e.who = none) :
    (jobs C P).exec c (.act e) = some c' ↔ serve P c.srv e = some c'.srv ∧ c'.loc = c.loc := by
  have hwho : (jobs C P).who (.act e) = none := by simp [jobs, PodEv.who, hw]
  exact exec_env (jobs C P) hwho

theorem incarnation_of_act {e : Ev (W × ℕ) K} (he : (jobs C P).exec c (.act e) = some c') (x : W) :
    (c'.loc x).incarnation = (c.loc x).incarnation := by
  cases hw : e.who with
  | none => rw [((exec_podAct_env hw).1 he).2]
  | some i =>
    obtain ⟨w, n⟩ := i
    obtain ⟨rfl, -, l, -, hloc⟩ := (exec_podAct hw).1 he
    by_cases hx : x = w
    · subst hx; rw [hloc, Function.update_self]
    · rw [hloc, Function.update_of_ne hx]

/-- The incarnations take the steps of the pods. -/
theorem shadows_step {e : PodEv W K} (hR : Shadows C c d) (he : (jobs C P).exec c e = some c') :
    ∃ d', (workers C.move P).run d e.act?.toList = some d' ∧ Shadows C c' d' := by
  cases e with
  | restart w =>
    obtain ⟨hf, rfl⟩ := exec_restart.1 he
    refine ⟨d, rfl, hR.srv, fun x => ?_, fun x n hn => ?_, fun x n hn => ?_⟩
    · by_cases hx : x = w
      · subst hx
        simp only [Function.update_self]
        exact hR.future x _ (Nat.lt_succ_self _)
      · simp only [Function.update_of_ne hx]
        exact hR.present x
    · by_cases hx : x = w
      · subst hx
        simp only [Function.update_self] at hn
        rcases Nat.lt_succ_iff_lt_or_eq.1 hn with hn | rfl
        · exact hR.past x n hn
        · rw [hR.present x]; exact hf
      · simp only [Function.update_of_ne hx] at hn
        exact hR.past x n hn
    · by_cases hx : x = w
      · subst hx
        simp only [Function.update_self] at hn
        exact hR.future x n (by omega)
      · simp only [Function.update_of_ne hx] at hn
        exact hR.future x n hn
  | act e =>
    cases hw : e.who with
    | none =>
      obtain ⟨hs, hloc⟩ := (exec_podAct_env hw).1 he
      have hd : (workers C.move P).exec d e = some ⟨c'.srv, d.loc⟩ :=
        (exec_env (workers C.move P) hw).2 ⟨hR.srv ▸ hs, rfl⟩
      refine ⟨_, (run_cons _).2 ⟨_, hd, rfl⟩, rfl, ?_, ?_, ?_⟩
      · rw [hloc]; exact hR.present
      · rw [hloc]; exact hR.past
      · rw [hloc]; exact hR.future
    | some i =>
      obtain ⟨w, n⟩ := i
      obtain ⟨rfl, hs, l, hl, hloc⟩ := (exec_podAct hw).1 he
      have hd : (workers C.move P).exec d e =
          some ⟨c'.srv, Function.update d.loc (w, (c.loc w).incarnation) l⟩ :=
        (exec_client (workers C.move P) hw).2 ⟨hR.srv ▸ hs, l, by rw [hR.present w]; exact hl, rfl⟩
      have hinc := incarnation_of_act he
      refine ⟨_, (run_cons _).2 ⟨_, hd, rfl⟩, rfl, fun x => ?_, fun x n hn => ?_, fun x n hn => ?_⟩
      · by_cases hx : x = w
        · subst hx
          simp only [hloc, Function.update_self]
        · rw [hinc, hloc, Function.update_of_ne hx]
          exact (Function.update_of_ne (fun h => hx (congrArg Prod.fst h)) _ _).trans (hR.present x)
      · rw [hinc] at hn
        have hne : (x, n) ≠ (w, (c.loc w).incarnation) := by
          rintro ⟨⟩
          exact Nat.lt_irrefl _ hn
        simp only [Function.update_of_ne hne]
        exact hR.past x n hn
      · rw [hinc] at hn
        have hne : (x, n) ≠ (w, (c.loc w).incarnation) := by
          rintro ⟨⟩
          exact Nat.lt_irrefl _ hn
        simp only [Function.update_of_ne hne]
        exact hR.future x n hn

/-- **A Job is a queue with more workers**: its run, without the restarts, is a run of the incarnations. -/
theorem run_of_job_from (h : (jobs C P).run c tr = some c') (hR : Shadows C c d) :
    ∃ d', (workers C.move P).run d (podActs tr) = some d' ∧ Shadows C c' d' := by
  rw [podActs, List.filterMap_eq_flatMap_toList]
  exact run_simulates (jobs C P) (workers C.move P) (R := Shadows C) (p := fun _ => True)
    (fun _ _ _ _ _ hR he => shadows_step hR he) (fun _ _ => trivial) hR h

theorem run_of_job (h : (jobs C P).run (jobLaunch C s) tr = some c) :
    ∃ d, (workers C.move P).run ⟨s, fun _ => C.init⟩ (podActs tr) = some d ∧ Shadows C c d :=
  run_of_job_from h (shadows_launch C s)

end Jobs

/-! ## The Python Job -/

def pythonPod : Container W K Worker where
  move := Worker.move
  init := ⟨.probe false .main, true⟩
  failed l := !l.alive
  stopped l hl e := by
    obtain ⟨pc, alive⟩ := l
    cases alive with
    | true => cases hl
    | false => exact Option.eq_none_iff_forall_ne_some.2 fun l' h => nomatch move_iff.1 h

/-- The pod has exited with 0: "Queue empty, exiting". -/
def Pod.Done (p : Pod Worker) : Prop := p.worker.pc = .exited

/-- A worker leaves on reading that nothing is being processed. -/
theorem leave_of_move {l l' : Worker} {e : Ev W K} (h : l.move e = some l') (hl : l.pc ≠ .exited)
    (hl' : l'.pc = .exited) : ∃ w, e = .llen w .processing 0 := by
  cases move_iff.1 h with
  | probeProcessing g w n =>
    cases n with
    | zero => exact ⟨w, rfl⟩
    | succ n => cases g <;> cases hl'
  | probeMain g w n => by_cases hn : n = 0 <;> cases g <;> simp [hn, afterEmpty] at hl'
  | pop w v => by_cases hv : v = [] <;> simp [hv] at hl'
  | crash w pc hx => exact absurd hl' hx
  | _ => cases hl'

section Daemon
variable [DecidableEq W] [DecidableEq K] {P : Params W K} {evs : List (Ev W K)} {s : Server K}
  {d d' : Config W (Server K) Worker}

/-- Workers work on a payload at most as often as it was pushed. -/
theorem worked_subperm (h : (daemon P).run (launch s) evs = some d) :
    ((worked evs).map Prod.snd).Subperm (s.main ++ published evs) := by
  have hwork : (worked evs).Subperm (handed evs) := by
    refine List.subperm_ext_iff.2 fun ⟨w, v⟩ _ => ?_
    have hbal := work_ledger w v h
    simp [launch] at hbal
    omega
  obtain ⟨l, hperm, hsub⟩ := hwork
  have hmap : ((worked evs).map Prod.snd).Subperm ((handed evs).map Prod.snd) :=
    ⟨l.map Prod.snd, hperm.map _, hsub.map _⟩
  refine hmap.trans (List.subperm_ext_iff.2 fun v _ => ?_)
  have hbal := main_ledger v (client_run_of_daemon h)
  simp only [ready] at hbal
  rw [List.count_append]
  omega

end Daemon

theorem published_podActs_le (v : Bytes) (tr tr' : List (PodEv W K)) :
    (published (podActs tr)).count v ≤ (published (podActs (tr ++ tr'))).count v := by
  rw [podActs_append, published, published, List.filterMap_append, List.count_append]
  exact Nat.le_add_right _ _

section Python
variable [DecidableEq W] [DecidableEq K] {P : Params (W × ℕ) K} {tr tr' : List (PodEv W K)}
  {c c' : Config W (Server K) (Pod Worker)} {s : Server K}

/-- The incarnations are workers of `Daemon.lean`. -/
theorem daemon_of_job (h : (jobs pythonPod P).run (jobLaunch pythonPod s) tr = some c) :
    ∃ d, (daemon P).run (launch s) (podActs tr) = some d ∧ Shadows pythonPod c d := run_of_job h

/-- **A restart repeats no work**: the Job works on a payload at most as often as it was pushed,
however often its pods fail and start again. -/
theorem job_no_rework (P : Params (W × ℕ) K) (h : (jobs pythonPod P).run (jobLaunch pythonPod s) tr = some c) :
    ((worked (podActs tr)).map Prod.snd).Subperm (s.main ++ published (podActs tr)) := by
  obtain ⟨d, hd, -⟩ := daemon_of_job h
  exact worked_subperm hd

/-- The incarnation `i` has popped `v`, has failed, and has not removed `v`. -/
structure Lost (tr : List (PodEv W K)) (c : Config W (Server K) (Pod Worker)) (i : W × ℕ) (v : Bytes) : Prop where
  popped : (i, v) ∈ handed (podActs tr)
  kept : (i, v) ∉ removed (podActs tr)
  failed : i.2 < (c.loc i.1).incarnation ∨
    i.2 = (c.loc i.1).incarnation ∧ (c.loc i.1).worker.alive = false

/-- The failed incarnation has `v` in its hands for ever. -/
theorem lost_carries {d : Config (W × ℕ) (Server K) Worker} {i : W × ℕ} {v : Bytes}
    (hd : (daemon P).run start (podActs tr) = some d) (hR : Shadows pythonPod c d)
    (h1 : (published (podActs tr)).count v ≤ 1) (hl : Lost tr c i v) :
    (d.loc i).alive = false ∧ v ∈ (d.loc i).toClient.inHand := by
  refine ⟨?_, (mem_inHand_once (client_run_of_daemon hd) h1).2 ⟨hl.popped, hl.kept⟩⟩
  obtain ⟨w, n⟩ := i
  rcases hl.failed with hn | ⟨hn, hdead⟩
  · simpa [pythonPod] using hR.past w n hn
  · obtain rfl : n = (c.loc w).incarnation := hn
    rw [hR.present w]
    exact hdead

/-- A lost payload stays in the processing list. -/
theorem lost_stays {i : W × ℕ} {v : Bytes} (h : (jobs pythonPod P).run (jobLaunch pythonPod .empty) tr = some c)
    (hl : Lost tr c i v) (h' : (jobs pythonPod P).run c tr' = some c')
    (h1 : (published (podActs (tr ++ tr'))).count v ≤ 1) : v ∈ c'.srv.processing := by
  obtain ⟨d, hd, hR⟩ := daemon_of_job h
  obtain ⟨hdead, hhand⟩ := lost_carries hd hR (Nat.le_trans (published_podActs_le v tr tr') h1) hl
  obtain ⟨d', hd', hR'⟩ := run_of_job_from h' hR
  have hrun : (daemon P).run start (podActs (tr ++ tr')) = some d' := by
    rw [podActs_append]
    exact (run_append _).2 ⟨d, hd, hd'⟩
  rw [← hR'.srv]
  refine (mem_processing_once (client_run_of_daemon hrun) h1).2 ⟨i, ?_⟩
  have hstay := dead_stays (w := i) ((worker_is_client P).run hd') hdead
  simp only [Config.map] at hstay ⊢
  rw [hstay]
  exact hhand

/-- A pod that leaves has read that nothing is being processed. -/
theorem processing_nil_of_done {e : PodEv W K} {w : W} (he : (jobs pythonPod P).exec c e = some c')
    (hc : ¬ (c.loc w).Done) (hc' : (c'.loc w).Done) : c.srv.processing = [] := by
  have hw : (jobs pythonPod P).who e = some w := by
    by_contra hw
    rw [exec_frame (jobs pythonPod P) hw he] at hc'
    exact hc hc'
  cases e with
  | restart x =>
    obtain rfl : x = w := Option.some.inj hw
    obtain ⟨-, rfl⟩ := exec_restart.1 he
    simp [Pod.Done, pythonPod] at hc'
  | act e =>
    obtain ⟨⟨x, n⟩, hx, hxw⟩ := Option.map_eq_some_iff.1 hw
    obtain rfl : x = w := hxw
    obtain ⟨-, hs, l, hl, hloc⟩ := (exec_podAct hx).1 he
    rw [Pod.Done, hloc, Function.update_self] at hc'
    obtain ⟨y, rfl⟩ := leave_of_move hl hc hc'
    exact List.length_eq_zero_iff.1 (serve_llen.1 hs).1

/-- **One failure blocks the Job**: when an incarnation has failed with a payload in its hands that
was pushed once, the payload stays in the processing list, nobody is handed it again, and no
further pod exits, whatever else is pushed and however often the pods are restarted. -/
theorem job_blocked (P : Params (W × ℕ) K) (h : (jobs pythonPod P).run (jobLaunch pythonPod .empty) tr = some c)
    {i : W × ℕ} {v : Bytes} (hl : Lost tr c i v) (h' : (jobs pythonPod P).run c tr' = some c')
    (h1 : (published (podActs (tr ++ tr'))).count v ≤ 1) :
    v ∈ c'.srv.processing ∧ v ∉ (handed (podActs tr')).map Prod.snd ∧
      ∀ w, (c'.loc w).Done → (c.loc w).Done := by
  refine ⟨lost_stays h hl h' h1, fun hagain => ?_, ?_⟩
  · -- it would have been handed out twice
    have hrun := (run_append (jobs pythonPod P)).2 ⟨c, h, h'⟩
    obtain ⟨d', hd', -⟩ := daemon_of_job hrun
    have hle := handed_count_le (client_run_of_daemon hd') h1
    rw [podActs_append, handed, List.filterMap_append, List.map_append, List.count_append] at hle
    have hfirst : v ∈ (handed (podActs tr)).map Prod.snd := mem_items.2 ⟨i, hl.popped⟩
    have := List.count_pos_iff.2 hfirst
    have := List.count_pos_iff.2 hagain
    simp only [handed] at *
    omega
  · refine run_induct (jobs pythonPod P) (P := fun tr' c' =>
      (published (podActs (tr ++ tr'))).count v ≤ 1 → ∀ w, (c'.loc w).Done → (c.loc w).Done)
      (fun _ _ hw => hw) ?_ tr' c' h' h1
    intro pre c₁ e c₂ hpre ih he h1 w hw
    rw [← List.append_assoc] at h1
    have h1' := Nat.le_trans (published_podActs_le v (tr ++ pre) [e]) h1
    refine ih h1' w ?_
    by_contra hnot
    have hnil := processing_nil_of_done he hnot hw
    have hmem := lost_stays h hl hpre h1'
    rw [hnil] at hmem
    cases hmem

end Python

def podParams : Params (ℕ × ℕ) Bytes := ⟨id, fun i => [i.1.toUInt8, i.2.toUInt8]⟩

/-- Pod 0 crashes with an item in its hands. -/
def podRun : List (PodEv ℕ Bytes) :=
  [.act (.rpush [97]), .act (.rpush [98]), .act (.llen (0, 0) .main 2), .act (.llen (0, 0) .main 2),
   .act (.pop (0, 0) (some [98])), .act (.crash (0, 0))]

/-- Its next incarnation does the other item, and waits. -/
def restartedRun : List (PodEv ℕ Bytes) :=
  [.restart 0, .act (.llen (0, 1) .main 1), .act (.llen (0, 1) .main 1), .act (.pop (0, 1) (some [97])),
   .act (.setex (0, 1) [97]), .act (.work (0, 1) [97]), .act (.lrem (0, 1) [97] 1), .act (.del (0, 1) [97]),
   .act (.llen (0, 1) .main 0), .act (.llen (0, 1) .processing 1), .act (.pop (0, 1) none)]

theorem job_no_rework_restartedRun :
    ((worked (podActs (podRun ++ restartedRun))).map Prod.snd).Subperm [[97], [98]] := by
  obtain ⟨c, hc⟩ : ∃ c, (jobs pythonPod podParams).run (jobLaunch pythonPod .empty) (podRun ++ restartedRun) =
      some c := ⟨_, rfl⟩
  exact job_no_rework podParams hc

theorem job_blocked_restartedRun : ∃ c c',
    (jobs pythonPod podParams).run (jobLaunch pythonPod .empty) podRun = some c ∧
    (jobs pythonPod podParams).run c restartedRun = some c' ∧ [98] ∈ c'.srv.processing ∧
    [98] ∉ (handed (podActs restartedRun)).map Prod.snd ∧ ∀ w, (c'.loc w).Done → (c.loc w).Done := by
  obtain ⟨c, hc, hinc, hdead⟩ : ∃ c, (jobs pythonPod podParams).run (jobLaunch pythonPod .empty) podRun = some c ∧
      (c.loc 0).incarnation = 0 ∧ (c.loc 0).worker.alive = false := ⟨_, rfl, rfl, rfl⟩
  have hl : Lost podRun c (0, 0) [98] := ⟨by decide, by decide, .inr ⟨hinc.symm, hdead⟩⟩
  obtain ⟨d, hd⟩ : ∃ d, (jobs pythonPod podParams).run (jobLaunch pythonPod .empty) (podRun ++ restartedRun) =
      some d := ⟨_, rfl⟩
  obtain ⟨c₁, hc₁, hc'⟩ := (run_append _).1 hd
  obtain rfl : c = c₁ := Option.some.inj (hc.symm.trans hc₁)
  exact ⟨c, d, hc, hc', job_blocked podParams hc hl hc' (by decide)⟩

end RedisQueue
