import Mathlib.Algebra.BigOperators.Ring.Finset
import Mathlib.Algebra.Order.BigOperators.Group.Finset
import RedisQueue.Flow
import RedisQueue.Publisher

/-!
# Publishers and workers together

Each prototype is deployed as two Jobs on one queue: the pods of the one publish, those of the other
work, and both are started again when they fail. `Publisher.lean` has one publisher by
itself, `Job.lean` the workers under pushes from anywhere. Here the pushes are those of the publisher
pods, in any interleaving with what the worker pods do.

| here | there |
| --- | --- |
| `pushItems` | `RedisPublisher.publish` (`publisher.py:18-22`), `publish_eq` |
| `Attempt` | what the running attempt of a publisher pod has still to push; `none` after exit 0 |
| `DeployEv.fail` | an attempt fails, anywhere from its start to its exit, and is started again (`publisher-job.yaml:14`) |
| `deployment` | the publisher Job, the worker Job (`Job.lean`) and Redis |

An item is worked on at most once for every attempt of every publisher pod (`deployment_at_most`).
As long as no worker pod fails and one of them is still in its loop, everything can still be worked
on (`deployment_can_complete`), and once the publishers are through it will be if all pods end
(`deployment_complete`).
-/
namespace RedisQueue
open Program Interleave

variable {X W K L : Type}

/-! ## The publisher pods -/

abbrev Attempt := Option (List Bytes)

inductive DeployEv (X W K : Type) where
  | push (x : X) (v : Bytes)
  | fail (x : X)
  | done (x : X)
  | pod (e : PodEv W K)

def DeployEv.who : DeployEv X W K → Option (X ⊕ W)
  | .push x _ | .fail x | .done x => some (.inl x)
  | .pod e => e.who.map .inr

/-- A publisher pod's half of an event. -/
def attemptMove (items : List Bytes) : Attempt → DeployEv X W K → Option Attempt
  | some (v :: left), .push _ u => if u = v then some (some left) else none
  | some _, .fail _ => some (some items)
  | some [], .done _ => some none
  | _, _ => none

section Attempt
variable {items left : List Bytes} {a : Attempt} {x : X} {v : Bytes} {e : DeployEv X W K}

/-- What a publisher pod does, case by case. -/
theorem attempt_cases {a' : Attempt} (h : attemptMove items a e = some a') :
    (∃ x v left, e = .push x v ∧ a = some (v :: left) ∧ a' = some left) ∨
    (∃ x left, e = .fail x ∧ a = some left ∧ a' = some items) ∨
    ∃ x, e = .done x ∧ a = some [] ∧ a' = none := by
  unfold attemptMove at h
  split at h
  · split at h <;> cases h
    rename_i hv
    subst hv
    exact .inl ⟨_, _, _, rfl, rfl, rfl⟩
  · cases h
    exact .inr (.inl ⟨_, _, rfl, rfl, rfl⟩)
  · cases h
    exact .inr (.inr ⟨_, rfl, rfl, rfl⟩)
  · cases h

/-- The pod pushes what its program pushes next, and goes where the program goes. -/
theorem program_of_push (h : attemptMove (W := W) (K := K) items (some left) (.push x v) = some a) :
    ∃ rest, a = some rest ∧ pushItems (K := K) left = .call (.rpush v) fun _ => pushItems rest := by
  rcases attempt_cases h with ⟨_, _, rest, hx, hl, rfl⟩ | ⟨_, _, hx, _⟩ | ⟨_, hx, _⟩
  · cases hx
    cases hl
    exact ⟨rest, rfl, rfl⟩
  · cases hx
  · cases hx

theorem push_of_program {c : Cmd K} {k : c.Reply → Run K Unit} (h : pushItems left = .call c k) :
    ∃ v rest, c = .rpush v ∧ (∀ r, k r = pushItems rest) ∧
      attemptMove (W := W) (K := K) items (some left) (.push x v) = some (some rest) := by
  cases left with
  | nil => cases h
  | cons v rest =>
    cases h
    exact ⟨v, rest, rfl, fun _ => rfl, if_pos rfl⟩

/-- It exits where the program returns. -/
theorem done_iff : attemptMove (W := W) (K := K) items (some left) (.done x) = some a ↔
    pushItems (K := K) left = .ret () ∧ a = none := by
  cases left with
  | nil =>
    constructor
    · rintro ⟨⟩
      exact ⟨rfl, rfl⟩
    · rintro ⟨-, rfl⟩
      rfl
  | cons v left =>
    constructor
    · intro h
      cases h
    · rintro ⟨h, -⟩
      cases h

end Attempt

/-! ## Both Jobs -/

def deployment [DecidableEq K] (items : List Bytes) (C : Container W K L) (P : Params (W × ℕ) K) :
    System (X ⊕ W) (DeployEv X W K) (Server K) (Attempt ⊕ Pod L) where
  who := DeployEv.who
  serve
    | s, .push _ v => some (s.rpush v)
    | s, .fail _ | s, .done _ => some s
    | s, .pod e => if e.pushes = none then (jobs C P).serve s e else none
  move
    | .inl a, e => (attemptMove items a e).map .inl
    | .inr p, .pod e => (C.podMove p e).map .inr
    | .inr _, _ => none

/-- The queue in state `s`, every pod at its start. -/
def deploy (items : List Bytes) (C : Container W K L) (s : Server K) :
    Config (X ⊕ W) (Server K) (Attempt ⊕ Pod L) :=
  ⟨s, Sum.elim (fun _ => .inl (some items)) fun _ => .inr ⟨0, C.init⟩⟩

/-- The two Jobs of a configuration: the publisher pods `a`, and the worker pods with the queue. -/
structure Beside (c : Config (X ⊕ W) (Server K) (Attempt ⊕ Pod L)) (a : X → Attempt)
    (d : Config W (Server K) (Pod L)) : Prop where
  srv : c.srv = d.srv
  pub : ∀ x, c.loc (.inl x) = .inl (a x)
  pod : ∀ w, c.loc (.inr w) = .inr (d.loc w)

/-- What the worker Job sees of an event. -/
def DeployEv.seen : DeployEv X W K → List (PodEv W K)
  | .push _ v => [.act (.rpush v)]
  | .fail _ | .done _ => []
  | .pod e => [e]

def seen (tr : List (DeployEv X W K)) : List (PodEv W K) := tr.flatMap DeployEv.seen

section Steps
variable [DecidableEq X] [DecidableEq W] [DecidableEq K] {items : List Bytes} {C : Container W K L}
  {P : Params (W × ℕ) K} {c c' : Config (X ⊕ W) (Server K) (Attempt ⊕ Pod L)} {a : X → Attempt}
  {d d' : Config W (Server K) (Pod L)} {e : DeployEv X W K}

omit [DecidableEq X] [DecidableEq W] [DecidableEq K] in
theorem beside_deploy (items : List Bytes) (C : Container W K L) (s : Server K) :
    Beside (deploy (X := X) items C s) (fun _ => some items) (jobLaunch C s) :=
  ⟨rfl, fun _ => rfl, fun _ => rfl⟩

omit [DecidableEq K] in
theorem beside_update (hb : Beside c a d) {x : X} {a' : Attempt} {s : Server K} :
    Beside ⟨s, Function.update c.loc (.inl x) (.inl a')⟩ (Function.update a x a') ⟨s, d.loc⟩ := by
  refine ⟨rfl, fun y => ?_, fun w => ?_⟩
  · by_cases hy : y = x
    · subst hy; simp
    · have hne : (Sum.inl y : X ⊕ W) ≠ .inl x := fun h => hy (Sum.inl.inj h)
      simp [hy, hb.pub]
  · simp [hb.pod]

theorem exec_pub (hb : Beside c a d) {x : X} (hx : e.who = some (.inl x))
    (he : (deployment items C P).exec c e = some c') : ∃ a', attemptMove items (a x) e = some a' ∧
      (deployment items C P).serve c.srv e = some c'.srv ∧
      Beside c' (Function.update a x a') ⟨c'.srv, d.loc⟩ := by
  obtain ⟨hs, l, hl, hloc⟩ := (exec_client (deployment items C P) hx).1 he
  rw [hb.pub x] at hl
  obtain ⟨a', ha, rfl⟩ := Option.map_eq_some_iff.1 hl
  refine ⟨a', ha, hs, ?_⟩
  have hc' : c' = ⟨c'.srv, Function.update c.loc (.inl x) (.inl a')⟩ := Config.ext rfl hloc
  rw [hc']
  exact beside_update hb

/-- A step of the worker Job. -/
theorem exec_pod (hb : Beside c a d) {f : PodEv W K} :
    (deployment items C P).exec c (.pod f) = some c' ↔
      f.pushes = none ∧ ∃ d', (jobs C P).exec d f = some d' ∧ Beside c' a d' := by
  have hserve : (deployment (X := X) items C P).serve c.srv (.pod f) =
      if f.pushes = none then (jobs C P).serve d.srv f else none := by rw [hb.srv]; rfl
  cases hw : f.who with
  | none =>
    have hwho : (deployment (X := X) items C P).who (.pod f) = none := by simp [deployment, DeployEv.who, hw]
    rw [exec_env _ hwho, hserve, Option.ite_none_right_eq_some]
    constructor
    · rintro ⟨⟨hp, hs⟩, hloc⟩
      refine ⟨hp, ⟨c'.srv, d.loc⟩, (exec_env (jobs C P) hw).2 ⟨hs, rfl⟩, rfl, fun x => ?_, fun w => ?_⟩
      · rw [hloc]; exact hb.pub x
      · rw [hloc]; exact hb.pod w
    · rintro ⟨hp, d', hd, hb'⟩
      obtain ⟨hs, hloc⟩ := (exec_env (jobs C P) hw).1 hd
      refine ⟨⟨hp, by rw [hb'.srv]; exact hs⟩, funext fun i => ?_⟩
      cases i with
      | inl x => rw [hb.pub, hb'.pub]
      | inr w => rw [hb.pod, hb'.pod, hloc]
  | some w =>
    have hwho : (deployment (X := X) items C P).who (.pod f) = some (.inr w) := by
      simp [deployment, DeployEv.who, hw]
    rw [exec_client _ hwho, hserve, Option.ite_none_right_eq_some, hb.pod w]
    constructor
    · rintro ⟨⟨hp, hs⟩, l, hl, hloc⟩
      obtain ⟨p, hp', rfl⟩ := Option.map_eq_some_iff.1 hl
      refine ⟨hp, ⟨c'.srv, Function.update d.loc w p⟩, (exec_client (jobs C P) hw).2 ⟨hs, p, hp', rfl⟩, rfl,
        fun x => ?_, fun y => ?_⟩
      · rw [hloc]; simp [hb.pub]
      · rw [hloc]
        by_cases hy : y = w
        · subst hy; simp
        · have hne : (Sum.inr y : X ⊕ W) ≠ .inr w := fun h => hy (Sum.inr.inj h)
          simp [hy, hb.pod]
    · rintro ⟨hp, d', hd, hb'⟩
      obtain ⟨hs, p, hp', hloc⟩ := (exec_client (jobs C P) hw).1 hd
      refine ⟨⟨hp, by rw [hb'.srv]; exact hs⟩, .inr p, ?_, funext fun i => ?_⟩
      · exact (congrArg (Option.map Sum.inr) hp' : _)
      · cases i with
        | inl x => simp [hb.pub, hb'.pub]
        | inr y =>
          rw [hb'.pod, hloc]
          by_cases hy : y = w
          · subst hy; simp
          · have hne : (Sum.inr y : X ⊕ W) ≠ .inr w := fun h => hy (Sum.inr.inj h)
            simp [hy, hb.pod]

/-- **What a step can do**: a publisher pod pushes, fails or exits, or the worker Job takes a step that is
no push. -/
theorem deploy_cases (hb : Beside c a d) (he : (deployment items C P).exec c e = some c') :
    (∃ x v left, e = .push x v ∧ a x = some (v :: left) ∧
      Beside c' (Function.update a x (some left)) ⟨d.srv.rpush v, d.loc⟩) ∨
    (∃ x left, e = .fail x ∧ a x = some left ∧ Beside c' (Function.update a x (some items)) d) ∨
    (∃ x, e = .done x ∧ a x = some [] ∧ Beside c' (Function.update a x none) d) ∨
    ∃ f d', e = .pod f ∧ f.pushes = none ∧ (jobs C P).exec d f = some d' ∧ Beside c' a d' := by
  cases e with
  | pod f =>
    obtain ⟨hp, d', hd, hb'⟩ := (exec_pod hb).1 he
    exact .inr (.inr (.inr ⟨f, d', rfl, hp, hd, hb'⟩))
  | push x v =>
    obtain ⟨a', ha, hs, hb'⟩ := exec_pub hb rfl he
    obtain hs := Option.some.inj hs
    rcases attempt_cases ha with ⟨_, _, left, hx, hl, rfl⟩ | ⟨_, _, hx, _⟩ | ⟨_, hx, _⟩ <;> cases hx
    rw [← hs, hb.srv] at hb'
    exact .inl ⟨x, v, left, rfl, hl, hb'⟩
  | fail x =>
    obtain ⟨a', ha, hs, hb'⟩ := exec_pub hb rfl he
    obtain hs := Option.some.inj hs
    rcases attempt_cases ha with ⟨_, _, _, hx, _⟩ | ⟨_, left, hx, hl, rfl⟩ | ⟨_, hx, _⟩ <;> cases hx
    rw [← hs, hb.srv] at hb'
    exact .inr (.inl ⟨x, left, rfl, hl, hb'⟩)
  | done x =>
    obtain ⟨a', ha, hs, hb'⟩ := exec_pub hb rfl he
    obtain hs := Option.some.inj hs
    rcases attempt_cases ha with ⟨_, _, _, hx, _⟩ | ⟨_, _, hx, _⟩ | ⟨_, hx, hl, rfl⟩ <;> cases hx
    rw [← hs, hb.srv] at hb'
    exact .inr (.inr (.inl ⟨x, rfl, hl, hb'⟩))

/-- A step of the deployment is a step of the worker Job, or none. -/
theorem job_of_step (hb : Beside c a d) (he : (deployment items C P).exec c e = some c') :
    ∃ a' d', (jobs C P).run d e.seen = some d' ∧ Beside c' a' d' := by
  rcases deploy_cases hb he with ⟨x, v, left, rfl, _, hb'⟩ | ⟨x, left, rfl, _, hb'⟩ | ⟨x, rfl, _, hb'⟩ |
    ⟨f, d', rfl, _, hd, hb'⟩
  · refine ⟨_, _, (run_cons _).2 ⟨⟨d.srv.rpush v, d.loc⟩, ?_, rfl⟩, hb'⟩
    exact (exec_podAct_env rfl).2 ⟨rfl, rfl⟩
  · exact ⟨_, _, rfl, hb'⟩
  · exact ⟨_, _, rfl, hb'⟩
  · exact ⟨_, _, (run_cons _).2 ⟨d', hd, rfl⟩, hb'⟩

/-- **The worker Job under way**: its part of a run of the deployment is a run of it. -/
theorem job_of_deployment {tr : List (DeployEv X W K)} (hb : Beside c a d)
    (h : (deployment items C P).run c tr = some c') :
    ∃ a' d', (jobs C P).run d (seen tr) = some d' ∧ Beside c' a' d' := by
  obtain ⟨d', hd', a', hb'⟩ := run_simulates (deployment items C P) (jobs C P) (f := DeployEv.seen)
    (R := fun c d => ∃ a, Beside c a d) (p := fun _ => True) (by
      rintro c d e c' _ ⟨a, hb⟩ he
      obtain ⟨a', d', hd', hb'⟩ := job_of_step hb he
      exact ⟨d', hd', a', hb'⟩) (fun _ _ => trivial) ⟨a, hb⟩ h
  exact ⟨a', d', hd', hb'⟩

end Steps

/-! ## What the publisher pods push -/

section Account
variable [DecidableEq X]

def DeployEv.pushedBy (x : X) : DeployEv X W K → Option Bytes
  | .push y v => if y = x then some v else none
  | _ => none

def DeployEv.failed (x : X) : DeployEv X W K → Bool
  | .fail y => y = x
  | _ => false

/-- What the pod `x` has pushed, in order. -/
def pushedBy (x : X) (tr : List (DeployEv X W K)) : List Bytes := tr.filterMap (DeployEv.pushedBy x)

/-- How often the pod `x` has failed. -/
def fails (x : X) (tr : List (DeployEv X W K)) : Nat := tr.countP (DeployEv.failed x)

/-- The pushes of a pod that has failed `n` times: each failed attempt has pushed some of the first
items, and the running one those that are not left. -/
def Account (items pushes : List Bytes) (n : Nat) (a : Attempt) : Prop :=
  ∃ (kills : List Nat) (k : Nat), kills.length = n ∧ pushes = kills.flatMap (fun n => items.take n) ++ items.take k ∧
    (a = some (items.drop k) ∨ a = none ∧ items.length ≤ k)

variable [DecidableEq W] [DecidableEq K] {items : List Bytes} {C : Container W K L} {P : Params (W × ℕ) K}
  {s : Server K}

theorem account_push {pushes left : List Bytes} {v : Bytes} {n : Nat}
    (h : Account items pushes n (some (v :: left))) : Account items (pushes ++ [v]) n (some left) := by
  obtain ⟨kills, k, hn, rfl, hd⟩ := h
  have hdrop : items.drop k = v :: left := (Option.some.inj (hd.resolve_right nofun)).symm
  have hk : items[k]? = some v := by rw [← List.head?_drop, hdrop]; rfl
  refine ⟨kills, k + 1, hn, ?_, .inl ?_⟩
  · rw [List.take_add_one, hk, List.append_assoc]
    rfl
  · rw [← List.tail_drop, hdrop]
    rfl

theorem account_fail {pushes left : List Bytes} {n : Nat} (h : Account items pushes n (some left)) :
    Account items pushes (n + 1) (some items) := by
  obtain ⟨kills, k, hn, rfl, -⟩ := h
  exact ⟨kills ++ [k], 0, by simp [hn], by simp, .inl rfl⟩

theorem account_done {pushes : List Bytes} {n : Nat} (h : Account items pushes n (some [])) :
    Account items pushes n none := by
  obtain ⟨kills, k, hn, rfl, hd⟩ := h
  have hdrop : items.drop k = [] := (Option.some.inj (hd.resolve_right nofun)).symm
  exact ⟨kills, k, hn, rfl, .inr ⟨rfl, List.drop_eq_nil_iff.1 hdrop⟩⟩

/-- **Every publisher pod**: what it has pushed are beginnings of the items, one for each failure,
and those of the running attempt; all of them, when it has exited. -/
theorem account_of_run {tr : List (DeployEv X W K)} {c : Config (X ⊕ W) (Server K) (Attempt ⊕ Pod L)}
    (h : (deployment items C P).run (deploy items C s) tr = some c) :
    ∃ a d, Beside c a d ∧ ∀ x, Account items (pushedBy x tr) (fails x tr) (a x) := by
  refine run_induct (deployment items C P) (P := fun tr c => ∃ a d, Beside c a d ∧
    ∀ x, Account items (pushedBy x tr) (fails x tr) (a x)) ?_ ?_ tr c h
  · exact ⟨_, _, beside_deploy items C s, fun x => ⟨[], 0, rfl, rfl, .inl rfl⟩⟩
  · rintro tr c e c' - ⟨a, d, hb, hacc⟩ he
    have hsnoc : ∀ x, pushedBy x (tr ++ [e]) = pushedBy x tr ++ (e.pushedBy x).toList ∧
        fails x (tr ++ [e]) = fails x tr + (e.failed x).toNat := fun x =>
      ⟨filterMap_snoc _ tr e, by cases hf : e.failed x <;> simp [fails, hf]⟩
    rcases deploy_cases hb he with ⟨y, v, left, rfl, ha, hb'⟩ | ⟨y, left, rfl, ha, hb'⟩ | ⟨y, rfl, ha, hb'⟩ |
      ⟨f, d', rfl, _, _, hb'⟩
    · refine ⟨_, _, hb', fun x => ?_⟩
      rw [(hsnoc x).1, (hsnoc x).2]
      by_cases hx : x = y
      · subst hx
        simpa [DeployEv.pushedBy, DeployEv.failed] using account_push (ha ▸ hacc x)
      · simpa [DeployEv.pushedBy, DeployEv.failed, hx, Ne.symm hx] using hacc x
    · refine ⟨_, _, hb', fun x => ?_⟩
      rw [(hsnoc x).1, (hsnoc x).2]
      by_cases hx : x = y
      · subst hx
        simpa [DeployEv.pushedBy, DeployEv.failed] using account_fail (ha ▸ hacc x)
      · simpa [DeployEv.pushedBy, DeployEv.failed, hx, Ne.symm hx] using hacc x
    · refine ⟨_, _, hb', fun x => ?_⟩
      rw [(hsnoc x).1, (hsnoc x).2]
      by_cases hx : x = y
      · subst hx
        simpa [DeployEv.pushedBy, DeployEv.failed] using account_done (ha ▸ hacc x)
      · simpa [DeployEv.pushedBy, DeployEv.failed, hx] using hacc x
    · refine ⟨_, _, hb', fun x => ?_⟩
      rw [(hsnoc x).1, (hsnoc x).2]
      simpa [DeployEv.pushedBy, DeployEv.failed] using hacc x

theorem Account.count_le {pushes : List Bytes} {n : Nat} {a : Attempt} (h : Account items pushes n a) (v : Bytes) :
    pushes.count v ≤ (n + 1) * items.count v := by
  obtain ⟨kills, k, rfl, rfl, -⟩ := h
  have htake (m : Nat) : (items.take m).count v ≤ items.count v := (List.take_sublist m items).count_le v
  have hkills : (kills.flatMap fun n => items.take n).count v ≤ kills.length * items.count v := by
    induction kills with
    | nil => simp
    | cons m kills ih =>
      rw [List.flatMap_cons, List.count_append, List.length_cons, Nat.succ_mul]
      have := htake m
      omega
  rw [List.count_append, Nat.succ_mul]
  have := htake k
  omega

/-- A pod that has exited has pushed everything, in the end. -/
theorem Account.done {pushes : List Bytes} {n : Nat} (h : Account items pushes n none) :
    ∃ kills : List Nat, kills.length = n ∧ pushes = kills.flatMap (fun n => items.take n) ++ items := by
  obtain ⟨kills, k, hn, rfl, hd⟩ := h
  have hk : items.length ≤ k := (hd.resolve_left nofun).2
  exact ⟨kills, hn, by rw [List.take_of_length_le hk]⟩

/-- Only publisher pods push. -/
theorem published_eq_sum [Fintype X] {tr : List (DeployEv X W K)}
    {c c' : Config (X ⊕ W) (Server K) (Attempt ⊕ Pod L)} (v : Bytes)
    (h : (deployment items C P).run c tr = some c') :
    (published (podActs (seen tr))).count v = ∑ x, (pushedBy x tr).count v := by
  induction tr generalizing c with
  | nil => simp [published, podActs, seen, pushedBy]
  | cons e tr ih =>
    obtain ⟨d, hd, h'⟩ := (run_cons _).1 h
    have hseen : seen (e :: tr) = e.seen ++ seen tr := List.flatMap_cons
    have hpush : ∀ x, (pushedBy x (e :: tr)).count v = (e.pushedBy x).toList.count v + (pushedBy x tr).count v := by
      intro x
      cases hp : e.pushedBy x <;> simp [pushedBy, hp, List.count_cons, Nat.add_comm]
    simp only [hpush, Finset.sum_add_distrib]
    rw [hseen, podActs_append, published, List.filterMap_append, List.count_append, ← ih h', ← published]
    refine congrArg (· + _) ?_
    cases e with
    | push y u =>
      rw [Finset.sum_eq_single y]
      · simp [DeployEv.seen, DeployEv.pushedBy, published, podActs, PodEv.act?, Ev.pushes]
      · intro x _ hx
        simp [DeployEv.pushedBy, Ne.symm hx]
      · simp
    | fail y => simp [DeployEv.seen, DeployEv.pushedBy, published, podActs]
    | done y => simp [DeployEv.seen, DeployEv.pushedBy, published, podActs]
    | pod f =>
      have hs : (if f.pushes = none then (jobs C P).serve c.srv f else none) = some d.srv :=
        exec_serve (deployment items C P) hd
      have hquiet : f.pushes = none := (Option.ite_none_right_eq_some.1 hs).1
      cases f with
      | restart w => exact Finset.sum_const_zero.symm
      | act g =>
        have hg : g.pushes = none := hquiet
        simp [DeployEv.seen, DeployEv.pushedBy, published, podActs, PodEv.act?, hg]

end Account

/-- **At most once for every attempt**: whatever fails and is restarted, among the publisher pods and
among the worker pods, a payload is worked on at most as often as it is among the items, for every
attempt of every publisher pod. -/
theorem deployment_at_most [Fintype X] [DecidableEq X] [DecidableEq W] [DecidableEq K] (P : Params (W × ℕ) K)
    {items : List Bytes} {tr : List (DeployEv X W K)} {c : Config (X ⊕ W) (Server K) (Attempt ⊕ Pod Worker)}
    (h : (deployment items pythonPod P).run (deploy items pythonPod .empty) tr = some c) (v : Bytes) :
    ((worked (podActs (seen tr))).map Prod.snd).count v ≤ (∑ x, (fails x tr + 1)) * items.count v := by
  obtain ⟨a, d, hjob, -⟩ := job_of_deployment (beside_deploy items pythonPod .empty) h
  obtain ⟨d', hd', -⟩ := daemon_of_job hjob
  have hwork : ((worked (podActs (seen tr))).map Prod.snd).count v ≤ (published (podActs (seen tr))).count v :=
    (worked_subperm hd').count_le v
  obtain ⟨a', -, -, hacc⟩ := account_of_run h
  calc _ ≤ (published (podActs (seen tr))).count v := hwork
    _ = ∑ x, (pushedBy x tr).count v := published_eq_sum v h
    _ ≤ ∑ x, (fails x tr + 1) * items.count v := Finset.sum_le_sum fun x _ => (hacc x).count_le v
    _ = (∑ x, (fails x tr + 1)) * items.count v := by rw [Finset.sum_mul]

/-! ## Everything gets done -/

def PodEv.isCrash : PodEv W K → Bool
  | .act e => e.isCrash
  | .restart _ => false

def DeployEv.isCrash : DeployEv X W K → Bool
  | .pod e => e.isCrash
  | _ => false

/-- A step of a program, of either Job: no failure, no restart of a publisher, no expiry. -/
def DeployEv.working : DeployEv X W K → Bool
  | .push _ _ | .done _ => true
  | .fail _ => false
  | .pod e => e.working

theorem isCrash_of_seen {e : DeployEv X W K} (h : e.isCrash = false) : ∀ f ∈ e.seen, f.isCrash = false := by
  cases e <;> simp_all [DeployEv.seen, DeployEv.isCrash, PodEv.isCrash, Ev.isCrash]

section Pods
variable [DecidableEq W] [DecidableEq K] {P : Params (W × ℕ) K} {d d' : Config W (Server K) (Pod Worker)}
  {tr : List (PodEv W K)}

/-- Where no pod fails none is restarted, and the pods are workers under pushes. -/
theorem flowing_job_step {f : PodEv W K} (he : (jobs pythonPod P).exec d f = some d') (hq : f.isCrash = false)
    (hpush : ∀ v, f.pushes = some v → decode v ≠ none) (hf : Flowing (running d)) :
    Flowing (running d') ∧ ∀ w, (d'.loc w).incarnation = (d.loc w).incarnation := by
  cases f with
  | restart w =>
    have hdead := (running_restart he).1
    rw [hf.alive w] at hdead
    cases hdead
  | act e =>
    have hexec := exec_forget (n := fun w => (d.loc w).incarnation) (fun _ => rfl) he
    have hcrash : (e.rename Prod.fst).isCrash = false := by cases e <;> first | rfl | cases hq
    exact ⟨flowing_step hexec hcrash (by rw [rename_pushes]; exact hpush) hf, incarnation_of_act he⟩

theorem flowing_job_run (h : (jobs pythonPod P).run d tr = some d') (hq : ∀ f ∈ tr, f.isCrash = false)
    (hpush : ∀ v ∈ published (podActs tr), decode v ≠ none) (hf : Flowing (running d)) :
    Flowing (running d') ∧ ∀ w, (d'.loc w).incarnation = (d.loc w).incarnation := by
  refine run_rel (jobs pythonPod P) (p := fun f => f.isCrash = false ∧ ∀ v, f.pushes = some v → decode v ≠ none)
    (R := fun d d' => Flowing (running d) →
      Flowing (running d') ∧ ∀ w, (d'.loc w).incarnation = (d.loc w).incarnation)
    (fun _ h => ⟨h, fun _ => rfl⟩) (fun _ _ _ h1 h2 h => ?_)
    (fun _ _ _ hp he hf => flowing_job_step he hp.1 hp.2 hf) (fun f hf => ⟨hq f hf, fun v hv => hpush v ?_⟩) h hf
  · obtain ⟨hf₁, hn₁⟩ := h1 h
    obtain ⟨hf₂, hn₂⟩ := h2 hf₁
    exact ⟨hf₂, fun w => (hn₂ w).trans (hn₁ w)⟩
  · cases f with
    | restart w => cases hv
    | act e => exact List.mem_filterMap.2 ⟨e, List.mem_filterMap.2 ⟨_, hf, rfl⟩, hv⟩

/-- **A pod does not exit before the end**: out of its loop it comes, when nothing is pushed any more,
with an empty main list behind it. -/
theorem main_nil_of_done {w : W} (h : (jobs pythonPod P).run d tr = some d') (hq : ∀ f ∈ tr, f.pushes = none)
    (hl : (d.loc w).worker.Looping) (hx : (d'.loc w).Done) : d'.srv.main = [] := by
  let Seen (d : Config W (Server K) (Pod Worker)) : Prop :=
    (∃ g, ((running d).loc w).pc = .probe g .processing) ∨ ((running d).loc w).pc = .exited → d.srv.main = []
  refine run_rel (jobs pythonPod P) (R := fun d d' => Seen d → Seen d') (p := fun f => f.pushes = none)
    (fun _ h => h) (fun _ _ _ h1 h2 h => h2 (h1 h)) (fun d f d' hp he hs => ?_) hq h ?_ (.inr hx)
  · cases f with
    | restart x =>
      have hsrv : d'.srv = d.srv := by rw [(exec_restart.1 he).2]
      rintro hw
      rw [(running_restart he).2] at hw
      rw [hsrv]
      rcases startAgain_loc (running d) x w with hloc | ⟨-, hloc⟩ <;> rw [hloc] at hw
      · rcases hw with ⟨g, hw⟩ | hw <;> cases hw
      · exact hs hw
    | act e =>
      exact seen_kept (exec_forget (n := fun w => (d.loc w).incarnation) (fun _ => rfl) he)
        (by rw [rename_pushes]; exact hp) hs
  · rintro (⟨g, hg⟩ | hx)
    · exact absurd hg (hl.fresh g)
    · exact absurd hx hl.stays

/-- When all pods of a run without failures have exited, what was pushed has been worked on or is
left in the main list. -/
theorem worked_perm_of_done {s : Server K} (h : (jobs pythonPod P).run (jobLaunch pythonPod s) tr = some d)
    (hn : ∀ w, (d.loc w).incarnation = 0) (hdone : ∀ w, (d.loc w).Done) :
    (s.main ++ published (podActs tr)).Perm ((worked (podActs tr)).map Prod.snd ++ d.srv.main) := by
  obtain ⟨x, hx, hR⟩ := daemon_of_job h
  have hidle : ∀ i v, ¬((x.loc i).pc = .setex v ∨ (x.loc i).pc = .item v) := by
    rintro ⟨w, n⟩ v
    rcases Nat.eq_zero_or_pos n with rfl | hpos
    · have hloc := hR.present w
      rw [hn w] at hloc
      rw [hloc, hdone w]
      simp
    · rw [hR.future w n (by rw [hn w]; exact hpos)]
      simp [pythonPod]
  have hwork : (worked (podActs tr)).Perm (handed (podActs tr)) := worked_perm_handed hx hidle
  refine List.perm_iff_count.2 fun v => ?_
  have hbal := (onQueue_daemon P).main_ledger v hx
  rw [List.count_append, List.count_append, (hwork.map Prod.snd).count_eq v, ← hR.srv]
  simp only [launch] at hbal
  omega

end Pods

section Whole
variable [DecidableEq X] [DecidableEq W] [DecidableEq K] {items : List Bytes} {P : Params (W × ℕ) K}
  {tr tr' : List (DeployEv X W K)} {c c' : Config (X ⊕ W) (Server K) (Attempt ⊕ Pod Worker)} {a : X → Attempt}
  {d d' : Config W (Server K) (Pod Worker)}

/-- The publisher pods have pushed everything and exited. -/
def Published (c : Config (X ⊕ W) (Server K) (Attempt ⊕ Pod Worker)) : Prop := ∀ x, c.loc (.inl x) = .inl none

/-- The worker pods have exited with 0. -/
def Finished (c : Config (X ⊕ W) (Server K) (Attempt ⊕ Pod Worker)) : Prop :=
  ∀ w, ∃ p, c.loc (.inr w) = .inr p ∧ p.Done

omit [DecidableEq X] [DecidableEq W] [DecidableEq K] in
theorem finished_iff (hb : Beside c a d) : Finished c ↔ ∀ w, (d.loc w).Done := by
  refine forall_congr' fun w => ⟨?_, fun h => ⟨_, hb.pod w, h⟩⟩
  rintro ⟨p, hp, hd⟩
  obtain rfl := Sum.inr.inj ((hb.pod w).symm.trans hp)
  exact hd

/-- What the workers see pushed are items. -/
theorem pushed_mem [Fintype X] (h : (deployment items pythonPod P).run (deploy items pythonPod .empty) tr = some c) :
    ∀ v ∈ published (podActs (seen tr)), v ∈ items := by
  intro v hv
  have hpos := List.count_pos_iff.2 hv
  rw [published_eq_sum v h] at hpos
  obtain ⟨x, -, hx⟩ := Finset.exists_ne_zero_of_sum_ne_zero (Nat.ne_of_gt hpos)
  obtain ⟨a, -, -, hacc⟩ := account_of_run h
  have hle := (hacc x).count_le v
  refine List.count_pos_iff.1 (Nat.pos_of_ne_zero fun h0 => hx ?_)
  rw [h0, Nat.mul_zero] at hle
  exact Nat.le_zero.1 hle

/-- A run in which no worker pod fails, as the worker Job sees it. -/
theorem flowing_deployment [Fintype X] (hdec : ∀ v ∈ items, decode v ≠ none)
    (h : (deployment items pythonPod P).run (deploy items pythonPod .empty) tr = some c)
    (hq : ∀ e ∈ tr, e.isCrash = false) :
    ∃ a d, Beside c a d ∧ (jobs pythonPod P).run (jobLaunch pythonPod .empty) (seen tr) = some d ∧
      Flowing (running d) ∧ ∀ w, (d.loc w).incarnation = 0 := by
  obtain ⟨a, d, hjob, hb⟩ := job_of_deployment (beside_deploy items pythonPod .empty) h
  have hcrash : ∀ f ∈ seen tr, f.isCrash = false := by
    intro f hf
    obtain ⟨e, he, hfe⟩ := List.mem_flatMap.1 hf
    exact isCrash_of_seen (hq e he) f hfe
  obtain ⟨hflow, hinc⟩ := flowing_job_run hjob hcrash (fun v hv => hdec v (pushed_mem h v hv))
    (flowing_launch (by simp) _)
  exact ⟨a, d, hb, hjob, hflow, hinc⟩

/-- Once the publishers have exited nothing is pushed. -/
theorem quiet_of_published [Fintype X] (hp : Published c)
    (h : (deployment items pythonPod P).run c tr = some c') : published (podActs (seen tr)) = [] := by
  refine List.eq_nil_iff_forall_not_mem.2 fun v hv => ?_
  have hpos := List.count_pos_iff.2 hv
  rw [published_eq_sum v h] at hpos
  obtain ⟨x, -, hx⟩ := Finset.exists_ne_zero_of_sum_ne_zero (Nat.ne_of_gt hpos)
  obtain ⟨hnone, -⟩ := run_stuck (deployment items pythonPod P) (l := .inl none) (fun e => by cases e <;> rfl) h (hp x)
  obtain ⟨e, he, hex⟩ := List.mem_filterMap.1 (List.count_pos_iff.1 (Nat.pos_of_ne_zero hx))
  cases e with
  | push y u =>
    obtain rfl : y = x := by by_contra hne; simp [DeployEv.pushedBy, hne] at hex
    exact hnone _ he rfl
  | _ => cases hex

/-- An attempt that does not fail pushes what is left and exits. -/
theorem attempt_finishes {x : X} : ∀ (left : List Bytes) (c : Config (X ⊕ W) (Server K) (Attempt ⊕ Pod Worker))
    (a : X → Attempt) (d : Config W (Server K) (Pod Worker)), Beside c a d → a x = some left →
    ∃ c' a' d', (deployment items pythonPod P).Reaches
      (fun e => (deployment items pythonPod P).who e = some (.inl x) ∧
        ((∃ y, (deployment items pythonPod P).who e = some (.inl y)) ∧ e.working = true)) c c' ∧
      Beside c' a' d' ∧ a' x = none := by
  intro left
  induction left with
  | nil =>
    intro c a d hb ha
    have he : (deployment items pythonPod P).exec c (.done x) =
        some ⟨c.srv, Function.update c.loc (.inl x) (.inl none)⟩ :=
      (exec_client (deployment items pythonPod P) (w := .inl x) rfl).2
        ⟨rfl, .inl none, by rw [hb.pub, ha]; rfl, rfl⟩
    exact ⟨_, _, _, reaches_step _ ⟨rfl, ⟨x, rfl⟩, rfl⟩ he, beside_update hb, Function.update_self ..⟩
  | cons v left ih =>
    intro c a d hb ha
    have he : (deployment items pythonPod P).exec c (.push x v) =
        some ⟨c.srv.rpush v, Function.update c.loc (.inl x) (.inl (some left))⟩ :=
      (exec_client (deployment items pythonPod P) (w := .inl x) rfl).2
        ⟨rfl, .inl (some left), by
          rw [hb.pub, ha]
          exact congrArg (Option.map Sum.inl) (if_pos rfl), rfl⟩
    obtain ⟨c', a', d', hr, hb', ha'⟩ := ih _ _ _ (beside_update hb) (Function.update_self ..)
    exact ⟨c', a', d', reaches_trans _ (reaches_step _ ⟨rfl, ⟨x, rfl⟩, rfl⟩ he) hr, hb', ha'⟩

/-- All of them do, one after the other. -/
theorem publishers_finish [Fintype X] (hb : Beside c a d) :
    ∃ c', (deployment items pythonPod P).Reaches
      (fun e => (∃ y, (deployment items pythonPod P).who e = some (.inl y)) ∧ e.working = true) c c' ∧ Published c' := by
  have hdrive : ∀ c : Config (X ⊕ W) (Server K) (Attempt ⊕ Pod Worker),
      ∀ i ∈ (Finset.univ : Finset X).toList.map Sum.inl, (∃ a d, Beside c a d) →
      ∃ c', (deployment items pythonPod P).Reaches (fun e => (deployment items pythonPod P).who e = some i ∧
        ((∃ y, (deployment items pythonPod P).who e = some (.inl y)) ∧ e.working = true)) c c' ∧
        (∃ a d, Beside c' a d) ∧ c'.loc i = .inl none := by
    rintro c i hi ⟨a, d, hb⟩
    obtain ⟨x, -, rfl⟩ := List.mem_map.1 hi
    cases ha : a x with
    | none => exact ⟨c, reaches_refl _ _ c, ⟨a, d, hb⟩, by rw [hb.pub, ha]⟩
    | some left =>
      obtain ⟨c', a', d', hr, hb', ha'⟩ := attempt_finishes (P := P) left c a d hb ha
      exact ⟨c', hr, ⟨a', d', hb'⟩, by rw [hb'.pub, ha']⟩
  obtain ⟨c', hr, -, hQ⟩ := reaches_sweep (deployment items pythonPod P) (I := fun c => ∃ a d, Beside c a d)
    (Q := fun l => l = .inl none)
    (p := fun e => (∃ y, (deployment items pythonPod P).who e = some (.inl y)) ∧ e.working = true)
    ((Finset.univ : Finset X).toList.map Sum.inl) hdrive c ⟨a, d, hb⟩
  exact ⟨c', hr, fun x => hQ _ (List.mem_map_of_mem (Finset.mem_toList.2 (Finset.mem_univ x)))⟩

/-- What the worker Job can do by itself, it can do here. -/
theorem deployment_of_job (hb : Beside c a d)
    (h : (jobs pythonPod P).Reaches (fun f => f.working = true) d d') :
    ∃ c', (deployment items pythonPod P).Reaches (fun e => e.working = true) c c' ∧ Beside c' a d' := by
  obtain ⟨tr, hrun, hp⟩ := h
  obtain ⟨c', hc', hb'⟩ := run_simulates (jobs pythonPod P) (deployment items pythonPod P)
    (R := fun d c => Beside c a d) (p := fun f => f.working = true) (f := fun f => [DeployEv.pod f]) (by
      intro d c f d' hf hb he
      have hquiet : f.pushes = none := by
        cases f with
        | restart w => rfl
        | act e => exact pushes_of_peaceful (peaceful_of_working hf)
      let c' : Config (X ⊕ W) (Server K) (Attempt ⊕ Pod Worker) :=
        ⟨d'.srv, Sum.elim (fun x => .inl (a x)) fun w => .inr (d'.loc w)⟩
      have hb' : Beside c' a d' := ⟨rfl, fun _ => rfl, fun _ => rfl⟩
      exact ⟨c', (run_cons _).2 ⟨c', (exec_pod hb).2 ⟨hquiet, d', he, hb'⟩, rfl⟩, hb'⟩) hp hb hrun
  refine ⟨c', ⟨_, hc', fun e he => ?_⟩, hb'⟩
  obtain ⟨f, hf, hef⟩ := List.mem_flatMap.1 he
  obtain rfl := List.mem_singleton.1 hef
  exact hp f hf

end Whole

section Ends
variable [Fintype X] [DecidableEq X] [DecidableEq K] {n : ℕ} {items : List Bytes}
  {tr tr' : List (DeployEv X (Fin (n + 1)) K)} {c c' : Config (X ⊕ Fin (n + 1)) (Server K) (Attempt ⊕ Pod Worker)}

/-- **One worker in its loop is enough**: as long as no worker pod has failed and one is in its loop, not
between the two reads of `empty()`, everything can be published and worked on, and all pods can exit. -/
theorem deployment_can_complete (P : Params (Fin (n + 1) × ℕ) K) (hdec : ∀ v ∈ items, decode v ≠ none)
    (h : (deployment items pythonPod P).run (deploy items pythonPod .empty) tr = some c)
    (hq : ∀ e ∈ tr, e.isCrash = false) {w : Fin (n + 1)} {p : Pod Worker} (hw : c.loc (.inr w) = .inr p)
    (hl : p.worker.Looping) :
    ∃ c', (deployment items pythonPod P).Reaches (fun e => e.working = true) c c' ∧ Published c' ∧ Finished c' ∧
      c'.srv.main = [] ∧ c'.srv.processing = [] := by
  obtain ⟨a, d, -, hb⟩ := job_of_deployment (beside_deploy items pythonPod .empty) h
  obtain ⟨c₁, hr₁, hpub⟩ := publishers_finish (P := P) hb
  -- the worker has stayed where it was
  have hw₁ : c₁.loc (.inr w) = .inr p := by
    rw [reaches_frame _ ?_ hr₁, hw]
    rintro e ⟨⟨y, hy⟩, -⟩ he
    rw [hy] at he
    cases he
  obtain ⟨tr₁, hrun₁, htr₁⟩ := hr₁
  have hcrash₁ : ∀ e ∈ tr ++ tr₁, e.isCrash = false := by
    intro e he
    rcases List.mem_append.1 he with he | he
    · exact hq e he
    · obtain ⟨⟨y, hy⟩, -⟩ := htr₁ e he
      cases e with
      | pod f =>
        obtain ⟨i, -, hi⟩ := Option.map_eq_some_iff.1 hy
        cases hi
      | _ => rfl
  obtain ⟨a₁, d₁, hb₁, -, hflow, -⟩ := flowing_deployment hdec ((run_append _).2 ⟨c, h, hrun₁⟩) hcrash₁
  have hl₁ : ((running d₁).loc w).Looping := by
    obtain rfl := Sum.inr.inj ((hb₁.pod w).symm.trans hw₁)
    exact hl
  obtain ⟨x, hx, hexit, hm, hp⟩ := flow_finishes (P := P.now fun w => (d₁.loc w).incarnation) (List.finRange _)
    List.mem_finRange hflow hl₁
  obtain ⟨d₂, hd₂, rfl⟩ := reaches_remember (fun _ => rfl) hx
  obtain ⟨c₂, hr₂, hb₂⟩ := deployment_of_job hb₁ hd₂
  refine ⟨c₂, reaches_trans _ ⟨tr₁, hrun₁, fun e he => (htr₁ e he).2⟩ hr₂, fun y => ?_,
    (finished_iff hb₂).2 fun w => congrArg Worker.pc (hexit w), hb₂.srv ▸ hm, hb₂.srv ▸ hp⟩
  rw [hb₂.pub, ← hb₁.pub]
  exact hpub y

/-- **When the publishers are through in time**: with a worker pod still in its loop when the last publisher
pod exits, and none failing, the worker Job exits only with nothing left, each item worked on as
often as it was pushed: once for each publisher pod, and once more for each of its failures that came
after the push. -/
theorem deployment_complete (P : Params (Fin (n + 1) × ℕ) K) (hdec : ∀ v ∈ items, decode v ≠ none)
    (h : (deployment items pythonPod P).run (deploy items pythonPod .empty) tr = some c)
    (hpub : Published c) {w : Fin (n + 1)} {p : Pod Worker} (hw : c.loc (.inr w) = .inr p) (hl : p.worker.Looping)
    (h' : (deployment items pythonPod P).run c tr' = some c') (hq : ∀ e ∈ tr ++ tr', e.isCrash = false)
    (hfin : Finished c') :
    c'.srv.main = [] ∧ c'.srv.processing = [] ∧
    (∀ v, ((worked (podActs (seen (tr ++ tr')))).map Prod.snd).count v = ∑ x, (pushedBy x tr).count v) ∧
    ∀ x, ∃ kills : List ℕ, kills.length = fails x tr ∧
      pushedBy x tr = kills.flatMap (fun n => items.take n) ++ items := by
  have hrun := (run_append (deployment items pythonPod P)).2 ⟨c, h, h'⟩
  obtain ⟨a', d', hb', hjob, hflow, hinc⟩ := flowing_deployment hdec hrun hq
  have hdone := (finished_iff hb').1 hfin
  have hquiet := quiet_of_published hpub h'
  have hm : c'.srv.main = [] := by
    obtain ⟨a, d, -, hb⟩ := job_of_deployment (beside_deploy items pythonPod .empty) h
    obtain ⟨a₁, d₁, hjob', hb₁⟩ := job_of_deployment hb h'
    obtain rfl := Sum.inr.inj ((hb.pod w).symm.trans hw)
    rw [hb₁.srv]
    exact main_nil_of_done hjob' (pushes_of_published hquiet) hl ((finished_iff hb₁).1 hfin w)
  refine ⟨hm, ?_, fun v => ?_, fun x => ?_⟩
  · rw [hb'.srv]
    exact hflow.processing_nil hdone
  · have hperm := worked_perm_of_done hjob hinc hdone
    rw [← hb'.srv, hm, List.append_nil] at hperm
    have hall : published (podActs (seen (tr ++ tr'))) = published (podActs (seen tr)) := by
      have hseen : seen (tr ++ tr') = seen tr ++ seen tr' := List.flatMap_append
      rw [hseen, podActs_append, published, List.filterMap_append, ← published, ← published, hquiet,
        List.append_nil]
    rw [← hperm.count_eq v, ← published_eq_sum v h, hall]
    rfl
  · obtain ⟨a, d, hb, hacc⟩ := account_of_run h
    have ha : a x = none := Sum.inl.inj ((hb.pub x).symm.trans (hpub x))
    exact (ha ▸ hacc x).done

end Ends

/-- Publisher pod `false` fails after its first push; the worker pod works on all three copies. -/
def retriedRun : List (DeployEv Bool ℕ Bytes) :=
  [.push false [97], .push true [97], .fail false, .push false [97], .done false, .pod (.act (.llen (0, 0) .main 3)),
   .pod (.act (.llen (0, 0) .main 3)), .pod (.act (.pop (0, 0) (some [97]))), .pod (.act (.setex (0, 0) [97])),
   .pod (.act (.work (0, 0) [97])), .pod (.act (.lrem (0, 0) [97] 1)), .pod (.act (.del (0, 0) [97])),
   .pod (.act (.llen (0, 0) .main 2)), .pod (.act (.pop (0, 0) (some [97]))), .pod (.act (.setex (0, 0) [97])),
   .pod (.act (.work (0, 0) [97])), .pod (.act (.crash (0, 0))), .pod (.restart 0)]

theorem deployment_at_most_retriedRun :
    ((worked (podActs (seen retriedRun))).map Prod.snd).count [97] ≤ 3 := by
  obtain ⟨c, hc⟩ : ∃ c, (deployment [[97]] pythonPod podParams).run (deploy [[97]] pythonPod .empty) retriedRun =
      some c := ⟨_, rfl⟩
  exact deployment_at_most podParams hc [97]

/-- The publisher is through before the worker pod `w` looks at the queue a second time. -/
def inTimeRun (w : Fin 1) : List (DeployEv Unit (Fin 1) Bytes) :=
  [.push () [97], .pod (.act (.llen (w, 0) .main 1)), .done ()]

def workRun (w : Fin 1) : List (DeployEv Unit (Fin 1) Bytes) :=
  [.pod (.act (.llen (w, 0) .main 1)), .pod (.act (.pop (w, 0) (some [97]))), .pod (.act (.setex (w, 0) [97])),
   .pod (.act (.work (w, 0) [97])), .pod (.act (.lrem (w, 0) [97] 1)), .pod (.act (.del (w, 0) [97])),
   .pod (.act (.llen (w, 0) .main 0)), .pod (.act (.llen (w, 0) .processing 0))]

def oneParams : Params (Fin 1 × ℕ) Bytes := ⟨id, fun _ => []⟩

theorem deployment_can_complete_inTimeRun : ∃ c c',
    (deployment [[97]] pythonPod oneParams).run (deploy [[97]] pythonPod .empty) (inTimeRun 0) = some c ∧
    (deployment [[97]] pythonPod oneParams).Reaches (fun e => e.working = true) c c' ∧ Published c' ∧ Finished c' ∧
    c'.srv.main = [] ∧ c'.srv.processing = [] := by
  obtain ⟨c, hc, hw⟩ : ∃ c,
      (deployment [[97]] pythonPod oneParams).run (deploy [[97]] pythonPod .empty) (inTimeRun 0) = some c ∧
      c.loc (.inr 0) = .inr ⟨0, ⟨.probe true .main, true⟩⟩ := ⟨_, rfl, rfl⟩
  obtain ⟨c', hend⟩ := deployment_can_complete oneParams (by decide) hc (by decide) hw ⟨by simp, by simp⟩
  exact ⟨c, c', hc, hend⟩

theorem deployment_complete_workRun : ∃ c',
    (deployment [[97]] pythonPod oneParams).run (deploy [[97]] pythonPod .empty) (inTimeRun 0 ++ workRun 0) = some c' ∧
    c'.srv.main = [] ∧ c'.srv.processing = [] ∧
    (∀ v, ((worked (podActs (seen (inTimeRun 0 ++ workRun 0)))).map Prod.snd).count v =
      ∑ x, (pushedBy x (inTimeRun 0)).count v) ∧
    ∀ x, ∃ kills : List ℕ, kills.length = fails x (inTimeRun 0) ∧
      pushedBy x (inTimeRun 0) = kills.flatMap (fun n => [[97]].take n) ++ [[97]] := by
  obtain ⟨c, hc, hpub, hw⟩ : ∃ c,
      (deployment [[97]] pythonPod oneParams).run (deploy [[97]] pythonPod .empty) (inTimeRun 0) = some c ∧
      Published c ∧ c.loc (.inr 0) = .inr ⟨0, ⟨.probe true .main, true⟩⟩ := ⟨_, rfl, fun _ => rfl, rfl⟩
  obtain ⟨c', hc', hx⟩ : ∃ c',
      (deployment [[97]] pythonPod oneParams).run (deploy [[97]] pythonPod .empty) (inTimeRun 0 ++ workRun 0) =
        some c' ∧ c'.loc (.inr 0) = .inr ⟨0, ⟨.exited, true⟩⟩ := ⟨_, rfl, rfl⟩
  obtain ⟨c₁, hc₁, h'⟩ := (run_append _).1 hc'
  obtain rfl : c = c₁ := Option.some.inj (hc.symm.trans hc₁)
  have hfin : Finished c' := fun w => ⟨⟨0, ⟨.exited, true⟩⟩, by rw [Subsingleton.elim w 0]; exact hx, rfl⟩
  exact ⟨c', hc', deployment_complete oneParams (by decide) hc hpub hw ⟨by simp, by simp⟩ h' (by decide) hfin⟩

end RedisQueue
