import Mathlib.Data.List.Induction
import RedisQueue.Worker

/-!
# The C++ worker and the Python worker that replaced it

`rds::Subscriber` (`cuda-redis-cpp/redis-utils`) is the older client of the same queue,
`sub_daemon.cpp` its loop. Both are programs over the same commands; the lease keys come
from different hash functions.

| here | there |
| --- | --- |
| `Rds.Subscriber.empty` | `subscriber.cpp:26-29` |
| `Rds.Subscriber.lease` | `subscriber.cpp:31-46`; the defaults are in `subscriber.h:36-39` |
| `Rds.Subscriber.complete` | `subscriber.cpp:48-53` |
| `Rds.Subscriber.subTurn` | one turn of `while (!sub.empty())` (`sub_daemon.cpp:14-28`) |

`empty()` converts the two lengths to `bool` instead of comparing them with 0, so it
answers true exactly when both lists have elements (`run_rdsEmpty`). The two loops agree
only where both wait for ever (`cpp_agrees_iff`).
-/
namespace RedisQueue
open Program

variable {K K' : Type}

namespace Rds

/-- `keyFor` is `_key_for`, `std::hash<std::string>`. -/
structure Subscriber (K : Type) where
  session : Bytes
  keyFor : Bytes → K

namespace Subscriber

/-- `llen(_q_name) && llen(_proc_q_name)`. -/
def empty : Run K Bool := do
  let main ← redis (.llen .main)
  if main ≠ 0 then
    let processing ← redis (.llen .processing)
    return processing ≠ 0
  else
    return false

variable (q : Subscriber K)

/-- Without a timeout `brpoplpush` sends 0. -/
def lease (duration : Int) (timeout : Nat) (blocking : Bool) : Run K (Option Bytes) := do
  let item ← if blocking then redis (.brpoplpush timeout) else redis (.brpoplpush 0)
  match item with
  | none => return none
  | some v =>
    redis (.setex (q.keyFor v) duration q.session)
    return some v

def complete (item : Bytes) : Run K Unit := do
  let _ ← redis (.lrem 0 item)
  let _ ← redis (.delete (q.keyFor item))
  return ()

/-- The item is only printed between `lease` and `complete`. -/
def subTurn : Run K Ctl := do
  if ← empty then
    return .leave
  else
    match ← q.lease 5 2 true with
    | some value =>
      q.complete value
      return .again
    | none => return .again

end Subscriber
end Rds

/-! ## What the two loops do in a turn -/

section Turns
variable [DecidableEq K] {s : Server K} {v : Bytes} {l : List Bytes}

/-- `empty()` of the C++ client answers true exactly when both lists have elements. -/
theorem run_rdsEmpty : Rds.Subscriber.empty.run Server.handle s =
    if s.main = [] then ⟨[⟨.llen .main, (0 : Nat)⟩], s, .ret false⟩
    else ⟨[⟨.llen .main, s.main.length⟩, ⟨.llen .processing, s.processing.length⟩], s,
      .ret (decide (s.processing ≠ []))⟩ := by
  by_cases hm : s.main = [] <;>
    simp [Rds.Subscriber.empty, Prog.run, Server.handle, Server.queue, hm]

theorem run_rdsLease_nil (q : Rds.Subscriber K) (hm : s.main = []) :
    (q.lease 5 2 true).run Server.handle s = ⟨[⟨.brpoplpush 2, none⟩], s, .ret none⟩ := by
  simp [Rds.Subscriber.lease, Prog.run, Server.handle, rpoplpush_nil hm]

theorem run_rdsLease_snoc (q : Rds.Subscriber K) (hm : s.main = l ++ [v]) :
    (q.lease 5 2 true).run Server.handle s =
      ⟨[⟨.brpoplpush 2, some v⟩, ⟨.setex (q.keyFor v) 5 q.session, ()⟩],
      { s with main := l, processing := v :: s.processing }.setex (q.keyFor v) q.session, .ret (some v)⟩ := by
  simp [Rds.Subscriber.lease, Prog.run, Server.handle, rpoplpush_snoc hm]

theorem run_rdsComplete (q : Rds.Subscriber K) : (q.complete v).run Server.handle s =
    ⟨[⟨.lrem 0 v, s.processing.length - (s.lrem 0 v).processing.length⟩,
      ⟨.delete (q.keyFor v), if (s.leases (q.keyFor v)).isSome then 1 else 0⟩],
    (s.lrem 0 v).delete (q.keyFor v), .ret ()⟩ := by
  simp [Rds.Subscriber.complete, Prog.run, Server.handle, Server.lrem]

/-- The items a turn leased. -/
def leasedItems (log : List (Sigma (Cmd.Reply (K := K)))) : List Bytes := log.filterMap fun
  | ⟨.brpoplpush _, r⟩ => r
  | _ => none

/-- The items a turn completed. -/
def completedItems (log : List (Sigma (Cmd.Reply (K := K)))) : List Bytes := log.filterMap fun
  | ⟨.lrem _ v, _⟩ => some v
  | _ => none

/-- On an empty main list the C++ worker waits, whatever is in the processing list. -/
theorem rds_turn_wait (q : Rds.Subscriber K) (hm : s.main = []) :
    q.subTurn.run Server.handle s = ⟨[⟨.llen .main, (0 : Nat)⟩, ⟨.brpoplpush 2, none⟩], s, .ret .again⟩ := by
  simp [Rds.Subscriber.subTurn, run_bind, run_rdsEmpty, run_rdsLease_nil q hm, hm]

theorem rds_turn_leave (q : Rds.Subscriber K) (hm : s.main ≠ []) (hp : s.processing ≠ []) :
    (q.subTurn.run Server.handle s).out = .ret .leave := by
  simp [Rds.Subscriber.subTurn, run_bind, run_rdsEmpty, hm, hp]

/-- With an empty processing list it takes the next item and completes it. -/
theorem rds_turn_item (q : Rds.Subscriber K) (hm : s.main = l ++ [v]) (hp : s.processing = []) :
    (q.subTurn.run Server.handle s).out = .ret .again ∧
      (q.subTurn.run Server.handle s).srv.main = l ∧
      (q.subTurn.run Server.handle s).srv.processing = [] := by
  have hne : s.main ≠ [] := by simp [hm]
  simp [Rds.Subscriber.subTurn, run_bind, run_rdsEmpty, run_rdsLease_snoc q hm, run_rdsComplete, hne, hp,
    Server.setex, Server.lrem, Server.delete]

/-- On two empty lists the Python worker leaves its loop. -/
theorem py_turn_leave (q : RedisSubscriber K) (hm : s.main = []) (hp : s.processing = []) :
    (q.subTurn.run Server.handle s).out = .ret .leave := by
  simp [RedisSubscriber.subTurn, run_bind, run_empty, hm, hp]

theorem py_turn_wait (q : RedisSubscriber K) (hm : s.main = []) (hp : s.processing ≠ []) :
    q.subTurn.run Server.handle s = ⟨[⟨.llen .main, (0 : Nat)⟩, ⟨.llen .processing, s.processing.length⟩,
      ⟨.brpoplpush 2, none⟩], s, .ret .again⟩ := by
  simp [RedisSubscriber.subTurn, run_bind, run_empty, run_lease_nil q hm, RedisSubscriber.workOn, hm, hp]

end Turns

/-! ## When the two loops behave the same -/

section Agree
variable [DecidableEq K] [DecidableEq K'] (q : Rds.Subscriber K) (q' : RedisSubscriber K')

/-- A non-empty UTF-8 payload. -/
def Utf8Payload (v : Bytes) : Prop := v ≠ [] ∧ decode v ≠ none

/-- Two turns look the same: the items leased and completed, the queue they leave, and
whether the loop goes on. -/
structure SameTurn (r : Result (Cmd K) Cmd.Reply (Server K) Ctl)
    (r' : Result (Cmd K') Cmd.Reply (Server K') Ctl) : Prop where
  leased : leasedItems r.log = leasedItems r'.log
  completed : completedItems r.log = completedItems r'.log
  queue : SameQueue Utf8Payload q.keyFor q'.itemKey r.srv r'.srv
  out : r.out = r'.out

/-- The two loops do the same in every turn, from `s` and from `t`. -/
def SameRuns (s : Server K) (t : Server K') : Prop :=
  ∀ n, List.Forall₂ (SameTurn q q') (turns Server.handle q.subTurn n s) (turns Server.handle q'.subTurn n t)

/-- The two workers are interchangeable. -/
def CppMatchesPython : Prop :=
  ∀ s t, SameQueue Utf8Payload q.keyFor q'.itemKey s t →
    (∀ v ∈ s.main ++ s.processing, Utf8Payload v) → SameRuns q q' s t

variable {q q'} {s : Server K} {t : Server K'}

theorem not_sameRuns_of_out
    (h : (q.subTurn.run Server.handle s).out ≠ (q'.subTurn.run Server.handle t).out) :
    ¬ SameRuns q q' s t := by
  intro hsame
  cases hsame 1 with
  | cons hturn => exact h hturn.out

theorem sameRuns_next (h : SameRuns q q' s t) (hs : (q.subTurn.run Server.handle s).out = .ret .again)
    (ht : (q'.subTurn.run Server.handle t).out = .ret .again) :
    SameRuns q q' (q.subTurn.run Server.handle s).srv (q'.subTurn.run Server.handle t).srv := by
  intro n
  have hn := h (n + 1)
  rw [turns_again hs, turns_again ht] at hn
  cases hn with
  | cons _ hrest => exact hrest

/-- With nothing in the processing list both workers do the items, then only Python leaves. -/
theorem not_sameRuns_drained : ∀ (main : List Bytes) (s : Server K) (t : Server K'), s.main = main →
    t.main = main → s.processing = [] → t.processing = [] → (∀ v ∈ main, Utf8Payload v) →
    ¬ SameRuns q q' s t := by
  intro main
  induction main using List.reverseRecOn with
  | nil =>
    intro s t hs ht _ hpt _
    refine not_sameRuns_of_out ?_
    rw [rds_turn_wait q hs, py_turn_leave q' ht hpt]
    simp
  | append_singleton main v ih =>
    intro s t hs ht hps hpt hpay hsame
    obtain ⟨item, hd⟩ := Option.ne_none_iff_exists'.1 (hpay v (by simp)).2
    obtain ⟨ho, hm, hp⟩ := rds_turn_item q hs hps
    obtain ⟨ho', hs', -⟩ := turn_item q' ht hd
    rw [hpt, List.filter_nil] at hs'
    exact ih _ _ hm (by rw [hs']) hp (by rw [hs']) (fun u hu => hpay u (by simp [hu])) (sameRuns_next hsame ho ho')

/-- With an empty main list and something in the processing list both wait, turn by turn. -/
theorem sameRuns_waiting (hq : SameQueue Utf8Payload q.keyFor q'.itemKey s t) (hm : s.main = [])
    (hp : s.processing ≠ []) : SameRuns q q' s t := by
  intro n
  refine turns_bisim (SameTurn q q')
    (fun s t => SameQueue Utf8Payload q.keyFor q'.itemKey s t ∧ s.main = [] ∧ s.processing ≠ [])
    (fun _ _ h => h.out) ?_ n s t ⟨hq, hm, hp⟩
  rintro s t ⟨hq, hm, hp⟩
  have hcpp := rds_turn_wait q hm
  have hpy := py_turn_wait q' (hq.main ▸ hm) (hq.processing ▸ hp)
  rw [hcpp, hpy]
  exact ⟨⟨rfl, rfl, hq, rfl⟩, fun _ => ⟨hq, hm, hp⟩⟩

end Agree

/-- On an empty queue the Python worker exits and the C++ worker polls for ever. -/
theorem cpp_not_python : ¬ CppMatchesPython (⟨[1], id⟩ : Rds.Subscriber Bytes) (⟨[1], id⟩ : RedisSubscriber Bytes) :=
  fun h => not_sameRuns_drained [] .empty .empty rfl rfl rfl rfl (by simp)
    (h .empty .empty ⟨rfl, rfl, fun _ _ => rfl⟩ (by simp [Server.empty]))

/-- **When the C++ worker does what the Python worker does**: exactly when there is nothing to
lease and something in the processing list, so that neither ever leaves. -/
theorem cpp_agrees_iff [DecidableEq K] [DecidableEq K'] (q : Rds.Subscriber K) (q' : RedisSubscriber K')
    {s : Server K} {t : Server K'} (hq : SameQueue Utf8Payload q.keyFor q'.itemKey s t)
    (hpay : ∀ v ∈ s.main ++ s.processing, Utf8Payload v) :
    SameRuns q q' s t ↔ s.main = [] ∧ s.processing ≠ [] := by
  constructor
  · intro hsame
    by_cases hp : s.processing = []
    · exact absurd hsame (not_sameRuns_drained s.main s t rfl hq.main.symm hp (hq.processing ▸ hp)
        fun v hv => hpay v (List.mem_append_left _ hv))
    · refine ⟨?_, hp⟩
      by_contra hm
      -- the C++ worker leaves, the Python worker goes on
      obtain ⟨l, v, hl⟩ := List.eq_nil_or_concat' s.main |>.resolve_left hm
      obtain ⟨item, hd⟩ := Option.ne_none_iff_exists'.1 (hpay v (by simp [hl])).2
      refine not_sameRuns_of_out ?_ hsame
      rw [rds_turn_leave q hm hp, (turn_item q' (hq.main ▸ hl) hd).1]
      simp
  · rintro ⟨hm, hp⟩
    exact sameRuns_waiting hq hm hp

theorem cpp_agrees_iff_orphan :
    SameRuns (⟨[1], id⟩ : Rds.Subscriber Bytes) (⟨[1], id⟩ : RedisSubscriber Bytes)
      ⟨[], [[97]], fun _ => none⟩ ⟨[], [[97]], fun _ => none⟩ :=
  (cpp_agrees_iff _ _ ⟨rfl, rfl, fun _ _ => rfl⟩ (by simp [Utf8Payload]; decide)).2 ⟨rfl, by simp⟩

end RedisQueue
