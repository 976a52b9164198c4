import RedisQueue.Redis

/-!
# The Python worker: `RedisSubscriber` and the `sub` loop of `daemon.py`

| here | there |
| --- | --- |
| `RedisSubscriber` | the fields of a worker (`cuda-redis-py/worker.py:9-27`); `itemKey` is `_item_key`, `hashlib.sha224(item).hexdigest()` (`:50-56`) |
| `mainQueueSize`, `processingQueueSize`, `empty` | `worker.py:33-48` |
| `leaseExists` | `_lease_exists` (`worker.py:58-64`), which nothing calls |
| `brpoplpush` | redis-py: `timeout=None` is sent as 0, and 0 is the default |
| `lease` | `worker.py:66-98` |
| `complete` | `worker.py:100-109` |
| `report` | `daemon.py:33` |
| `subTurn` | one turn of `while not rds.empty()` (`daemon.py:34-44`) |

An uncaught exception ends the process; nothing in the worker catches one.
-/
namespace RedisQueue
open Program

abbrev Run (K α : Type) := Prog (Cmd K) Cmd.Reply α

structure RedisSubscriber (K : Type) where
  session : Bytes
  itemKey : Bytes → K

variable {K : Type}

/-- Send one command. -/
abbrev redis (c : Cmd K) : Run K c.Reply := issue c

def mainQueueSize : Run K Nat := redis (.llen .main)

def processingQueueSize : Run K Nat := redis (.llen .processing)

def brpoplpush (timeout : Option Nat) : Run K (Option Bytes) := redis (.brpoplpush (timeout.getD 0))

namespace RedisSubscriber

/-- `a == 0 and b == 0`: the second length is read only when the first is zero. -/
def empty : Run K Bool := do
  let main ← mainQueueSize
  if main = 0 then
    let processing ← processingQueueSize
    return processing = 0
  else
    return false

variable (q : RedisSubscriber K)

def leaseExists (item : Bytes) : Run K Nat := redis (.existsKey (q.itemKey item))

/-- Both branches block: without a `timeout` argument redis-py sends 0. `if item:` is false
for `None` and for `b""`. -/
def lease (leaseDur : Int) (blocking : Bool) (timeout : Option Nat) : Run K (Option Bytes) := do
  let item ← if blocking then brpoplpush timeout else brpoplpush none
  match item with
  | none => return item
  | some v =>
    if v = [] then return item
    else
      redis (.setex (q.itemKey v) leaseDur q.session)
      return item

def complete (value : Bytes) : Run K Unit := do
  let _ ← redis (.lrem 0 value)
  let _ ← redis (.delete (q.itemKey value))
  return ()

/-! ## `daemon.py` -/

def report : Run K Ctl := do
  let _ ← empty
  return .again

/-- `if item is not None:` with its body. -/
def workOn : Option Bytes → Run K Ctl
  | none => return .again
  | some item => match decode item with
    | none => .raise "UnicodeDecodeError"
    | some itemStr => do
      redis (.work itemStr)
      q.complete item
      return .again

def subTurn : Run K Ctl := do
  if ← empty then
    return .leave
  else
    let item ← q.lease 5 true (some 2)
    q.workOn item

end RedisSubscriber

/-- The items worked on. -/
def workedItems (log : List (Sigma (Cmd.Reply (K := K)))) : List String := log.filterMap fun
  | ⟨.work item, _⟩ => some item
  | _ => none

@[simp] theorem workedItems_append (log log' : List (Sigma (Cmd.Reply (K := K)))) :
    workedItems (log ++ log') = workedItems log ++ workedItems log' := List.filterMap_append

/-- The same queue, with the lease keys of two hash functions: the lease tables are compared
item by item. -/
structure SameQueue {K' : Type} (Item : Bytes → Prop) (key : Bytes → K) (key' : Bytes → K')
    (s : Server K) (t : Server K') : Prop where
  main : s.main = t.main
  processing : s.processing = t.processing
  leases : ∀ v, Item v → s.leases (key v) = t.leases (key' v)

/-! ## The operations run alone -/

section Alone
variable [DecidableEq K] (q : RedisSubscriber K) {s : Server K} {v : Bytes} {l : List Bytes}

/-- The processing list is only looked at when the main list is empty. -/
theorem run_empty : RedisSubscriber.empty.run Server.handle s =
    if s.main = [] then ⟨[⟨.llen .main, (0 : Nat)⟩, ⟨.llen .processing, s.processing.length⟩], s,
      .ret (decide (s.processing = []))⟩
    else ⟨[⟨.llen .main, s.main.length⟩], s, .ret false⟩ := by
  by_cases hm : s.main = [] <;>
    simp [RedisSubscriber.empty, mainQueueSize, processingQueueSize, Prog.run, Server.handle, Server.queue, hm]

/-- `_lease_exists` answers 1 exactly for the live keys. -/
theorem run_leaseExists (item : Bytes) : ((q.leaseExists item).run Server.handle s).out =
    .ret (if (s.leases (q.itemKey item)).isSome then 1 else 0) := by
  simp [RedisSubscriber.leaseExists, issue, Prog.run, Server.handle]

/-- On an empty main list `lease` answers `None` after a positive timeout, and otherwise waits. -/
theorem run_lease_nil (hm : s.main = []) (leaseDur : Int) (blocking : Bool) (timeout : Option Nat) :
    (q.lease leaseDur blocking timeout).run Server.handle s =
      if blocking = true ∧ timeout.getD 0 ≠ 0 then ⟨[⟨.brpoplpush (timeout.getD 0), none⟩], s, .ret none⟩
      else ⟨[], s, .waiting⟩ := by
  cases blocking with
  | true =>
    by_cases ht : timeout.getD 0 = 0 <;>
      simp [RedisSubscriber.lease, brpoplpush, Prog.run, Server.handle, rpoplpush_nil hm, ht]
  | false => simp [RedisSubscriber.lease, brpoplpush, Prog.run, Server.handle, rpoplpush_nil hm]

theorem run_lease_snoc (hm : s.main = l ++ [v]) (hv : v ≠ []) {leaseDur : Int} (hd : 0 < leaseDur)
    (blocking : Bool) (timeout : Option Nat) :
    (q.lease leaseDur blocking timeout).run Server.handle s =
      ⟨[⟨.brpoplpush (if blocking then timeout.getD 0 else 0), some v⟩,
        ⟨.setex (q.itemKey v) leaseDur q.session, ()⟩],
      { s with main := l, processing := v :: s.processing }.setex (q.itemKey v) q.session, .ret (some v)⟩ := by
  have hd' : ¬ leaseDur ≤ 0 := Int.not_le.2 hd
  cases blocking <;>
    simp [RedisSubscriber.lease, brpoplpush, Prog.run, Server.handle, rpoplpush_snoc hm, hv, hd']

theorem run_complete : (q.complete v).run Server.handle s =
    ⟨[⟨.lrem 0 v, s.processing.length - (s.lrem 0 v).processing.length⟩,
      ⟨.delete (q.itemKey v), if (s.leases (q.itemKey v)).isSome then 1 else 0⟩],
    (s.lrem 0 v).delete (q.itemKey v), .ret ()⟩ := by
  simp [RedisSubscriber.complete, Prog.run, Server.handle, Server.lrem]

theorem run_workOn {item : String} (hd : decode v = some item) : (q.workOn (some v)).run Server.handle s =
    ⟨⟨.work item, ()⟩ :: ((q.complete v).run Server.handle s).log,
      ((q.complete v).run Server.handle s).srv, .ret .again⟩ := by
  have hwork : s.handle (.work item) = .reply () s := rfl
  simp [RedisSubscriber.workOn, hd, run_reply _ hwork, run_bind, run_complete]

/-- `if item:` is false for `b""`, which is returned without a lease. -/
theorem run_lease_empty (hm : s.main = l ++ [[]]) (leaseDur : Int) (timeout : Option Nat) :
    (q.lease leaseDur true timeout).run Server.handle s =
      ⟨[⟨.brpoplpush (timeout.getD 0), some []⟩], { s with main := l, processing := [] :: s.processing },
        .ret (some [])⟩ := by
  simp [RedisSubscriber.lease, brpoplpush, Prog.run, Server.handle, rpoplpush_snoc hm]

/-- The turn on an item that can be decoded: the item is worked on and completed. -/
theorem turn_item {item : String} (hm : s.main = l ++ [v]) (hd : decode v = some item) :
    (q.subTurn.run Server.handle s).out = .ret .again ∧
    (q.subTurn.run Server.handle s).srv =
      ⟨l, s.processing.filter (· ≠ v), Function.update s.leases (q.itemKey v) none⟩ ∧
    workedItems (q.subTurn.run Server.handle s).log = [item] := by
  have hne : s.main ≠ [] := by simp [hm]
  by_cases hv : v = []
  · subst hv
    simp [RedisSubscriber.subTurn, run_bind, run_empty, run_lease_empty q hm, run_workOn q hd, run_complete,
      hne, Server.lrem, Server.delete, workedItems]
  · simp [RedisSubscriber.subTurn, run_bind, run_empty, run_lease_snoc q hm hv, run_workOn q hd, run_complete,
      hne, Server.setex, Server.lrem, Server.delete, workedItems]

end Alone

end RedisQueue
