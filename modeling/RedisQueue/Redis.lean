import Mathlib.Data.List.Count
import Mathlib.Logic.Function.Basic
import RedisQueue.Program

/-!
# The Redis commands the queue clients use

One queue is three names in the database: the main list, the processing list
(`<name>:processing`) and the lease keys (`<name>:leased_by_session:<hash of the item>`).
The left end of a Redis list is the head of the Lean list. `Server.handle` is what the
server does with one command when no other client is connected, as the command
reference documents it.

| here | there |
| --- | --- |
| `Server.rpush` | `RPUSH <name> v` (`publisher.py:21`) |
| `Server.queue` | the list `LLEN` measures (`worker.py:35,39`; `rqueue.cpp:47`, which has `QType`) |
| `Server.rpoplpush` | `RPOPLPUSH` / `BRPOPLPUSH` once it is served: right end of main to left end of processing |
| `Server.setex`, `Server.delete` | `SETEX`, `DEL` on a lease key |
| `lremList` | `LREM key count v` |
| `decode` | `item.decode("utf-8")`, `none` is the `UnicodeDecodeError` |
-/
namespace RedisQueue
open Program

abbrev Bytes := List UInt8

def decode (item : Bytes) : Option String := String.fromUTF8? ⟨item.toArray⟩

inductive QType where
  | main | processing
deriving DecidableEq, Repr

@[ext] structure Server (K : Type) where
  main : List Bytes
  processing : List Bytes
  /-- The live lease keys and their values. -/
  leases : K → Option Bytes

/-- Drop the first `n` elements equal to `v`. -/
def eraseFirst (v : Bytes) : Nat → List Bytes → List Bytes
  | 0, l => l
  | _ + 1, [] => []
  | n + 1, x :: l => if x = v then eraseFirst v n l else x :: eraseFirst v (n + 1) l

/-- `LREM`: `count = 0` drops every element equal to `v`, `count > 0` the first `count`,
`count < 0` the last `-count`. -/
def lremList (count : Int) (v : Bytes) (l : List Bytes) : List Bytes :=
  if count = 0 then l.filter (· ≠ v)
  else if 0 < count then eraseFirst v count.toNat l
  else (eraseFirst v (-count).toNat l.reverse).reverse

@[simp] theorem lremList_zero (v : Bytes) (l : List Bytes) : lremList 0 v l = l.filter (· ≠ v) := rfl

variable {K : Type}

def Server.empty : Server K := ⟨[], [], fun _ => none⟩

def Server.queue (s : Server K) : QType → List Bytes
  | .main => s.main
  | .processing => s.processing

def Server.rpush (s : Server K) (v : Bytes) : Server K := { s with main := s.main ++ [v] }

def Server.rpoplpush (s : Server K) : Option Bytes × Server K :=
  match s.main.getLast? with
  | none => (none, s)
  | some v => (some v, { s with main := s.main.dropLast, processing := v :: s.processing })

def Server.lrem (s : Server K) (count : Int) (v : Bytes) : Server K :=
  { s with processing := lremList count v s.processing }

theorem rpoplpush_nil {s : Server K} (h : s.main = []) : s.rpoplpush = (none, s) := by
  simp [Server.rpoplpush, h]

theorem rpoplpush_snoc {s : Server K} {l : List Bytes} {v : Bytes} (h : s.main = l ++ [v]) :
    s.rpoplpush = (some v, { s with main := l, processing := v :: s.processing }) := by
  simp [Server.rpoplpush, h]

theorem count_add_length_filter_ne (v : Bytes) (l : List Bytes) :
    l.count v + (l.filter (· ≠ v)).length = l.length := by
  induction l with
  | nil => rfl
  | cons x l ih =>
    by_cases hx : x = v
    · subst hx; simp at ih ⊢; omega
    · simp [hx] at ih ⊢; omega

/-- Removing every copy of `v` removes `count v` elements. -/
theorem length_lrem_zero (s : Server K) (v : Bytes) :
    s.processing.length - (s.lrem 0 v).processing.length = s.processing.count v := by
  have hsum := count_add_length_filter_ne v s.processing
  simp only [Server.lrem, lremList_zero]
  omega

section Keys
variable [DecidableEq K]

def Server.setex (s : Server K) (key : K) (value : Bytes) : Server K :=
  { s with leases := Function.update s.leases key (some value) }

def Server.delete (s : Server K) (key : K) : Server K :=
  { s with leases := Function.update s.leases key none }

/-- Deleting keys brings none back. -/
theorem update_none {f : K → Option Bytes} {k : K} (k' : K) (h : f k = none) :
    Function.update f k' none k = none := by
  rw [Function.update_apply, h, ite_self]

/-- The commands, as the clients send them; `work` is the one step that is no Redis command,
the work on an item between its lease and its completion. -/
inductive Cmd (K : Type) where
  | rpush (v : Bytes)
  | llen (q : QType)
  | brpoplpush (timeout : Nat)
  | rpoplpush
  | setex (key : K) (time : Int) (value : Bytes)
  | lrem (count : Int) (value : Bytes)
  | delete (key : K)
  | existsKey (key : K)
  | work (item : String)
deriving DecidableEq

@[reducible] def Cmd.Reply : Cmd K → Type
  | .rpush _ | .llen _ | .lrem _ _ | .delete _ | .existsKey _ => Nat
  | .brpoplpush _ | .rpoplpush => Option Bytes
  | .setex _ _ _ | .work _ => Unit

/-- `BRPOPLPUSH` with timeout 0 waits until some other client pushes; with a positive
timeout it gives up with nil. `SETEX` refuses a time that is not positive. -/
def Server.handle (s : Server K) : (c : Cmd K) → Answer c.Reply (Server K)
  | .rpush v => .reply (s.main.length + 1) (s.rpush v)
  | .llen q => .reply (s.queue q).length s
  | .brpoplpush timeout => match s.rpoplpush with
    | (none, _) => if timeout = 0 then .wait else .reply none s
    | (some v, s') => .reply (some v) s'
  | .rpoplpush => .reply s.rpoplpush.1 s.rpoplpush.2
  | .setex key time value =>
    if time ≤ 0 then .refuse "ERR invalid expire time in setex" else .reply () (s.setex key value)
  | .lrem count v =>
    .reply (s.processing.length - (s.lrem count v).processing.length) (s.lrem count v)
  | .delete key => .reply (if (s.leases key).isSome then 1 else 0) (s.delete key)
  | .existsKey key => .reply (if (s.leases key).isSome then 1 else 0) s
  | .work _ => .reply () s

end Keys

end RedisQueue
