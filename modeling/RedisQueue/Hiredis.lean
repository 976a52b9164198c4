import Mathlib.Data.List.TakeWhile
import RedisQueue.Worker

/-!
# The hiredis client

`util::RedisQueue` (`c-hiredis-combined/src/rqueue.cpp`) talks to Redis through hiredis: a
command is sent as C strings and comes back as a `redisReply`, of which an integer reply
fills `integer` and a string reply `str` (NULL for nil). `RQueue`
(`redis-consumer-py/consumer.py:44-112`) is the Python client of the same queue; its
operations are those of `RedisSubscriber`, line by line.

| here | there |
| --- | --- |
| `RedisReply`, `redisCommand` | `redisReply`, `redisCommand` |
| `cstr`, `strcpy` | a C string, and copying one into the caller's buffer of `cap` bytes |
| `Util.Queue.llen`, `.empty` | `rqueue.cpp:47-58`, `:123-126` |
| `Util.Queue.rpoplpush`, `.setex`, `.lease` | `:72-88`, `:90-100`, `:128-132` |
| `Util.Queue.lrem`, `.del`, `.complete` | `:102-121`, `:134-138` |

Three things differ: `empty()` lacks the `== 0` of its second length, the lease key is set
to the item instead of the session, and `blocking = false` does not block, which in Python
it does (`hiredis_refines_iff`).
-/
namespace RedisQueue
open Program

variable {K K' : Type}

namespace Util

/-- The bytes up to the first NUL. -/
def cstr (b : Bytes) : Bytes := b.takeWhile (· ≠ 0)

def END : Bytes := [69, 78, 68]

structure RedisReply where
  integer : Nat
  str : Option Bytes

/-- What hiredis makes of a reply. -/
def redisReply : (c : Cmd K) → c.Reply → RedisReply
  | .rpush _, n | .llen _, n | .lrem _ _, n | .delete _, n | .existsKey _, n => ⟨n, none⟩
  | .brpoplpush _, r | .rpoplpush, r => ⟨0, r⟩
  | .setex _ _ _, _ => ⟨0, some [79, 75]⟩
  | .work _, _ => ⟨0, none⟩

def redisCommand (c : Cmd K) : Run K RedisReply := do
  let r ← redis c
  return redisReply c r

/-- Copying past the end of the buffer is undefined behaviour. -/
def strcpy (cap : Nat) (src : Bytes) : Run K Bytes :=
  if (cstr src).length < cap then return cstr src else .raise "buffer overflow"

/-- `util::RedisQueue`. `keyFor` is `_key_for`, `std::hash<std::string>`; `cap` is the size of the
buffers `lease` is given. -/
structure Queue (K : Type) where
  session : Bytes
  keyFor : Bytes → K
  cap : Nat

namespace Queue

def llen (q : QType) : Run K Nat := do
  let repl ← redisCommand (.llen q)
  return repl.integer

/-- `(_llen(MAIN) == 0) && (_llen(PROCESSING))`. -/
def empty : Run K Bool := do
  let main ← llen .main
  if main = 0 then
    let processing ← llen .processing
    return processing ≠ 0
  else
    return false

variable (q : Queue K)

/-- The content of the buffer afterwards. -/
def rpoplpush (blocking : Bool) (timeout : UInt8) : Run K Bytes := do
  let repl ← if blocking then redisCommand (.brpoplpush timeout.toNat) else redisCommand .rpoplpush
  match repl.str with
  | some str => strcpy q.cap str
  | none => strcpy q.cap END

/-- The value of the key is `item`. -/
def setex (item : Bytes) (duration : UInt8) : Run K Unit := do
  let repl ← redisCommand (.setex (q.keyFor (cstr item)) duration.toNat (cstr item))
  if repl.str = some [79, 75] then return () else .raise "assertion failed"

def lrem (item : Bytes) (count : UInt8) : Run K Unit := do
  let _ ← redisCommand (K := K) (.lrem count.toNat (cstr item))
  return ()

def del (item : Bytes) : Run K Unit := do
  let _ ← redisCommand (.delete (q.keyFor (cstr item)))
  return ()

/-- `item` is the caller's buffer, here the result. -/
def lease (duration timeout : UInt8) (blocking : Bool) : Run K Bytes := do
  let item ← q.rpoplpush blocking timeout
  if item ≠ END then
    q.setex item duration
    return item
  else
    return item

def complete (item : Bytes) : Run K Unit := do
  lrem item 0
  q.del item

end Queue
end Util

/-! ## The two clients side by side -/

section Agree

/-- A payload the hiredis client can handle: a C string that is not empty, not `END`, and
fits the buffer. -/
structure CPayload (cap : Nat) (v : Bytes) : Prop where
  nonempty : v ≠ []
  nulFree : (0 : UInt8) ∉ v
  fits : v.length < cap
  notEnd : v ≠ Util.END

theorem cstr_of_nulFree {v : Bytes} (h : (0 : UInt8) ∉ v) : Util.cstr v = v := by
  rw [Util.cstr, List.takeWhile_eq_self_iff]
  intro b hb
  simp only [decide_eq_true_eq]
  rintro rfl
  exact h hb

theorem strcpy_payload {cap : Nat} {v : Bytes} (h : CPayload cap v) :
    Util.strcpy (K := K) cap v = .ret v := by
  rw [Util.strcpy, cstr_of_nulFree h.nulFree, if_pos h.fits]
  rfl

theorem strcpy_end {cap : Nat} (h : Util.END.length < cap) :
    Util.strcpy (K := K) cap Util.END = .ret Util.END :=
  if_pos h

/-- An operation with its arguments. -/
inductive QueueOp where
  | empty
  | lease (duration timeout : UInt8) (blocking : Bool)
  | complete (item : Bytes)

/-- What an operation answers: a truth value, an item, or nothing. -/
inductive Reply where
  | bool (b : Bool)
  | item (r : Option Bytes)
  | unit
deriving DecidableEq

/-- The buffer `lease` leaves, `END` standing for `None`. -/
def ofBuffer (b : Bytes) : Option Bytes := if b = Util.END then none else some b

def QueueOp.hiredis (q : Util.Queue K) : QueueOp → Run K Reply
  | .empty => do return .bool (← Util.Queue.empty)
  | .lease duration timeout blocking => do return .item (ofBuffer (← q.lease duration timeout blocking))
  | .complete item => do
    q.complete item
    return .unit

def QueueOp.python (q : RedisSubscriber K') : QueueOp → Run K' Reply
  | .empty => do return .bool (← RedisSubscriber.empty)
  | .lease duration timeout blocking => do
    return .item (← q.lease duration.toNat blocking (some timeout.toNat))
  | .complete item => do
    q.complete item
    return .unit

variable [DecidableEq K] [DecidableEq K']

/-- The hiredis operation refines the Python one: it gives the same answer, waits only if the
Python one waits, and leaves the same queue. -/
structure Refines (Item : Bytes → Prop) (q : Util.Queue K) (q' : RedisSubscriber K') (op : QueueOp)
    (s : Server K) (t : Server K') : Prop where
  answer : ∀ a, ((op.hiredis q).run Server.handle s).out = .ret a →
    ((op.python q').run Server.handle t).out = .ret a
  waits : ((op.hiredis q).run Server.handle s).out = .waiting →
    ((op.python q').run Server.handle t).out = .waiting
  safe : ∀ m, ((op.hiredis q).run Server.handle s).out ≠ .raised m
  queue : SameQueue Item q.keyFor q'.itemKey ((op.hiredis q).run Server.handle s).srv
    ((op.python q').run Server.handle t).srv

/-- The items of a queue: payloads the hiredis client can handle, told apart by both hash
functions alike. -/
structure Items (Item : Bytes → Prop) (q : Util.Queue K) (key : Bytes → K') : Prop where
  payload : ∀ v, Item v → CPayload q.cap v
  hash : ∀ u v, Item u → Item v → (q.keyFor u = q.keyFor v ↔ key u = key v)
  /-- The buffers hold the sentinel. -/
  sentinel : Util.END.length < q.cap

/-- A duration `SETEX` does not refuse (a `uint8_t`, so 1 to 255 seconds), an item of the queue. -/
def QueueOp.Valid (Item : Bytes → Prop) : QueueOp → Prop
  | .empty => True
  | .lease duration _ _ => 0 < duration.toNat
  | .complete item => Item item

/-- The hiredis client refines the Python client with the same session. -/
def HiredisRefines (K K' : Type) [DecidableEq K] [DecidableEq K'] : Prop :=
  ∀ (Item : Bytes → Prop) (q : Util.Queue K) (key : Bytes → K'), Items Item q key →
    ∀ (s : Server K) (t : Server K') (op : QueueOp), SameQueue Item q.keyFor key s t →
      (∀ v ∈ s.main ++ s.processing, Item v) → op.Valid Item → Refines Item q ⟨q.session, key⟩ op s t

/-- When an operation of the hiredis client does what the Python one does. -/
def QueueOp.Alike (session : Bytes) (main : List Bytes) : QueueOp → Prop
  | .empty => main ≠ []
  | .lease _ _ blocking => main = [] ∧ blocking = true ∨ main.getLast? = some session
  | .complete _ => True

section Lemmas
variable {Item : Bytes → Prop} {q : Util.Queue K} {key : Bytes → K'} {s : Server K} {t : Server K'}
  {v x : Bytes} {l : List Bytes}

theorem sameQueue_setex (hi : Items Item q key) (hq : SameQueue Item q.keyFor key s t) (hv : Item v) :
    SameQueue Item q.keyFor key (s.setex (q.keyFor v) x) (t.setex (key v) x) := by
  refine ⟨hq.main, hq.processing, fun u hu => ?_⟩
  simp only [Server.setex, Function.update_apply, hi.hash u v hu hv, hq.leases u hu]

theorem sameQueue_delete (hi : Items Item q key) (hq : SameQueue Item q.keyFor key s t) (hv : Item v) :
    SameQueue Item q.keyFor key (s.delete (q.keyFor v)) (t.delete (key v)) := by
  refine ⟨hq.main, hq.processing, fun u hu => ?_⟩
  simp only [Server.delete, Function.update_apply, hi.hash u v hu hv, hq.leases u hu]

/-- On an empty main list `lease` answers `END`, waiting first when it blocks. -/
theorem hiredis_lease_nil (hend : Util.END.length < q.cap) (hm : s.main = []) (duration timeout : UInt8)
    (blocking : Bool) : ((QueueOp.lease duration timeout blocking).hiredis q).run Server.handle s =
      if blocking = true ∧ timeout.toNat = 0 then ⟨[], s, .waiting⟩
      else if blocking = true then ⟨[⟨.brpoplpush timeout.toNat, none⟩], s, .ret (.item none)⟩
      else ⟨[⟨.rpoplpush, none⟩], s, .ret (.item none)⟩ := by
  cases blocking with
  | true =>
    by_cases ht : timeout.toNat = 0
    · simp [QueueOp.hiredis, Util.Queue.lease, Util.Queue.rpoplpush, Util.redisCommand, Prog.run,
        Server.handle, rpoplpush_nil hm, ht]
    · simp [QueueOp.hiredis, Util.Queue.lease, Util.Queue.rpoplpush, Util.redisCommand, Prog.run,
        Server.handle, rpoplpush_nil hm, ht, Util.redisReply, strcpy_end hend, ofBuffer]
  | false =>
    simp [QueueOp.hiredis, Util.Queue.lease, Util.Queue.rpoplpush, Util.redisCommand, Prog.run,
      Server.handle, rpoplpush_nil hm, Util.redisReply, strcpy_end hend, ofBuffer]

/-- A lease sets the key of the item to the item. -/
theorem hiredis_lease_snoc (hv : CPayload q.cap v) (hm : s.main = l ++ [v]) {duration : UInt8}
    (hd : 0 < duration.toNat) (timeout : UInt8) (blocking : Bool) :
    (((QueueOp.lease duration timeout blocking).hiredis q).run Server.handle s).out = .ret (.item (some v)) ∧
    (((QueueOp.lease duration timeout blocking).hiredis q).run Server.handle s).srv =
      { s with main := l, processing := v :: s.processing }.setex (q.keyFor v) v := by
  have hd' : duration.toNat ≠ 0 := by omega
  cases blocking <;>
    simp [QueueOp.hiredis, Util.Queue.lease, Util.Queue.rpoplpush, Util.Queue.setex, Util.redisCommand,
      Prog.run, Server.handle, rpoplpush_snoc hm, Util.redisReply, strcpy_payload hv,
      cstr_of_nulFree hv.nulFree, hv.notEnd, hd', ofBuffer]

theorem python_lease_nil (q' : RedisSubscriber K') (hm : t.main = []) (duration timeout : UInt8)
    (blocking : Bool) :
    (((QueueOp.lease duration timeout blocking).python q').run Server.handle t).srv = t ∧
    (((QueueOp.lease duration timeout blocking).python q').run Server.handle t).out =
      if blocking = true ∧ timeout.toNat ≠ 0 then .ret (.item none) else .waiting := by
  rw [QueueOp.python, run_bind, run_lease_nil q' hm]
  by_cases hw : blocking = true ∧ timeout.toNat ≠ 0 <;> simp [hw]

/-- A lease sets the key of the item to the session. -/
theorem python_lease_snoc (q' : RedisSubscriber K') (hv : v ≠ []) (hm : t.main = l ++ [v])
    {duration : UInt8} (hd : 0 < duration.toNat) (timeout : UInt8) (blocking : Bool) :
    (((QueueOp.lease duration timeout blocking).python q').run Server.handle t).out = .ret (.item (some v)) ∧
    (((QueueOp.lease duration timeout blocking).python q').run Server.handle t).srv =
      { t with main := l, processing := v :: t.processing }.setex (q'.itemKey v) q'.session := by
  rw [QueueOp.python, run_bind, run_lease_snoc q' hm hv (Int.natCast_pos.2 hd)]
  simp

/-- `empty()` of the hiredis client is right exactly while the main list has elements. -/
theorem hiredis_empty : (QueueOp.empty.hiredis q).run Server.handle s =
    if s.main = [] then ⟨[⟨.llen .main, (0 : Nat)⟩, ⟨.llen .processing, s.processing.length⟩], s,
      .ret (.bool (decide (s.processing ≠ [])))⟩
    else ⟨[⟨.llen .main, s.main.length⟩], s, .ret (.bool false)⟩ := by
  by_cases hm : s.main = [] <;>
    simp [QueueOp.hiredis, Util.Queue.empty, Util.Queue.llen, Util.redisCommand, Util.redisReply, Prog.run,
      Server.handle, Server.queue, hm]

theorem python_empty (q' : RedisSubscriber K') :
    ((QueueOp.empty.python q').run Server.handle t).srv = t ∧
    ((QueueOp.empty.python q').run Server.handle t).out =
      .ret (.bool (decide (t.main = [] ∧ t.processing = []))) := by
  rw [QueueOp.python, run_bind, run_empty]
  by_cases hm : t.main = [] <;> simp [hm]

theorem hiredis_complete (hv : (0 : UInt8) ∉ v) :
    (((QueueOp.complete v).hiredis q).run Server.handle s).out = .ret .unit ∧
    (((QueueOp.complete v).hiredis q).run Server.handle s).srv = (s.lrem 0 v).delete (q.keyFor v) := by
  simp [QueueOp.hiredis, Util.Queue.complete, Util.Queue.lrem, Util.Queue.del, Util.redisCommand, Prog.run,
    Server.handle, cstr_of_nulFree hv]

theorem python_complete (q' : RedisSubscriber K') :
    (((QueueOp.complete v).python q').run Server.handle t).out = .ret .unit ∧
    (((QueueOp.complete v).python q').run Server.handle t).srv = (t.lrem 0 v).delete (q'.itemKey v) := by
  rw [QueueOp.python, run_bind, run_complete]
  simp

/-! ## Operation by operation -/

theorem refines_empty_iff (hq : SameQueue Item q.keyFor key s t) :
    Refines Item q ⟨q.session, key⟩ .empty s t ↔ s.main ≠ [] := by
  obtain ⟨hsrv, hout⟩ := python_empty (t := t) ⟨q.session, key⟩
  constructor
  · intro h hm
    have ha := h.answer (.bool (decide (s.processing ≠ []))) (by rw [hiredis_empty, if_pos hm])
    rw [hout, ← hq.main, ← hq.processing, hm] at ha
    by_cases hp : s.processing = [] <;> simp [hp] at ha
  · intro hm
    have hrun := hiredis_empty (q := q) (s := s)
    rw [if_neg hm] at hrun
    refine ⟨fun a ha => ?_, fun hw => ?_, fun m => ?_, ?_⟩
    · rw [hrun] at ha
      rw [hout, ← hq.main, ← ha]
      simp [hm]
    · rw [hrun] at hw; cases hw
    · rw [hrun]; simp
    · rw [hrun, hsrv]; exact hq

theorem refines_lease_nil_iff (hi : Items Item q key) (hq : SameQueue Item q.keyFor key s t)
    (hm : s.main = []) (duration timeout : UInt8) (blocking : Bool) :
    Refines Item q ⟨q.session, key⟩ (.lease duration timeout blocking) s t ↔ blocking = true := by
  obtain ⟨hsrv, hout⟩ := python_lease_nil (t := t) ⟨q.session, key⟩ (hq.main ▸ hm) duration timeout blocking
  have hrun := hiredis_lease_nil (s := s) hi.sentinel hm duration timeout blocking
  cases blocking with
  | false =>
    -- Python waits where hiredis answers
    constructor
    · intro h
      have ha := h.answer (.item none) (by rw [hrun]; simp)
      rw [hout] at ha
      simp at ha
    · intro h; cases h
  | true =>
    refine ⟨fun _ => rfl, fun _ => ?_⟩
    by_cases ht : timeout.toNat = 0
    · simp only [ht] at hrun hout
      refine ⟨fun a ha => ?_, fun _ => ?_, fun m => ?_, ?_⟩
      · rw [hrun] at ha; simp at ha
      · rw [hout]; simp
      · rw [hrun]; simp
      · rw [hrun, hsrv]; simpa using hq
    · simp only [ht] at hrun hout
      refine ⟨fun a ha => ?_, fun hw => ?_, fun m => ?_, ?_⟩
      · rw [hrun] at ha; rw [hout]; simpa [ht] using ha
      · rw [hrun] at hw; simp at hw
      · rw [hrun]; simp
      · rw [hrun, hsrv]; simpa using hq

theorem refines_lease_snoc_iff (hi : Items Item q key) (hq : SameQueue Item q.keyFor key s t)
    (hv : Item v) (hm : s.main = l ++ [v]) {duration : UInt8} (hd : 0 < duration.toNat) (timeout : UInt8)
    (blocking : Bool) :
    Refines Item q ⟨q.session, key⟩ (.lease duration timeout blocking) s t ↔ v = q.session := by
  have hpay := hi.payload v hv
  obtain ⟨hout, hsrv⟩ := hiredis_lease_snoc (q := q) (s := s) hpay hm hd timeout blocking
  obtain ⟨hout', hsrv'⟩ := python_lease_snoc (t := t) ⟨q.session, key⟩ hpay.nonempty (hq.main ▸ hm) hd
    timeout blocking
  have hmoved : SameQueue Item q.keyFor key { s with main := l, processing := v :: s.processing }
      { t with main := l, processing := v :: t.processing } :=
    ⟨rfl, congrArg _ hq.processing, hq.leases⟩
  constructor
  · intro h
    have hkey := h.queue.leases v hv
    rw [hsrv, hsrv'] at hkey
    simpa [Server.setex] using hkey
  · intro heq
    refine ⟨fun a ha => ?_, fun hw => ?_, fun m => ?_, ?_⟩
    · rw [hout] at ha; rw [hout', ← ha]
    · rw [hout] at hw; cases hw
    · rw [hout]; simp
    · rw [hsrv, hsrv', ← heq]
      exact sameQueue_setex hi hmoved hv

theorem refines_complete (hi : Items Item q key) (hq : SameQueue Item q.keyFor key s t) (hv : Item v) :
    Refines Item q ⟨q.session, key⟩ (.complete v) s t := by
  obtain ⟨hout, hsrv⟩ := hiredis_complete (q := q) (s := s) (hi.payload v hv).nulFree
  obtain ⟨hout', hsrv'⟩ := python_complete (t := t) (v := v) ⟨q.session, key⟩
  refine ⟨fun a ha => ?_, fun hw => ?_, fun m => ?_, ?_⟩
  · rw [hout] at ha; rw [hout', ← ha]
  · rw [hout] at hw; cases hw
  · rw [hout]; simp
  · rw [hsrv, hsrv']
    refine sameQueue_delete hi ⟨hq.main, ?_, hq.leases⟩ hv
    simp only [Server.lrem, hq.processing]

end Lemmas

/-- One payload, `a`, and hash functions without collisions. -/
theorem items_plain : Items (fun v => v = [97]) (⟨[1], id, 10⟩ : Util.Queue Bytes) (id : Bytes → Bytes) := by
  refine ⟨?_, fun _ _ _ _ => Iff.rfl, by decide⟩
  rintro v rfl
  exact ⟨by simp, by decide, by decide, by decide⟩

/-- On two empty lists `empty()` of the hiredis client answers false. -/
theorem hiredis_not_refines : ¬ HiredisRefines Bytes Bytes := by
  intro h
  have hq : SameQueue (fun v => v = [97]) (id : Bytes → Bytes) id Server.empty Server.empty :=
    ⟨rfl, rfl, fun _ _ => rfl⟩
  have href := h _ _ _ items_plain .empty .empty .empty hq (by simp [Server.empty]) trivial
  exact (refines_empty_iff (q := (⟨[1], id, 10⟩ : Util.Queue Bytes)) hq).1 href rfl

/-- **When the hiredis client refines the Python client**: `empty()` while the main list has
elements, `lease` when it blocks on an empty main list or the item happens to be the session,
`complete` always. -/
theorem hiredis_refines_iff (Item : Bytes → Prop) (q : Util.Queue K) (key : Bytes → K')
    (hi : Items Item q key) {s : Server K} {t : Server K'} (hq : SameQueue Item q.keyFor key s t)
    (hs : ∀ v ∈ s.main ++ s.processing, Item v) {op : QueueOp} (hop : op.Valid Item) :
    Refines Item q ⟨q.session, key⟩ op s t ↔ op.Alike q.session s.main := by
  cases op with
  | empty => exact refines_empty_iff hq
  | complete v => exact ⟨fun _ => trivial, fun _ => refines_complete hi hq hop⟩
  | lease duration timeout blocking =>
    rcases List.eq_nil_or_concat' s.main with hm | ⟨l, v, hm⟩
    · rw [refines_lease_nil_iff hi hq hm, QueueOp.Alike]
      simp [hm]
    · rw [refines_lease_snoc_iff hi hq (hs v (by simp [hm])) hm hop, QueueOp.Alike]
      simp [hm]

/-- On the main list `a`, `empty()` agrees, and a lease for 5 seconds does not: the item is no session. -/
theorem hiredis_refines_iff_busy :
    Refines (fun v => v = [97]) (⟨[1], id, 10⟩ : Util.Queue Bytes) ⟨[1], id⟩ .empty
      ⟨[[97]], [], fun _ => none⟩ ⟨[[97]], [], fun _ => none⟩ ∧
    ¬ Refines (fun v => v = [97]) (⟨[1], id, 10⟩ : Util.Queue Bytes) ⟨[1], id⟩ (.lease 5 2 true)
      ⟨[[97]], [], fun _ => none⟩ ⟨[[97]], [], fun _ => none⟩ := by
  have hq : SameQueue (fun v => v = [97]) (id : Bytes → Bytes) id ⟨[[97]], [], fun _ => none⟩
      ⟨[[97]], [], fun _ => none⟩ := ⟨rfl, rfl, fun _ _ => rfl⟩
  refine ⟨?_, fun href => ?_⟩
  · exact (hiredis_refines_iff _ ⟨[1], id, 10⟩ id items_plain hq (by simp)
      (show QueueOp.empty.Valid _ from trivial)).2 (by simp [QueueOp.Alike])
  · have hop : (QueueOp.lease 5 2 true).Valid fun v => v = [97] := by
      show 0 < (5 : UInt8).toNat
      decide
    have halike := (hiredis_refines_iff _ ⟨[1], id, 10⟩ id items_plain hq (by simp) hop).1 href
    simp [QueueOp.Alike] at halike

end Agree

end RedisQueue
