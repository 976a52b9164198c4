import Mathlib.Data.List.Induction
import RedisQueue.Hiredis

/-!
# C++ workers over hiredis, and the one that loses its items

`Hiredis.lean` looks at the operations while every command is answered. Here whole workers
are looked at, with what a worker does besides Redis commands: copies of C strings into
blocks of a given size, and the work itself. A reply may be missing (`Link`). This file has
the language and `redis-consumer-c`; `Combined.lean` has the other worker.

| here | there |
| --- | --- |
| `Act`, `Code` | a command, a `strcpy`, the `sleep(2)` that stands for the work; programs of these |
| `llen`, `empty`, `setex`, `lrem`, `del`, `complete` | both `rqueue.cpp`, which have them word for word |
| `Consumer.rpoplpush`, `.lease` | `redis-consumer-c/.../rqueue.cpp:72-90`, `:130-134` |
| `Consumer.turn`, `Consumer.main` | `redis-consumer-c/.../main.cpp:15-31`, `:13-33` |

A `char *` is the bytes up to its NUL, a null pointer is `none`. What a copy past the end of
its block does to the rest is left out: the copy is recorded with the size of its block, and
`InBounds` says that there was none.

`lease` hands `_rpoplpush` a null pointer and gets nothing back, so the worker moves items out
of the main list and never works on one (`consumer_processes_iff`).
-/
namespace RedisQueue
open Program

variable {K : Type}

namespace Hiredis

inductive Act (K : Type) where
  | send (c : Cmd K)
  | strcpy (room : Nat) (src : Bytes)
  | work (item : Bytes)

/-- `none` is NULL, the answer of hiredis on a broken connection. -/
@[reducible] def Act.Reply : Act K → Type
  | .send _ => Option Util.RedisReply
  | .strcpy _ _ | .work _ => Unit

abbrev Code (K α : Type) := Prog (Act K) Act.Reply α

abbrev act (a : Act K) : Code K a.Reply := issue a

def redisCommand (c : Cmd K) : Code K (Option Util.RedisReply) := act (.send c)

/-- The string the block holds afterwards. -/
def strcpy (room : Nat) (src : Bytes) : Code K Bytes := do
  act (.strcpy room src)
  return Util.cstr src

/-- `repl -> len`. -/
def length (repl : Util.RedisReply) : Nat := (repl.str.getD []).length

/-- Without a reply `_len` is read uninitialised. -/
def llen (q : QType) : Code K Nat := do
  match ← redisCommand (.llen q) with
  | some repl => return repl.integer
  | none => .raise "uninitialised"

/-- `(_llen(MAIN) == 0) && (_llen(PROCESSING))`. -/
def empty : Code K Bool := do
  let main ← llen .main
  if main = 0 then
    let processing ← llen .processing
    return processing ≠ 0
  else
    return false

def lrem (item : Bytes) (count : UInt8) : Code K Unit := do
  let _ ← redisCommand (.lrem count.toNat item)
  return ()

section Queue
variable (keyFor : Bytes → K)

/-- The value of the key is `item`. -/
def setex (item : Bytes) (duration : UInt8) : Code K Unit := do
  match ← redisCommand (.setex (keyFor item) duration.toNat item) with
  | some repl => if repl.str.map Util.cstr = some [79, 75] then return () else .raise "assertion failed"
  | none => return ()

def del (item : Bytes) : Code K Unit := do
  let _ ← redisCommand (.delete (keyFor item))
  return ()

def complete (item : Bytes) : Code K Unit := do
  lrem item 0
  del keyFor item

namespace Consumer

/-- The block is assigned to the parameter `item`, which is a copy of the caller's pointer. -/
def rpoplpush (blocking : Bool) (timeout : UInt8) (_item : Option Bytes) : Code K Unit := do
  let repl ← if blocking then redisCommand (.brpoplpush timeout.toNat) else redisCommand .rpoplpush
  match repl with
  | some repl =>
    if 0 < length repl then
      let _item ← strcpy (length repl) (repl.str.getD [])
      return ()
    else
      return ()
  | none => return ()

def lease (item : Option Bytes) (duration timeout : UInt8) (blocking : Bool) : Code K Unit := do
  rpoplpush blocking timeout item
  match item with
  | some item => setex keyFor item duration
  | none => return ()

def turn : Code K Ctl := do
  if ← empty then
    return .leave
  else
    let item : Option Bytes := none
    lease keyFor item 5 2 true
    match item with
    | some item =>
      if item ≠ [] then
        act (.work item)
        complete keyFor item
        return .again
      else
        return .again
    | none => return .again

/-- At most `n` turns. -/
def main (n : Nat) : Code K Ctl := do
  let _ ← empty
  if ← empty then
    .raise "exit 139"
  else
    loop (turn keyFor) n

end Consumer

end Queue

/-! ## The connection -/

/-- What becomes of the pop: it is answered, or the connection is lost before the server has it
or after, or the server refuses it with a message. -/
inductive Fault where
  | none
  | unsent
  | unanswered
  | error (msg : Bytes)
deriving DecidableEq

structure Link (K : Type) where
  srv : Server K
  up : Bool
  fault : Fault

def isPop : Cmd K → Bool
  | .brpoplpush _ | .rpoplpush => true
  | _ => false

section Handle
variable [DecidableEq K]

/-- A refusal arrives as an error reply, with its text in `str`. -/
def Link.answer (k : Link K) (c : Cmd K) : Answer (Option Util.RedisReply) (Link K) :=
  match k.srv.handle c with
  | .reply r s => .reply (some (Util.redisReply c r)) { k with srv := s }
  | .refuse msg => .reply (some ⟨0, some msg.toUTF8.data.toList⟩) k
  | .wait => .wait

/-- hiredis does not reconnect. -/
def Link.sent (k : Link K) (c : Cmd K) : Answer (Option Util.RedisReply) (Link K) :=
  if k.up = false then .reply none k
  else if isPop c then
    match k.fault with
    | .none => k.answer c
    | .unsent => .reply none { k with up := false }
    | .unanswered => match k.answer c with
      | .reply _ k' => .reply none { k' with up := false }
      | _ => .reply none { k with up := false }
    | .error msg => .reply (some ⟨0, some msg⟩) k
  else k.answer c

def Link.handle (k : Link K) : (a : Act K) → Answer a.Reply (Link K)
  | .send c => k.sent c
  | .strcpy _ _ => .reply () k
  | .work _ => .reply () k

/-- A connection on which nothing fails. -/
abbrev online (s : Server K) : Link K := ⟨s, true, .none⟩

/-! ## What a run shows -/

abbrev Log (K : Type) := List (Sigma (Act.Reply (K := K)))

/-- The element a pop handed out. -/
def popped : Sigma (Act.Reply (K := K)) → Option Bytes
  | ⟨.send (.brpoplpush _), repl⟩ | ⟨.send .rpoplpush, repl⟩ => repl.bind Util.RedisReply.str
  | _ => none

/-- The items worked on. -/
def workedBytes (log : Log K) : List Bytes := log.filterMap fun
  | ⟨.work item, _⟩ => some item
  | _ => none

/-- Every copy stays, with its NUL, within its block. -/
def InBounds (log : Log K) : Prop :=
  ∀ room src r, ⟨.strcpy room src, r⟩ ∈ log → (Util.cstr src).length < room

section Answers
variable {s : Server K} {f : Fault} {l : List Bytes} {v : Bytes}

@[simp] theorem handle_strcpy (k : Link K) (room : Nat) (src : Bytes) :
    k.handle (.strcpy room src) = .reply () k := rfl

@[simp] theorem handle_work (k : Link K) (item : Bytes) : k.handle (.work item) = .reply () k := rfl

@[simp] theorem handle_llen (q : QType) : (⟨s, true, f⟩ : Link K).handle (.send (.llen q)) =
    .reply (some ⟨(s.queue q).length, none⟩) ⟨s, true, f⟩ := rfl

@[simp] theorem handle_setex (key : K) (value : Bytes) :
    (⟨s, true, f⟩ : Link K).handle (.send (.setex key 5 value)) =
      .reply (some ⟨0, some [79, 75]⟩) ⟨s.setex key value, true, f⟩ := rfl

@[simp] theorem handle_lrem (count : Int) (value : Bytes) :
    (⟨s, true, f⟩ : Link K).handle (.send (.lrem count value)) =
      .reply (some ⟨s.processing.length - (s.lrem count value).processing.length, none⟩)
        ⟨s.lrem count value, true, f⟩ := rfl

@[simp] theorem handle_delete (key : K) : (⟨s, true, f⟩ : Link K).handle (.send (.delete key)) =
    .reply (some ⟨if (s.leases key).isSome then 1 else 0, none⟩) ⟨s.delete key, true, f⟩ := rfl

theorem handle_pop_nil (hm : s.main = []) : (online s).handle (.send (.brpoplpush 2)) =
    .reply (some ⟨0, none⟩) (online s) := by
  simp [Link.handle, Link.sent, isPop, Link.answer, Server.handle, rpoplpush_nil hm, Util.redisReply]

theorem handle_pop_snoc (hm : s.main = l ++ [v]) : (online s).handle (.send (.brpoplpush 2)) =
    .reply (some ⟨0, some v⟩) (online ⟨l, v :: s.processing, s.leases⟩) := by
  simp [Link.handle, Link.sent, isPop, Link.answer, Server.handle, rpoplpush_snoc hm, Util.redisReply]

end Answers

/-! ## `redis-consumer-c` -/

section Consumer
variable (keyFor : Bytes → K) {s : Server K} {l : List Bytes} {v : Bytes}

/-- As in the combined client, `empty()` answers true when something is being processed. -/
theorem run_empty (s : Server K) : empty.run Link.handle (online s) =
    if s.main = [] then ⟨[⟨.send (.llen .main), some ⟨0, none⟩⟩,
      ⟨.send (.llen .processing), some ⟨s.processing.length, none⟩⟩], online s,
      .ret (decide (s.processing ≠ []))⟩
    else ⟨[⟨.send (.llen .main), some ⟨s.main.length, none⟩⟩], online s, .ret false⟩ := by
  by_cases hm : s.main = [] <;>
    simp [empty, llen, redisCommand, Prog.run, Server.queue, hm]

theorem turn_idle (hm : s.main = []) (hp : s.processing = []) :
    (Consumer.turn keyFor).run Link.handle (online s) = ⟨[⟨.send (.llen .main), some ⟨0, none⟩⟩,
      ⟨.send (.llen .processing), some ⟨0, none⟩⟩, ⟨.send (.brpoplpush 2), some ⟨0, none⟩⟩], online s,
      .ret .again⟩ := by
  simp [Consumer.turn, run_bind, run_empty, hm, hp, Consumer.lease, Consumer.rpoplpush, redisCommand,
    Prog.run, handle_pop_nil hm, length]

theorem turn_leave (hm : s.main = []) (hp : s.processing ≠ []) :
    ((Consumer.turn keyFor).run Link.handle (online s)).out = .ret .leave ∧
    ((Consumer.turn keyFor).run Link.handle (online s)).srv = online s := by
  simp [Consumer.turn, run_bind, run_empty, hm, hp]

/-- The item is moved, copied, and forgotten. -/
theorem turn_take (hm : s.main = l ++ [v]) :
    ((Consumer.turn keyFor).run Link.handle (online s)).out = .ret .again ∧
    ((Consumer.turn keyFor).run Link.handle (online s)).srv = online ⟨l, v :: s.processing, s.leases⟩ := by
  have hne : s.main ≠ [] := by simp [hm]
  by_cases hv : v = []
  · subst hv
    simp [Consumer.turn, run_bind, run_empty, hne, Consumer.lease, Consumer.rpoplpush, redisCommand,
      Prog.run, handle_pop_snoc hm, length]
  · have hlen : 0 < v.length := List.length_pos_of_ne_nil hv
    simp [Consumer.turn, run_bind, run_empty, hne, Consumer.lease, Consumer.rpoplpush, redisCommand,
      Prog.run, handle_pop_snoc hm, length, hlen, strcpy]

/-- The whole process, as far as the queue is concerned. -/
theorem run_main (hp : s.processing = []) (n : Nat) :
    ∃ log, ((Consumer.main keyFor n).run Link.handle (online s)).log =
        log ++ ((loop (Consumer.turn keyFor) n).run Link.handle (online s)).log ∧
      (∀ x ∈ log, ∃ q repl, x = ⟨.send (.llen q), repl⟩) ∧
      ((Consumer.main keyFor n).run Link.handle (online s)).srv =
        ((loop (Consumer.turn keyFor) n).run Link.handle (online s)).srv ∧
      ((Consumer.main keyFor n).run Link.handle (online s)).out =
        ((loop (Consumer.turn keyFor) n).run Link.handle (online s)).out := by
  rw [Consumer.main, run_bind, run_empty]
  by_cases hm : s.main = []
  · rw [if_pos hm]
    simp only [run_bind, run_empty, hm, hp]
    refine ⟨_, (List.append_assoc _ _ _).symm, ?_, rfl, rfl⟩
    simp
  · rw [if_neg hm]
    simp only [run_bind, run_empty, hm]
    refine ⟨_, (List.append_assoc _ _ _).symm, ?_, rfl, rfl⟩
    simp

/-- **Everything is stranded**: the loop moves the main list into the processing list, item by
item, and leaves. -/
theorem loop_strands : ∀ (M P : List Bytes) (L : K → Option Bytes), M ++ P ≠ [] → ∀ n,
    ((loop (Consumer.turn keyFor) (M.length + 1 + n)).run Link.handle (online ⟨M, P, L⟩)).out = .ret .leave ∧
    ((loop (Consumer.turn keyFor) (M.length + 1 + n)).run Link.handle (online ⟨M, P, L⟩)).srv =
      online ⟨[], M ++ P, L⟩ := by
  intro M
  induction M using List.reverseRecOn with
  | nil =>
    intro P L hP n
    obtain ⟨ho, hs⟩ := turn_leave keyFor (s := ⟨[], P, L⟩) rfl hP
    have hlen : ([] : List Bytes).length + 1 + n = n + 1 := by simp; omega
    rw [hlen, run_loop_stop (by simp [ho])]
    exact ⟨ho, hs⟩
  | append_singleton l v ih =>
    intro P L _ n
    obtain ⟨ho, hs⟩ := turn_take keyFor (s := ⟨l ++ [v], P, L⟩) rfl
    have hlen : (l ++ [v]).length + 1 + n = l.length + 1 + n + 1 := by simp; omega
    rw [hlen, run_loop_again ho, hs]
    have hrest := ih (v :: P) L (by simp) n
    rw [List.append_assoc]
    exact hrest

omit [DecidableEq K] in
theorem only_empty {p : Act K → Prop} (hp : ∀ c, p (.send c)) : (empty (K := K)).Only p := by
  have hllen (q : QType) : (llen (K := K) q).Only p :=
    only_bind ((only_issue _).2 (hp _)) fun repl => by cases repl <;> simp
  exact only_bind (hllen .main) fun _ =>
    only_ite (only_bind (hllen .processing) fun _ => only_ret _) (only_ret _)

omit [DecidableEq K] in
/-- The consumer sends and copies, and never works. -/
theorem only_main (n : Nat) : (Consumer.main keyFor n).Only fun a => ∀ item, a ≠ Act.work item := by
  have hempty : (empty (K := K)).Only fun a => ∀ item, a ≠ Act.work item := only_empty (by simp)
  have hlease : (Consumer.lease keyFor none 5 2 true).Only fun a => ∀ item, a ≠ Act.work item := by
    refine only_bind (only_bind ((only_issue _).2 (by simp)) fun repl => ?_) fun _ => only_ret _
    cases repl with
    | none => exact only_ret _
    | some repl =>
      exact only_ite (only_bind (only_bind ((only_issue _).2 (by simp)) fun _ => only_ret _) fun _ => only_ret _)
        (only_ret _)
  have hturn : (Consumer.turn keyFor).Only fun a => ∀ item, a ≠ Act.work item :=
    only_bind hempty fun _ => only_ite (only_ret _) (only_bind hlease fun _ => only_ret _)
  exact only_bind hempty fun _ => only_bind hempty fun _ => only_ite (only_raise _) (only_loop hturn n)

/-- It works on nothing, whatever becomes of the connection. -/
theorem works_on_nothing (n : Nat) (k : Link K) :
    workedBytes ((Consumer.main keyFor n).run Link.handle k).log = [] := by
  refine List.filterMap_eq_nil_iff.2 fun x hx => ?_
  have hno := log_of_only (h := Link.handle) (only_main keyFor n) k x hx
  split
  · exact absurd rfl (hno _)
  · rfl

/-- The copy of a payload is one byte longer than its block. -/
theorem turn_overflows (hm : s.main = l ++ [v]) (hv : v ≠ []) (h0 : (0 : UInt8) ∉ v) :
    ¬ InBounds ((Consumer.turn keyFor).run Link.handle (online s)).log := by
  intro h
  have hne : s.main ≠ [] := by simp [hm]
  have hlen : 0 < v.length := List.length_pos_of_ne_nil hv
  have hlt := h v.length v () (by
    simp [Consumer.turn, run_bind, run_empty, hne, Consumer.lease, Consumer.rpoplpush, redisCommand,
      Prog.run, handle_pop_snoc hm, length, hlen, strcpy])
  rw [cstr_of_nulFree h0] at hlt
  exact Nat.lt_irrefl _ hlt

/-- **The process says that all items are processed** when it has stranded them all. -/
theorem consumer_strands {M : List Bytes} (L : K → Option Bytes) (hM : M ≠ []) (n : Nat) :
    ((Consumer.main keyFor (M.length + 1 + n)).run Link.handle (online ⟨M, [], L⟩)).out = .ret .leave ∧
    ((Consumer.main keyFor (M.length + 1 + n)).run Link.handle (online ⟨M, [], L⟩)).srv = online ⟨[], M, L⟩ := by
  obtain ⟨log, -, -, hs, ho⟩ := run_main keyFor (s := ⟨M, [], L⟩) rfl (M.length + 1 + n)
  obtain ⟨ho', hs'⟩ := loop_strands keyFor M [] L (by simpa using hM) n
  rw [List.append_nil] at hs'
  exact ⟨ho.trans ho', hs.trans hs'⟩

/-- With nothing to do, it polls. -/
theorem loop_polls (L : K → Option Bytes) (n : Nat) :
    ((loop (Consumer.turn keyFor) n).run Link.handle (online ⟨[], [], L⟩)).out = .ret .again ∧
    ∀ x ∈ ((loop (Consumer.turn keyFor) n).run Link.handle (online ⟨[], [], L⟩)).log,
      popped x = none ∧ ∃ c repl, x = ⟨.send c, repl⟩ := by
  have hturn (k : Link K) (hk : k = online ⟨[], [], L⟩) :
      ((Consumer.turn keyFor).run Link.handle k).out = .ret .again ∧
      ((Consumer.turn keyFor).run Link.handle k).srv = online ⟨[], [], L⟩ ∧
      ∀ x ∈ ((Consumer.turn keyFor).run Link.handle k).log, popped x = none ∧ ∃ c repl, x = ⟨.send c, repl⟩ := by
    subst hk
    rw [turn_idle keyFor rfl rfl]
    simp [popped]
  obtain ⟨ho, -, hlog⟩ := run_loop_keeps hturn n _ rfl
  exact ⟨ho, hlog⟩

theorem main_polls (L : K → Option Bytes) (n : Nat) :
    ((Consumer.main keyFor n).run Link.handle (online ⟨[], [], L⟩)).out = .ret .again ∧
    ∀ x ∈ ((Consumer.main keyFor n).run Link.handle (online ⟨[], [], L⟩)).log,
      popped x = none ∧ ∃ c repl, x = ⟨.send c, repl⟩ := by
  obtain ⟨log, hrun, hllen, -, ho⟩ := run_main keyFor (s := ⟨[], [], L⟩) rfl n
  obtain ⟨ho', hlog⟩ := loop_polls keyFor L n
  refine ⟨ho.trans ho', fun x hx => ?_⟩
  rw [hrun, List.mem_append] at hx
  rcases hx with hx | hx
  · obtain ⟨q, repl, rfl⟩ := hllen x hx
    exact ⟨rfl, _, _, rfl⟩
  · exact hlog x hx

end Consumer

/-- The worker processes what it pops, from the main list `M` and an empty processing list. -/
structure ProcessesAll (keyFor : Bytes → K) (M : List Bytes) (L : K → Option Bytes) : Prop where
  works : ∃ n, ∀ m, n ≤ m →
    (workedBytes ((Consumer.main keyFor m).run Link.handle (online ⟨M, [], L⟩)).log).Perm M
  /-- A lease is registered, then worked on, then completed. -/
  leases : ∀ n pre x post v,
    ((Consumer.main keyFor n).run Link.handle (online ⟨M, [], L⟩)).log = pre ++ x :: post → popped x = some v →
      [.send (.setex (keyFor v) 5 v), .work v, .send (.lrem 0 v), .send (.delete (keyFor v))].Sublist
        (post.map Sigma.fst)
  inBounds : ∀ n, InBounds ((Consumer.main keyFor n).run Link.handle (online ⟨M, [], L⟩)).log
  leaves : ∀ n, ((Consumer.main keyFor n).run Link.handle (online ⟨M, [], L⟩)).out = .ret .leave →
    ((Consumer.main keyFor n).run Link.handle (online ⟨M, [], L⟩)).srv.srv.main = [] ∧
    ((Consumer.main keyFor n).run Link.handle (online ⟨M, [], L⟩)).srv.srv.processing = []

/-- One item is enough: it is moved, and never worked on. -/
theorem consumer_not_processing :
    ¬ ∀ M : List Bytes, (∀ v ∈ M, v ≠ [] ∧ 0 ∉ v) → ProcessesAll (id : Bytes → Bytes) M fun _ => none := by
  intro h
  obtain ⟨n, hn⟩ := (h [[97]] (by decide)).works
  have hperm := hn n (Nat.le_refl n)
  rw [works_on_nothing] at hperm
  exact absurd hperm.length_eq (by decide)

/-- **When `redis-consumer-c` processes what it pops**: only when there is nothing to pop. -/
theorem consumer_processes_iff (keyFor : Bytes → K) (M : List Bytes) (L : K → Option Bytes) :
    ProcessesAll keyFor M L ↔ M = [] := by
  constructor
  · intro h
    obtain ⟨n, hn⟩ := h.works
    have hperm := hn n (Nat.le_refl n)
    rw [works_on_nothing] at hperm
    exact hperm.nil_eq.symm
  · rintro rfl
    refine ⟨⟨0, fun m _ => by rw [works_on_nothing]⟩, fun n pre x post v hsplit hpop => ?_,
      fun n room src r hmem => ?_, fun n hout => ?_⟩
    · have hnone := ((main_polls keyFor L n).2 x (by rw [hsplit]; simp)).1
      rw [hpop] at hnone
      cases hnone
    · obtain ⟨-, c, repl, hc⟩ := (main_polls keyFor L n).2 _ hmem
      cases hc
    · rw [(main_polls keyFor L n).1] at hout
      cases hout

end Handle

end Hiredis

end RedisQueue
