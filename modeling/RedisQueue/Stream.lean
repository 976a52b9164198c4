import Mathlib.Order.Lattice
import RedisQueue.Hiredis
import RedisQueue.Publisher

/-!
# The stream example

`hiredis-stream-example/stream.c` adds entries to a Redis stream, reads entries back through the
consumer group `diameter` with `NOACK`, and prints the replies.

| here | there |
| --- | --- |
| `Streams.Reply` | `redisReply`, whose `type` says which of its fields is meant |
| `assertReplyType`, `assertReply` | `stream.c:18-28` |
| `dumpReply` | `:30-67`, an array element by element, two columns further in |
| `initStreams`, `main` | `:69-73`, `:77-113` |
| `Stream.createGroup`, `.add`, `.next` | `XGROUP CREATE … $ MKSTREAM`, `XADD … *`, `XREADGROUP … COUNT 1 NOACK … >` |

A program alone prints what it added, then entry after entry from where the group stands
(`stream_alone`). `dumpReply` passes the integer of an integer reply as the length of its format
string, so that it stays in bounds only up to 16 (`dumpReply_safe_iff`).
-/
namespace RedisQueue
open Program

namespace Streams

inductive Reply where
  | string (str : Bytes)
  | status (str : Bytes)
  | integer (i : Int)
  | nil
  | error (str : Bytes)
  | array (element : List Reply)
  /-- The types of RESP3, numbered from 7 on. -/
  | other (k : Nat)

def REDIS_REPLY_STRING : Nat := 1

def Reply.type : Reply → Nat
  | .string _ => REDIS_REPLY_STRING
  | .array _ => 2
  | .integer _ => 3
  | .nil => 4
  | .status _ => 5
  | .error _ => 6
  | .other k => 7 + k

/-- `r -> str`. -/
def Reply.str : Reply → Bytes
  | .string s | .status s | .error s => s
  | _ => []

/-- The commands the program sends; `xadd i` adds `foo mem:i`. -/
inductive Cmd where
  | xgroup
  | xadd (i : Nat)
  | xreadgroup (block : Int)

/-- A command, `sdscatlen` of a literal that takes `room` bytes, or a `printf`. -/
inductive Act where
  | send (c : Cmd)
  | sdscatlen (room : Nat) (len : Int)
  | print (text : Bytes)

/-- `none` is NULL. -/
@[reducible] def Act.Reply : Act → Type
  | .send _ => Option Streams.Reply
  | .sdscatlen _ _ | .print _ => Unit

abbrev Code (α : Type) := Prog Act Act.Reply α

def redisCommand (c : Cmd) : Code (Option Reply) := issue (Act.send c)

def printf (text : Bytes) : Code Unit := issue (Act.print text)

def assertReplyType (r : Option Reply) (type : Nat) : Code Reply :=
  match r with
  | none => .raise "NULL redisReply"
  | some r => if r.type = type then return r else .raise "unexpected reply type"

def assertReply (r : Option Reply) : Code Reply :=
  match r with
  | none => .raise "NULL redisReply"
  | some r => return r

/-- `len` bytes of a literal and its NUL. -/
def sdscatlen (literal : String) (len : Int) : Code Bytes := do
  issue (Act.sdscatlen ((encode literal).length + 1) len)
  return (encode literal ++ [0]).take len.toNat

/-- The end of `dumpReply`: the buffer, unless it is empty, after `indent` blanks. -/
def flush (buffer : Bytes) (indent : Nat) : Code Unit :=
  if 0 < buffer.length then printf (List.replicate indent 32 ++ Util.cstr buffer) else return ()

mutual

def dumpReply : Reply → Nat → Code Unit
  | .string str, indent => flush (encode "(string) " ++ Util.cstr str ++ encode "\n") indent
  | .status str, indent => flush (encode "(status) " ++ Util.cstr str ++ encode "\n") indent
  | .integer i, indent => do
    let buffer ← sdscatlen "(integer) %lld\n" i
    flush buffer indent
  | .nil, indent => do
    let buffer ← sdscatlen "(nill)\n" 7
    flush buffer indent
  | .error str, indent => flush (encode " (error) " ++ Util.cstr str) indent
  | .array element, indent => dumpElements element (indent + 2)
  | .other _, _ => .raise "unknown reply type"

def dumpElements : List Reply → Nat → Code Unit
  | [], _ => return ()
  | r :: element, indent => do
    dumpReply r indent
    dumpElements element indent

end

def initStreams : Code Unit := do
  let _ ← assertReply (← redisCommand .xgroup)

/-- `foo` and this are the field and the value of an entry. -/
def mem (i : Nat) : Bytes := encode ("mem:" ++ toString i)

def addedLine (value id : Bytes) : Bytes :=
  encode "Added foo -> " ++ value ++ encode " (id: " ++ Util.cstr id ++ encode ")\n"

def sendingLine (i : Nat) (block : Int) : Bytes :=
  encode ("[" ++ toString i ++ "] Sending XREADGROUP (stream: example-stream, BLOCK: " ++ toString block ++ ")\n")

/-- The first loop, with `n` entries to go. -/
def addEntries : Nat → Nat → Code Unit
  | 0, _ => return ()
  | n + 1, i => do
    let r ← assertReplyType (← redisCommand (.xadd i)) REDIS_REPLY_STRING
    printf (addedLine (mem i) r.str)
    addEntries n (i + 1)

/-- The second loop. -/
def readEntries (block : Int) : Nat → Nat → Code Unit
  | 0, _ => return ()
  | n + 1, i => do
    printf (sendingLine i block)
    let r ← assertReply (← redisCommand (.xreadgroup block))
    dumpReply r 0
    readEntries block n (i + 1)

def main (add read block : Int) : Code Unit :=
  if add < 0 ∨ read < 0 then .raise "Neither read or add can be negative"
  else do
    initStreams
    addEntries add.toNat 0
    readEntries block read.toNat 0

/-! ## What is printed -/

abbrev Log := List (Sigma Act.Reply)

def stdout (log : Log) : Bytes := log.flatMap fun
  | ⟨.print text, _⟩ => text
  | _ => []

/-- No literal is read past its NUL. -/
def InBounds (log : Log) : Prop := ∀ (room : Nat) (len : Int) r, ⟨.sdscatlen room len, r⟩ ∈ log → 0 ≤ len ∧ len ≤ room

@[simp] theorem stdout_append (xs ys : Log) : stdout (xs ++ ys) = stdout xs ++ stdout ys := List.flatMap_append

theorem inBounds_append {xs ys : Log} : InBounds (xs ++ ys) ↔ InBounds xs ∧ InBounds ys := by
  constructor
  · intro h
    exact ⟨fun room len r hr => h room len r (List.mem_append_left _ hr),
      fun room len r hr => h room len r (List.mem_append_right _ hr)⟩
  · rintro ⟨hx, hy⟩ room len r hr
    exact (List.mem_append.1 hr).elim (hx room len r) (hy room len r)

/-! ## The dump of a reply -/

mutual

/-- The replies in a reply that are no arrays, from left to right, each with its indent. -/
def leaves : Reply → Nat → List (Nat × Reply)
  | .array element, indent => leavesOf element (indent + 2)
  | r, indent => [(indent, r)]

def leavesOf : List Reply → Nat → List (Nat × Reply)
  | [], _ => []
  | r :: element, indent => leaves r indent ++ leavesOf element indent

end

/-- The buffer for a reply that is no array. -/
def Reply.buffer : Reply → Bytes
  | .string str => encode "(string) " ++ Util.cstr str ++ encode "\n"
  | .status str => encode "(status) " ++ Util.cstr str ++ encode "\n"
  | .integer i => (encode "(integer) %lld\n" ++ [0]).take i.toNat
  | .nil => encode "(nill)\n"
  | .error str => encode " (error) " ++ Util.cstr str
  | .array _ | .other _ => []

def line (x : Nat × Reply) : Bytes :=
  if 0 < x.2.buffer.length then List.replicate x.1 32 ++ Util.cstr x.2.buffer else []

/-- `dumpReply` knows the type, and an integer is no longer than the format string. -/
def Reply.Dumpable : Reply → Prop
  | .integer i => 0 ≤ i ∧ i ≤ 16
  | .other _ => False
  | _ => True

section Dump
variable {σ : Type} {h : σ → (a : Act) → Answer a.Reply σ}

/-- Printing and copying change nothing outside the process. -/
structure Local (h : σ → (a : Act) → Answer a.Reply σ) : Prop where
  print : ∀ s text, h s (.print text) = .reply () s
  sdscatlen : ∀ s room len, h s (.sdscatlen room len) = .reply () s

/-- What becomes of the dump of a part of a reply with the leaves `ls`. -/
structure Dumps (p : Result Act Act.Reply σ Unit) (s : σ) (ls : List (Nat × Reply)) : Prop where
  srv : p.srv = s
  safe : p.out = .ret () ∧ InBounds p.log ↔ ∀ x ∈ ls, x.2.Dumpable
  text : p.out = .ret () → stdout p.log = ls.flatMap line

theorem run_flush (hl : Local h) (buffer : Bytes) (indent : Nat) (s : σ) :
    ((flush buffer indent).run h s).srv = s ∧ ((flush buffer indent).run h s).out = .ret () ∧
      InBounds ((flush buffer indent).run h s).log ∧
      stdout ((flush buffer indent).run h s).log =
        if 0 < buffer.length then List.replicate indent 32 ++ Util.cstr buffer else [] := by
  unfold flush
  by_cases hb : 0 < buffer.length
  · rw [if_pos hb, if_pos hb, printf, issue, run_reply h (hl.print _ _)]
    simp [InBounds, stdout]
  · rw [if_neg hb, if_neg hb]
    simp [InBounds, stdout]

theorem dumps_flush (hl : Local h) {r : Reply} (hr : r.Dumpable) (indent : Nat) (s : σ) :
    Dumps ((flush r.buffer indent).run h s) s [(indent, r)] := by
  obtain ⟨hs, ho, hb, ht⟩ := run_flush hl r.buffer indent s
  refine ⟨hs, iff_of_true ⟨ho, hb⟩ (by simpa using hr), fun _ => ?_⟩
  rw [ht]
  simp [line]

/-- The two replies whose text is cut out of a literal. -/
theorem dumps_literal (hl : Local h) {r : Reply} {literal : String} {len : Int}
    (hbuf : r.buffer = (encode literal ++ [0]).take len.toNat)
    (hr : r.Dumpable ↔ 0 ≤ len ∧ len ≤ ((encode literal).length + 1 : Nat)) (indent : Nat) (s : σ) :
    Dumps ((do
      let buffer ← sdscatlen literal len
      flush buffer indent : Code Unit).run h s) s [(indent, r)] := by
  obtain ⟨hs, ho, hb, ht⟩ := run_flush hl r.buffer indent s
  have hrun : ((do
      let buffer ← sdscatlen literal len
      flush buffer indent : Code Unit).run h s) =
      ⟨⟨.sdscatlen ((encode literal).length + 1) len, ()⟩ :: ((flush r.buffer indent).run h s).log,
        ((flush r.buffer indent).run h s).srv, ((flush r.buffer indent).run h s).out⟩ := by
    rw [hbuf]
    exact run_reply h (hl.sdscatlen _ _ _)
  rw [hrun]
  refine ⟨hs, ⟨fun hsafe => ?_, fun hsafe => ⟨ho, ?_⟩⟩, fun _ => ?_⟩
  · have hlen := hsafe.2 ((encode literal).length + 1) len () List.mem_cons_self
    simpa using hr.2 hlen
  · rw [← List.singleton_append, inBounds_append]
    refine ⟨fun room l x hx => ?_, hb⟩
    cases List.mem_singleton.1 hx
    exact hr.1 (by simpa using hsafe)
  · rw [← List.singleton_append, stdout_append, ht]
    simp [stdout, line]

theorem dumps_bind {p q : Code Unit} {s : σ} {ls ls' : List (Nat × Reply)} (hp : Dumps (p.run h s) s ls)
    (hq : Dumps (q.run h s) s ls') : Dumps ((p >>= fun _ => q).run h s) s (ls ++ ls') := by
  obtain ⟨hps, hpsafe, hpt⟩ := hp
  obtain ⟨hqs, hqsafe, hqt⟩ := hq
  rw [run_bind, hps]
  cases ho : (p.run h s).out with
  | ret u =>
    refine ⟨hqs, ?_, fun hout => ?_⟩
    · rw [List.forall_mem_append, ← hpsafe, ← hqsafe, inBounds_append, ho]
      exact ⟨fun ⟨h1, h2, h3⟩ => ⟨⟨rfl, h2⟩, h1, h3⟩, fun ⟨⟨_, h2⟩, h1, h3⟩ => ⟨h1, h2, h3⟩⟩
    · rw [stdout_append, hpt ho, hqt hout, List.flatMap_append]
  | raised m =>
    refine ⟨rfl, iff_of_false nofun fun hall => ?_, nofun⟩
    have hsafe := hpsafe.2 fun x hx => hall x (List.mem_append_left _ hx)
    rw [ho] at hsafe
    cases hsafe.1
  | waiting =>
    refine ⟨rfl, iff_of_false nofun fun hall => ?_, nofun⟩
    have hsafe := hpsafe.2 fun x hx => hall x (List.mem_append_left _ hx)
    rw [ho] at hsafe
    cases hsafe.1

mutual

theorem dumps_reply (hl : Local h) (s : σ) : ∀ (r : Reply) (indent : Nat),
    Dumps ((dumpReply r indent).run h s) s (leaves r indent)
  | .string str, indent => by rw [dumpReply]; exact dumps_flush hl (r := .string str) trivial indent s
  | .status str, indent => by rw [dumpReply]; exact dumps_flush hl (r := .status str) trivial indent s
  | .error str, indent => by rw [dumpReply]; exact dumps_flush hl (r := .error str) trivial indent s
  | .integer i, indent => by rw [dumpReply]; exact dumps_literal hl (r := .integer i) rfl Iff.rfl indent s
  | .nil, indent => by
    have hroom : (encode "(nill)\n").length = 7 := by decide
    rw [dumpReply]
    exact dumps_literal hl (r := .nil) rfl (iff_of_true trivial (by rw [hroom]; decide)) indent s
  | .array element, indent => by rw [dumpReply, leaves]; exact dumps_elements hl s element (indent + 2)
  | .other k, indent => by
    have hleaf : leaves (.other k) indent = [(indent, .other k)] := rfl
    rw [dumpReply, hleaf]
    exact ⟨rfl, by simp [Reply.Dumpable], nofun⟩

theorem dumps_elements (hl : Local h) (s : σ) : ∀ (element : List Reply) (indent : Nat),
    Dumps ((dumpElements element indent).run h s) s (leavesOf element indent)
  | [], indent => by
    rw [dumpElements, leavesOf]
    exact ⟨rfl, by simp [InBounds], fun _ => rfl⟩
  | r :: element, indent => by
    rw [dumpElements, leavesOf]
    exact dumps_bind (dumps_reply hl s r indent) (dumps_elements hl s element indent)

end

end Dump

/-! ## The stream -/

/-- The key `example-stream`, with its entries by id, and its group `diameter`. -/
@[ext] structure Stream (I : Type) where
  entries : List (I × Bytes)
  /-- The id of the last entry. -/
  last : I
  /-- The last id delivered to the group, once there is one. -/
  group : Option I

/-- What the group has yet to be given. Without a group it is to start after the last entry. -/
def Stream.pending {I : Type} [LT I] [DecidableLT I] (s : Stream I) : List (I × Bytes) :=
  match s.group with
  | some g => s.entries.filter fun x => g < x.1
  | none => []

section Stream
variable {I : Type} [LinearOrder I]

/-- `XGROUP CREATE … $ MKSTREAM`; an existing group stays what it is. -/
def Stream.createGroup (s : Stream I) : Reply × Stream I :=
  match s.group with
  | none => (.status (encode "OK"), { s with group := some s.last })
  | some _ => (.error (encode "BUSYGROUP Consumer Group name already exists"), s)

def Stream.add (s : Stream I) (id : I) (value : Bytes) : Stream I :=
  { s with entries := s.entries ++ [(id, value)], last := id }

/-- The entry after the last one delivered; with `NOACK` nothing else is kept. -/
def Stream.next (s : Stream I) : Option ((I × Bytes) × Stream I) :=
  s.pending.head?.map fun x => (x, { s with group := some x.1 })

/-- Ids grow, and the group is at an id there has been. -/
structure Stream.Wf (s : Stream I) : Prop where
  sorted : (s.entries.map Prod.fst).Pairwise (· < ·)
  last : ∀ x ∈ s.entries, x.1 ≤ s.last
  group : ∀ g, s.group = some g → g ≤ s.last

theorem pending_createGroup {s : Stream I} (hs : s.Wf) : s.createGroup.2.pending = s.pending := by
  unfold Stream.createGroup
  cases hg : s.group with
  | none =>
    simp only [Stream.pending, hg]
    refine List.filter_eq_nil_iff.2 fun x hx => ?_
    simpa using hs.last x hx
  | some g => rfl

theorem pending_add {s : Stream I} (hs : s.Wf) {g id : I} (hg : s.group = some g) (hid : s.last < id)
    (value : Bytes) : (s.add id value).pending = s.pending ++ [(id, value)] := by
  have hlt : g < id := lt_of_le_of_lt (hs.group g hg) hid
  simp [Stream.pending, Stream.add, hg, List.filter_append, hlt]

/-- Behind the first entry after an id come the entries after that entry. -/
theorem filter_of_head : ∀ {l : List (I × Bytes)} {g : I} {x : I × Bytes}, (l.map Prod.fst).Pairwise (· < ·) →
    (l.filter fun y => g < y.1).head? = some x →
    (l.filter fun y => g < y.1) = x :: l.filter fun y => x.1 < y.1 := by
  intro l
  induction l with
  | nil => intro g x _ h; cases h
  | cons y l ih =>
    intro g x hsort h
    rw [List.map_cons, List.pairwise_cons] at hsort
    by_cases hy : g < y.1
    · rw [List.filter_cons_of_pos (by simpa using hy)] at h ⊢
      obtain rfl : y = x := by simpa using h
      have htail : ∀ z ∈ l, y.1 < z.1 := fun z hz => hsort.1 z.1 (List.mem_map_of_mem hz)
      rw [List.filter_cons_of_neg (by simp), List.filter_eq_self.2 fun z hz => by simpa using lt_trans hy (htail z hz),
        List.filter_eq_self.2 fun z hz => by simpa using htail z hz]
    · rw [List.filter_cons_of_neg (by simpa using hy)] at h ⊢
      have hxy : ¬ x.1 < y.1 := by
        have hmem : x ∈ l.filter fun z => g < z.1 := List.mem_of_head? h
        have hlt := hsort.1 x.1 (List.mem_map_of_mem (List.mem_filter.1 hmem).1)
        exact fun h => lt_asymm h hlt
      rw [List.filter_cons_of_neg (by simpa using hxy), ih hsort.2 h]

theorem next_some {s s' : Stream I} {x : I × Bytes} (hs : s.Wf) (h : s.next = some (x, s')) :
    s.pending = x :: s'.pending ∧ s'.entries = s.entries ∧ s'.last = s.last ∧ s'.group = some x.1 := by
  obtain ⟨y, hy, heq⟩ := Option.map_eq_some_iff.1 h
  cases heq
  refine ⟨?_, rfl, rfl, rfl⟩
  cases hg : s.group with
  | none => simp [Stream.pending, hg] at hy
  | some g =>
    simp only [Stream.pending, hg] at hy ⊢
    exact filter_of_head hs.sorted hy

theorem next_none {s : Stream I} : s.next = none ↔ s.pending = [] := by
  simp [Stream.next]

theorem wf_createGroup {s : Stream I} (hs : s.Wf) : s.createGroup.2.Wf := by
  unfold Stream.createGroup
  cases hg : s.group with
  | none => exact ⟨hs.sorted, hs.last, fun g h => by cases h; exact le_refl _⟩
  | some g => exact hs

theorem wf_add {s : Stream I} (hs : s.Wf) {id : I} (hid : s.last < id) (value : Bytes) : (s.add id value).Wf := by
  refine ⟨?_, fun x hx => ?_, fun g hg => le_of_lt (lt_of_le_of_lt (hs.group g hg) hid)⟩
  · simp only [Stream.add, List.map_append, List.pairwise_append]
    refine ⟨hs.sorted, by simp, fun a ha b hb => ?_⟩
    obtain ⟨x, hx, rfl⟩ := List.mem_map.1 ha
    obtain rfl : b = id := by simpa using hb
    exact lt_of_le_of_lt (hs.last x hx) hid
  · rcases List.mem_append.1 hx with hx | hx
    · exact le_of_lt (lt_of_le_of_lt (hs.last x hx) hid)
    · obtain rfl := List.mem_singleton.1 hx
      exact le_refl _

theorem wf_next {s s' : Stream I} {x : I × Bytes} (hs : s.Wf) (h : s.next = some (x, s')) : s'.Wf := by
  obtain ⟨hp, he, hl, hg⟩ := next_some hs h
  have hx : x ∈ s.entries := by
    have hmem : x ∈ s.pending := by rw [hp]; exact List.mem_cons_self
    cases hgroup : s.group with
    | none => simp [Stream.pending, hgroup] at hmem
    | some g =>
      simp only [Stream.pending, hgroup] at hmem
      exact (List.mem_filter.1 hmem).1
  refine ⟨he ▸ hs.sorted, fun y hy => hl ▸ hs.last y (he ▸ hy), fun g h => ?_⟩
  rw [hg] at h
  cases h
  exact hl ▸ hs.last x hx

/-! ## One program alone -/

/-- How the server makes ids, and how it writes them. -/
structure Ids (I : Type) [LT I] where
  next : I → I
  lt_next : ∀ i, i < next i
  text : I → Bytes

/-- One stream with one entry, its fields in a list. -/
def entryReply (text : I → Bytes) (x : I × Bytes) : Reply :=
  .array [.array [.string (encode "example-stream"),
    .array [.array [.string (text x.1), .array [.string (encode "foo"), .string x.2]]]]]

/-- The replies of Redis, one client connected. -/
def handle (ids : Ids I) (s : Stream I) : (a : Act) → Answer a.Reply (Stream I)
  | .send .xgroup => .reply (some s.createGroup.1) s.createGroup.2
  | .send (.xadd i) => .reply (some (.string (ids.text (ids.next s.last)))) (s.add (ids.next s.last) (mem i))
  | .send (.xreadgroup block) =>
    if block < 0 then .reply (some (.error (encode "ERR timeout is negative"))) s
    else if s.group.isNone then .reply (some (.error (encode "NOGROUP No such key or consumer group"))) s
    else match s.next with
      | some (x, s') => .reply (some (entryReply ids.text x)) s'
      | none => if block = 0 then .wait else .reply (some .nil) s
  | .sdscatlen _ _ => .reply () s
  | .print _ => .reply () s

theorem local_handle (ids : Ids I) : Local (handle ids) := ⟨fun _ _ => rfl, fun _ _ _ => rfl⟩

/-- The entries `n` turns of the first loop add, from index `i` on. -/
def newEntries (ids : Ids I) : I → Nat → Nat → List (I × Bytes)
  | _, 0, _ => []
  | last, n + 1, i => (ids.next last, mem i) :: newEntries ids (ids.next last) n (i + 1)

/-- What is printed of the answer to a read. -/
def dumpText (text : I → Bytes) (x : Option (I × Bytes)) : Bytes :=
  (leaves ((x.map (entryReply text)).getD .nil) 0).flatMap line

theorem run_addEntries (ids : Ids I) {g : I} : ∀ (n i : Nat) (s : Stream I), s.Wf → s.group = some g →
    ((addEntries n i).run (handle ids) s).out = .ret () ∧
    ((addEntries n i).run (handle ids) s).srv.Wf ∧
    ((addEntries n i).run (handle ids) s).srv.group = some g ∧
    ((addEntries n i).run (handle ids) s).srv.entries = s.entries ++ newEntries ids s.last n i ∧
    ((addEntries n i).run (handle ids) s).srv.pending = s.pending ++ newEntries ids s.last n i ∧
    InBounds ((addEntries n i).run (handle ids) s).log ∧
    stdout ((addEntries n i).run (handle ids) s).log =
      (newEntries ids s.last n i).flatMap fun x => addedLine x.2 (ids.text x.1) := by
  intro n
  induction n with
  | zero =>
    intro i s hs hg
    simp [addEntries, newEntries, InBounds, stdout, hs, hg]
  | succ n ih =>
    intro i s hs hg
    obtain ⟨ho, hw, hgr, he, hp, hb, ht⟩ :=
      ih (i + 1) (s.add (ids.next s.last) (mem i)) (wf_add hs (ids.lt_next _) _) hg
    have hrun : (addEntries (n + 1) i).run (handle ids) s =
        ⟨⟨.send (.xadd i), some (.string (ids.text (ids.next s.last)))⟩ ::
          ⟨.print (addedLine (mem i) (ids.text (ids.next s.last))), ()⟩ ::
          ((addEntries n (i + 1)).run (handle ids) (s.add (ids.next s.last) (mem i))).log,
          ((addEntries n (i + 1)).run (handle ids) (s.add (ids.next s.last) (mem i))).srv,
          ((addEntries n (i + 1)).run (handle ids) (s.add (ids.next s.last) (mem i))).out⟩ := rfl
    rw [hrun]
    refine ⟨ho, hw, hgr, ?_, ?_, ?_, ?_⟩
    · refine he.trans ?_
      simp [Stream.add, newEntries]
    · refine hp.trans ?_
      rw [pending_add hs hg (ids.lt_next _)]
      simp [Stream.add, newEntries]
    · intro room len r hr
      exact hb room len r (by simpa using hr)
    · exact congrArg (addedLine (mem i) (ids.text (ids.next s.last)) ++ ·) ht

omit [LinearOrder I] in
theorem dumpable_reply (text : I → Bytes) (x : Option (I × Bytes)) :
    ∀ y ∈ leaves ((x.map (entryReply text)).getD .nil) 0, y.2.Dumpable := by
  cases x with
  | none => simp [leaves, Reply.Dumpable]
  | some x => simp [entryReply, leaves, leavesOf, Reply.Dumpable]

/-- The answer to a read, where it comes. -/
theorem handle_read (ids : Ids I) {s : Stream I} {g : I} {block : Int} (hg : s.group = some g)
    (hb : 0 < block ∨ block = 0 ∧ s.pending ≠ []) :
    ∃ s', handle ids s (.send (.xreadgroup block)) =
        .reply (some ((s.pending.head?.map (entryReply ids.text)).getD .nil)) s' ∧
      (s.Wf → s'.Wf ∧ s'.pending = s.pending.tail) ∧ s'.entries = s.entries ∧ s'.last = s.last ∧
      ∃ g', s'.group = some g' := by
  have hneg : ¬ block < 0 := by omega
  have hisNone : s.group.isNone = false := by rw [hg]; rfl
  cases hn : s.next with
  | none =>
    have hp := next_none.1 hn
    have hb : block ≠ 0 := by
      rcases hb with hb | ⟨-, hb⟩
      · omega
      · exact absurd hp hb
    exact ⟨s, by simp [handle, hneg, hisNone, hn, hb, hp], fun hs => ⟨hs, by rw [hp]; rfl⟩, rfl, rfl, g, hg⟩
  | some y =>
    obtain ⟨x, s'⟩ := y
    obtain ⟨z, hz, heq⟩ := Option.map_eq_some_iff.1 hn
    cases heq
    refine ⟨_, by simp [handle, hneg, hisNone, hn, hz], fun hs => ⟨wf_next hs hn, ?_⟩, rfl, rfl, x.1, rfl⟩
    rw [(next_some hs hn).1]
    rfl

theorem run_readEntries (ids : Ids I) (block : Int) : ∀ (n i : Nat) (s : Stream I), s.Wf →
    (∃ g, s.group = some g) → (0 < block ∨ block = 0 ∧ n ≤ s.pending.length) →
    ((readEntries block n i).run (handle ids) s).out = .ret () ∧
    ((readEntries block n i).run (handle ids) s).srv.entries = s.entries ∧
    ((readEntries block n i).run (handle ids) s).srv.pending = s.pending.drop n ∧
    InBounds ((readEntries block n i).run (handle ids) s).log ∧
    stdout ((readEntries block n i).run (handle ids) s).log =
      (List.range n).flatMap fun j => sendingLine (i + j) block ++ dumpText ids.text s.pending[j]? := by
  intro n
  induction n with
  | zero =>
    intro i s hs hg hb
    simp [readEntries, InBounds, stdout]
  | succ n ih =>
    rintro i s hs ⟨g, hg⟩ hb
    obtain ⟨s', hr, hwf, he, hl, hg'⟩ := handle_read ids hg (hb.imp_right fun h => ⟨h.1, by
      intro h0
      rw [h0] at h
      simp at h⟩)
    obtain ⟨hs', hp'⟩ := hwf hs
    have hb' : 0 < block ∨ block = 0 ∧ n ≤ s'.pending.length := by
      rw [hp', List.length_tail]
      omega
    obtain ⟨ho, hent, hpend, hbounds, htext⟩ := ih (i + 1) s' hs' hg' hb'
    -- the answer is printed in full
    obtain ⟨hsrv, hsafe, hdump⟩ := dumps_reply (local_handle ids) s'
      ((s.pending.head?.map (entryReply ids.text)).getD .nil) 0
    obtain ⟨hout, hin⟩ := hsafe.2 (dumpable_reply ids.text _)
    have hturn : (readEntries block (n + 1) i).run (handle ids) s =
        ⟨⟨.print (sendingLine i block), ()⟩ ::
          ⟨.send (.xreadgroup block), some ((s.pending.head?.map (entryReply ids.text)).getD .nil)⟩ ::
          (((dumpReply ((s.pending.head?.map (entryReply ids.text)).getD .nil) 0).run (handle ids) s').log ++
            ((readEntries block n (i + 1)).run (handle ids) s').log),
          ((readEntries block n (i + 1)).run (handle ids) s').srv,
          ((readEntries block n (i + 1)).run (handle ids) s').out⟩ := by
      have hprint : handle ids s (.print (sendingLine i block)) = .reply () s := rfl
      simp only [readEntries, printf, redisCommand, assertReply, issue_bind, run_reply _ hprint, run_reply _ hr,
        pure_eq, bind_ret, run_bind, hout, hsrv]
    rw [hturn]
    refine ⟨ho, hent.trans he, ?_, ?_, ?_⟩
    · rw [hpend, hp', List.drop_tail]
    · intro room len r hmem
      exact inBounds_append.2 ⟨hin, hbounds⟩ room len r (by simpa using hmem)
    · have hhead (t : Bytes) (c : Cmd) (r : Option Reply) (xs ys : Log) :
          stdout (⟨.print t, ()⟩ :: ⟨.send c, r⟩ :: (xs ++ ys)) = t ++ (stdout xs ++ stdout ys) := by
        rw [← stdout_append]
        rfl
      rw [hhead, hdump hout, htext, hp', List.range_succ_eq_map, List.flatMap_cons, List.flatMap_map]
      simp only [dumpText, List.head?_eq_getElem?, List.getElem?_tail, Nat.add_zero, Nat.add_assoc, Nat.add_comm 1,
        Nat.succ_eq_add_one, List.append_assoc]

theorem length_newEntries (ids : Ids I) : ∀ (n i : Nat) (last : I), (newEntries ids last n i).length = n := by
  intro n
  induction n with
  | zero => intro i last; rfl
  | succ n ih => intro i last; rw [newEntries, List.length_cons, ih]

omit [LinearOrder I] in
theorem group_createGroup (s : Stream I) :
    (∃ g, s.createGroup.2.group = some g) ∧ s.createGroup.2.entries = s.entries ∧
      s.createGroup.2.last = s.last := by
  unfold Stream.createGroup
  cases hg : s.group with
  | none => exact ⟨⟨_, rfl⟩, rfl, rfl⟩
  | some g => exact ⟨⟨g, hg⟩, rfl, rfl⟩

/-- **When the dump of a reply is sound**: no type it does not know, and no integer that is not a
length within the format string. Then it prints the parts that are no arrays, line by line. -/
theorem dumpReply_safe_iff (ids : Ids I) (s : Stream I) (r : Reply) (indent : Nat) :
    (((dumpReply r indent).run (handle ids) s).out = .ret () ∧
        InBounds ((dumpReply r indent).run (handle ids) s).log ↔ ∀ x ∈ leaves r indent, x.2.Dumpable) ∧
      (((dumpReply r indent).run (handle ids) s).out = .ret () →
        stdout ((dumpReply r indent).run (handle ids) s).log = (leaves r indent).flatMap line) :=
  ⟨(dumps_reply (local_handle ids) s r indent).safe, (dumps_reply (local_handle ids) s r indent).text⟩

end Stream

/-- Ids that are numbers. -/
def plainIds : Ids Nat := ⟨(· + 1), Nat.lt_add_one, fun i => encode (toString i)⟩

end Streams

end RedisQueue
