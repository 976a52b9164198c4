import RedisQueue.Interleave
import RedisQueue.Stream

/-!
# Several programs on one stream

Every instance of `stream.c` reads as the consumer `Tom` of the group `diameter`, so that instances
running at once, or one after another, share what is delivered. Each creates the group before it adds
anything; all but the first get an error for it, which `initStreams` prints nothing of.

| here | there |
| --- | --- |
| `Streams.PC.init`, `.add`, `.read` | the `XGROUP`, `XADD` and `XREADGROUP` of `main` (`stream.c:93-110`) |
| `Streams.Worker.move` | `main` between two commands; printing is left out (`Resumes`) |
| `Streams.serve` | Redis; the id of a new entry is any id after the last one |

Nothing is acknowledged, since nothing is kept to be acknowledged: what an instance was given and has
not printed when it dies is gone. `stream_deliveries` says that this is all that can be lost.
-/
namespace RedisQueue
open Program Interleave

namespace Streams

/-- The arguments, once `main` has checked them. -/
structure Args where
  add : Nat
  read : Nat
  block : Int
deriving DecidableEq

/-- What a read is answered. -/
inductive Got (I : Type) where
  | entry (x : I × Bytes)
  | nil
  | error
deriving DecidableEq

inductive Ev (W I : Type) where
  | xgroup (w : W)
  | xadd (w : W) (i : Nat) (id : I)
  | xread (w : W) (block : Int) (r : Got I)
  | crash (w : W)
deriving DecidableEq

variable {W I : Type}

def Ev.who : Ev W I → Option W
  | .xgroup w | .xadd w _ _ | .xread w _ _ | .crash w => some w

/-- Number `i` is to be added, or read for, and `n` more after it. -/
inductive PC where
  | init
  | add (n i : Nat)
  | read (n i : Nat)
  | exited
deriving DecidableEq

def enterRead : Nat → Nat → PC
  | 0, _ => .exited
  | n + 1, i => .read n i

def enterAdd (read : Nat) : Nat → Nat → PC
  | 0, _ => enterRead read 0
  | n + 1, i => .add n i

structure Worker where
  args : Args
  pc : PC
  alive : Bool
deriving DecidableEq

/-- The program's half of an event. -/
def Worker.move : Worker → Ev W I → Option Worker
  | ⟨a, .init, true⟩, .xgroup _ => some ⟨a, enterAdd a.read a.add 0, true⟩
  | ⟨a, .add n i, true⟩, .xadd _ j _ => if j = i then some ⟨a, enterAdd a.read n (i + 1), true⟩ else none
  | ⟨a, .read n i, true⟩, .xread _ b _ => if b = a.block then some ⟨a, enterRead n (i + 1), true⟩ else none
  | ⟨a, pc, true⟩, .crash _ => if pc = .exited then none else some ⟨a, pc, false⟩
  | _, _ => none

/-- The steps of `Worker.move`, case by case. -/
inductive Worker.Step : Worker → Ev W I → Worker → Prop where
  | init (a w) : Step ⟨a, .init, true⟩ (.xgroup w) ⟨a, enterAdd a.read a.add 0, true⟩
  | add (a n i w id) : Step ⟨a, .add n i, true⟩ (.xadd w i id) ⟨a, enterAdd a.read n (i + 1), true⟩
  | read (a n i w r) : Step ⟨a, .read n i, true⟩ (.xread w a.block r) ⟨a, enterRead n (i + 1), true⟩
  | crash (a pc w) (hx : pc ≠ .exited) : Step ⟨a, pc, true⟩ (.crash w) ⟨a, pc, false⟩

theorem move_iff {l l' : Worker} {e : Ev W I} : l.move e = some l' ↔ Worker.Step l e l' := by
  constructor
  · intro h
    unfold Worker.move at h
    split at h
    · cases h; exact .init _ _
    · split at h <;> cases h
      rename_i hj; subst hj; exact .add _ _ _ _ _
    · split at h <;> cases h
      rename_i hb; subst hb; exact .read _ _ _ _ _
    · split at h <;> cases h
      rename_i hx; exact .crash _ _ _ hx
    · cases h
  · intro h
    cases h <;> simp_all [Worker.move]

section Serve
variable [LinearOrder I]

/-- The server's half of an event. -/
def serve (s : Stream I) : Ev W I → Option (Stream I)
  | .xgroup _ => some s.createGroup.2
  | .xadd _ i id => if s.last < id then some (s.add id (mem i)) else none
  | .xread _ block (.entry x) =>
    if block < 0 then none
    else match s.next with
      | some (y, s') => if y = x then some s' else none
      | none => none
  | .xread _ block .nil => if 0 < block ∧ s.group.isSome ∧ s.pending = [] then some s else none
  | .xread _ block .error => if block < 0 ∨ s.group.isNone then some s else none
  | .crash _ => some s

/-- Instances of the program with one Redis. -/
def instances : System W (Ev W I) (Stream I) Worker where
  who := Ev.who
  serve := serve
  move := Worker.move

/-- Every instance at its start, with its own arguments. -/
def launch (args : W → Args) (s : Stream I) : Config W (Stream I) Worker := ⟨s, fun w => ⟨args w, .init, true⟩⟩

end Serve

/-! ## What a run did -/

def Ev.adds : Ev W I → Option (I × Bytes)
  | .xadd _ i id => some (id, mem i)
  | _ => none

def Ev.gets : Ev W I → Option (W × I × Bytes)
  | .xread w _ (.entry x) => some (w, x)
  | _ => none

/-- The entries added, in order. -/
def added (tr : List (Ev W I)) : List (I × Bytes) := tr.filterMap Ev.adds

/-- The entries delivered, each with the instance it went to. -/
def delivered (tr : List (Ev W I)) : List (W × I × Bytes) := tr.filterMap Ev.gets

@[simp] theorem added_snoc (tr : List (Ev W I)) (e : Ev W I) : added (tr ++ [e]) = added tr ++ e.adds.toList :=
  filterMap_snoc _ tr e

@[simp] theorem delivered_snoc (tr : List (Ev W I)) (e : Ev W I) :
    delivered (tr ++ [e]) = delivered tr ++ e.gets.toList :=
  filterMap_snoc _ tr e

/-! ## The automaton is the program -/

/-- The rest of the program from a point on. -/
def PC.code (a : Args) : PC → Code Unit
  | .init => do
    initStreams
    addEntries a.add 0
    readEntries a.block a.read 0
  | .add n i => do
    addEntries (n + 1) i
    readEntries a.block a.read 0
  | .read n i => do
    let r ← assertReply (← redisCommand (.xreadgroup a.block))
    dumpReply r 0
    readEntries a.block n (i + 1)
  | .exited => return ()

/-- An instance whose remaining program is `p`; what it prints goes unseen. -/
inductive Resumes (a : Args) : Code Unit → Worker → Prop where
  | at (pc : PC) : Resumes a (pc.code a) ⟨a, pc, true⟩
  | print (text : Bytes) (k : Unit → Code Unit) (l : Worker) (h : Resumes a (k ()) l) :
    Resumes a (.call (.print text) k) l
  | sdscatlen (room : Nat) (len : Int) (k : Unit → Code Unit) (l : Worker) (h : Resumes a (k ()) l) :
    Resumes a (.call (.sdscatlen room len) k) l

theorem main_code (a : Args) : main a.add a.read a.block = PC.init.code a := by
  have hnat : ¬ ((a.add : Int) < 0 ∨ (a.read : Int) < 0) := by omega
  rw [main, if_neg hnat]
  rfl

theorem resumes_read (a : Args) (n i : Nat) : Resumes a (readEntries a.block n i) ⟨a, enterRead n i, true⟩ := by
  cases n with
  | zero => exact .at .exited
  | succ n => exact .print _ _ _ (.at (.read n i))

theorem resumes_add (a : Args) (n i : Nat) : Resumes a (do
      addEntries n i
      readEntries a.block a.read 0) ⟨a, enterAdd a.read n i, true⟩ := by
  cases n with
  | zero => exact resumes_read a a.read 0
  | succ n => exact .at (.add n i)

theorem resumes_flush {a : Args} {l : Worker} {p : Code Unit} (buffer : Bytes) (indent : Nat) (h : Resumes a p l) :
    Resumes a (flush buffer indent >>= fun _ => p) l := by
  unfold flush
  by_cases hb : 0 < buffer.length
  · rw [if_pos hb]
    exact .print _ _ _ h
  · rw [if_neg hb]
    exact h

mutual

/-- A reply of known types is printed, and the program goes on. -/
theorem resumes_dump {a : Args} {l : Worker} {p : Code Unit} (h : Resumes a p l) : ∀ (r : Reply) (indent : Nat),
    (∀ x ∈ leaves r indent, x.2.Dumpable) → Resumes a (dumpReply r indent >>= fun _ => p) l
  | .string str, indent, _ => by rw [dumpReply]; exact resumes_flush _ indent h
  | .status str, indent, _ => by rw [dumpReply]; exact resumes_flush _ indent h
  | .error str, indent, _ => by rw [dumpReply]; exact resumes_flush _ indent h
  | .integer i, indent, _ => by rw [dumpReply]; exact .sdscatlen _ _ _ _ (resumes_flush _ indent h)
  | .nil, indent, _ => by rw [dumpReply]; exact .sdscatlen _ _ _ _ (resumes_flush _ indent h)
  | .array element, indent, hd => by
    rw [leaves] at hd
    rw [dumpReply]
    exact resumes_elements h element (indent + 2) hd
  | .other k, indent, hd => absurd (hd (indent, .other k) List.mem_cons_self) id

theorem resumes_elements {a : Args} {l : Worker} {p : Code Unit} (h : Resumes a p l) :
    ∀ (element : List Reply) (indent : Nat), (∀ x ∈ leavesOf element indent, x.2.Dumpable) →
      Resumes a (dumpElements element indent >>= fun _ => p) l
  | [], indent, _ => by rw [dumpElements]; exact h
  | r :: element, indent, hd => by
    rw [leavesOf, List.forall_mem_append] at hd
    rw [dumpElements, prog_bind_assoc]
    exact resumes_dump (resumes_elements h element indent hd.2) r indent hd.1

end

/-- The command an event sends, with its reply. -/
inductive Sends (text : I → Bytes) : Ev W I → W → (c : Cmd) → Option Reply → Prop
  | xgroup (w r) : Sends text (.xgroup w) w .xgroup (some r)
  | xadd (w i id) : Sends text (.xadd w i id) w (.xadd i) (some (.string (text id)))
  | entry (w b x) : Sends text (.xread w b (.entry x)) w (.xreadgroup b) (some (entryReply text x))
  | nil (w b) : Sends text (.xread w b .nil) w (.xreadgroup b) (some .nil)
  | error (w b str) : Sends text (.xread w b .error) w (.xreadgroup b) (some (.error str))

/-- Every step of the automaton but a crash sends the next command of the program and goes where the
program goes with the reply. -/
theorem program_of_move {l l' : Worker} {e : Ev W I} {text : I → Bytes} {w : W} {c : Cmd} {r : Option Reply}
    (he : Sends text e w c r) (h : l.move e = some l') :
    ∃ k, l.pc.code l.args = .call (.send c) k ∧ Resumes l.args (k r) l' := by
  cases he with
  | xgroup _ r =>
    cases move_iff.1 h with
    | init a => exact ⟨_, rfl, resumes_add a a.add 0⟩
  | xadd _ i id =>
    cases move_iff.1 h with
    | add a n => exact ⟨_, rfl, .print _ _ _ (resumes_add a n (i + 1))⟩
  | entry _ b x =>
    cases move_iff.1 h with
    | read a n i =>
      exact ⟨_, rfl, resumes_dump (resumes_read a n (i + 1)) _ 0 (dumpable_reply text (some x))⟩
  | nil _ b =>
    cases move_iff.1 h with
    | read a n i => exact ⟨_, rfl, resumes_dump (resumes_read a n (i + 1)) _ 0 (dumpable_reply text none)⟩
  | error _ b str =>
    cases move_iff.1 h with
    | read a n i => exact ⟨_, rfl, resumes_dump (resumes_read a n (i + 1)) (.error str) 0 (by simp [leaves, Reply.Dumpable])⟩

/-- Whatever the program of a live instance sends next, with the answer of the server, the two halves
of an event do. -/
theorem move_of_program [LinearOrder I] (ids : Ids I) (w : W) {a : Args} {pc : PC} {c : Cmd}
    {k : Option Reply → Code Unit} {s s' : Stream I} {r : Option Reply}
    (hc : pc.code a = .call (.send c) k) (ha : handle ids s (.send c) = .reply r s') :
    ∃ e l', Sends ids.text e w c r ∧ serve s e = some s' ∧ Worker.move ⟨a, pc, true⟩ e = some l' := by
  cases pc with
  | init =>
    cases hc
    cases ha
    exact ⟨_, _, .xgroup w _, rfl, move_iff.2 (.init a w)⟩
  | add n i =>
    cases hc
    cases ha
    exact ⟨_, _, .xadd w i _, if_pos (ids.lt_next _), move_iff.2 (.add a n i w _)⟩
  | read n i =>
    cases hc
    by_cases hneg : a.block < 0
    · rw [handle, if_pos hneg] at ha
      cases ha
      exact ⟨_, _, .error w _ _, if_pos (.inl hneg), move_iff.2 (.read a n i w _)⟩
    · by_cases hg : s.group.isNone = true
      · rw [handle, if_neg hneg, if_pos hg] at ha
        cases ha
        exact ⟨_, _, .error w _ _, if_pos (.inr hg), move_iff.2 (.read a n i w _)⟩
      · rw [handle, if_neg hneg, if_neg hg] at ha
        cases hn : s.next with
        | some y =>
          rw [hn] at ha
          cases ha
          exact ⟨_, _, .entry w _ y.1, by simp [serve, hneg, hn], move_iff.2 (.read a n i w _)⟩
        | none =>
          rw [hn] at ha
          by_cases h0 : a.block = 0
          · simp [h0] at ha
          · simp only [if_neg h0] at ha
            cases ha
            refine ⟨_, _, .nil w _, if_pos ⟨by omega, ?_, next_none.1 hn⟩, move_iff.2 (.read a n i w _)⟩
            simpa [Option.isSome_iff_ne_none, Option.isNone_iff_eq_none] using hg
  | exited => cases hc

/-! ## Any number of instances -/

section Instances
variable [LinearOrder I] [DecidableEq W] {args : W → Args} {s : Stream I} {tr : List (Ev W I)}
  {c c' : Config W (Stream I) Worker}

/-- What the run so far has made of the stream `s`. -/
structure Progress (s : Stream I) (tr : List (Ev W I)) (c : Config W (Stream I) Worker) : Prop where
  wf : c.srv.Wf
  entries : c.srv.entries = s.entries ++ added tr
  conserved : s.pending ++ added tr = (delivered tr).map Prod.snd ++ c.srv.pending
  /-- Who is past its first command has seen the group. -/
  group : ∀ w, (c.loc w).pc ≠ .init → ∃ g, c.srv.group = some g

omit [DecidableEq W] in
theorem serve_cases {s s' : Stream I} {e : Ev W I} (h : serve s e = some s') :
    (∃ w, e = .xgroup w ∧ s' = s.createGroup.2) ∨
    (∃ w i id, e = .xadd w i id ∧ s.last < id ∧ s' = s.add id (mem i)) ∨
    (∃ w b x, e = .xread w b (.entry x) ∧ s.next = some (x, s')) ∨
    (e.adds = none ∧ e.gets = none ∧ s' = s) := by
  cases e with
  | xgroup w => cases h; exact .inl ⟨w, rfl, rfl⟩
  | xadd w i id =>
    simp only [serve, Option.ite_none_right_eq_some, Option.some.injEq] at h
    exact .inr (.inl ⟨w, i, id, rfl, h.1, h.2.symm⟩)
  | xread w b r =>
    cases r with
    | entry x =>
      refine .inr (.inr (.inl ⟨w, b, x, rfl, ?_⟩))
      rw [serve, Option.ite_none_left_eq_some] at h
      cases hn : s.next with
      | none => simp [hn] at h
      | some y =>
        obtain ⟨y, t⟩ := y
        simp only [hn, Option.ite_none_right_eq_some, Option.some.injEq] at h
        obtain ⟨-, rfl, rfl⟩ := h
        rfl
    | nil =>
      simp only [serve, Option.ite_none_right_eq_some, Option.some.injEq] at h
      exact .inr (.inr (.inr ⟨rfl, rfl, h.2.symm⟩))
    | error =>
      simp only [serve, Option.ite_none_right_eq_some, Option.some.injEq] at h
      exact .inr (.inr (.inr ⟨rfl, rfl, h.2.symm⟩))
  | crash w => cases h; exact .inr (.inr (.inr ⟨rfl, rfl, rfl⟩))

omit [DecidableEq W] in
theorem group_stays {s s' : Stream I} {e : Ev W I} (h : serve s e = some s') (hg : ∃ g, s.group = some g) :
    ∃ g, s'.group = some g := by
  rcases serve_cases h with ⟨w, rfl, rfl⟩ | ⟨w, i, id, rfl, -, rfl⟩ | ⟨w, b, x, rfl, hn⟩ | ⟨-, -, rfl⟩
  · exact (group_createGroup s).1
  · exact hg
  · obtain ⟨y, -, heq⟩ := Option.map_eq_some_iff.1 hn
    cases heq
    exact ⟨_, rfl⟩
  · exact hg

theorem instances_step {e : Ev W I} {w : W} (hw : e.who = some w) (he : instances.exec c e = some c') :
    Worker.Step (c.loc w) e (c'.loc w) := move_iff.1 (exec_move instances hw he)

/-- The group is there as soon as somebody is past its first command. -/
theorem group_step {e : Ev W I} (he : instances.exec c e = some c')
    (hp : ∀ w, (c.loc w).pc ≠ .init → ∃ g, c.srv.group = some g) (w : W) (hw : (c'.loc w).pc ≠ .init) :
    ∃ g, c'.srv.group = some g := by
  have hs : serve c.srv e = some c'.srv := exec_serve instances he
  by_cases hwho : e.who = some w
  · have hstep := instances_step hwho he
    have hold := hp w
    generalize c'.loc w = l' at hstep hw
    generalize c.loc w = l at hstep hold
    cases hstep with
    | init a x =>
      rw [← Option.some.inj hs]
      exact (group_createGroup c.srv).1
    | add a n i x id => exact group_stays hs (hold nofun)
    | read a n i x r => exact group_stays hs (hold nofun)
    | crash a pc x hx => exact group_stays hs (hold hw)
  · rw [exec_frame instances hwho he] at hw
    exact group_stays hs (hp w hw)

theorem progress_step {e : Ev W I} (hp : Progress s tr c) (he : instances.exec c e = some c') :
    Progress s (tr ++ [e]) c' := by
  have hs : serve c.srv e = some c'.srv := exec_serve instances he
  have hgroup := group_step he hp.group
  rcases serve_cases hs with ⟨w, rfl, hc⟩ | ⟨w, i, id, rfl, hid, hc⟩ | ⟨w, b, x, rfl, hn⟩ | ⟨ha, hg, hc⟩
  · refine ⟨hc ▸ wf_createGroup hp.wf, ?_, ?_, hgroup⟩
    · rw [hc, (group_createGroup c.srv).2.1, hp.entries]
      simp [Ev.adds]
    · rw [hc, pending_createGroup hp.wf]
      simpa [Ev.adds, Ev.gets] using hp.conserved
  · -- whoever adds has seen the group
    obtain ⟨g, hg⟩ : ∃ g, c.srv.group = some g := by
      refine hp.group w ?_
      have hstep := instances_step (w := w) rfl he
      generalize c'.loc w = l' at hstep
      generalize c.loc w = l at hstep ⊢
      cases hstep
      nofun
    refine ⟨hc ▸ wf_add hp.wf hid _, ?_, ?_, hgroup⟩
    · rw [hc, Stream.add, hp.entries]
      simp [Ev.adds]
    · rw [hc, pending_add hp.wf hg hid, added_snoc, delivered_snoc]
      simp [Ev.adds, Ev.gets, ← List.append_assoc, hp.conserved]
  · obtain ⟨hpend, hent, -, -⟩ := next_some hp.wf hn
    refine ⟨wf_next hp.wf hn, ?_, ?_, hgroup⟩
    · rw [hent, hp.entries]
      simp [Ev.adds]
    · rw [added_snoc, delivered_snoc]
      simp [Ev.adds, Ev.gets, hp.conserved, hpend]
  · refine ⟨hc ▸ hp.wf, ?_, ?_, hgroup⟩
    · rw [hc, hp.entries]
      simp [ha]
    · rw [hc]
      simpa [ha, hg] using hp.conserved

theorem progress_of_run (hs : s.Wf) (h : instances.run (launch args s) tr = some c) : Progress s tr c := by
  refine run_induct instances (P := fun tr c => Progress s tr c) ⟨hs, ?_, ?_, fun w hw => absurd rfl hw⟩
    (fun _ _ _ _ _ hp he => progress_step hp he) tr c h
  · simp [launch, added]
  · simp [launch, added, delivered]

/-- A read finds nothing only if nothing is left. -/
theorem pending_of_nil {w : W} {b : Int} (he : instances.exec c (.xread w b .nil) = some c') :
    c.srv.pending = [] := by
  have hs : serve c.srv (.xread w b .nil) = some c'.srv := exec_serve instances he
  simp only [serve, Option.ite_none_right_eq_some, Option.some.injEq] at hs
  exact hs.1.2.2

/-- **Each entry goes to at most one instance, in the order of the entries**: any number of instances
with any arguments, any order of their commands, crashes at any point. What was left to the group and
what has been added is what has been delivered, followed by what is left; an entry is passed over by
no one; and a read that finds nothing finds everything delivered. -/
theorem stream_deliveries (args : W → Args) (hs : s.Wf) (h : instances.run (launch args s) tr = some c) :
    s.pending ++ added tr = (delivered tr).map Prod.snd ++ c.srv.pending ∧
    ((delivered tr).map fun x => x.2.1).Pairwise (· < ·) ∧
    ∀ pre w b post, tr = pre ++ .xread w b .nil :: post →
      s.pending ++ added pre = (delivered pre).map Prod.snd := by
  have hp := progress_of_run hs h
  refine ⟨hp.conserved, ?_, fun pre w b post htr => ?_⟩
  · -- they are a sublist of the entries
    have hsub : ((delivered tr).map Prod.snd).Sublist c.srv.entries := by
      rw [hp.entries]
      refine (List.sublist_append_left _ c.srv.pending).trans ?_
      rw [← hp.conserved]
      refine List.Sublist.append_right ?_ _
      unfold Stream.pending
      cases s.group with
      | none => exact List.nil_sublist _
      | some g => exact List.filter_sublist
    have hids := hp.wf.sorted.sublist (hsub.map Prod.fst)
    rwa [List.map_map] at hids
  · subst htr
    obtain ⟨d, hd, hrest⟩ := (run_append instances).1 h
    obtain ⟨d', he, -⟩ := (run_cons instances).1 hrest
    rw [(progress_of_run hs hd).conserved, pending_of_nil he, List.append_nil]

end Instances

/-- Two instances add one entry each. One of them gets both, since the other dies, and then nothing. -/
def sharedRun : List (Ev Bool Nat) :=
  [.xgroup false, .xgroup true, .xadd true 0 1, .xadd false 0 2, .xread false 1 (.entry (1, mem 0)), .crash true,
   .xread false 1 (.entry (2, mem 0)), .xread false 1 .nil]

theorem stream_deliveries_sharedRun : ∃ c,
    instances.run (launch (fun _ => ⟨1, 3, 1⟩) (⟨[], 0, none⟩ : Stream Nat)) sharedRun = some c ∧
      added sharedRun = (delivered sharedRun).map Prod.snd ++ c.srv.pending ∧
      ((delivered sharedRun).map fun x => x.2.1).Pairwise (· < ·) ∧
      ∀ pre w b post, sharedRun = pre ++ .xread w b .nil :: post → added pre = (delivered pre).map Prod.snd := by
  have hs : (⟨[], 0, none⟩ : Stream Nat).Wf := ⟨by simp, by simp, nofun⟩
  obtain ⟨c, hc⟩ : ∃ c, instances.run (launch (fun _ => ⟨1, 3, 1⟩) (⟨[], 0, none⟩ : Stream Nat)) sharedRun =
      some c := ⟨_, rfl⟩
  exact ⟨c, hc, stream_deliveries (fun _ => ⟨1, 3, 1⟩) hs hc⟩

end Streams

end RedisQueue
