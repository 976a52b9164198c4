import Mathlib.Algebra.BigOperators.Ring.List
import Mathlib.Algebra.Ring.Nat
import Mathlib.Data.Fintype.Card
import RedisQueue.Combined
import RedisQueue.Hands

/-!
# Several combined hiredis workers

The loop of `c-hiredis-combined/src/consumer.cpp` and of `c-hiredis-consumer/src/main.cpp`, which
has it word for word, ends in three ways: `empty()` finds the main list empty and something being
processed, or `lease` gets no item, or the item reads empty or `END`. So a worker leaves as soon as it
finds nothing to pop.

| here | there |
| --- | --- |
| `Combined.report`, `.turn` | `q.empty()` before the loop (`consumer.cpp:13`), one turn of it (`:14-29`) |
| `Combined.PC`, `Combined.Worker.move` | the same program between two commands |
| `serveItem` | the server; the `SETEX` of this client writes the item itself (`rqueue.cpp:90-100`) |

With these workers there is no waiting: the steps of all of them together are bounded by what there
is to do (`consumers_budget`), under every schedule, and when they are over the work is done
(`consumers_total`).
-/
namespace RedisQueue
open Program Interleave

variable {W K : Type}

namespace Hiredis
namespace Combined

def report : Code K Ctl := do
  let _ ← empty (K := K)
  return .again

def turn (keyFor : Bytes → K) : Code K Ctl := do
  if ← empty then
    return .leave
  else
    iteration keyFor

/-- At most `n` turns. -/
def main (keyFor : Bytes → K) (n : Nat) : Code K Ctl := do
  let _ ← report (K := K)
  loop (turn keyFor) n

/-- The item of a point is the content of the buffer. -/
inductive PC where
  | probe (guard : Bool) (q : QType)
  | pop
  | setex (item : Bytes)
  | item (item : Bytes)
  | lrem (item : Bytes)
  | del (item : Bytes)
  | exited
deriving DecidableEq

structure Worker where
  pc : PC
  alive : Bool
deriving DecidableEq

/-- Where `empty()` leads: the report goes on to the loop, the loop's own call decides. -/
def afterEmpty (guard empty : Bool) : PC :=
  if guard then if empty then .exited else .pop else .probe true .main

def afterPop (item : Bytes) : PC := if item = Util.END then .exited else .setex item

def afterLease (item : Bytes) : PC := if item ≠ [] ∧ item ≠ Util.END then .item item else .exited

/-- The worker's half of an event. -/
def Worker.move : Worker → Ev W K → Option Worker
  | ⟨.probe g .main, true⟩, .llen _ .main n =>
    some ⟨if n = 0 then .probe g .processing else afterEmpty g false, true⟩
  | ⟨.probe g .processing, true⟩, .llen _ .processing n => some ⟨afterEmpty g (n ≠ 0), true⟩
  | ⟨.pop, true⟩, .pop _ none => some ⟨.exited, true⟩
  | ⟨.pop, true⟩, .pop _ (some v) => some ⟨afterPop (Util.cstr v), true⟩
  | ⟨.setex v, true⟩, .setex _ x => if x = v then some ⟨afterLease v, true⟩ else none
  | ⟨.item v, true⟩, .work _ x => if x = v then some ⟨.lrem v, true⟩ else none
  | ⟨.lrem v, true⟩, .lrem _ x _ => if x = v then some ⟨.del v, true⟩ else none
  | ⟨.del v, true⟩, .del _ x => if x = v then some ⟨.probe true .main, true⟩ else none
  | ⟨pc, true⟩, .crash _ => if pc = .exited then none else some ⟨pc, false⟩
  | _, _ => none

/-- The steps of `Worker.move`, case by case. -/
inductive Worker.Step : Worker → Ev W K → Worker → Prop where
  | probeMain (g w n) : Step ⟨.probe g .main, true⟩ (.llen w .main n)
      ⟨if n = 0 then .probe g .processing else afterEmpty g false, true⟩
  | probeProcessing (g w n) : Step ⟨.probe g .processing, true⟩ (.llen w .processing n)
      ⟨afterEmpty g (n ≠ 0), true⟩
  | timeout (w) : Step ⟨.pop, true⟩ (.pop w none) ⟨.exited, true⟩
  | pop (w v) : Step ⟨.pop, true⟩ (.pop w (some v)) ⟨afterPop (Util.cstr v), true⟩
  | setex (w v) : Step ⟨.setex v, true⟩ (.setex w v) ⟨afterLease v, true⟩
  | work (w v) : Step ⟨.item v, true⟩ (.work w v) ⟨.lrem v, true⟩
  | lrem (w v n) : Step ⟨.lrem v, true⟩ (.lrem w v n) ⟨.del v, true⟩
  | del (w v) : Step ⟨.del v, true⟩ (.del w v) ⟨.probe true .main, true⟩
  | crash (w pc) (hx : pc ≠ .exited) : Step ⟨pc, true⟩ (.crash w) ⟨pc, false⟩

theorem move_iff {l l' : Worker} {e : Ev W K} : l.move e = some l' ↔ Worker.Step l e l' := by
  constructor
  · intro h
    unfold Worker.move at h
    split at h
    · cases h; exact .probeMain _ _ _
    · cases h; exact .probeProcessing _ _ _
    · cases h; exact .timeout _
    · cases h; exact .pop _ _
    · split at h <;> cases h
      rename_i hx; subst hx; exact .setex _ _
    · split at h <;> cases h
      rename_i hx; subst hx; exact .work _ _
    · split at h <;> cases h
      rename_i hx; subst hx; exact .lrem _ _ _
    · split at h <;> cases h
      rename_i hx; subst hx; exact .del _ _
    · split at h <;> cases h
      rename_i hx; exact .crash _ _ hx
    · cases h
  · intro h
    cases h <;> simp_all [Worker.move]

/-- The server's half of an event, for a client that writes the item into its lease key. -/
def serveItem [DecidableEq K] (P : Params W K) (s : Server K) : Ev W K → Option (Server K)
  | .setex _ v => some (s.setex (P.itemKey v) v)
  | e => serve P s e

/-! ## The automaton is the program -/

section Code
variable (keyFor : Bytes → K)

/-- `_llen(PROCESSING)` as the second half of `empty()`. -/
def secondRead : Code K Bool := do
  let processing ← llen .processing
  return processing ≠ 0

/-- The item has been copied into the buffer and is not `END`. -/
def register (item : Bytes) : Code K Bytes := do
  setex keyFor item 5
  return item

/-- The `if` of the loop's body. -/
def workOn (item : Bytes) : Code K Ctl :=
  if item ≠ [] ∧ item ≠ Util.END then do
    act (.work item)
    complete keyFor item
    return .again
  else return .leave

/-- The rest of the program from a point on; `again` goes back to the top of the loop. -/
def PC.code : PC → Code K Ctl
  | .probe false .main => report
  | .probe false .processing => do
    let _ ← secondRead (K := K)
    return .again
  | .probe true .main => turn keyFor
  | .probe true .processing => do
    if ← secondRead then return .leave else iteration keyFor
  | .pop => iteration keyFor
  | .setex v => do
    let item ← register keyFor v
    workOn keyFor item
  | .item v => do
    act (.work v)
    complete keyFor v
    return .again
  | .lrem v => do
    complete keyFor v
    return .again
  | .del v => do
    Hiredis.del keyFor v
    return .again
  | .exited => return .leave

/-- A worker whose remaining program is `p`; copies go unseen. -/
inductive Resumes : Code K Ctl → Worker → Prop where
  | at (pc : PC) : Resumes (pc.code keyFor) ⟨pc, true⟩
  | again : Resumes (.ret .again) ⟨.probe true .main, true⟩
  | leave : Resumes (.ret .leave) ⟨.exited, true⟩
  | copy (room : Nat) (src : Bytes) (k : Unit → Code K Ctl) (l : Worker) (h : Resumes (k ()) l) :
    Resumes (.call (.strcpy room src) k) l

end Code

/-- The command an event of a worker sends, with its reply, or the work it does. -/
inductive Sends (P : Params W K) : Ev W K → W → (a : Act K) → a.Reply → Prop
  | llen (w q n) : Sends P (.llen w q n) w (.send (.llen q)) (some ⟨n, none⟩)
  | pop (w r) : Sends P (.pop w r) w (.send (.brpoplpush 2)) (some ⟨0, r⟩)
  | setex (w v) : Sends P (.setex w v) w (.send (.setex (P.itemKey v) 5 v)) (some ⟨0, some [79, 75]⟩)
  | work (w v) : Sends P (.work w v) w (.work v) ()
  | lrem (w v n) : Sends P (.lrem w v n) w (.send (.lrem 0 v)) (some ⟨n, none⟩)
  | del (w v n) : Sends P (.del w v) w (.send (.delete (P.itemKey v))) (some ⟨n, none⟩)

variable {P : Params W K} {w : W}

/-- Every step of the automaton but a crash takes the next step of the program and goes where the
program goes with the reply. -/
theorem program_of_move {l l' : Worker} {e : Ev W K} {a : Act K} {r : a.Reply} (he : Sends P e w a r)
    (h : l.move e = some l') :
    ∃ k, l.pc.code P.itemKey = .call a k ∧ Resumes P.itemKey (k r) l' := by
  cases he with
  | llen _ q n =>
    cases move_iff.1 h with
    | probeMain g =>
      cases g with
      | false =>
        refine ⟨_, rfl, ?_⟩
        cases n with
        | zero => exact .at (.probe false .processing)
        | succ n => exact .again
      | true =>
        refine ⟨_, rfl, ?_⟩
        cases n with
        | zero => exact .at (.probe true .processing)
        | succ n => exact .at .pop
    | probeProcessing g =>
      cases g with
      | false => exact ⟨_, rfl, .again⟩
      | true =>
        refine ⟨_, rfl, ?_⟩
        cases n with
        | zero => exact .at .pop
        | succ n => exact .leave
  | pop _ r =>
    cases move_iff.1 h with
    | timeout =>
      refine ⟨_, rfl, .copy _ _ _ _ ?_⟩
      exact .leave
    | pop _ v =>
      refine ⟨_, rfl, .copy _ _ _ _ ?_⟩
      by_cases hv : Util.cstr v = Util.END
      · simp only [afterPop, hv]
        exact .leave
      · simp only [afterPop, if_neg hv]
        change Resumes P.itemKey ((if Util.cstr v ≠ Util.END then register P.itemKey (Util.cstr v)
          else .ret (Util.cstr v)).bind (workOn P.itemKey)) _
        rw [if_pos hv]
        exact .at (.setex (Util.cstr v))
  | setex _ v =>
    cases move_iff.1 h with
    | setex =>
      refine ⟨_, rfl, ?_⟩
      change Resumes P.itemKey (workOn P.itemKey v) _
      unfold workOn afterLease
      split
      · exact .at (.item v)
      · exact .leave
  | work _ v =>
    cases move_iff.1 h with
    | work => exact ⟨_, rfl, .at (.lrem v)⟩
  | lrem _ v n =>
    cases move_iff.1 h with
    | lrem => exact ⟨_, rfl, .at (.del v)⟩
  | del _ v n =>
    cases move_iff.1 h with
    | del => exact ⟨_, rfl, .again⟩

/-- Whatever the program of a live worker does next, with the answer of the server, the two halves of
an event do. -/
theorem move_of_program [DecidableEq K] {pc : PC} {a : Act K} {k : a.Reply → Code K Ctl} {s s' : Server K}
    {r : a.Reply} (hc : pc.code P.itemKey = .call a k) (ha : (online s).handle a = .reply r (online s')) :
    ∃ e l', Sends P e w a r ∧ serveItem P s e = some s' ∧ Worker.move ⟨pc, true⟩ e = some l' := by
  cases pc with
  | probe g q =>
    cases q with
    | main =>
      have ha' : a = .send (.llen .main) := by cases g <;> (cases hc; rfl)
      subst ha'
      cases ha
      exact ⟨_, _, .llen w .main _, if_pos rfl, move_iff.2 (.probeMain g w _)⟩
    | processing =>
      have ha' : a = .send (.llen .processing) := by cases g <;> (cases hc; rfl)
      subst ha'
      cases ha
      exact ⟨_, _, .llen w .processing _, if_pos rfl, move_iff.2 (.probeProcessing g w _)⟩
  | pop =>
    cases hc
    replace ha : (online s).handle (.send (.brpoplpush 2)) = .reply r (online s') := ha
    rcases List.eq_nil_or_concat' s.main with hm | ⟨l, v, hm⟩
    · rw [handle_pop_nil hm] at ha
      cases ha
      exact ⟨_, _, .pop w none, (serve_pop_none (P := P) (w := w)).2 ⟨hm, rfl⟩, move_iff.2 (.timeout w)⟩
    · rw [handle_pop_snoc hm] at ha
      cases ha
      exact ⟨_, _, .pop w (some v), (serve_pop_some (P := P) (w := w)).2 ⟨l, hm, rfl⟩, move_iff.2 (.pop w v)⟩
  | setex v =>
    cases hc
    cases ha
    exact ⟨_, _, .setex w v, rfl, move_iff.2 (.setex w v)⟩
  | item v =>
    cases hc
    cases ha
    exact ⟨_, _, .work w v, rfl, move_iff.2 (.work w v)⟩
  | lrem v =>
    cases hc
    cases ha
    exact ⟨_, _, .lrem w v _, (serve_lrem (P := P) (w := w)).2 ⟨(length_lrem_zero s v).symm, rfl⟩, move_iff.2 (.lrem w v _)⟩
  | del v =>
    cases hc
    cases ha
    exact ⟨_, _, .del w v _, rfl, move_iff.2 (.del w v)⟩
  | exited => cases hc

/-! ## What a worker has to do -/

/-- The item a worker has popped, will work on, and has not yet removed. -/
def PC.hands : PC → List Bytes
  | .setex v => if v ≠ [] ∧ v ≠ Util.END then [v] else []
  | .item v | .lrem v => [v]
  | _ => []

/-- The item a worker has yet to work on. -/
def PC.todo : PC → List Bytes
  | .setex v => if v ≠ [] ∧ v ≠ Util.END then [v] else []
  | .item v => [v]
  | _ => []

@[simp] theorem afterEmpty_hands (g b : Bool) : (afterEmpty g b).hands = [] := by cases g <;> cases b <;> rfl

@[simp] theorem afterEmpty_todo (g b : Bool) : (afterEmpty g b).todo = [] := by cases g <;> cases b <;> rfl

@[simp] theorem todo_probe (g : Bool) (q : QType) : (PC.probe g q).todo = [] := rfl

theorem afterPop_todo (v : Bytes) : (afterPop v).todo = if v = [] ∨ v = Util.END then [] else [v] := by
  by_cases hend : v = Util.END
  · rw [afterPop, if_pos hend, if_pos (.inr hend)]; rfl
  · rw [afterPop, if_neg hend, PC.todo]
    by_cases h0 : v = [] <;> simp [hend, h0]

theorem afterLease_todo (v : Bytes) : (afterLease v).todo = (PC.setex v).todo := by
  by_cases hv : v ≠ [] ∧ v ≠ Util.END
  · rw [afterLease, if_pos hv, PC.todo, PC.todo, if_pos hv]
  · rw [afterLease, if_neg hv, PC.todo, PC.todo, if_neg hv]
    · nofun
    · nofun

theorem afterPop_payload {v : Bytes} (hv : CPayload bufferSize v) : afterPop (Util.cstr v) = .setex v := by
  rw [cstr_of_nulFree hv.nulFree, afterPop, if_neg hv.notEnd]

theorem holds : Holds (W := W) (K := K) (CPayload bufferSize) Worker.move fun l => l.pc.hands where
  pop l w v l' hv h := by
    cases move_iff.1 h with
    | pop => simp [afterPop_payload hv, PC.hands, hv.nonempty, hv.notEnd]
  keep l e l' u h hu := by
    cases move_iff.1 h with
    | setex w v =>
      by_cases hv : v ≠ [] ∧ v ≠ Util.END
      · simp only [PC.hands, if_pos hv] at hu
        exact .inl (by rw [afterLease, if_pos hv]; exact hu)
      · simp only [PC.hands, if_neg hv] at hu
        cases hu
    | work w v => exact .inl hu
    | lrem w v n =>
      obtain rfl := List.mem_singleton.1 hu
      exact .inr ⟨w, n, rfl⟩
    | crash w pc hx => exact .inl hu
    | probeMain g => cases hu
    | probeProcessing g => cases hu
    | timeout => cases hu
    | pop => cases hu
    | del => cases hu

/-- What a pop gives a worker to do: the element as a C string, unless it reads empty or `END`. -/
def assigns : Ev W K → Option (W × Bytes)
  | .pop w (some v) => if Util.cstr v = [] ∨ Util.cstr v = Util.END then none else some (w, Util.cstr v)
  | _ => none

theorem assigns_who (e : Ev W K) (p : W × Bytes) (h : assigns e = some p) : e.who = some p.1 := by
  cases e with
  | pop w r =>
    cases r with
    | none => cases h
    | some v =>
      rw [assigns, Option.ite_none_left_eq_some] at h
      obtain ⟨-, h⟩ := h
      cases h
      rfl
  | _ => cases h

/-- The commands, and work, a worker has left before it pops again or exits. -/
def PC.rank : PC → Nat
  | .setex _ => 7
  | .item _ => 6
  | .probe false .main | .lrem _ => 5
  | .probe false .processing | .del _ => 4
  | .probe true .main => 3
  | .probe true .processing => 2
  | .pop => 1
  | .exited => 0

def Worker.rank (l : Worker) : Nat := if l.alive then l.pc.rank else 0

@[simp] theorem rank_alive (pc : PC) : Worker.rank ⟨pc, true⟩ = pc.rank := rfl

@[simp] theorem rank_dead (pc : PC) : Worker.rank ⟨pc, false⟩ = 0 := rfl

theorem afterPop_rank (v : Bytes) : (afterPop v).rank ≤ 7 := by
  unfold afterPop
  split <;> simp [PC.rank]

theorem afterLease_rank (v : Bytes) : (afterLease v).rank ≤ 6 := by
  unfold afterLease
  split <;> simp [PC.rank]

theorem rank_pos {pc : PC} (h : pc ≠ .exited) : 0 < pc.rank := by
  cases pc with
  | exited => exact absurd rfl h
  | probe g q => cases g <;> cases q <;> simp [PC.rank]
  | _ => simp [PC.rank]

end Combined
end Hiredis

open Hiredis Hiredis.Combined

/-! ## Several workers -/

/-- Workers of `c-hiredis-combined`, publishers and Redis. -/
def consumers [DecidableEq K] (P : Params W K) : System W (Ev W K) (Server K) Combined.Worker where
  who := Ev.who
  serve := serveItem P
  move := Combined.Worker.move

/-- Every worker at its first command, the queue in state `s`. -/
def consumersLaunch (s : Server K) : Config W (Server K) Combined.Worker := ⟨s, fun _ => ⟨.probe false .main, true⟩⟩

theorem onQueue_consumers [DecidableEq K] (P : Params W K) : OnQueue (consumers P) where
  who := rfl
  lists s e s' h := by
    cases e with
    | setex w v => cases h; exact .inl ⟨rfl, rfl, rfl, rfl, rfl⟩
    | _ => exact serve_lists (P := P) h

section Consumers
variable [DecidableEq W] [DecidableEq K] {P : Params W K} {tr : List (Ev W K)} {s : Server K} {e : Ev W K}
  {c c' : Config W (Server K) Combined.Worker} {w : W}

theorem consumers_step (hw : e.who = some w) (he : (consumers P).exec c e = some c') :
    Combined.Worker.Step (c.loc w) e (c'.loc w) :=
  Combined.move_iff.1 (exec_move (consumers P) hw he)

omit [DecidableEq W] in
/-- A step costs the worker one; an element of the main list pays for all it gives rise to. -/
theorem consumers_pay {s s' : Server K} {l l' : Combined.Worker} (hs : serveItem P s e = some s')
    (hm : l.move e = some l') : 7 * s'.main.length + l'.rank + 1 ≤ 7 * s.main.length + l.rank := by
  cases Combined.move_iff.1 hm with
  | pop w v =>
    obtain ⟨l, hl, rfl⟩ := (serve_pop_some (P := P) (w := w)).1 hs
    have hle := afterPop_rank (Util.cstr v)
    simp only [hl, List.length_append, List.length_singleton, rank_alive, PC.rank] at hle ⊢
    omega
  | probeMain g w n =>
    obtain ⟨-, rfl⟩ := (serve_llen (P := P) (w := w)).1 hs
    by_cases hn : n = 0 <;> cases g <;> simp [hn, Combined.afterEmpty, PC.rank]
  | probeProcessing g w n =>
    obtain ⟨-, rfl⟩ := (serve_llen (P := P) (w := w)).1 hs
    by_cases hn : n = 0 <;> cases g <;> simp [hn, Combined.afterEmpty, PC.rank]
  | timeout w =>
    obtain ⟨-, rfl⟩ := (serve_pop_none (P := P) (w := w)).1 hs
    simp [PC.rank]
  | setex w v =>
    cases hs
    have hle := afterLease_rank v
    simp only [Server.setex, rank_alive]
    change _ + 1 ≤ _ + 7
    omega
  | work w v => cases hs; simp [PC.rank]
  | lrem w v n =>
    obtain ⟨-, rfl⟩ := (serve_lrem (P := P) (w := w)).1 hs
    simp [Server.lrem, PC.rank]
  | del w v => cases hs; simp [Server.delete, PC.rank]
  | crash w pc hx =>
    cases hs
    have hpos := rank_pos hx
    simp only [rank_alive, rank_dead]
    omega

/-- **The workers never wait and never poll**: the steps they take together are bounded by what there
is to do, whatever the schedule, whoever crashes, whatever is pushed. -/
theorem consumers_budget [Fintype W] (P : Params W K) (h : (consumers P).run (consumersLaunch s) tr = some c) :
    (tr.filterMap Ev.who).length ≤ 7 * (s.main.length + (published tr).length) + 5 * Fintype.card W := by
  have hrun := run_budget (consumers P) (fun s => 7 * s.main.length) Combined.Worker.rank
    (fun e => e.who.toList.length) (fun e => 7 * e.pushes.toList.length) (fun s e s' l l' w hw hs hm => ?_)
    (fun s e s' hw hs => ?_) h
  · have hlaunch : (consumersLaunch s : Config W (Server K) Combined.Worker).funds (fun s => 7 * s.main.length)
        Combined.Worker.rank = 7 * s.main.length + 5 * Fintype.card W := by
      simp only [Config.funds, consumersLaunch, rank_alive, PC.rank, Finset.sum_const, Finset.card_univ, Nat.nsmul_eq_mul,
        Nat.mul_comm]
    have hpush : (tr.map fun e => 7 * e.pushes.toList.length).sum = 7 * (published tr).length := by
      rw [published, length_filterMap]
      exact List.sum_map_mul_left _ _ _
    rw [hlaunch, hpush] at hrun
    rw [length_filterMap]
    omega
  · have hle := consumers_pay hs hm
    have hwho : e.who = some w := hw
    simp only [hwho, Option.toList, List.length_singleton]
    omega
  · have hwho : e.who = none := hw
    rcases (onQueue_consumers P).lists _ _ _ hs with
      ⟨hp, _, _, hmain, _⟩ | ⟨v, rfl, hmain, _⟩ | ⟨x, v, rfl, _⟩ | ⟨x, v, n, rfl, _⟩
    · simp [hwho, hmain]
    · simp only [hwho, hmain, Ev.pushes, Option.toList, List.length_nil, List.length_append, List.length_singleton]
      omega
    · cases hwho
    · cases hwho

/-- A worker that has not left can go on: there is a reply for whatever it sends. -/
theorem consumers_go_on (ha : (c.loc w).alive = true) (hx : (c.loc w).pc ≠ .exited) :
    ∃ e c', e.who = some w ∧ (consumers P).exec c e = some c' := by
  have hgo (e : Ev W K) (s' : Server K) (l' : Combined.Worker) (hw : e.who = some w)
      (hs : serveItem P c.srv e = some s') (hm : (c.loc w).move e = some l') :
      ∃ e c', e.who = some w ∧ (consumers P).exec c e = some c' :=
    ⟨e, ⟨s', _⟩, hw, (exec_client (consumers P) hw).2 ⟨hs, l', hm, rfl⟩⟩
  generalize c.loc w = l at ha hx hgo
  obtain ⟨pc, alive⟩ := l
  subst ha
  cases pc with
  | probe g q =>
    cases q with
    | main => exact hgo (.llen w .main _) _ _ rfl (if_pos rfl) (Combined.move_iff.2 (.probeMain g w _))
    | processing =>
      exact hgo (.llen w .processing _) _ _ rfl (if_pos rfl) (Combined.move_iff.2 (.probeProcessing g w _))
  | pop =>
    rcases List.eq_nil_or_concat' c.srv.main with hm | ⟨l, v, hm⟩
    · exact hgo (.pop w none) _ _ rfl ((serve_pop_none (P := P) (w := w)).2 ⟨hm, rfl⟩) (Combined.move_iff.2 (.timeout w))
    · exact hgo (.pop w (some v)) _ _ rfl ((serve_pop_some (P := P) (w := w)).2 ⟨l, hm, rfl⟩) (Combined.move_iff.2 (.pop w v))
  | setex v => exact hgo (.setex w v) _ _ rfl rfl (Combined.move_iff.2 (.setex w v))
  | item v => exact hgo (.work w v) _ _ rfl rfl (Combined.move_iff.2 (.work w v))
  | lrem v => exact hgo (.lrem w v _) _ _ rfl (if_pos rfl) (Combined.move_iff.2 (.lrem w v _))
  | del v => exact hgo (.del w v) _ _ rfl rfl (Combined.move_iff.2 (.del w v))
  | exited => exact absurd rfl hx

/-- What the pops gave a worker to do it has done, or has yet to do. -/
theorem assigned_ledger (w : W) (v : Bytes) (h : (consumers P).run c tr = some c') :
    (c.loc w).pc.todo.count v + (tr.filterMap assigns).count (w, v) =
      (c'.loc w).pc.todo.count v + (worked tr).count (w, v) := by
  refine observed_ledger (consumers P) w v (fun l => l.pc.todo.count v) assigns_who works_who
    (fun l e l' hw hm => ?_) h
  cases Combined.move_iff.1 hm with
  | pop x u =>
    cases hw
    by_cases hu : Util.cstr u = [] ∨ Util.cstr u = Util.END
    · simp only [afterPop_todo, assigns, if_pos hu]; rfl
    · simp only [afterPop_todo, assigns, if_neg hu]
      simp [Combined.PC.todo, Ev.works, List.count_cons]
  | setex x u => simp only [afterLease_todo, assigns, Ev.works]
  | work x u =>
    cases hw
    simp [assigns, Combined.PC.todo, Ev.works, List.count_cons]
  | probeMain g x n => by_cases hn : n = 0 <;> simp [hn, assigns, Ev.works]
  | probeProcessing g x n => simp [assigns, Ev.works]
  | _ => rfl

/-- What is handed out was in the main list or has been pushed. -/
theorem handed_ok {ok : Bytes → Prop} (h : (consumers P).run c tr = some c')
    (hok : ∀ v ∈ c.srv.main ++ published tr, ok v) {v : Bytes} (hv : (w, v) ∈ handed tr) : ok v := by
  have hbal := (onQueue_consumers P).main_ledger v h
  have hpos : 0 < ((handed tr).map Prod.snd).count v := List.count_pos_iff.2 (List.mem_map.2 ⟨_, hv, rfl⟩)
  refine hok v (List.count_pos_iff.1 ?_)
  rw [List.count_append]
  omega

theorem assigned_eq_handed (h : (consumers P).run c tr = some c')
    (hok : ∀ v ∈ c.srv.main ++ published tr, CPayload bufferSize v) : tr.filterMap assigns = handed tr := by
  refine List.filterMap_congr fun e he => ?_
  cases e with
  | pop w r =>
    cases r with
    | none => rfl
    | some v =>
      have hv := handed_ok h hok (mem_handed.2 he)
      have hc := cstr_of_nulFree hv.nulFree
      rw [assigns, hc, if_neg (not_or.2 ⟨hv.nonempty, hv.notEnd⟩)]
      rfl
  | _ => rfl

/-- Nobody pushes: a worker that has left, or has read length 0 and goes on to the other list, has seen
the main list empty. -/
structure Undisturbed (c : Config W (Server K) Combined.Worker) : Prop where
  main : ∀ v ∈ c.srv.main, CPayload bufferSize v
  leasing : ∀ w v, (c.loc w).pc = .setex v → CPayload bufferSize v
  seen : ∀ w, (c.loc w).pc = .exited ∨ (∃ g, (c.loc w).pc = .probe g .processing) → c.srv.main = []

theorem leasing_step (he : (consumers P).exec c e = some c') (hi : Undisturbed c) (w : W) (v : Bytes)
    (hpc : (c'.loc w).pc = .setex v) : CPayload bufferSize v := by
  by_cases hw : e.who = some w
  · have hstep := consumers_step hw he
    have hold := hi.leasing w v
    generalize c'.loc w = l' at hstep hpc
    generalize c.loc w = l at hstep hold
    cases hstep with
    | pop x u =>
      have hu := popped_ok (onQueue_consumers P) he hi.main
      rw [afterPop_payload hu] at hpc
      cases hpc
      exact hu
    | crash x pc hx => exact hold hpc
    | setex x u => simp only [afterLease] at hpc; split at hpc <;> cases hpc
    | probeMain g x n => by_cases hn : n = 0 <;> cases g <;> simp [hn, Combined.afterEmpty] at hpc
    | probeProcessing g x n => by_cases hn : n = 0 <;> cases g <;> simp [hn, Combined.afterEmpty] at hpc
    | _ => cases hpc
  · rw [exec_frame (consumers P) hw he] at hpc
    exact hi.leasing w v hpc

theorem seen_main_step (hp : e.pushes = none) (he : (consumers P).exec c e = some c') (hi : Undisturbed c) (w : W)
    (hpc : (c'.loc w).pc = .exited ∨ ∃ g, (c'.loc w).pc = .probe g .processing) : c'.srv.main = [] := by
  have hstay := (onQueue_consumers P).main_nil he hp
  by_cases hw : e.who = some w
  · have hstep := consumers_step hw he
    have hold := hi.seen w
    have hlease := hi.leasing w
    generalize c'.loc w = l' at hstep hpc
    generalize c.loc w = l at hstep hold hlease
    cases hstep with
    | probeMain g x n =>
      have hs : serve P c.srv (.llen x .main n) = some c'.srv := exec_serve (consumers P) he
      obtain ⟨hlen, hsrv⟩ := serve_llen.1 hs
      cases n with
      | zero => rw [hsrv]; exact List.length_eq_zero_iff.1 hlen
      | succ n => cases g <;> simp [Combined.afterEmpty] at hpc
    | probeProcessing g x n => exact hstay (hold (.inr ⟨g, rfl⟩))
    | timeout x =>
      have hs : serve P c.srv (.pop x none) = some c'.srv := exec_serve (consumers P) he
      exact hstay (serve_pop_none.1 hs).1
    | pop x u =>
      rw [afterPop_payload (popped_ok (onQueue_consumers P) he hi.main)] at hpc
      simp at hpc
    | setex x u =>
      have hu := hlease u rfl
      simp [afterLease, hu.nonempty, hu.notEnd] at hpc
    | crash x pc hx => exact hstay (hold hpc)
    | work => simp at hpc
    | lrem => simp at hpc
    | del => simp at hpc
  · rw [exec_frame (consumers P) hw he] at hpc
    exact hstay (hi.seen w hpc)

theorem undisturbed_step (hp : e.pushes = none) (he : (consumers P).exec c e = some c') (hi : Undisturbed c) :
    Undisturbed c' where
  main := main_ok_step (onQueue_consumers P) he (fun v hv => by rw [hp] at hv; cases hv) hi.main
  leasing := leasing_step he hi
  seen := seen_main_step hp he hi

/-- Nobody crashes, so everybody is alive. -/
theorem consumers_alive (hq : ∀ w, Ev.crash w ∉ tr) (h : (consumers P).run c tr = some c')
    (ha : ∀ w, (c.loc w).alive = true) : ∀ w, (c'.loc w).alive = true := by
  refine run_rel (consumers P) (R := fun c c' => (∀ w, (c.loc w).alive = true) → ∀ w, (c'.loc w).alive = true)
    (p := fun e => ∀ w, e ≠ .crash w) (fun _ h => h) (fun _ _ _ h1 h2 h => h2 (h1 h)) ?_
    (fun e he w hw => hq w (hw ▸ he)) h ha
  intro c e c' hp he ha w
  by_cases hw : e.who = some w
  · have hstep := consumers_step hw he
    generalize c'.loc w = l' at hstep ⊢
    generalize c.loc w = l at hstep
    cases hstep with
    | crash x => exact absurd rfl (hp x)
    | _ => rfl
  · rw [exec_frame (consumers P) hw he]
    exact ha w

/-- **The workers do it all**: any number of them on any payloads that fit, pushes, expiries and steps in
any order. Whoever has not left can go on; by `consumers_budget` all have left in the end; then nothing is
being processed, each payload has been worked on or is in the main list, and in there is nothing but what
was pushed. -/
theorem consumers_total [Nonempty W] (P : Params W K) {M : List Bytes} {L : K → Option Bytes}
    (hM : ∀ v ∈ M ++ published tr, CPayload bufferSize v) (hq : ∀ w, Ev.crash w ∉ tr)
    (h : (consumers P).run (consumersLaunch ⟨M, [], L⟩) tr = some c) :
    (∀ w, (c.loc w).pc ≠ .exited → ∃ e c', e.who = some w ∧ (consumers P).exec c e = some c') ∧
    ((∀ w, (c.loc w).pc = .exited) → c.srv.processing = [] ∧
      (M ++ published tr).Perm (c.srv.main ++ (worked tr).map Prod.snd) ∧ (published tr = [] → c.srv.main = [])) := by
  refine ⟨fun w hx => consumers_go_on (consumers_alive hq h (fun _ => rfl) w) hx, fun hx => ⟨?_, ?_, fun hpub => ?_⟩⟩
  · refine List.eq_nil_iff_forall_not_mem.2 fun v hv => ?_
    obtain ⟨w, hw⟩ := processing_held (onQueue_consumers P) Combined.holds h hM (by simp [consumersLaunch]) v hv
    rw [hx w] at hw
    cases hw
  · -- everything popped has been worked on
    have hwork : (worked tr).Perm (handed tr) := by
      refine List.perm_iff_count.2 fun ⟨w, v⟩ => ?_
      have hbal := assigned_ledger w v h
      rw [assigned_eq_handed h hM, hx w] at hbal
      simpa [consumersLaunch, Combined.PC.todo] using hbal.symm
    have hitems := hwork.map Prod.snd
    refine List.perm_iff_count.2 fun v => ?_
    have hbal := (onQueue_consumers P).main_ledger v h
    have hcount := hitems.count_eq v
    simp only [List.count_append]
    simp only [consumersLaunch] at hbal
    omega
  · have hi : Undisturbed (consumersLaunch ⟨M, [], L⟩ : Config W (Server K) Combined.Worker) :=
      ⟨fun v hv => hM v (List.mem_append_left _ hv), nofun, fun w hw => by simp [consumersLaunch] at hw⟩
    have hend := run_rel (consumers P) (R := fun c c' => Undisturbed c → Undisturbed c') (p := fun e => e.pushes = none)
      (fun _ h => h) (fun _ _ _ h1 h2 h => h2 (h1 h)) (fun _ _ _ hp he hi => undisturbed_step hp he hi)
      (published_eq_nil.1 hpub) h hi
    obtain ⟨w⟩ := ‹Nonempty W›
    exact hend.seen w (.inl (hx w))

end Consumers

/-- One worker leaves while the other has the only item, which then leaves on the timeout of its second pop. -/
def combinedRun : List (Ev Bool Bytes) :=
  [.llen false .main 1, .llen false .main 1, .pop false (some [97]), .llen true .main 0,
   .llen true .processing 1, .llen true .main 0, .llen true .processing 1, .setex false [97], .work false [97],
   .lrem false [97] 1, .del false [97], .llen false .main 0, .llen false .processing 0, .pop false none]

theorem consumers_budget_combinedRun : (combinedRun.filterMap Ev.who).length ≤ 7 * (1 + 0) + 5 * 2 := by
  obtain ⟨c, hc⟩ : ∃ c, (consumers ⟨id, fun _ => []⟩).run (consumersLaunch ⟨[[97]], [], fun _ => none⟩) combinedRun =
      some c := ⟨_, rfl⟩
  exact consumers_budget _ hc

theorem consumers_total_combinedRun : ∃ c,
    (consumers ⟨id, fun _ => []⟩).run (consumersLaunch ⟨[[97]], [], fun _ => none⟩) combinedRun = some c ∧
      c.srv.processing = [] ∧ [[97]].Perm (c.srv.main ++ (worked combinedRun).map Prod.snd) ∧ c.srv.main = [] := by
  obtain ⟨c, hc, hx⟩ : ∃ c, (consumers ⟨id, fun _ => []⟩).run (consumersLaunch ⟨[[97]], [], fun _ => none⟩)
      combinedRun = some c ∧ ∀ w, (c.loc w).pc = .exited := ⟨_, rfl, by decide⟩
  have hpay : ∀ v ∈ [[97]] ++ published combinedRun, CPayload bufferSize v := by
    intro v hv
    obtain rfl : v = [97] := by simpa [published, combinedRun, Ev.pushes] using hv
    exact ⟨by decide, by decide, by decide, by decide⟩
  obtain ⟨hp, hperm, hm⟩ := (consumers_total _ hpay (by decide) hc).2 hx
  exact ⟨c, hc, hp, hperm, hm rfl⟩

end RedisQueue
