import RedisQueue.CWorkers

/-!
# What the combined hiredis worker makes of a reply

`c-hiredis-combined` squeezes the reply to its pop through a ten-byte C string, with `END`
for no item.

| here | there |
| --- | --- |
| `Combined.rpoplpush`, `.lease` | `c-hiredis-combined/src/rqueue.cpp:72-88`, `:128-132` |
| `Combined.iteration` | the body of its loop (`consumer.cpp:16-29`), after `empty()` has answered false |

Where nothing fails and the items fit, the operations are those of `Hiredis.lean`
(`lease_online`, `empty_online`, `complete_online`). For each kind of reply, `faithful_iff`
says whether it is handed over as what it is.
-/
namespace RedisQueue
open Program

variable {K : Type}

namespace Hiredis

namespace Combined
variable (keyFor : Bytes → K)

/-- The size of the block the caller allocates. -/
def bufferSize : Nat := 10

/-- Not only nil and the missing reply end up as `END`, and not only items as something else. -/
def rpoplpush (blocking : Bool) (timeout : UInt8) : Code K Bytes := do
  let repl ← if blocking then redisCommand (.brpoplpush timeout.toNat) else redisCommand .rpoplpush
  match repl.bind Util.RedisReply.str with
  | some str => strcpy bufferSize str
  | none => strcpy bufferSize Util.END

def lease (duration timeout : UInt8) (blocking : Bool) : Code K Bytes := do
  let item ← rpoplpush blocking timeout
  if item ≠ Util.END then
    setex keyFor item duration
    return item
  else
    return item

def iteration : Code K Ctl := do
  let item ← lease keyFor 5 2 true
  if item ≠ [] ∧ item ≠ Util.END then
    act (.work item)
    complete keyFor item
    return .again
  else
    return .leave

end Combined

/-! ## Reply by reply -/

section Combined
variable [DecidableEq K] (keyFor : Bytes → K) {s : Server K} {f : Fault}

theorem run_setex (item : Bytes) : (setex keyFor item 5).run Link.handle ⟨s, true, f⟩ =
    ⟨[⟨.send (.setex (keyFor item) 5 item), some ⟨0, some [79, 75]⟩⟩],
      ⟨s.setex (keyFor item) item, true, f⟩, .ret ()⟩ := by
  have hok : Util.cstr [79, 75] = [79, 75] := rfl
  simp [setex, redisCommand, Prog.run, hok]

theorem run_complete (item : Bytes) : (complete keyFor item).run Link.handle ⟨s, true, f⟩ =
    ⟨[⟨.send (.lrem 0 item), some ⟨s.processing.length - (s.lrem 0 item).processing.length, none⟩⟩,
      ⟨.send (.delete (keyFor item)), some ⟨if (s.leases (keyFor item)).isSome then 1 else 0, none⟩⟩],
      ⟨(s.lrem 0 item).delete (keyFor item), true, f⟩, .ret ()⟩ := by
  simp [complete, lrem, del, redisCommand, Prog.run, Server.lrem]

section Reply
variable {s' : Server K} {n : Nat} {str : Bytes}

/-- Whatever string arrives, a moved element or an error text, is leased, unless it reads `END`. -/
theorem run_lease_str
    (hpop : (⟨s, true, f⟩ : Link K).handle (.send (.brpoplpush 2)) = .reply (some ⟨n, some str⟩) ⟨s', true, f⟩) :
    (Combined.lease keyFor 5 2 true).run Link.handle ⟨s, true, f⟩ =
      if Util.cstr str = Util.END then ⟨[⟨.send (.brpoplpush 2), some ⟨n, some str⟩⟩,
        ⟨.strcpy Combined.bufferSize str, ()⟩], ⟨s', true, f⟩, .ret Util.END⟩
      else ⟨[⟨.send (.brpoplpush 2), some ⟨n, some str⟩⟩, ⟨.strcpy Combined.bufferSize str, ()⟩,
        ⟨.send (.setex (keyFor (Util.cstr str)) 5 (Util.cstr str)), some ⟨0, some [79, 75]⟩⟩],
        ⟨s'.setex (keyFor (Util.cstr str)) (Util.cstr str), true, f⟩, .ret (Util.cstr str)⟩ := by
  by_cases he : Util.cstr str = Util.END <;>
    simp [Combined.lease, Combined.rpoplpush, redisCommand, Prog.run, hpop, strcpy, he, run_bind, run_setex]

/-- What the iteration does when a string arrives. -/
theorem iteration_of_str
    (hpop : (⟨s, true, f⟩ : Link K).handle (.send (.brpoplpush 2)) = .reply (some ⟨n, some str⟩) ⟨s', true, f⟩) :
    workedBytes ((Combined.iteration keyFor).run Link.handle ⟨s, true, f⟩).log =
      (if Util.cstr str = [] ∨ Util.cstr str = Util.END then [] else [Util.cstr str]) ∧
    (InBounds ((Combined.iteration keyFor).run Link.handle ⟨s, true, f⟩).log ↔
      (Util.cstr str).length < Combined.bufferSize) ∧
    ((Combined.iteration keyFor).run Link.handle ⟨s, true, f⟩).srv.srv =
      if Util.cstr str = Util.END then s'
      else if Util.cstr str = [] then s'.setex (keyFor []) []
      else ((s'.setex (keyFor (Util.cstr str)) (Util.cstr str)).lrem 0 (Util.cstr str)).delete
        (keyFor (Util.cstr str)) := by
  have hend : ([] : Bytes) ≠ Util.END := by decide
  by_cases he : Util.cstr str = Util.END
  · simp [Combined.iteration, run_bind, run_lease_str keyFor hpop, he, workedBytes, InBounds]
  · by_cases h0 : Util.cstr str = []
    · simp [Combined.iteration, run_bind, run_lease_str keyFor hpop, h0, hend, workedBytes, InBounds]
    · simp [Combined.iteration, run_bind, run_lease_str keyFor hpop, he, h0, Prog.run, run_complete,
        workedBytes, InBounds]

/-- Only the pop touches the main list. -/
theorem main_of_str
    (hpop : (⟨s, true, f⟩ : Link K).handle (.send (.brpoplpush 2)) = .reply (some ⟨n, some str⟩) ⟨s', true, f⟩) :
    ((Combined.iteration keyFor).run Link.handle ⟨s, true, f⟩).srv.srv.main = s'.main := by
  rw [(iteration_of_str keyFor hpop).2.2]
  by_cases he : Util.cstr str = Util.END
  · rw [if_pos he]
  · rw [if_neg he]
    by_cases h0 : Util.cstr str = []
    · rw [if_pos h0]; rfl
    · rw [if_neg h0]; rfl

/-- Without a string the buffer holds `END`, and the loop ends. -/
theorem iteration_of_none {k : Link K} {repl : Option Util.RedisReply}
    (hpop : (⟨s, true, f⟩ : Link K).handle (.send (.brpoplpush 2)) = .reply repl k)
    (hstr : repl.bind Util.RedisReply.str = none) :
    workedBytes ((Combined.iteration keyFor).run Link.handle ⟨s, true, f⟩).log = [] ∧
    InBounds ((Combined.iteration keyFor).run Link.handle ⟨s, true, f⟩).log ∧
    ((Combined.iteration keyFor).run Link.handle ⟨s, true, f⟩).srv = k := by
  have hend : Util.cstr Util.END = Util.END := rfl
  have hlen : Util.END.length < Combined.bufferSize := by decide
  simp [Combined.iteration, Combined.lease, Combined.rpoplpush, redisCommand, Prog.run, hpop, hstr, strcpy,
    hend, workedBytes, InBounds, hlen]

end Reply

/-- **Where nothing fails and the item fits**, `lease` is that of `Hiredis.lean`. -/
theorem lease_online (q : Util.Queue K) (hcap : q.cap = Combined.bufferSize) (s : Server K)
    (hfits : ∀ v, s.main.getLast? = some v → (Util.cstr v).length < Combined.bufferSize) :
    ((Combined.lease q.keyFor 5 2 true).run Link.handle (online s)).out =
      ((q.lease 5 2 true).run Server.handle s).out ∧
    ((Combined.lease q.keyFor 5 2 true).run Link.handle (online s)).srv =
      online ((q.lease 5 2 true).run Server.handle s).srv := by
  have hend : Util.cstr Util.END = Util.END := rfl
  have hlen : Util.END.length < Combined.bufferSize := by decide
  rcases List.eq_nil_or_concat' s.main with hm | ⟨l, v, hm⟩
  · simp [Combined.lease, Combined.rpoplpush, redisCommand, strcpy, Prog.run, handle_pop_nil hm, hend,
      Util.Queue.lease, Util.Queue.rpoplpush, Util.redisCommand, Server.handle, rpoplpush_nil hm,
      Util.redisReply, Util.strcpy, hcap, hlen]
  · have hv := hfits v (by simp [hm])
    have hidem : Util.cstr (Util.cstr v) = Util.cstr v := List.takeWhile_idem
    rw [run_lease_str q.keyFor (handle_pop_snoc hm)]
    by_cases he : Util.cstr v = Util.END <;>
      simp [Util.Queue.lease, Util.Queue.rpoplpush, Util.Queue.setex, Util.redisCommand, Prog.run,
        Server.handle, rpoplpush_snoc hm, Util.redisReply, Util.strcpy, hcap, hv, hlen, he, hidem]

theorem empty_online (s : Server K) :
    (empty.run Link.handle (online s)).out = (Util.Queue.empty.run Server.handle s).out ∧
    (empty.run Link.handle (online s)).srv = online (Util.Queue.empty.run Server.handle s).srv := by
  by_cases hm : s.main = [] <;>
    simp [run_empty, Util.Queue.empty, Util.Queue.llen, Util.redisCommand, Util.redisReply, Prog.run,
      Server.handle, Server.queue, hm]

theorem complete_online (q : Util.Queue K) (s : Server K) {item : Bytes} (h0 : (0 : UInt8) ∉ item) :
    ((complete q.keyFor item).run Link.handle (online s)).out = ((q.complete item).run Server.handle s).out ∧
    ((complete q.keyFor item).run Link.handle (online s)).srv =
      online ((q.complete item).run Server.handle s).srv := by
  rw [run_complete]
  simp [Util.Queue.complete, Util.Queue.lrem, Util.Queue.del, Util.redisCommand, Prog.run, Server.handle,
    cstr_of_nulFree h0]

/-- The iteration hands over faithfully what the pop gives. -/
structure Faithful (s : Server K) (f : Fault) : Prop where
  /-- It works on exactly what the server moved out of the main list. -/
  worked : ∀ item, item ∈ workedBytes ((Combined.iteration keyFor).run Link.handle ⟨s, true, f⟩).log ↔
    s.main = ((Combined.iteration keyFor).run Link.handle ⟨s, true, f⟩).srv.srv.main ++ [item]
  once : (workedBytes ((Combined.iteration keyFor).run Link.handle ⟨s, true, f⟩).log).length ≤ 1
  inBounds : InBounds ((Combined.iteration keyFor).run Link.handle ⟨s, true, f⟩).log
  gone : ∀ v, s.main = ((Combined.iteration keyFor).run Link.handle ⟨s, true, f⟩).srv.srv.main ++ [v] →
    v ∉ ((Combined.iteration keyFor).run Link.handle ⟨s, true, f⟩).srv.srv.processing ∧
    ((Combined.iteration keyFor).run Link.handle ⟨s, true, f⟩).srv.srv.leases (keyFor v) = none

/-- When a reply does no harm. -/
def Fault.Harmless (main : List Bytes) : Fault → Prop
  | .none => ∀ v, main.getLast? = some v → CPayload Combined.bufferSize v
  | .unsent => True
  | .unanswered => main = []
  | .error msg => Util.cstr msg = [] ∨ Util.cstr msg = Util.END

/-- Nothing moved and nothing worked on is faithful. -/
theorem faithful_of_idle
    (hw : workedBytes ((Combined.iteration keyFor).run Link.handle ⟨s, true, f⟩).log = [])
    (hb : InBounds ((Combined.iteration keyFor).run Link.handle ⟨s, true, f⟩).log)
    (hm : ((Combined.iteration keyFor).run Link.handle ⟨s, true, f⟩).srv.srv.main = s.main) :
    Faithful keyFor s f := by
  have hne (v : Bytes) : s.main ≠ s.main ++ [v] := by simp
  refine ⟨fun item => ?_, by simp [hw], hb, fun v hv => ?_⟩
  · rw [hw, hm]
    exact ⟨fun h => absurd h List.not_mem_nil, fun h => absurd h (hne item)⟩
  · rw [hm] at hv
    exact absurd hv (hne v)

theorem cstr_eq_self {v : Bytes} : Util.cstr v = v ↔ (0 : UInt8) ∉ v := by
  refine ⟨fun h h0 => ?_, cstr_of_nulFree⟩
  have hall := List.takeWhile_eq_self_iff.1 h
  simpa using hall 0 h0

/-- A moved element is handed over faithfully exactly if the buffer can hold it and it reads
neither empty nor `END`. -/
theorem faithful_moved_iff {l : List Bytes} {v : Bytes} (hm : s.main = l ++ [v]) :
    Faithful keyFor s .none ↔ CPayload Combined.bufferSize v := by
  obtain ⟨hw, hb, hs⟩ := iteration_of_str keyFor (handle_pop_snoc hm)
  have hmain := main_of_str keyFor (handle_pop_snoc hm)
  constructor
  · intro h
    have hmem := (h.worked v).2 (by rw [hmain]; exact hm)
    rw [hw] at hmem
    by_cases hc : Util.cstr v = [] ∨ Util.cstr v = Util.END
    · rw [if_pos hc] at hmem; cases hmem
    · rw [if_neg hc, List.mem_singleton] at hmem
      rw [← hmem, not_or] at hc
      have hlt := hb.1 h.inBounds
      rw [← hmem] at hlt
      exact ⟨hc.1, cstr_eq_self.1 hmem.symm, hlt, hc.2⟩
  · intro hv
    have hc := cstr_of_nulFree hv.nulFree
    rw [hc] at hw hb hs
    rw [if_neg (not_or.2 ⟨hv.nonempty, hv.notEnd⟩)] at hw
    rw [if_neg hv.notEnd, if_neg hv.nonempty] at hs
    have hlast (item : Bytes) : s.main = l ++ [item] ↔ item = v := by
      rw [hm]
      simp [eq_comm]
    refine ⟨fun item => ?_, by simp [hw], hb.2 hv.fits, fun u hu => ?_⟩
    · rw [hw, hmain, hlast, List.mem_singleton]
    · rw [hmain, hlast] at hu
      subst hu
      rw [hs]
      simp [Server.setex, Server.lrem, Server.delete]

/-- An error text is worked on, unless it reads empty or `END`. -/
theorem faithful_error_iff (msg : Bytes) :
    Faithful keyFor s (.error msg) ↔ Util.cstr msg = [] ∨ Util.cstr msg = Util.END := by
  obtain ⟨hw, hb, -⟩ := iteration_of_str keyFor (s := s) (f := .error msg) rfl
  have hmain := main_of_str keyFor (s := s) (f := .error msg) rfl
  constructor
  · intro h
    by_contra hc
    rw [if_neg hc] at hw
    have hmoved := (h.worked (Util.cstr msg)).1 (by simp [hw])
    rw [hmain] at hmoved
    simp at hmoved
  · intro hc
    rw [if_pos hc] at hw
    refine faithful_of_idle keyFor hw (hb.2 ?_) hmain
    rcases hc with hc | hc <;> rw [hc] <;> decide

/-- A lost reply is harmless exactly if it was nil. -/
theorem faithful_unanswered_iff : Faithful keyFor s .unanswered ↔ s.main = [] := by
  rcases List.eq_nil_or_concat' s.main with hm | ⟨l, v, hm⟩
  · have hpop : (⟨s, true, .unanswered⟩ : Link K).handle (.send (.brpoplpush 2)) =
        .reply none ⟨s, false, .unanswered⟩ := by
      simp [Link.handle, Link.sent, isPop, Link.answer, Server.handle, rpoplpush_nil hm]
    obtain ⟨hw, hb, hs⟩ := iteration_of_none keyFor hpop rfl
    exact iff_of_true (faithful_of_idle keyFor hw hb (by rw [hs])) hm
  · have hpop : (⟨s, true, .unanswered⟩ : Link K).handle (.send (.brpoplpush 2)) =
        .reply none ⟨⟨l, v :: s.processing, s.leases⟩, false, .unanswered⟩ := by
      simp [Link.handle, Link.sent, isPop, Link.answer, Server.handle, rpoplpush_snoc hm]
    obtain ⟨hw, -, hs⟩ := iteration_of_none keyFor hpop rfl
    refine iff_of_false (fun h => ?_) (by simp [hm])
    have hmem := (h.worked v).2 (by rw [hs]; exact hm)
    rw [hw] at hmem
    cases hmem

end Combined

/-- An item of ten bytes does not fit the buffer. -/
theorem hand_over_not_faithful : ¬ ∀ s f, Faithful (id : Bytes → Bytes) s f := by
  intro h
  have hv := (faithful_moved_iff (s := ⟨[List.replicate 10 97], [], fun _ => none⟩) (id : Bytes → Bytes)
    (List.nil_append _).symm).1 (h _ _)
  exact absurd hv.fits (by decide)

/-- **When the iteration hands over faithfully**: for each kind of reply. -/
theorem faithful_iff [DecidableEq K] (keyFor : Bytes → K) (s : Server K) (f : Fault) :
    Faithful keyFor s f ↔ f.Harmless s.main := by
  cases f with
  | none =>
    rcases List.eq_nil_or_concat' s.main with hm | ⟨l, v, hm⟩
    · obtain ⟨hw, hb, hs⟩ := iteration_of_none keyFor (handle_pop_nil hm) rfl
      exact iff_of_true (faithful_of_idle keyFor hw hb (by rw [hs])) (by simp [Fault.Harmless, hm])
    · rw [faithful_moved_iff keyFor hm]
      simp [Fault.Harmless, hm]
  | unsent =>
    have hpop : (⟨s, true, .unsent⟩ : Link K).handle (.send (.brpoplpush 2)) = .reply none ⟨s, false, .unsent⟩ := rfl
    obtain ⟨hw, hb, hs⟩ := iteration_of_none keyFor hpop rfl
    exact iff_of_true (faithful_of_idle keyFor hw hb (by rw [hs])) trivial
  | unanswered => exact faithful_unanswered_iff keyFor
  | error msg => exact faithful_error_iff keyFor msg

end Hiredis

end RedisQueue
