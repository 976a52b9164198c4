import RedisQueue.Events
import RedisQueue.Worker

/-!
# The `sub` process as an automaton

A worker process is at one of finitely many kinds of points between two steps: `PC`.
`PC.code` is the rest of the program of `daemon.py` at that point, and
`program_of_move`, `move_of_program`, `raise_iff` say that the automaton takes exactly the
steps the program takes, one Redis command (or local step) at a time. `daemon` puts any number of
such processes, publishers and a Redis server together.

| here | there |
| --- | --- |
| `PC.probe false _` | `rds.empty()` in the report before the loop (`daemon.py:33`) |
| `PC.probe true _` | `rds.empty()` in `while not rds.empty()` (`:34`) |
| `PC.pop`, `PC.setex` | in `rds.lease(lease_dur=5, blocking=True, timeout=2)` (`:35`) |
| `PC.item` | `if item is not None:` (`:36`), the decoding and the work |
| `PC.lrem`, `PC.del` | in `rds.complete(value=item)` (`:42`) |
-/
namespace RedisQueue
open Program Interleave

variable {W K : Type}

inductive PC where
  | probe (guard : Bool) (q : QType)
  | pop
  | setex (v : Bytes)
  | item (v : Bytes)
  | lrem (v : Bytes)
  | del (v : Bytes)
  | exited
deriving DecidableEq

@[ext] structure Worker where
  pc : PC
  alive : Bool
deriving DecidableEq

/-- Where `empty()` leads: the report goes on to the loop, the loop's own call decides. -/
def afterEmpty (guard empty : Bool) : PC :=
  if guard then if empty then .exited else .pop else .probe true .main

/-- The worker's half of an event. -/
def Worker.move : Worker → Ev W K → Option Worker
  | ⟨.probe g .main, true⟩, .llen _ .main n =>
    some ⟨if n = 0 then .probe g .processing else afterEmpty g false, true⟩
  | ⟨.probe g .processing, true⟩, .llen _ .processing n => some ⟨afterEmpty g (n = 0), true⟩
  | ⟨.pop, true⟩, .pop _ none => some ⟨.probe true .main, true⟩
  | ⟨.pop, true⟩, .pop _ (some v) => some ⟨if v = [] then .item v else .setex v, true⟩
  | ⟨.setex v, true⟩, .setex _ x => if x = v then some ⟨.item v, true⟩ else none
  | ⟨.item v, true⟩, .work _ x => if x = v ∧ decode v ≠ none then some ⟨.lrem v, true⟩ else none
  | ⟨.item v, true⟩, .raise _ x => if x = v ∧ decode v = none then some ⟨.item v, false⟩ else none
  | ⟨.lrem v, true⟩, .lrem _ x _ => if x = v then some ⟨.del v, true⟩ else none
  | ⟨.del v, true⟩, .del _ x => if x = v then some ⟨.probe true .main, true⟩ else none
  | ⟨pc, true⟩, .crash _ => if pc = .exited then none else some ⟨pc, false⟩
  | _, _ => none

/-- The steps of `Worker.move`, case by case. -/
inductive Worker.Step : Worker → Ev W K → Worker → Prop where
  | probeMain (g w n) : Step ⟨.probe g .main, true⟩ (.llen w .main n)
      ⟨if n = 0 then .probe g .processing else afterEmpty g false, true⟩
  | probeProcessing (g w n) : Step ⟨.probe g .processing, true⟩ (.llen w .processing n)
      ⟨afterEmpty g (n = 0), true⟩
  | timeout (w) : Step ⟨.pop, true⟩ (.pop w none) ⟨.probe true .main, true⟩
  | pop (w v) : Step ⟨.pop, true⟩ (.pop w (some v)) ⟨if v = [] then .item v else .setex v, true⟩
  | setex (w v) : Step ⟨.setex v, true⟩ (.setex w v) ⟨.item v, true⟩
  | work (w v) (hd : decode v ≠ none) : Step ⟨.item v, true⟩ (.work w v) ⟨.lrem v, true⟩
  | raise (w v) (hd : decode v = none) : Step ⟨.item v, true⟩ (.raise w v) ⟨.item v, false⟩
  | lrem (w v n) : Step ⟨.lrem v, true⟩ (.lrem w v n) ⟨.del v, true⟩
  | del (w v) : Step ⟨.del v, true⟩ (.del w v) ⟨.probe true .main, true⟩
  | crash (w pc) (hx : pc ≠ .exited) : Step ⟨pc, true⟩ (.crash w) ⟨pc, false⟩

theorem move_iff {l l' : Worker} {e : Ev W K} : l.move e = some l' ↔ Worker.Step l e l' := by
  constructor
  · intro h
    unfold Worker.move at h
    split at h
    · cases h; exact .probeMain _ _ _
    · cases h; exact .probeProcessing _ _ _
    · cases h; exact .timeout _
    · cases h; exact .pop _ _
    · split at h <;> cases h
      rename_i hx; subst hx; exact .setex _ _
    · split at h <;> cases h
      rename_i hx; obtain ⟨rfl, hd⟩ := hx; exact .work _ _ hd
    · split at h <;> cases h
      rename_i hx; obtain ⟨rfl, hd⟩ := hx; exact .raise _ _ hd
    · split at h <;> cases h
      rename_i hx; subst hx; exact .lrem _ _ _
    · split at h <;> cases h
      rename_i hx; subst hx; exact .del _ _
    · split at h <;> cases h
      rename_i hx; exact .crash _ _ hx
    · cases h
  · intro h
    cases h <;> simp_all [Worker.move]

section Inversion
variable {l l' : Worker} {w : W} {v : Bytes} {n : Nat}

@[simp] theorem step_pop_some : Worker.Step (K := K) l (.pop w (some v)) l' ↔
    l = ⟨.pop, true⟩ ∧ l' = ⟨if v = [] then .item v else .setex v, true⟩ :=
  ⟨fun h => by cases h; exact ⟨rfl, rfl⟩, by rintro ⟨rfl, rfl⟩; exact .pop w v⟩

@[simp] theorem step_setex : Worker.Step (K := K) l (.setex w v) l' ↔
    l = ⟨.setex v, true⟩ ∧ l' = ⟨.item v, true⟩ :=
  ⟨fun h => by cases h; exact ⟨rfl, rfl⟩, by rintro ⟨rfl, rfl⟩; exact .setex w v⟩

@[simp] theorem step_lrem : Worker.Step (K := K) l (.lrem w v n) l' ↔
    l = ⟨.lrem v, true⟩ ∧ l' = ⟨.del v, true⟩ :=
  ⟨fun h => by cases h; exact ⟨rfl, rfl⟩, by rintro ⟨rfl, rfl⟩; exact .lrem w v n⟩

end Inversion

/-- The way to the `LREM` of `v` is through the work on `v`. -/
theorem move_to_lrem {l l' : Worker} {e : Ev W K} {v : Bytes} (h : l.move e = some l')
    (hpc : l'.pc = .lrem v) : l.pc = .lrem v ∨ ∃ w, e = .work w v := by
  cases move_iff.1 h with
  | probeMain g w n =>
    dsimp only at hpc
    split at hpc
    · cases hpc
    · cases g <;> cases hpc
  | probeProcessing g w n =>
    dsimp only [afterEmpty] at hpc
    split at hpc
    · split at hpc <;> cases hpc
    · cases hpc
  | pop w u =>
    dsimp only at hpc
    split at hpc <;> cases hpc
  | work w u hd => cases hpc; exact .inr ⟨w, rfl⟩
  | crash w pc hx => exact .inl hpc
  | timeout => cases hpc
  | setex => cases hpc
  | raise => cases hpc
  | lrem => cases hpc
  | del => cases hpc

/-! ## The automaton is the program -/

section Code
variable (q : RedisSubscriber K)

/-- The rest of the program from a point on; `again` goes back to the top of the loop. -/
def PC.code : PC → Run K Ctl
  | .probe false .main => RedisSubscriber.report
  | .probe false .processing => do
    let _ ← processingQueueSize
    return .again
  | .probe true .main => q.subTurn
  | .probe true .processing => do
    let processing ← processingQueueSize
    if decide (processing = 0) then return .leave
    else
      let item ← q.lease 5 true (some 2)
      q.workOn item
  | .pop => do
    let item ← q.lease 5 true (some 2)
    q.workOn item
  | .setex v => do
    redis (.setex (q.itemKey v) 5 q.session)
    q.workOn (some v)
  | .item v => q.workOn (some v)
  | .lrem v => do
    q.complete v
    return .again
  | .del v => do
    let _ ← redis (.delete (q.itemKey v))
    return .again
  | .exited => return .leave

/-- A worker whose remaining program is `p`. -/
inductive Resumes : Run K Ctl → Worker → Prop where
  | at (pc : PC) : Resumes (pc.code q) ⟨pc, true⟩
  | again : Resumes (.ret .again) ⟨.probe true .main, true⟩
  | leave : Resumes (.ret .leave) ⟨.exited, true⟩

end Code

def Params.subscriber (P : Params W K) (w : W) : RedisSubscriber K := ⟨P.session w, P.itemKey⟩

/-- The command an event of a worker executes, with its reply. -/
inductive Issues (P : Params W K) : Ev W K → W → (c : Cmd K) → c.Reply → Prop where
  | llen (w q n) : Issues P (.llen w q n) w (.llen q) n
  | pop (w r) : Issues P (.pop w r) w (.brpoplpush 2) r
  | setex (w v) : Issues P (.setex w v) w (.setex (P.itemKey v) 5 (P.session w)) ()
  | work (w v item) (hd : decode v = some item) : Issues P (.work w v) w (.work item) ()
  | lrem (w v n) : Issues P (.lrem w v n) w (.lrem 0 v) n
  | del (w v n) : Issues P (.del w v) w (.delete (P.itemKey v)) n

/-- What an event does to the queue is what its command does. -/
theorem serve_of_handle [DecidableEq K] {P : Params W K} {s s' : Server K} {e : Ev W K} {w : W}
    {c : Cmd K} {r : c.Reply} (he : Issues P e w c r) (hr : s.handle c = .reply r s') :
    serve P s e = some s' := by
  cases he with
  | llen _ q n => cases hr; simp
  | pop _ r =>
    simp only [Server.handle] at hr
    rcases List.eq_nil_or_concat s.main with hm | ⟨l, x, hm⟩
    · rw [rpoplpush_nil hm] at hr; cases hr; simp [hm]
    · rw [List.concat_eq_append] at hm
      rw [rpoplpush_snoc hm] at hr; cases hr; simp [hm]
  | setex _ v => cases hr; rfl
  | work _ v item hd => cases hr; rfl
  | lrem _ v n =>
    cases hr
    exact serve_lrem.2 ⟨(length_lrem_zero s v).symm, rfl⟩
  | del _ v n => cases hr; rfl

theorem handle_of_serve [DecidableEq K] {P : Params W K} {s s' : Server K} {e : Ev W K} {w : W}
    {c : Cmd K} {r : c.Reply} (he : Issues P e w c r) (hs : serve P s e = some s') :
    ∃ r', Issues P e w c r' ∧ s.handle c = .reply r' s' := by
  cases he with
  | llen _ q n =>
    obtain ⟨hn, rfl⟩ := serve_llen.1 hs
    exact ⟨n, .llen w q n, by rw [← hn]; rfl⟩
  | pop _ r =>
    refine ⟨r, .pop w r, ?_⟩
    cases r with
    | none =>
      obtain ⟨hm, rfl⟩ := serve_pop_none.1 hs
      simp [Server.handle, rpoplpush_nil hm]
    | some v =>
      obtain ⟨l, hm, rfl⟩ := serve_pop_some.1 hs
      simp [Server.handle, rpoplpush_snoc hm]
  | setex _ v => cases hs; exact ⟨(), .setex w v, rfl⟩
  | work _ v item hd => cases hs; exact ⟨(), .work w v item hd, rfl⟩
  | lrem _ v n =>
    obtain ⟨hn, rfl⟩ := serve_lrem.1 hs
    refine ⟨n, .lrem w v n, ?_⟩
    simp only [Server.handle, length_lrem_zero, hn]
  | del _ v n =>
    cases hs
    exact ⟨_, .del w v (if (s.leases (P.itemKey v)).isSome then 1 else 0), rfl⟩

/-- Every step of the automaton but a crash or a decoding error issues the next command of
the program and goes where the program goes with the reply. -/
theorem program_of_move {P : Params W K} {w : W} {l l' : Worker} {e : Ev W K} {c : Cmd K} {r : c.Reply}
    (he : Issues P e w c r) (h : l.move e = some l') :
    ∃ k, l.pc.code (P.subscriber w) = .call c k ∧ Resumes (P.subscriber w) (k r) l' := by
  cases he with
  | llen _ q n =>
    cases move_iff.1 h with
    | probeMain g =>
      cases g with
      | false =>
        refine ⟨_, rfl, ?_⟩
        cases n with
        | zero => exact .at (.probe false .processing)
        | succ n => exact .again
      | true =>
        refine ⟨_, rfl, ?_⟩
        cases n with
        | zero => exact .at (.probe true .processing)
        | succ n => exact .at .pop
    | probeProcessing g =>
      cases g with
      | false => exact ⟨_, rfl, .again⟩
      | true =>
        refine ⟨_, rfl, ?_⟩
        cases n with
        | zero => exact .leave
        | succ n => exact .at .pop
  | pop _ r =>
    cases move_iff.1 h with
    | timeout => exact ⟨_, rfl, .again⟩
    | pop _ v =>
      refine ⟨_, rfl, ?_⟩
      cases v with
      | nil => exact .at (.item [])
      | cons b v => exact .at (.setex (b :: v))
  | setex _ v =>
    cases move_iff.1 h with
    | setex => exact ⟨_, rfl, .at (.item v)⟩
  | work _ v item hd =>
    cases move_iff.1 h with
    | work =>
      exact ⟨_, by simp only [PC.code, RedisSubscriber.workOn, hd]; rfl, .at (.lrem v)⟩
  | lrem _ v n =>
    cases move_iff.1 h with
    | lrem => exact ⟨_, rfl, .at (.del v)⟩
  | del _ v n =>
    cases move_iff.1 h with
    | del => exact ⟨_, rfl, .again⟩

/-- Whatever the program of a live worker does next, the automaton does. -/
theorem move_of_program {P : Params W K} {w : W} {pc : PC} {c : Cmd K} {k : c.Reply → Run K Ctl}
    (hc : pc.code (P.subscriber w) = .call c k) (r : c.Reply) :
    ∃ e l', Issues P e w c r ∧ Worker.move ⟨pc, true⟩ e = some l' := by
  cases pc with
  | probe g q =>
    cases q with
    | main =>
      have hc' : c = .llen .main := by cases g <;> (cases hc; rfl)
      subst hc'
      exact ⟨_, _, .llen w .main r, move_iff.2 (.probeMain g w r)⟩
    | processing =>
      have hc' : c = .llen .processing := by cases g <;> (cases hc; rfl)
      subst hc'
      exact ⟨_, _, .llen w .processing r, move_iff.2 (.probeProcessing g w r)⟩
  | pop =>
    cases hc
    cases r with
    | none => exact ⟨_, _, .pop w none, move_iff.2 (.timeout w)⟩
    | some v => exact ⟨_, _, .pop w (some v), move_iff.2 (.pop w v)⟩
  | setex v => cases hc; exact ⟨_, _, .setex w v, move_iff.2 (.setex w v)⟩
  | item v =>
    simp only [PC.code, RedisSubscriber.workOn] at hc
    cases hd : decode v with
    | none => rw [hd] at hc; cases hc
    | some item =>
      rw [hd] at hc
      cases hc
      exact ⟨_, _, .work w v item hd, move_iff.2 (.work w v (by simp [hd]))⟩
  | lrem v => cases hc; exact ⟨_, _, .lrem w v r, move_iff.2 (.lrem w v r)⟩
  | del v => cases hc; exact ⟨_, _, .del w v r, move_iff.2 (.del w v)⟩
  | exited => cases hc

/-- The program raises at an item that cannot be decoded, and the automaton does so there. -/
theorem raise_iff {P : Params W K} {w : W} {pc : PC} : (∃ m, pc.code (P.subscriber w) = .raise m) ↔
    ∃ v, Worker.Step (K := K) ⟨pc, true⟩ (.raise w v) ⟨pc, false⟩ := by
  constructor
  · rintro ⟨m, hm⟩
    cases pc with
    | probe g q => cases g <;> cases q <;> cases hm
    | item v =>
      cases hd : decode v with
      | none => exact ⟨v, .raise w v hd⟩
      | some item => simp only [PC.code, RedisSubscriber.workOn, hd] at hm; cases hm
    | _ => cases hm
  · rintro ⟨v, h⟩
    cases h with
    | raise _ _ hd => exact ⟨"UnicodeDecodeError", by simp only [PC.code, RedisSubscriber.workOn, hd]⟩

/-! ## Publishers, workers and Redis together -/

def daemon [DecidableEq K] (P : Params W K) : System W (Ev W K) (Server K) Worker where
  who := Ev.who
  serve := serve P
  move := Worker.move

section Exec
variable [DecidableEq W] [DecidableEq K] {P : Params W K} {c c' : Config W (Server K) Worker} {w : W}
  {e : Ev W K} {v : Bytes}

theorem step_of_exec (hw : e.who = some w) (he : (daemon P).exec c e = some c') :
    Worker.Step (c.loc w) e (c'.loc w) :=
  move_iff.1 (exec_move (daemon P) hw he)

theorem exec_step {s : Server K} {l l' : Worker} (hl : c.loc w = l) (hw : e.who = some w)
    (hs : serve P c.srv e = some s) (hm : Worker.Step l e l') :
    (daemon P).exec c e = some ⟨s, Function.update c.loc w l'⟩ :=
  (exec_client (daemon P) hw).2 ⟨hs, l', move_iff.2 (hl ▸ hm), rfl⟩

theorem exec_pop {main : List Bytes} (hl : c.loc w = ⟨.pop, true⟩) (hm : c.srv.main = main ++ [v]) :
    (daemon P).exec c (.pop w (some v)) =
      some ⟨{ c.srv with main := main, processing := v :: c.srv.processing },
        Function.update c.loc w ⟨if v = [] then .item v else .setex v, true⟩⟩ :=
  exec_step hl rfl (serve_pop_some.2 ⟨main, hm, rfl⟩) (.pop w v)

end Exec

/-- Every worker at its first command, the queue in state `s`. -/
def launch (s : Server K) : Config W (Server K) Worker := ⟨s, fun _ => ⟨.probe false .main, true⟩⟩

/-- Initially empty queue, no lease key. -/
def start : Config W (Server K) Worker := launch .empty

end RedisQueue
