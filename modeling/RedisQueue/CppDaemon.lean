import RedisQueue.Job
import RedisQueue.Marker

/-!
# The C++ workers of the first Job

`gpu_workload_v1` runs `sub_daemon` of `cuda-redis-cpp` in several pods at once. Its loop is
`while (!sub.empty())`, and `empty()` answers true exactly when both lists have elements, so a
worker leaves because another one is working.

| here | there |
| --- | --- |
| `GuardDaemon.PC.probe false _` | `sub.empty()` before the loop (`sub_daemon.cpp:11`) |
| `GuardDaemon.PC.probe true _` | `sub.empty()` in the loop's condition (`:14`) |
| `GuardDaemon.PC.pop`, `.setex` | in `sub.lease()` (`:16`) |
| `GuardDaemon.PC.lrem`, `.del` | in `sub.complete(value)` (`:21`), after the item has been printed |

The workers share the queue as the Python workers do (`guard_accounted`). But they never all
leave: somebody has to be working for the last one to go (`guard_stays`, `guard_ends_iff`), and
once the main list is drained nobody goes at all (`guard_polls`).
-/
namespace RedisQueue
open Program Interleave

variable {W K : Type}

namespace GuardDaemon

inductive PC where
  | probe (guard : Bool) (q : QType)
  | pop
  | setex (v : Bytes)
  | lrem (v : Bytes)
  | del (v : Bytes)
  | exited
deriving DecidableEq

structure Worker where
  pc : PC
  alive : Bool
deriving DecidableEq

/-- Where `empty()` leads: the report goes on to the loop, the loop's own call decides. -/
def afterEmpty (guard empty : Bool) : PC :=
  if guard then if empty then .exited else .pop else .probe true .main

/-- The worker's half of an event. -/
def Worker.move : Worker → Ev W K → Option Worker
  | ⟨.probe g .main, true⟩, .llen _ .main n =>
    some ⟨if n ≠ 0 then .probe g .processing else afterEmpty g false, true⟩
  | ⟨.probe g .processing, true⟩, .llen _ .processing n => some ⟨afterEmpty g (n ≠ 0), true⟩
  | ⟨.pop, true⟩, .pop _ none => some ⟨.probe true .main, true⟩
  | ⟨.pop, true⟩, .pop _ (some v) => some ⟨.setex v, true⟩
  | ⟨.setex v, true⟩, .setex _ x => if x = v then some ⟨.lrem v, true⟩ else none
  | ⟨.lrem v, true⟩, .lrem _ x _ => if x = v then some ⟨.del v, true⟩ else none
  | ⟨.del v, true⟩, .del _ x => if x = v then some ⟨.probe true .main, true⟩ else none
  | ⟨pc, true⟩, .crash _ => if pc = .exited then none else some ⟨pc, false⟩
  | _, _ => none

/-- The steps of `Worker.move`, case by case. -/
inductive Worker.Step : Worker → Ev W K → Worker → Prop where
  | probeMain (g w n) : Step ⟨.probe g .main, true⟩ (.llen w .main n)
      ⟨if n ≠ 0 then .probe g .processing else afterEmpty g false, true⟩
  | probeProcessing (g w n) : Step ⟨.probe g .processing, true⟩ (.llen w .processing n)
      ⟨afterEmpty g (n ≠ 0), true⟩
  | timeout (w) : Step ⟨.pop, true⟩ (.pop w none) ⟨.probe true .main, true⟩
  | pop (w v) : Step ⟨.pop, true⟩ (.pop w (some v)) ⟨.setex v, true⟩
  | setex (w v) : Step ⟨.setex v, true⟩ (.setex w v) ⟨.lrem v, true⟩
  | lrem (w v n) : Step ⟨.lrem v, true⟩ (.lrem w v n) ⟨.del v, true⟩
  | del (w v) : Step ⟨.del v, true⟩ (.del w v) ⟨.probe true .main, true⟩
  | crash (w pc) (hx : pc ≠ .exited) : Step ⟨pc, true⟩ (.crash w) ⟨pc, false⟩

theorem move_iff {l l' : Worker} {e : Ev W K} : l.move e = some l' ↔ Worker.Step l e l' := by
  constructor
  · intro h
    unfold Worker.move at h
    split at h
    · cases h; exact .probeMain _ _ _
    · cases h; exact .probeProcessing _ _ _
    · cases h; exact .timeout _
    · cases h; exact .pop _ _
    · split at h <;> cases h
      rename_i hx; subst hx; exact .setex _ _
    · split at h <;> cases h
      rename_i hx; subst hx; exact .lrem _ _ _
    · split at h <;> cases h
      rename_i hx; subst hx; exact .del _ _
    · split at h <;> cases h
      rename_i hx; exact .crash _ _ hx
    · cases h
  · intro h
    cases h <;> simp_all [Worker.move]

/-! ## The automaton is the program -/

section Code
variable (q : Rds.Subscriber K)

/-- The rest of the program from a point on; `again` goes back to the top of the loop. -/
def PC.code : PC → Run K Ctl
  | .probe false .main => Rds.Subscriber.report
  | .probe false .processing => do
    let _ ← redis (.llen .processing)
    return .again
  | .probe true .main => q.subTurn
  | .probe true .processing => do
    let processing ← redis (.llen .processing)
    if decide (processing ≠ 0) then return .leave
    else
      match ← q.lease 5 2 true with
      | some value =>
        q.complete value
        return .again
      | none => return .again
  | .pop => do
    match ← q.lease 5 2 true with
    | some value =>
      q.complete value
      return .again
    | none => return .again
  | .setex v => do
    redis (.setex (q.keyFor v) 5 q.session)
    q.complete v
    return .again
  | .lrem v => do
    q.complete v
    return .again
  | .del v => do
    let _ ← redis (.delete (q.keyFor v))
    return .again
  | .exited => return .leave

/-- A worker whose remaining program is `p`. -/
inductive Resumes : Run K Ctl → Worker → Prop where
  | at (pc : PC) : Resumes (pc.code q) ⟨pc, true⟩
  | again : Resumes (.ret .again) ⟨.probe true .main, true⟩
  | leave : Resumes (.ret .leave) ⟨.exited, true⟩

end Code

open SubDaemon (subscriber)

variable {P : Params W K} {w : W}

/-- Every step of the automaton but a crash issues the next command of the program and goes
where the program goes with the reply. -/
theorem program_of_move {l l' : Worker} {e : Ev W K} {c : Cmd K} {r : c.Reply} (he : Issues P e w c r)
    (h : l.move e = some l') :
    ∃ k, l.pc.code (subscriber P w) = .call c k ∧ Resumes (subscriber P w) (k r) l' := by
  cases he with
  | llen _ q n =>
    cases move_iff.1 h with
    | probeMain g =>
      cases g with
      | false =>
        refine ⟨_, rfl, ?_⟩
        cases n with
        | zero => exact .again
        | succ n => exact .at (.probe false .processing)
      | true =>
        refine ⟨_, rfl, ?_⟩
        cases n with
        | zero => exact .at .pop
        | succ n => exact .at (.probe true .processing)
    | probeProcessing g =>
      cases g with
      | false => exact ⟨_, rfl, .again⟩
      | true =>
        refine ⟨_, rfl, ?_⟩
        cases n with
        | zero => exact .at .pop
        | succ n => exact .leave
  | pop _ r =>
    cases move_iff.1 h with
    | timeout => exact ⟨_, rfl, .again⟩
    | pop _ v => exact ⟨_, rfl, .at (.setex v)⟩
  | setex _ v =>
    cases move_iff.1 h with
    | setex => exact ⟨_, rfl, .at (.lrem v)⟩
  | work => cases move_iff.1 h
  | lrem _ v n =>
    cases move_iff.1 h with
    | lrem => exact ⟨_, rfl, .at (.del v)⟩
  | del _ v n =>
    cases move_iff.1 h with
    | del => exact ⟨_, rfl, .again⟩

/-- Whatever the program of a live worker does next, the automaton does. -/
theorem move_of_program {pc : PC} {c : Cmd K} {k : c.Reply → Run K Ctl}
    (hc : pc.code (subscriber P w) = .call c k) (r : c.Reply) :
    ∃ e l', Issues P e w c r ∧ Worker.move ⟨pc, true⟩ e = some l' := by
  cases pc with
  | probe g q =>
    cases q with
    | main =>
      have hc' : c = .llen .main := by cases g <;> (cases hc; rfl)
      subst hc'
      exact ⟨_, _, .llen w .main r, move_iff.2 (.probeMain g w r)⟩
    | processing =>
      have hc' : c = .llen .processing := by cases g <;> (cases hc; rfl)
      subst hc'
      exact ⟨_, _, .llen w .processing r, move_iff.2 (.probeProcessing g w r)⟩
  | pop =>
    cases hc
    cases r with
    | none => exact ⟨_, _, .pop w none, move_iff.2 (.timeout w)⟩
    | some v => exact ⟨_, _, .pop w (some v), move_iff.2 (.pop w v)⟩
  | setex v => cases hc; exact ⟨_, _, .setex w v, move_iff.2 (.setex w v)⟩
  | lrem v => cases hc; exact ⟨_, _, .lrem w v r, move_iff.2 (.lrem w v r)⟩
  | del v => cases hc; exact ⟨_, _, .del w v r, move_iff.2 (.del w v)⟩
  | exited => cases hc

/-! ## The worker is a client -/

def PC.mode : PC → Mode
  | .setex v => .leasing v
  | .del v => .completing v
  | _ => .idle

def PC.held : PC → List Bytes
  | .lrem v => [v]
  | _ => []

def Worker.toClient (l : Worker) : Client := ⟨l.pc.mode, l.pc.held, l.alive⟩

/-- The item a worker has popped and not yet removed. -/
def PC.hands : PC → List Bytes
  | .setex v | .lrem v => [v]
  | _ => []

@[simp] theorem afterEmpty_mode (g b : Bool) : (afterEmpty g b).mode = .idle := by cases g <;> cases b <;> rfl

@[simp] theorem afterEmpty_held (g b : Bool) : (afterEmpty g b).held = [] := by cases g <;> cases b <;> rfl

theorem clientLike : ClientLike (W := W) (K := K) Worker.move Worker.toClient where
  move l e l' h hne := by
    refine client_move_iff.2 ?_
    cases move_iff.1 h with
    | probeMain g w n =>
      by_cases hn : n ≠ 0
      · simp only [Worker.toClient, if_pos hn]; exact .llen _ _ _ _
      · simp only [Worker.toClient, if_neg hn, afterEmpty_mode, afterEmpty_held]; exact .llen _ _ _ _
    | probeProcessing g w n =>
      simp only [Worker.toClient, afterEmpty_mode, afterEmpty_held]
      exact .llen _ _ _ _
    | timeout w => exact .timeout _ _
    | pop w v => exact .pop _ _ _ fun h0 => hne w (by rw [h0])
    | setex w v => exact .setex _ _ _
    | lrem w v n =>
      have hlrem := Client.Step.lrem (K := K) [v] w v n (List.mem_singleton_self v)
      rw [List.erase_cons_head] at hlrem
      exact hlrem
    | del w v => exact .del _ _ _
    | crash w pc hx => exact .crash _ _ _

theorem holds : Holds (W := W) (K := K) (fun _ => True) Worker.move fun l => l.pc.hands where
  pop l w v l' _ h := by
    cases move_iff.1 h with
    | pop => exact List.mem_singleton_self v
  keep l e l' u h hu := by
    cases move_iff.1 h with
    | setex w v => exact .inl hu
    | lrem w v n =>
      obtain rfl := List.mem_singleton.1 hu
      exact .inr ⟨w, n, rfl⟩
    | crash w pc hx => exact .inl hu
    | probeMain g => cases hu
    | probeProcessing g => cases hu
    | timeout => cases hu
    | pop => cases hu
    | del => cases hu

/-- A worker leaves on reading that something is being processed. -/
theorem leave_of_move {l l' : Worker} {e : Ev W K} (h : l.move e = some l') (hl : l.pc ≠ .exited)
    (hl' : l'.pc = .exited) : l = ⟨.probe true .processing, true⟩ ∧ ∃ w n, e = .llen w .processing (n + 1) := by
  cases move_iff.1 h with
  | probeProcessing g w n =>
    cases n with
    | zero => cases g <;> cases hl'
    | succ n =>
      cases g with
      | true => exact ⟨rfl, w, n, rfl⟩
      | false => cases hl'
  | probeMain g w n => by_cases hn : n = 0 <;> cases g <;> simp [hn, afterEmpty] at hl'
  | crash w pc hx => exact absurd hl' hx
  | timeout => cases hl'
  | pop => cases hl'
  | setex => cases hl'
  | lrem => cases hl'
  | del => cases hl'

end GuardDaemon

theorem processing_of_llen [DecidableEq K] {P : Params W K} {s s' : Server K} {w : W} {n : ℕ}
    (h : serve P s (.llen w .processing (n + 1)) = some s') : s.processing ≠ [] := by
  intro hp
  have hlen : s.processing.length = n + 1 := (serve_llen.1 h).1
  rw [hp] at hlen
  cases hlen

/-! ## Several workers -/

/-- `sub_daemon` workers of `cuda-redis-cpp`, publishers and Redis. -/
def guardDaemons [DecidableEq K] (P : Params W K) : System W (Ev W K) (Server K) GuardDaemon.Worker :=
  workers GuardDaemon.Worker.move P

/-- Every worker at its first command, the queue in state `s`. -/
def guardLaunch (s : Server K) : Config W (Server K) GuardDaemon.Worker := ⟨s, fun _ => ⟨.probe false .main, true⟩⟩

section Guard
variable [DecidableEq W] [DecidableEq K] {P : Params W K} {tr : List (Ev W K)} {s : Server K} {e : Ev W K}
  {c c' : Config W (Server K) GuardDaemon.Worker} {w : W}

theorem guard_step (hw : e.who = some w) (he : (guardDaemons P).exec c e = some c') :
    GuardDaemon.Worker.Step (c.loc w) e (c'.loc w) :=
  GuardDaemon.move_iff.1 (exec_move (guardDaemons P) hw he)

/-- A worker leaves on finding something in the processing list. -/
theorem processing_of_leave (he : (guardDaemons P).exec c e = some c') (hc : (c.loc w).pc ≠ .exited)
    (hc' : (c'.loc w).pc = .exited) :
    c.loc w = ⟨.probe true .processing, true⟩ ∧ c.srv.processing ≠ [] := by
  have hw : e.who = some w := by
    by_contra hw
    rw [exec_frame (guardDaemons P) hw he] at hc'
    exact hc hc'
  obtain ⟨hl, x, n, rfl⟩ := GuardDaemon.leave_of_move (exec_move (guardDaemons P) hw he) hc hc'
  exact ⟨hl, processing_of_llen (P := P) (w := x) (exec_serve (guardDaemons P) he)⟩

/-- **Somebody stays**: started with nothing in the processing list, the workers never all leave,
whatever is pushed, whoever crashes. -/
theorem guard_stays (P : Params W K) (w₀ : W) (hp : s.processing = []) : ∀ tr c,
    (guardDaemons P).run (guardLaunch s) tr = some c → ∃ w, (c.loc w).pc ≠ .exited := by
  refine run_induct (guardDaemons P) ⟨w₀, nofun⟩ ?_
  rintro tr c e c' hrun ⟨w, hw⟩ he
  by_cases hleft : (c'.loc w).pc = .exited
  · -- the item `w` saw is in the hands of another worker
    obtain ⟨hpc, hne⟩ := processing_of_leave he hw hleft
    obtain ⟨v, hv⟩ := List.exists_mem_of_ne_nil _ hne
    obtain ⟨x, hx⟩ := processing_held (onQueue_workers _ P) GuardDaemon.holds hrun (fun _ _ => trivial)
      (by simp [guardLaunch, hp]) v hv
    have hxw : x ≠ w := by
      rintro rfl
      rw [hpc] at hx
      cases hx
    refine ⟨x, fun hxe => ?_⟩
    have hstay : (c.loc x).pc = .exited := by
      by_contra hxn
      obtain ⟨hpx, -⟩ := processing_of_leave he hxn hxe
      rw [hpx] at hx
      cases hx
    rw [hstay] at hx
    cases hx
  · exact ⟨w, hleft⟩

/-- With something in both lists a worker reads its way out. -/
theorem guard_leaves (hm : c.srv.main ≠ []) (hp : c.srv.processing ≠ [])
    (hl : c.loc w = ⟨.probe false .main, true⟩) :
    (guardDaemons P).Reaches (fun e => e.who = some w) c ⟨c.srv, Function.update c.loc w ⟨.exited, true⟩⟩ := by
  refine ⟨[.llen w .main c.srv.main.length, .llen w .processing c.srv.processing.length,
    .llen w .main c.srv.main.length, .llen w .processing c.srv.processing.length], ?_, by simp [Ev.who]⟩
  simp [System.run, System.exec, guardDaemons, workers, serve, Server.queue, Ev.who, hl, GuardDaemon.Worker.move,
    GuardDaemon.afterEmpty, hm, hp]

/-- Something in both lists is enough for everybody to leave. -/
theorem guard_all_leave (ws : List W) (hws : ∀ w, w ∈ ws) (hm : s.main ≠ []) (hp : s.processing ≠ []) :
    ∃ tr c, (guardDaemons P).run (guardLaunch s) tr = some c ∧ ∀ w, (c.loc w).pc = .exited := by
  let I : Config W (Server K) GuardDaemon.Worker → Prop := fun c => c.srv = s ∧
    ∀ w, c.loc w = ⟨.probe false .main, true⟩ ∨ c.loc w = ⟨.exited, true⟩
  have hdrive : ∀ c, ∀ w ∈ ws, I c → ∃ c', (guardDaemons P).Reaches (fun e => e.who = some w ∧ True) c c' ∧
      I c' ∧ c'.loc w = ⟨.exited, true⟩ := by
    rintro c w _ ⟨hs, hloc⟩
    rcases hloc w with hl | hl
    · refine ⟨_, reaches_mono _ (fun _ he => ⟨he, trivial⟩) (guard_leaves (hs ▸ hm) (hs ▸ hp) hl), ⟨hs, fun x => ?_⟩,
        Function.update_self ..⟩
      by_cases hx : x = w
      · subst hx
        exact .inr (Function.update_self ..)
      · simp only [Function.update_of_ne hx]
        exact hloc x
    · exact ⟨c, reaches_refl _ _ c, ⟨hs, hloc⟩, hl⟩
  obtain ⟨c', ⟨tr, hr, -⟩, -, hQ⟩ := reaches_sweep (guardDaemons P) (I := I) (Q := fun l => l = ⟨.exited, true⟩)
    (p := fun _ => True) ws hdrive (guardLaunch s) ⟨rfl, fun _ => .inl rfl⟩
  exact ⟨tr, c', hr, fun w => by rw [hQ w (hws w)]⟩

/-- A worker in its loop, and not between the two reads of `empty()`. -/
def GuardDaemon.Worker.Bound (l : GuardDaemon.Worker) : Prop := l.pc ≠ .exited ∧ l.pc ≠ .probe true .processing

/-- **Nobody leaves a drained queue**: with the main list empty and nothing pushed any more, a worker
that is not about to read the length of the processing list never leaves. -/
theorem guard_polls (hm : c.srv.main = []) (hw : (c.loc w).Bound) (h : (guardDaemons P).run c tr = some c')
    (hq : published tr = []) : (c'.loc w).Bound := by
  refine (run_rel (guardDaemons P) (R := fun c c' => c.srv.main = [] ∧ (c.loc w).Bound →
    c'.srv.main = [] ∧ (c'.loc w).Bound) (p := fun e => e.pushes = none) (fun _ h => h)
    (fun _ _ _ h1 h2 h => h2 (h1 h)) ?_ (published_eq_nil.1 hq) h ⟨hm, hw⟩).2
  rintro c e c' hp he ⟨hm, hw⟩
  refine ⟨(onQueue_workers _ P).main_nil he hp hm, ?_⟩
  by_cases hwho : e.who = some w
  · have hstep := guard_step hwho he
    generalize c.loc w = l at hstep hw
    generalize c'.loc w = l' at hstep ⊢
    cases hstep with
    | probeMain g x n =>
      have hs : serve P c.srv (.llen x .main n) = some c'.srv := exec_serve (guardDaemons P) he
      have hn : (c.srv.queue .main).length = n := (serve_llen.1 hs).1
      rw [Server.queue, hm] at hn
      subst hn
      cases g <;> simp [GuardDaemon.Worker.Bound, GuardDaemon.afterEmpty]
    | probeProcessing g x n =>
      cases g with
      | true => exact absurd rfl hw.2
      | false => simp [GuardDaemon.Worker.Bound, GuardDaemon.afterEmpty]
    | crash x pc hx => exact hw
    | timeout => simp [GuardDaemon.Worker.Bound]
    | pop => simp [GuardDaemon.Worker.Bound]
    | setex => simp [GuardDaemon.Worker.Bound]
    | lrem => simp [GuardDaemon.Worker.Bound]
    | del => simp [GuardDaemon.Worker.Bound]
  · rw [exec_frame (guardDaemons P) hwho he]
    exact hw

end Guard

/-- **When the Job of `gpu_workload_v1` can end**: exactly when something was in the processing list
before it started. -/
theorem guard_ends_iff {n : Nat} [DecidableEq K] (P : Params (Fin (n + 1)) K) (s : Server K) :
    (∃ tr c, (guardDaemons P).run (guardLaunch s) tr = some c ∧ ∀ w, (c.loc w).pc = .exited) ↔
      s.processing ≠ [] := by
  constructor
  · rintro ⟨tr, c, h, hall⟩ hp
    obtain ⟨w, hw⟩ := guard_stays P 0 hp tr c h
    exact hw (hall w)
  · intro hp
    -- a push, so that there is something in the main list too
    have hpush : (guardDaemons P).exec (guardLaunch s) (.rpush [97]) = some (guardLaunch (s.rpush [97])) := rfl
    obtain ⟨tr, c, h, hall⟩ := guard_all_leave (P := P) (s := s.rpush [97]) (List.finRange _) List.mem_finRange
      (by simp [Server.rpush]) hp
    exact ⟨_ :: tr, c, (run_cons _).2 ⟨_, hpush, h⟩, hall⟩

/-- **Exclusive hand-over without loss** for the C++ workers: any workers and publishers, any
interleaving, crashes, leases expiring at any time. -/
theorem guard_accounted [DecidableEq W] [DecidableEq K] (P : Params W K) {tr : List (Ev W K)}
    {c : Config W (Server K) GuardDaemon.Worker} (h : (guardDaemons P).run (guardLaunch .empty) tr = some c)
    (hd : (published tr).Nodup) (h0 : [] ∉ published tr) : Accounted tr c.srv :=
  accounted (GuardDaemon.clientLike.run h List.not_mem_nil h0) hd

/-- Worker 1 leaves while worker 0 has an item. -/
def leaveRun : List (Ev ℕ Bytes) :=
  [.rpush [97], .rpush [98], .llen 0 .main 2, .llen 0 .processing 0, .llen 0 .main 2, .llen 0 .processing 0,
   .pop 0 (some [98]), .setex 0 [98], .llen 1 .main 1, .llen 1 .processing 1, .llen 1 .main 1,
   .llen 1 .processing 1]

/-- Worker 0 does the rest, and waits. -/
def waitRun : List (Ev ℕ Bytes) :=
  [.lrem 0 [98] 1, .del 0 [98], .llen 0 .main 1, .llen 0 .processing 0, .pop 0 (some [97]), .setex 0 [97],
   .lrem 0 [97] 1, .del 0 [97]]

theorem guard_accounted_leaveRun :
    ∃ c, (guardDaemons plainParams).run (guardLaunch .empty) (leaveRun ++ waitRun) = some c ∧
      Accounted (leaveRun ++ waitRun) c.srv :=
  ⟨_, rfl, guard_accounted plainParams rfl (by decide) (by decide)⟩

theorem guard_polls_waitRun : ∃ c c',
    (guardDaemons plainParams).run (guardLaunch .empty) (leaveRun ++ waitRun) = some c ∧
    (guardDaemons plainParams).run c [.llen 0 .main 0, .pop 0 none, .llen 0 .main 0] = some c' ∧
    (c'.loc 0).Bound := by
  obtain ⟨c, hc, hm, hl, c', hc'⟩ :
      ∃ c, (guardDaemons plainParams).run (guardLaunch .empty) (leaveRun ++ waitRun) = some c ∧ c.srv.main = [] ∧
        c.loc 0 = ⟨.probe true .main, true⟩ ∧
        ∃ c', (guardDaemons plainParams).run c [.llen 0 .main 0, .pop 0 none, .llen 0 .main 0] = some c' :=
    ⟨_, rfl, rfl, rfl, _, rfl⟩
  exact ⟨c, c', hc, hc', guard_polls hm (by simp [hl, GuardDaemon.Worker.Bound]) hc' rfl⟩

/-! ## With restarts -/

def guardPod : Container W K GuardDaemon.Worker where
  move := GuardDaemon.Worker.move
  init := ⟨.probe false .main, true⟩
  failed l := !l.alive
  stopped l hl e := by
    obtain ⟨pc, alive⟩ := l
    cases alive with
    | true => cases hl
    | false => exact Option.eq_none_iff_forall_ne_some.2 fun l' h => nomatch GuardDaemon.move_iff.1 h

section Pods
variable [DecidableEq W] [DecidableEq K]

/-- What a worker popped it has removed, or still has in its hands. -/
theorem guard_ledger {P : Params W K} {evs : List (Ev W K)} {d d' : Config W (Server K) GuardDaemon.Worker} (w : W)
    (v : Bytes) (h : (guardDaemons P).run d evs = some d') :
    (d.loc w).pc.hands.count v + (handed evs).count (w, v) =
      (d'.loc w).pc.hands.count v + (removed evs).count (w, v) := by
  refine observed_ledger (guardDaemons P) w v (fun l => l.pc.hands.count v) hands_who removes_who
    (fun l e l' hw hm => ?_) h
  cases GuardDaemon.move_iff.1 hm with
  | pop x u => cases hw; simp [GuardDaemon.PC.hands, Ev.hands, Ev.removes, List.count_cons]
  | lrem x u n => cases hw; simp [GuardDaemon.PC.hands, Ev.hands, Ev.removes, List.count_cons]
  | probeMain g x n => by_cases hn : n = 0 <;> cases g <;> simp [hn, GuardDaemon.PC.hands, GuardDaemon.afterEmpty, Ev.hands, Ev.removes]
  | probeProcessing g x n => by_cases hn : n = 0 <;> cases g <;> simp [hn, GuardDaemon.PC.hands, GuardDaemon.afterEmpty, Ev.hands, Ev.removes]
  | _ => rfl

/-- `w` has popped `v` more often than it has removed it. -/
def Kept (evs : List (Ev W K)) (w : W) (v : Bytes) : Prop :=
  (removed evs).count (w, v) < (handed evs).count (w, v)

omit [DecidableEq K] in
theorem kept_snoc {evs : List (Ev W K)} {e : Ev W K} {w : W} {v : Bytes} (hk : Kept evs w v)
    (he : e.removes ≠ some (w, v)) : Kept (evs ++ [e]) w v := by
  have hnone : (w, v) ∉ e.removes.toList := fun h => he (Option.mem_toList.1 h)
  rw [Kept, handed_snoc, removed_snoc, List.count_append, List.count_append, List.count_eq_zero.2 hnone]
  exact Nat.lt_of_lt_of_le hk (Nat.le_add_right _ _)

theorem kept_of_hands {P : Params W K} {evs : List (Ev W K)} {s : Server K}
    {d : Config W (Server K) GuardDaemon.Worker} {w : W} {v : Bytes}
    (h : (guardDaemons P).run (guardLaunch s) evs = some d) (hv : v ∈ (d.loc w).pc.hands) : Kept evs w v := by
  have hbal := guard_ledger w v h
  have hpos := List.count_pos_iff.2 hv
  have hinit : ((guardLaunch s : Config W (Server K) GuardDaemon.Worker).loc w).pc.hands = [] := rfl
  rw [hinit, List.count_nil, Nat.zero_add] at hbal
  rw [Kept, hbal]
  exact Nat.lt_add_of_pos_left hpos

variable {P : Params (W × ℕ) K} {tr : List (PodEv W K)} {c c' : Config W (Server K) (Pod GuardDaemon.Worker)}

/-- What a past incarnation kept, it keeps. -/
theorem kept_step {e : PodEv W K} {i : W × ℕ} {v : Bytes} (he : (jobs guardPod P).exec c e = some c')
    (hi : i.2 < (c.loc i.1).incarnation) (hk : Kept (podActs tr) i v) :
    i.2 < (c'.loc i.1).incarnation ∧ Kept (podActs (tr ++ [e])) i v := by
  cases e with
  | restart w =>
    obtain ⟨-, rfl⟩ := exec_restart.1 he
    refine ⟨?_, by simpa [PodEv.act?] using hk⟩
    by_cases hx : i.1 = w
    · subst hx; simp only [Function.update_self]; omega
    · simpa only [Function.update_of_ne hx] using hi
  | act e =>
    refine ⟨by rw [incarnation_of_act he]; exact hi, ?_⟩
    have hacts : podActs (tr ++ [.act e]) = podActs tr ++ [e] := podActs_snoc tr _
    rw [hacts]
    -- only a running incarnation removes anything
    refine kept_snoc hk fun hr => ?_
    exact Nat.ne_of_lt hi ((exec_podAct (removes_who e (i, v) hr)).1 he).1

theorem guardPod_leave {e : PodEv W K} {w : W} (he : (jobs guardPod P).exec c e = some c')
    (hc : (c.loc w).worker.pc ≠ .exited) (hc' : (c'.loc w).worker.pc = .exited) :
    (jobs guardPod P).who e = some w ∧ (c.loc w).worker = ⟨.probe true .processing, true⟩ ∧
      c.srv.processing ≠ [] := by
  have hw : (jobs guardPod P).who e = some w := by
    by_contra hw
    rw [exec_frame (jobs guardPod P) hw he] at hc'
    exact hc hc'
  refine ⟨hw, ?_⟩
  cases e with
  | restart x =>
    obtain rfl : x = w := Option.some.inj hw
    obtain ⟨-, rfl⟩ := exec_restart.1 he
    simp [guardPod] at hc'
  | act e =>
    obtain ⟨⟨x, n⟩, hx, hxw⟩ := Option.map_eq_some_iff.1 hw
    obtain rfl : x = w := hxw
    obtain ⟨-, hs, l, hl, hloc⟩ := (exec_podAct hx).1 he
    rw [hloc, Function.update_self] at hc'
    obtain ⟨hpc, y, m, rfl⟩ := GuardDaemon.leave_of_move hl hc hc'
    exact ⟨hpc, processing_of_llen hs⟩

/-- Somebody has not exited, or an earlier incarnation failed with an item in its hands. -/
theorem guard_job_stays (w₀ : W) {s : Server K} (hp : s.processing = []) : ∀ tr c,
    (jobs guardPod P).run (jobLaunch guardPod s) tr = some c → (∃ w, (c.loc w).worker.pc ≠ .exited) ∨
      ∃ i v, i.2 < (c.loc i.1).incarnation ∧ Kept (podActs tr) i v := by
  refine run_induct (jobs guardPod P) (.inl ⟨w₀, nofun⟩) ?_
  rintro tr c e c' hrun (⟨w, hw⟩ | ⟨i, v, hi, hk⟩) he
  · by_cases hleft : (c'.loc w).worker.pc = .exited
    · -- the item `w` saw is in the hands of another incarnation
      obtain ⟨hwho, hpc, hne⟩ := guardPod_leave he hw hleft
      obtain ⟨v, hv⟩ := List.exists_mem_of_ne_nil _ hne
      obtain ⟨d, hd, hR⟩ := run_of_job hrun
      obtain ⟨⟨x, m⟩, hx⟩ := processing_held (onQueue_workers _ P) GuardDaemon.holds hd (fun _ _ => trivial)
        (by simp [hp]) v (hR.srv ▸ hv)
      rcases Nat.lt_trichotomy m (c.loc x).incarnation with hm | rfl | hm
      · exact .inr ⟨(x, m), v, kept_step he hm (kept_of_hands hd hx)⟩
      · rw [hR.present x] at hx
        have hxw : x ≠ w := by
          rintro rfl
          rw [hpc] at hx
          cases hx
        have hstay : c'.loc x = c.loc x :=
          exec_frame (jobs guardPod P) (fun h => hxw (Option.some.inj (h.symm.trans hwho))) he
        refine .inl ⟨x, fun hxe => ?_⟩
        rw [← hstay, hxe] at hx
        cases hx
      · rw [hR.future x m hm] at hx
        cases hx
    · exact .inl ⟨w, hleft⟩
  · exact .inr ⟨i, v, kept_step he hi hk⟩

/-- **The Job of `gpu_workload_v1` succeeds only by losing an item**: started with nothing in the
processing list, all its pods have exited with 0 only if an earlier incarnation of one of them has
failed with an item in its hands. -/
theorem guard_job_loses (P : Params (W × ℕ) K) (w₀ : W) {s : Server K} (hp : s.processing = [])
    (h : (jobs guardPod P).run (jobLaunch guardPod s) tr = some c) (hall : ∀ w, (c.loc w).worker.pc = .exited) :
    ∃ i v, i.2 < (c.loc i.1).incarnation ∧ Kept (podActs tr) i v :=
  (guard_job_stays w₀ hp tr c h).resolve_left fun ⟨w, hw⟩ => hw (hall w)

end Pods

/-- The only pod crashes with an item; its next incarnation finds the item being processed. -/
def lossRun : List (PodEv (Fin 1) Bytes) :=
  [.act (.rpush [97]), .act (.rpush [98]), .act (.llen (0, 0) .main 2), .act (.llen (0, 0) .processing 0),
   .act (.llen (0, 0) .main 2), .act (.llen (0, 0) .processing 0), .act (.pop (0, 0) (some [98])),
   .act (.crash (0, 0)), .restart 0, .act (.llen (0, 1) .main 1), .act (.llen (0, 1) .processing 1),
   .act (.llen (0, 1) .main 1), .act (.llen (0, 1) .processing 1)]

theorem guard_job_loses_lossRun : ∃ c,
    (jobs guardPod ⟨id, fun _ => []⟩).run (jobLaunch guardPod .empty) lossRun = some c ∧
    ∃ i v, i.2 < (c.loc i.1).incarnation ∧ Kept (podActs lossRun) i v := by
  obtain ⟨c, hc, hx⟩ : ∃ c, (jobs guardPod ⟨id, fun _ => []⟩).run (jobLaunch guardPod .empty) lossRun = some c ∧
      ∀ w, (c.loc w).worker.pc = .exited := ⟨_, rfl, by decide⟩
  exact ⟨c, hc, guard_job_loses ⟨id, fun _ => []⟩ 0 rfl hc hx⟩

end RedisQueue
