import RedisQueue.Mixed
import RedisQueue.Threads

/-!
# The workers as processes

The automata of `Mixed.lean` are read off the programs point by point. Here the programs themselves run
side by side on one server, each command answered by `Server.handle`, and every run of the automata is a
run of the programs, command for command, and the other way round (`any_processes`). What holds of the
automata therefore holds of the programs (`processes_accounted`).

| here | there |
| --- | --- |
| `Kind.program .python` | the report, which calls `rds.empty()`, then the loop (`daemon.py:33-44`) |
| `Kind.program .guard` | `sub_daemon.cpp:11-26` of `cuda-redis-cpp` |
| `Kind.program .marker` | `sub_daemon.cpp:12-29` of `redis-cpp-queue` |
| `Outside` | a push by some publisher, the end of a lease key |
| `Act.raised` | an exception that ends `daemon.py` |
-/
namespace RedisQueue
open Program Interleave Threads

variable {W K L L' : Type}

instance decEqReply : ∀ c : Cmd K, DecidableEq c.Reply
  | .rpush _ | .llen _ | .lrem _ _ | .delete _ | .existsKey _ => inferInstanceAs (DecidableEq Nat)
  | .brpoplpush _ | .rpoplpush => inferInstanceAs (DecidableEq (Option Bytes))
  | .setex _ _ _ | .work _ => inferInstanceAs (DecidableEq Unit)

instance inhabitedReply : ∀ c : Cmd K, Inhabited c.Reply
  | .rpush _ | .llen _ | .lrem _ _ | .delete _ | .existsKey _ => inferInstanceAs (Inhabited Nat)
  | .brpoplpush _ | .rpoplpush => inferInstanceAs (Inhabited (Option Bytes))
  | .setex _ _ _ | .work _ => inferInstanceAs (Inhabited Unit)

inductive Outside (K : Type) where
  | rpush (v : Bytes)
  | expire (key : K)

def Server.outside [DecidableEq K] (s : Server K) : Outside K → Option (Server K)
  | .rpush v => some (s.rpush v)
  | .expire key => some (s.delete key)

abbrev Process (K : Type) := Thread (Cmd K) Cmd.Reply

abbrev ProcessAct (W K : Type) := Act W (Cmd.Reply (K := K)) (Outside K)

def processes [DecidableEq K] : System W (ProcessAct W K) (Server K) (Process K) :=
  threads Server.handle Server.outside

/-- The act of a process an event stands for. -/
inductive Matches (P : W → Params W K) : Ev W K → ProcessAct W K → Prop where
  | rpush (v) : Matches P (.rpush v) (.outside (.rpush v))
  | expire (k) : Matches P (.expire k) (.outside (.expire k))
  | call {e w c r} (he : Issues (P w) e w c r) : Matches P e (.answered w c r)
  | raise (w v) : Matches P (.raise w v) (.raised w "UnicodeDecodeError")
  | crash (w) : Matches P (.crash w) (.killed w)

theorem issues_who {P : Params W K} {e : Ev W K} {w : W} {c : Cmd K} {r : c.Reply} (h : Issues P e w c r) :
    e.who = some w := by
  cases h <;> rfl

theorem matches_who {P : W → Params W K} {e : Ev W K} {a : ProcessAct W K} (h : Matches P e a) : a.who = e.who := by
  cases h with
  | call he => exact (issues_who he).symm
  | _ => rfl

/-- No worker sends a command that Redis refuses. -/
theorem not_refused [DecidableEq K] {P : Params W K} {s : Server K} {e : Ev W K} {w : W} {c : Cmd K} {r : c.Reply}
    (he : Issues P e w c r) (m : String) : s.handle c ≠ .refuse m := by
  intro hm
  cases he with
  | pop w r =>
    simp only [Server.handle] at hm
    split at hm
    · cases hm
    · cases hm
  | _ => cases hm

/-- The automaton `move` executes the programs `proc`. -/
structure Runs (P : W → Params W K) (move : L → Ev W K → Option L) (proc : W → L → Process K) : Prop where
  acts : ∀ w l e l', e.who = some w → move l e = some l' → ∃ a, Matches P e a
  step : ∀ w l e l' a, e.who = some w → move l e = some l' → Matches P e a → (proc w l).Step a (proc w l')
  back : ∀ w l a t, a.who = some w → (proc w l).Step a t →
    (∃ c m e r, a = .refused w c m ∧ Issues (P w) e w c r) ∨ ∃ e l', Matches P e a ∧ move l e = some l' ∧ t = proc w l'

theorem Runs.sum {P : W → Params W K} {move : L → Ev W K → Option L} {move' : L' → Ev W K → Option L'}
    {proc : W → L → Process K} {proc' : W → L' → Process K} (h : Runs P move proc) (h' : Runs P move' proc') :
    Runs P (sumMove move move') fun w => Sum.elim (proc w) (proc' w) where
  acts w l e l' hw hl := by
    cases l with
    | inl l =>
      obtain ⟨l₁, hl₁, rfl⟩ := Option.map_eq_some_iff.1 hl
      exact h.acts w l e l₁ hw hl₁
    | inr l =>
      obtain ⟨l₁, hl₁, rfl⟩ := Option.map_eq_some_iff.1 hl
      exact h'.acts w l e l₁ hw hl₁
  step w l e l' a hw hl hm := by
    cases l with
    | inl l =>
      obtain ⟨l₁, hl₁, rfl⟩ := Option.map_eq_some_iff.1 hl
      exact h.step w l e l₁ a hw hl₁ hm
    | inr l =>
      obtain ⟨l₁, hl₁, rfl⟩ := Option.map_eq_some_iff.1 hl
      exact h'.step w l e l₁ a hw hl₁ hm
  back w l a t hw ht := by
    cases l with
    | inl l =>
      rcases h.back w l a t hw ht with hr | ⟨e, l', hm, hl, rfl⟩
      · exact .inl hr
      · exact .inr ⟨e, .inl l', hm, congrArg (Option.map Sum.inl) hl, rfl⟩
    | inr l =>
      rcases h'.back w l a t hw ht with hr | ⟨e, l', hm, hl, rfl⟩
      · exact .inl hr
      · exact .inr ⟨e, .inr l', hm, congrArg (Option.map Sum.inr) hl, rfl⟩

section Match
variable [DecidableEq K] {P : W → Params W K} {move : L → Ev W K → Option L} {proc : W → L → Process K}

/-- Every step of the automaton is a step of the program. -/
theorem Runs.matches (h : Runs P move proc) :
    LocalMatch (crew move P) processes (Matches P) fun w l t => t = proc w l where
  who _ _ hm := matches_who hm
  env s e s' hw hs := by
    cases e with
    | rpush v => exact ⟨_, .rpush v, hs⟩
    | expire k => exact ⟨_, .expire k, hs⟩
    | _ => cases hw
  client s e s' w l l' t hw hs hl ht := by
    subst ht
    -- the act, with the reply the server gives
    have hact : ∃ a, Matches P e a ∧ serveAct Server.handle Server.outside s a = some s' := by
      obtain ⟨a, hm⟩ := h.acts w l e l' hw hl
      cases hm with
      | rpush v => cases hw
      | expire k => cases hw
      | call he =>
        obtain rfl : _ = w := Option.some.inj ((issues_who he).symm.trans hw)
        obtain ⟨r', he', hr'⟩ := handle_of_serve he ((serveBy_who hw).symm.trans hs)
        exact ⟨_, .call he', serve_answered.2 hr'⟩
      | raise x v => exact ⟨_, .raise x v, hs⟩
      | crash x => exact ⟨_, .crash x, hs⟩
    obtain ⟨a, hm, ha⟩ := hact
    exact ⟨a, proc w l', hm, ha, thread_move_iff.2 (h.step w l e l' a hw hl hm), rfl⟩

/-- Every step of the program is a step of the automaton. -/
theorem Runs.matched (h : Runs P move proc) :
    LocalMatch processes (crew move P) (fun a e => Matches P e a) fun w t l => t = proc w l where
  who _ _ hm := (matches_who hm).symm
  env s a s' hw hs := by
    cases a with
    | outside o =>
      cases o with
      | rpush v => exact ⟨_, .rpush v, hs⟩
      | expire k => exact ⟨_, .expire k, hs⟩
    | _ => cases hw
  client s a s' w t t' l hw hs ht hl := by
    subst hl
    replace hs : serveAct Server.handle Server.outside s a = some s' := hs
    rcases h.back w l a t' hw (thread_move_iff.1 ht) with ⟨c, m, e, r, rfl, he⟩ | ⟨e, l', hm, hl, rfl⟩
    · exact absurd (serve_refused.1 hs).1 (not_refused he m)
    · refine ⟨e, l', hm, ?_, hl, rfl⟩
      cases hm with
      | rpush v => exact hs
      | expire k => exact hs
      | call he => exact (serveBy_who (issues_who he)).trans (serve_of_handle he (serve_answered.1 hs))
      | raise x v => exact hs
      | crash x => exact hs

end Match

/-! ## The three programs -/

/-- The automaton `move` is at each point `l` where the rest of the program is `code w l`. -/
structure Coded (P : W → Params W K) (move : L → Ev W K → Option L) (body : W → Run K Ctl) (code : W → L → Run K Ctl)
    (alive : L → Bool) : Prop where
  works : ∀ w l v l', move l (.work w v) = some l' → decode v ≠ none
  call : ∀ w l e l' c r, Issues (P w) e w c r → move l e = some l' →
    alive l = true ∧ alive l' = true ∧ ∃ k, code w l = .call c k ∧ resume (body w) (k r) = code w l'
  calls : ∀ w l c k r, alive l = true → code w l = .call c k → ∃ e l', Issues (P w) e w c r ∧ move l e = some l'
  raise : ∀ w l v l', move l (.raise w v) = some l' →
    alive l = true ∧ alive l' = false ∧ code w l' = code w l ∧ code w l = .raise "UnicodeDecodeError"
  raises : ∀ w l m, alive l = true → code w l = .raise m →
    m = "UnicodeDecodeError" ∧ ∃ v l', move l (.raise w v) = some l'
  crash : ∀ w l l', move l (.crash w) = some l' →
    alive l = true ∧ alive l' = false ∧ code w l' = code w l ∧ ∀ a, code w l ≠ .ret a
  crashes : ∀ w l, alive l = true → (∀ a, code w l ≠ .ret a) → ∃ l', move l (.crash w) = some l'

/-- Work on an item that cannot be decoded is no act of a program. -/
theorem act_of_event (P : W → Params W K) {e : Ev W K} {w : W} (hw : e.who = some w)
    (hwork : ∀ v, e = .work w v → decode v ≠ none) : ∃ a, Matches P e a := by
  cases e with
  | rpush v => cases hw
  | expire k => cases hw
  | llen x q n => exact ⟨_, .call (.llen x q n)⟩
  | pop x r => exact ⟨_, .call (.pop x r)⟩
  | setex x v => exact ⟨_, .call (.setex x v)⟩
  | work x v =>
    cases hw
    obtain ⟨item, hitem⟩ := Option.ne_none_iff_exists'.1 (hwork v rfl)
    exact ⟨_, .call (.work w v item hitem)⟩
  | raise x v => exact ⟨_, .raise x v⟩
  | lrem x v n => exact ⟨_, .call (.lrem x v n)⟩
  | del x v => exact ⟨_, .call (.del x v 0)⟩
  | crash x => exact ⟨_, .crash x⟩

theorem Coded.runs {P : W → Params W K} {move : L → Ev W K → Option L} {body : W → Run K Ctl} {code : W → L → Run K Ctl}
    {alive : L → Bool} (h : Coded P move body code alive) :
    Runs P move fun w l => ⟨body w, code w l, alive l⟩ where
  acts w l e l' hw hl := act_of_event P hw fun v he => h.works w l v l' (he ▸ hl)
  step w l e l' a hw hl hm := by
    cases hm with
    | rpush v => cases hw
    | expire k => cases hw
    | call he =>
      obtain rfl := Option.some.inj ((issues_who he).symm.trans hw)
      obtain ⟨ha, ha', k, hk, hr⟩ := h.call _ _ _ _ _ _ he hl
      rw [ha, ha', hk, ← hr]
      exact .answered _ _ _ k _
    | raise x v =>
      cases hw
      obtain ⟨ha, ha', hc, hraise⟩ := h.raise _ _ _ _ hl
      rw [ha, ha', hc, hraise]
      exact .raised _ _ _
    | crash x =>
      cases hw
      obtain ⟨ha, ha', hc, hret⟩ := h.crash _ _ _ hl
      rw [ha, ha', hc]
      exact .killed _ _ _ hret
  back w l a t hw ht := by
    generalize hcode : code w l = p at ht
    generalize halive : alive l = b at ht
    cases ht with
    | answered _ x c k r =>
      cases hw
      obtain ⟨e, l', he, hl⟩ := h.calls w l c k r halive hcode
      obtain ⟨-, ha', k', hk, hr⟩ := h.call _ _ _ _ _ _ he hl
      cases hcode.symm.trans hk
      exact .inr ⟨e, l', .call he, hl, by rw [ha', hr]⟩
    | refused _ x c k m =>
      cases hw
      obtain ⟨e, l', he, -⟩ := h.calls w l c k default halive hcode
      exact .inl ⟨c, m, e, default, rfl, he⟩
    | raised _ x m =>
      cases hw
      obtain ⟨rfl, v, l', hl⟩ := h.raises w l m halive hcode
      obtain ⟨-, ha', hc, -⟩ := h.raise _ _ _ _ hl
      exact .inr ⟨_, l', .raise w v, hl, by rw [ha', hc, hcode]⟩
    | killed _ x p hret =>
      cases hw
      obtain ⟨l', hl⟩ := h.crashes w l halive (hcode ▸ hret)
      obtain ⟨-, ha', hc, -⟩ := h.crash _ _ _ hl
      exact .inr ⟨_, l', .crash w, hl, by rw [ha', hc, hcode]⟩

section Python
variable {q : RedisSubscriber K}

theorem ret_of_code {pc : PC} {a : Ctl} (h : pc.code q = .ret a) : pc = .exited ∧ a = .leave := by
  cases pc with
  | probe g l => cases g <;> cases l <;> cases h
  | item v =>
    simp only [PC.code, RedisSubscriber.workOn] at h
    split at h <;> cases h
  | exited => cases h; exact ⟨rfl, rfl⟩
  | _ => cases h

theorem resume_of_resumes {p : Run K Ctl} {l : Worker} (h : Resumes q p l) :
    l.alive = true ∧ resume q.subTurn p = l.pc.code q := by
  cases h with
  | «at» pc => exact ⟨rfl, resume_self fun hc => nomatch (ret_of_code hc).2⟩
  | again => exact ⟨rfl, rfl⟩
  | leave => exact ⟨rfl, rfl⟩

end Python

theorem coded_python (P : W → Params W K) : Coded P Worker.move (fun w => ((P w).subscriber w).subTurn)
    (fun w l => l.pc.code ((P w).subscriber w)) Worker.alive where
  works w l v l' hl := by
    cases move_iff.1 hl with
    | work x v hd => exact hd
  call w l e l' c r he hl := by
    obtain ⟨k, hk, hr⟩ := program_of_move he hl
    obtain ⟨ha', hcode⟩ := resume_of_resumes hr
    refine ⟨?_, ha', k, hk, hcode⟩
    cases move_iff.1 hl <;> rfl
  calls w l c k r ha hc := by
    obtain ⟨pc, alive⟩ := l
    obtain rfl : alive = true := ha
    exact move_of_program hc r
  raise w l v l' hl := by
    cases move_iff.1 hl with
    | raise x v hd => exact ⟨rfl, rfl, rfl, by simp only [PC.code, RedisSubscriber.workOn, hd]⟩
  raises w l m ha hc := by
    obtain ⟨pc, alive⟩ := l
    obtain rfl : alive = true := ha
    obtain ⟨v, hstep⟩ := (raise_iff (P := P w) (w := w)).1 ⟨m, hc⟩
    refine ⟨?_, v, _, move_iff.2 hstep⟩
    cases hstep with
    | raise x v hd =>
      simp only [PC.code, RedisSubscriber.workOn, hd] at hc
      cases hc
      rfl
  crash w l l' hl := by
    cases move_iff.1 hl with
    | crash x pc hx => exact ⟨rfl, rfl, rfl, fun a ha => hx (ret_of_code ha).1⟩
  crashes w l ha hret := by
    obtain ⟨pc, alive⟩ := l
    obtain rfl : alive = true := ha
    refine ⟨_, move_iff.2 (.crash w pc ?_)⟩
    rintro rfl
    exact hret _ rfl

namespace GuardDaemon
variable {q : Rds.Subscriber K}

theorem ret_of_code {pc : PC} {a : Ctl} (h : pc.code q = .ret a) : pc = .exited ∧ a = .leave := by
  cases pc with
  | probe g l => cases g <;> cases l <;> cases h
  | exited => cases h; exact ⟨rfl, rfl⟩
  | _ => cases h

theorem no_raise {pc : PC} {m : String} (h : pc.code q = .raise m) : False := by
  cases pc with
  | probe g l => cases g <;> cases l <;> cases h
  | _ => cases h

theorem resume_of_resumes {p : Run K Ctl} {l : Worker} (h : Resumes q p l) :
    l.alive = true ∧ resume q.subTurn p = l.pc.code q := by
  cases h with
  | «at» pc => exact ⟨rfl, resume_self fun hc => nomatch (ret_of_code hc).2⟩
  | again => exact ⟨rfl, rfl⟩
  | leave => exact ⟨rfl, rfl⟩

open SubDaemon (subscriber)

theorem coded (P : W → Params W K) : Coded P Worker.move (fun w => (subscriber (P w) w).subTurn)
    (fun w l => l.pc.code (subscriber (P w) w)) Worker.alive where
  works w l v l' hl := by
    cases move_iff.1 hl
  call w l e l' c r he hl := by
    obtain ⟨k, hk, hr⟩ := program_of_move he hl
    obtain ⟨ha', hcode⟩ := resume_of_resumes hr
    refine ⟨?_, ha', k, hk, hcode⟩
    cases move_iff.1 hl <;> rfl
  calls w l c k r ha hc := by
    obtain ⟨pc, alive⟩ := l
    obtain rfl : alive = true := ha
    exact move_of_program hc r
  raise w l v l' hl := by
    cases move_iff.1 hl
  raises w l m ha hc := (no_raise hc).elim
  crash w l l' hl := by
    cases move_iff.1 hl with
    | crash x pc hx => exact ⟨rfl, rfl, rfl, fun a ha => hx (ret_of_code ha).1⟩
  crashes w l ha hret := by
    obtain ⟨pc, alive⟩ := l
    obtain rfl : alive = true := ha
    refine ⟨_, move_iff.2 (.crash w pc ?_)⟩
    rintro rfl
    exact hret _ rfl

end GuardDaemon

namespace SubDaemon
variable {q : Rds.Subscriber K}

theorem ret_of_code {pc : PC} {a : Ctl} (h : pc.code q = .ret a) : pc = .exited ∧ a = .leave := by
  cases pc with
  | probe l => cases l <;> cases h
  | exited => cases h; exact ⟨rfl, rfl⟩
  | _ => cases h

theorem no_raise {pc : PC} {m : String} (h : pc.code q = .raise m) : False := by
  cases pc with
  | probe l => cases l <;> cases h
  | _ => cases h

theorem resume_of_resumes {p : Run K Ctl} {l : Worker} (h : Resumes q p l) :
    l.alive = true ∧ resume q.markerTurn p = l.pc.code q := by
  cases h with
  | «at» pc => exact ⟨rfl, resume_self fun hc => nomatch (ret_of_code hc).2⟩
  | again => exact ⟨rfl, rfl⟩
  | leave => exact ⟨rfl, rfl⟩

theorem coded (P : W → Params W K) : Coded P Worker.move (fun w => (subscriber (P w) w).markerTurn)
    (fun w l => l.pc.code (subscriber (P w) w)) Worker.alive where
  works w l v l' hl := by
    cases move_iff.1 hl
  call w l e l' c r he hl := by
    obtain ⟨k, hk, hr⟩ := program_of_move he hl
    obtain ⟨ha', hcode⟩ := resume_of_resumes hr
    refine ⟨?_, ha', k, hk, hcode⟩
    cases move_iff.1 hl <;> rfl
  calls w l c k r ha hc := by
    obtain ⟨pc, alive⟩ := l
    obtain rfl : alive = true := ha
    exact move_of_program hc r
  raise w l v l' hl := by
    cases move_iff.1 hl
  raises w l m ha hc := (no_raise hc).elim
  crash w l l' hl := by
    cases move_iff.1 hl with
    | crash x pc hx => exact ⟨rfl, rfl, rfl, fun a ha => hx (ret_of_code ha).1⟩
  crashes w l ha hret := by
    obtain ⟨pc, alive⟩ := l
    obtain rfl : alive = true := ha
    refine ⟨_, move_iff.2 (.crash w pc ?_)⟩
    rintro rfl
    exact hret _ rfl

end SubDaemon

/-! ## All of them side by side -/

/-- The program of a kind of worker, before its first command. -/
def Kind.program (P : Params W K) (w : W) : Kind → Process K
  | .python => ⟨(P.subscriber w).subTurn, RedisSubscriber.report, true⟩
  | .guard => ⟨(SubDaemon.subscriber P w).subTurn, Rds.Subscriber.report, true⟩
  | .marker => ⟨(SubDaemon.subscriber P w).markerTurn, Rds.Subscriber.report, true⟩

/-- The process an automaton stands for. -/
def AnyWorker.process (P : W → Params W K) (w : W) : AnyWorker → Process K :=
  Sum.elim (fun l => ⟨((P w).subscriber w).subTurn, l.pc.code ((P w).subscriber w), l.alive⟩)
    (Sum.elim (fun l => ⟨(SubDaemon.subscriber (P w) w).subTurn, l.pc.code (SubDaemon.subscriber (P w) w), l.alive⟩)
      fun l => ⟨(SubDaemon.subscriber (P w) w).markerTurn, l.pc.code (SubDaemon.subscriber (P w) w), l.alive⟩)

theorem runs_any (P : W → Params W K) : Runs P anyMove (AnyWorker.process P) :=
  (coded_python P).runs.sum ((GuardDaemon.coded P).runs.sum (SubDaemon.coded P).runs)

/-- Programs of any kinds, an empty queue. -/
def processLaunch (P : W → Params W K) (kind : W → Kind) : Config W (Server K) (Process K) :=
  ⟨.empty, fun w => (kind w).program (P w) w⟩

theorem launch_matched (P : W → Params W K) (kind : W → Kind) :
    (anyLaunch kind).Matched (fun w l t => t = l.process P w) (processLaunch P kind) := by
  refine ⟨rfl, fun w => ?_⟩
  simp only [processLaunch, anyLaunch]
  cases kind w <;> rfl

/-- **The automata are the programs**: workers of any kinds, each with its own lease keys. Every run of the automata is,
act for act, a run of the programs with the same server, and every run of the programs is one of the automata;
and at its end each program is where its automaton is. -/
theorem any_processes [DecidableEq W] [DecidableEq K] (P : W → Params W K) (kind : W → Kind) :
    (∀ tr c, (crew anyMove P).run (anyLaunch kind) tr = some c → ∃ acts, List.Forall₂ (Matches P) tr acts ∧
      processes.run (processLaunch P kind) acts = some ⟨c.srv, fun w => (c.loc w).process P w⟩) ∧
    ∀ acts d, processes.run (processLaunch P kind) acts = some d → ∃ tr c, List.Forall₂ (Matches P) tr acts ∧
      (crew anyMove P).run (anyLaunch kind) tr = some c ∧ d = ⟨c.srv, fun w => (c.loc w).process P w⟩ := by
  have hstart := launch_matched P kind
  refine ⟨fun tr c h => ?_, fun acts d h => ?_⟩
  · obtain ⟨acts, d, hacts, hd, hsrv, hloc⟩ := (runs_any P).matches.run hstart h
    obtain rfl : d = ⟨c.srv, fun w => (c.loc w).process P w⟩ := Config.ext hsrv.symm (funext hloc)
    exact ⟨acts, hacts, hd⟩
  · obtain ⟨tr, c, hacts, hc, hsrv, hloc⟩ := (runs_any P).matched.run ⟨hstart.srv.symm, hstart.loc⟩ h
    exact ⟨tr, c, hacts.flip, hc, Config.ext hsrv (funext hloc)⟩

/-- The programs of `mixedRun`. -/
theorem any_processes_mixedRun : ∃ acts d, processes.run (processLaunch kindParams kinds) acts = some d ∧
    List.Forall₂ (Matches kindParams) mixedRun acts ∧ ∃ tr c, List.Forall₂ (Matches kindParams) tr acts ∧
      (crew anyMove kindParams).run (anyLaunch kinds) tr = some c := by
  obtain ⟨c, hc⟩ : ∃ c, (crew anyMove kindParams).run (anyLaunch kinds) mixedRun = some c := ⟨_, rfl⟩
  obtain ⟨acts, hacts, hrun⟩ := (any_processes kindParams kinds).1 mixedRun c hc
  obtain ⟨tr, c', htr, hc', -⟩ := (any_processes kindParams kinds).2 acts _ hrun
  exact ⟨acts, _, hrun, hacts, tr, c', htr, hc'⟩

/-! What an act pushes, hands to a worker and removes. -/

def pushesAct : ProcessAct W K → Option Bytes
  | .outside (.rpush v) => some v
  | _ => none

def handsAct : ProcessAct W K → Option (W × Bytes)
  | .answered w (.brpoplpush _) (some v) => some (w, v)
  | _ => none

def removesAct : ProcessAct W K → Option (W × Bytes)
  | .answered w (.lrem _ v) _ => some (w, v)
  | _ => none

section Observe
variable {P : W → Params W K} {e : Ev W K} {a : ProcessAct W K}

theorem pushes_of_matches (h : Matches P e a) : e.pushes = pushesAct a := by
  cases h with
  | call he => cases he <;> rfl
  | _ => rfl

theorem hands_of_matches (h : Matches P e a) : e.hands = handsAct a := by
  cases h with
  | call he =>
    cases he with
    | pop w r => cases r <;> rfl
    | _ => rfl
  | _ => rfl

theorem removes_of_matches (h : Matches P e a) : e.removes = removesAct a := by
  cases h with
  | call he => cases he <;> rfl
  | _ => rfl

theorem observed_of_matches {α : Type} {f : Ev W K → Option α} {g : ProcessAct W K → Option α}
    (hfg : ∀ e a, Matches P e a → f e = g a) {tr : List (Ev W K)} {acts : List (ProcessAct W K)}
    (h : List.Forall₂ (Matches P) tr acts) : tr.filterMap f = acts.filterMap g := by
  induction h with
  | nil => rfl
  | cons hea _ ih => rw [List.filterMap_cons, List.filterMap_cons, hfg _ _ hea, ih]

end Observe

/-- **Exclusive hand-over without loss, of the programs**: what was pushed is the disjoint union of main list,
processing list and removed items; no payload is handed out twice; and the process an item was handed to is
the only one that removes it. -/
theorem processes_accounted [DecidableEq W] [DecidableEq K] (P : W → Params W K) (kind : W → Kind)
    {acts : List (ProcessAct W K)} {d : Config W (Server K) (Process K)}
    (h : processes.run (processLaunch P kind) acts = some d) (hd : (acts.filterMap pushesAct).Nodup)
    (h0 : [] ∉ acts.filterMap pushesAct) :
    (acts.filterMap pushesAct).Perm
      (d.srv.main ++ d.srv.processing ++ (acts.filterMap removesAct).map Prod.snd) ∧
    ((acts.filterMap handsAct).map Prod.snd).Nodup ∧
    (∀ v ∈ d.srv.processing, ∃ w, (w, v) ∈ acts.filterMap handsAct ∧ (w, v) ∉ acts.filterMap removesAct) ∧
    ∀ w v, (w, v) ∈ acts.filterMap removesAct → (w, v) ∈ acts.filterMap handsAct := by
  have hstart := launch_matched P kind
  obtain ⟨tr, c, hacts, hc, hsrv, -⟩ := (runs_any P).matched.run ⟨hstart.srv.symm, hstart.loc⟩ h
  have hpub : published tr = acts.filterMap pushesAct := observed_of_matches (fun _ _ => pushes_of_matches) hacts.flip
  have hhand : handed tr = acts.filterMap handsAct := observed_of_matches (fun _ _ => hands_of_matches) hacts.flip
  have hrem : removed tr = acts.filterMap removesAct := observed_of_matches (fun _ _ => removes_of_matches) hacts.flip
  have hacc := crew_accounted keyless_any clientLike_any (fun w => start_toClient (kind w)) hc (hpub ▸ hd) (hpub ▸ h0)
  rw [hsrv, ← hpub, ← hhand, ← hrem]
  refine ⟨hacc.accounted, hacc.once, fun v hv => ?_, fun w v hr => ?_⟩
  · obtain ⟨w, hone, hnr⟩ := hacc.owner v hv
    exact ⟨w, List.mem_of_mem_filter (hone ▸ List.mem_singleton_self _), hnr⟩
  · exact List.mem_of_mem_filter (hacc.remover w v hr ▸ List.mem_singleton_self _)

end RedisQueue
