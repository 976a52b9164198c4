import RedisQueue.CWorkers
import RedisQueue.JobEnd

/-!
# The composition with `redis-consumer-c`

`docker-compose-v3.yaml` runs `redis-producer-c` beside `redis-consumer-c` with
`restart: on-failure`. `CWorkers.lean` has that consumer alone; here are any number of its containers,
started again whenever they fail, under pushes from anywhere.

| here | there |
| --- | --- |
| `Consumer.start` | the report and the check before the loop (`main.cpp:13-14`) |
| `Consumer.PC`, `Consumer.Worker.move` | the program between two commands; the copy of the item goes unseen |
| `lossyPod` | `consumer1` (`docker-compose-v3.yaml:18-24`): exit 139 is a failure |

The containers take everything out of the main list and nothing out of the processing list
(`lossy_job`). What the composition waits for is therefore never that the items are done: it can come
to its end as long as there is an item to pop, and afterwards only if no container has to pass its check
again (`lossy_can_finish_iff`).
-/
namespace RedisQueue
open Program Interleave

variable {W K : Type}

namespace Hiredis
namespace Consumer

def start : Code K Ctl := do
  let _ ← empty (K := K)
  if ← empty then
    .raise "exit 139"
  else
    return .again

/-- The check, and then the loop. -/
theorem main_eq (keyFor : Bytes → K) (n : Nat) : main keyFor n = (do
    let _ ← start (K := K)
    loop (turn keyFor) n) := by
  have hbranch (b : Bool) : (if b then .raise "exit 139" else loop (turn keyFor) n) =
      (if b then Prog.raise "exit 139" else Prog.ret Ctl.again) >>= fun _ => loop (turn keyFor) n := by
    cases b <;> rfl
  rw [start, prog_bind_assoc, main]
  refine congrArg _ (funext fun _ => ?_)
  rw [prog_bind_assoc]
  exact congrArg _ (funext hbranch)

inductive Stage where
  | report | check | loop
deriving DecidableEq

inductive PC where
  | probe (s : Stage) (q : QType)
  | pop
  | exit139
  | exited
deriving DecidableEq

structure Worker where
  pc : PC
  alive : Bool
deriving DecidableEq

/-- Where `empty()` leads. -/
def afterEmpty : Stage → Bool → PC
  | .report, _ => .probe .check .main
  | .check, true => .exit139
  | .check, false => .probe .loop .main
  | .loop, true => .exited
  | .loop, false => .pop

/-- The worker's half of an event. -/
def Worker.move : Worker → Ev W K → Option Worker
  | ⟨.probe s .main, true⟩, .llen _ .main n =>
    some ⟨if n = 0 then .probe s .processing else afterEmpty s false, true⟩
  | ⟨.probe s .processing, true⟩, .llen _ .processing n => some ⟨afterEmpty s (n ≠ 0), true⟩
  | ⟨.pop, true⟩, .pop _ _ => some ⟨.probe .loop .main, true⟩
  | ⟨pc, true⟩, .crash _ => if pc = .exit139 ∨ pc = .exited then none else some ⟨pc, false⟩
  | _, _ => none

/-- The steps of `Worker.move`, case by case. -/
inductive Worker.Step : Worker → Ev W K → Worker → Prop where
  | probeMain (s w n) : Step ⟨.probe s .main, true⟩ (.llen w .main n)
      ⟨if n = 0 then .probe s .processing else afterEmpty s false, true⟩
  | probeProcessing (s w n) : Step ⟨.probe s .processing, true⟩ (.llen w .processing n)
      ⟨afterEmpty s (n ≠ 0), true⟩
  | pop (w r) : Step ⟨.pop, true⟩ (.pop w r) ⟨.probe .loop .main, true⟩
  | crash (w pc) (hf : pc ≠ .exit139) (hx : pc ≠ .exited) : Step ⟨pc, true⟩ (.crash w) ⟨pc, false⟩

theorem move_iff {l l' : Worker} {e : Ev W K} : l.move e = some l' ↔ Worker.Step l e l' := by
  constructor
  · intro h
    unfold Worker.move at h
    split at h
    · cases h; exact .probeMain _ _ _
    · cases h; exact .probeProcessing _ _ _
    · cases h; exact .pop _ _
    · split at h <;> cases h
      rename_i hx
      obtain ⟨hf, hx⟩ := not_or.1 hx
      exact .crash _ _ hf hx
    · cases h
  · intro h
    cases h <;> simp_all [Worker.move]

/-! ## The automaton is the program -/

/-- `_llen(PROCESSING)` as the second half of `empty()`. -/
def secondRead : Code K Bool := do
  let processing ← llen .processing
  return processing ≠ 0

section Code
variable (keyFor : Bytes → K)

/-- The loop's turn after `empty()` has answered false. -/
def takeOne : Code K Ctl := do
  lease keyFor none 5 2 true
  return .again

/-- The rest of the program from a point on; `again` goes to the top of the loop. -/
def PC.code : PC → Code K Ctl
  | .probe .report .main => start
  | .probe .report .processing => do
    let _ ← secondRead (K := K)
    if ← empty then .raise "exit 139" else return .again
  | .probe .check .main => do
    if ← empty then .raise "exit 139" else return .again
  | .probe .check .processing => do
    if ← secondRead then .raise "exit 139" else return .again
  | .probe .loop .main => turn keyFor
  | .probe .loop .processing => do
    if ← secondRead then return .leave else takeOne keyFor
  | .pop => takeOne keyFor
  | .exit139 => .raise "exit 139"
  | .exited => return .leave

/-- A worker whose remaining program is `p`; copies go unseen. -/
inductive Resumes : Code K Ctl → Worker → Prop where
  | at (pc : PC) : Resumes (pc.code keyFor) ⟨pc, true⟩
  | again : Resumes (.ret .again) ⟨.probe .loop .main, true⟩
  | copy (room : Nat) (src : Bytes) (k : Unit → Code K Ctl) (l : Worker) (h : Resumes (k ()) l) :
    Resumes (.call (.strcpy room src) k) l

end Code

/-- The command an event of a worker sends, with its reply. -/
inductive Sends : Ev W K → W → (a : Act K) → a.Reply → Prop
  | llen (w q n) : Sends (.llen w q n) w (.send (.llen q)) (some ⟨n, none⟩)
  | pop (w r) : Sends (.pop w r) w (.send (.brpoplpush 2)) (some ⟨0, r⟩)

variable {w : W}

/-- Every step of the automaton but a crash takes the next step of the program and goes where the
program goes with the reply. -/
theorem program_of_move (keyFor : Bytes → K) {l l' : Worker} {e : Ev W K} {a : Act K} {r : a.Reply}
    (he : Sends e w a r) (h : l.move e = some l') :
    ∃ k, l.pc.code keyFor = .call a k ∧ Resumes keyFor (k r) l' := by
  cases he with
  | llen _ q n =>
    cases move_iff.1 h with
    | probeMain s =>
      cases s <;> refine ⟨_, rfl, ?_⟩ <;> cases n
      · exact .at (.probe .report .processing)
      · exact .at (.probe .check .main)
      · exact .at (.probe .check .processing)
      · exact .again
      · exact .at (.probe .loop .processing)
      · exact .at .pop
    | probeProcessing s =>
      cases s <;> refine ⟨_, rfl, ?_⟩
      · exact .at (.probe .check .main)
      · cases n
        · exact .again
        · exact .at .exit139
      · cases n
        · exact .at .pop
        · exact .at .exited
  | pop _ r =>
    cases move_iff.1 h with
    | pop =>
      refine ⟨_, rfl, ?_⟩
      rcases r with _ | _ | ⟨b, v⟩
      · exact .again
      · exact .again
      · exact .copy _ _ _ _ .again

/-- Whatever the program of a running worker does next, with the answer of the server, the two halves
of an event do. -/
theorem move_of_program [DecidableEq K] (P : Params W K) {pc : PC} {a : Act K} {k : a.Reply → Code K Ctl}
    {s s' : Server K} {r : a.Reply} (hc : pc.code P.itemKey = .call a k)
    (ha : (online s).handle a = .reply r (online s')) :
    ∃ e l', Sends e w a r ∧ serve P s e = some s' ∧ Worker.move ⟨pc, true⟩ e = some l' := by
  cases pc with
  | probe g q =>
    cases q with
    | main =>
      have ha' : a = .send (.llen .main) := by cases g <;> (cases hc; rfl)
      subst ha'
      cases ha
      exact ⟨_, _, .llen w .main _, if_pos rfl, move_iff.2 (.probeMain g w _)⟩
    | processing =>
      have ha' : a = .send (.llen .processing) := by cases g <;> (cases hc; rfl)
      subst ha'
      cases ha
      exact ⟨_, _, .llen w .processing _, if_pos rfl, move_iff.2 (.probeProcessing g w _)⟩
  | pop =>
    cases hc
    replace ha : (online s).handle (.send (.brpoplpush 2)) = .reply r (online s') := ha
    rcases List.eq_nil_or_concat' s.main with hm | ⟨l, v, hm⟩
    · rw [handle_pop_nil hm] at ha
      cases ha
      exact ⟨_, _, .pop w none, serve_pop_none.2 ⟨hm, rfl⟩, move_iff.2 (.pop w none)⟩
    · rw [handle_pop_snoc hm] at ha
      cases ha
      exact ⟨_, _, .pop w (some v), serve_pop_some.2 ⟨l, hm, rfl⟩, move_iff.2 (.pop w (some v))⟩
  | exit139 => cases hc
  | exited => cases hc

/-! ## The containers -/

/-- Exit 139 is a failure, and the container is started again. -/
def lossyPod : Container W K Worker where
  move := Worker.move
  init := ⟨.probe .report .main, true⟩
  failed l := !l.alive || l.pc = .exit139
  stopped l hl e := by
    refine Option.eq_none_iff_forall_ne_some.2 fun l' h => ?_
    cases move_iff.1 h <;> simp_all

section Job
variable [DecidableEq W] [DecidableEq K] {P : Params (W × ℕ) K} {tr : List (PodEv W K)}
  {c c' : Config W (Server K) (Pod Worker)} {f : PodEv W K} {x : W}

omit [DecidableEq W] [DecidableEq K] in
/-- A container reads lengths and pops. -/
theorem quiet_of_move {l l' : Worker} {e : Ev W K} (h : l.move e = some l') :
    e.pushes = none ∧ e.works = none ∧ e.removes = none ∧ e.sets = none := by
  cases move_iff.1 h <;> exact ⟨rfl, rfl, rfl, rfl⟩

omit [DecidableEq W] [DecidableEq K] in
theorem observed_snoc {α : Type} (g : Ev (W × ℕ) K → Option α) (tr : List (PodEv W K)) (f : PodEv W K) :
    (podActs (tr ++ [f])).filterMap g = (podActs tr).filterMap g ++ (f.act?.bind g).toList := by
  rw [podActs_snoc, List.filterMap_append]
  cases f with
  | restart w => rfl
  | act e => cases hg : g e <;> simp [PodEv.act?, hg]

/-- **What a step does to the lists**: a push, a pop, or nothing. -/
theorem lists_of_exec (he : (jobs lossyPod P).exec c f = some c') :
    (∃ v, f = .act (.rpush v) ∧ c'.srv.main = c.srv.main ++ [v] ∧ c'.srv.processing = c.srv.processing) ∨
    (∃ i v, f = .act (.pop i (some v)) ∧ c.srv.main = c'.srv.main ++ [v] ∧
      c'.srv.processing = v :: c.srv.processing) ∨
    (f.pushes = none ∧ c'.srv.main = c.srv.main ∧ c'.srv.processing = c.srv.processing) := by
  cases f with
  | restart w =>
    rw [(exec_restart.1 he).2]
    exact .inr (.inr ⟨rfl, rfl, rfl⟩)
  | act e =>
    have hs : serve P c.srv e = some c'.srv := exec_serve (jobs lossyPod P) he
    rcases serve_lists hs with ⟨hp, -, -, hm, hr⟩ | ⟨v, rfl, hm, hr⟩ | ⟨i, v, rfl, hm, hr⟩ | ⟨i, v, n, rfl, -⟩
    · exact .inr (.inr ⟨hp, hm, hr⟩)
    · exact .inl ⟨v, rfl, hm, hr⟩
    · exact .inr (.inl ⟨i, v, rfl, hm, hr⟩)
    · obtain ⟨-, -, l, hl, -⟩ := (exec_podAct (w := i.1) (n := i.2) rfl).1 he
      cases (quiet_of_move hl).2.2.1

/-- No item is worked on, registered or removed. -/
theorem idle_of_exec (he : (jobs lossyPod P).exec c f = some c') :
    f.act?.bind Ev.works = none ∧ f.act?.bind Ev.removes = none ∧ f.act?.bind Ev.sets = none := by
  cases f with
  | restart w => exact ⟨rfl, rfl, rfl⟩
  | act e =>
    cases hw : e.who with
    | none => cases e <;> first | exact ⟨rfl, rfl, rfl⟩ | cases hw
    | some i =>
      obtain ⟨-, -, l, hl, -⟩ := (exec_podAct (w := i.1) (n := i.2) hw).1 he
      exact (quiet_of_move hl).2

theorem processing_stays (he : (jobs lossyPod P).exec c f = some c') (h : c.srv.processing ≠ []) :
    c'.srv.processing ≠ [] := by
  rcases lists_of_exec he with ⟨v, -, -, hp⟩ | ⟨i, v, -, -, hp⟩ | ⟨-, -, hp⟩ <;> rw [hp]
  · exact h
  · exact List.cons_ne_nil _ _
  · exact h

/-- The step of one container: a restart, or a step of its program. -/
theorem pod_cases (he : (jobs lossyPod P).exec c f = some c') (x : W) :
    (c'.loc x).worker = (c.loc x).worker ∨ (f = .restart x ∧ (c'.loc x).worker = ⟨.probe .report .main, true⟩) ∨
    ∃ e, f = .act e ∧ serve P c.srv e = some c'.srv ∧ (c.loc x).worker.move e = some (c'.loc x).worker := by
  by_cases hx : (jobs lossyPod P).who f = some x
  · cases f with
    | restart w =>
      obtain rfl : w = x := Option.some.inj hx
      rw [(exec_restart.1 he).2]
      exact .inr (.inl ⟨rfl, by simp [lossyPod]⟩)
    | act e =>
      obtain ⟨⟨w, n⟩, hw, hwx⟩ := Option.map_eq_some_iff.1 hx
      obtain rfl : w = x := hwx
      obtain ⟨-, hs, l, hl, hloc⟩ := (exec_podAct hw).1 he
      refine .inr (.inr ⟨e, rfl, hs, ?_⟩)
      rw [hloc, Function.update_self]
      exact hl
  · rw [exec_frame (jobs lossyPod P) hx he]
    exact .inl rfl

omit [DecidableEq W] [DecidableEq K] in
/-- A container comes to its end on reading that something is being processed. -/
theorem end_of_move {l l' : Worker} {e : Ev W K} (h : l.move e = some l') (hl' : l'.pc = .exit139 ∨ l'.pc = .exited) :
    ∃ w n, e = .llen w .processing n ∧ n ≠ 0 := by
  cases move_iff.1 h with
  | probeProcessing s w n =>
    refine ⟨w, n, rfl, fun hn => ?_⟩
    subst hn
    cases s <;> simp [afterEmpty] at hl'
  | probeMain s w n => by_cases hn : n = 0 <;> cases s <;> simp [hn, afterEmpty] at hl'
  | pop w r => simp at hl'
  | crash w pc hf hx => simp [hf, hx] at hl'

/-- **Nothing is ever done**: in every run of the composition no item is worked on, registered or removed; what
was pushed is in one of the two lists; and a container that has ended, with "All items processed" or with
139, has left an item in the processing list. -/
theorem lossy_job (P : Params (W × ℕ) K) (h : (jobs lossyPod P).run (jobLaunch lossyPod .empty) tr = some c) :
    (published (podActs tr)).Perm (c.srv.main ++ c.srv.processing) ∧
    worked (podActs tr) = [] ∧ removed (podActs tr) = [] ∧ leased (podActs tr) = [] ∧
    ∀ w, (c.loc w).worker.pc = .exit139 ∨ (c.loc w).worker.pc = .exited → c.srv.processing ≠ [] := by
  refine run_induct (jobs lossyPod P) (P := fun tr c =>
    (published (podActs tr)).Perm (c.srv.main ++ c.srv.processing) ∧
    worked (podActs tr) = [] ∧ removed (podActs tr) = [] ∧ leased (podActs tr) = [] ∧
    ∀ w, (c.loc w).worker.pc = .exit139 ∨ (c.loc w).worker.pc = .exited → c.srv.processing ≠ []) ?_ ?_ tr c h
  · refine ⟨List.Perm.nil, rfl, rfl, rfl, fun w hw => ?_⟩
    rcases hw with hw | hw <;> cases hw
  · rintro tr c f c' - ⟨hperm, hwork, hrem, hset, hend⟩ he
    obtain ⟨hw, hr, hs⟩ := idle_of_exec he
    refine ⟨?_, ?_, ?_, ?_, fun x hx => ?_⟩
    · rw [published, observed_snoc, ← published]
      rcases lists_of_exec he with ⟨v, rfl, hm, hp⟩ | ⟨i, v, rfl, hm, hp⟩ | ⟨hq, hm, hp⟩
      · have hnew : ((PodEv.act (.rpush v) : PodEv W K).act?.bind Ev.pushes).toList = [v] := rfl
        have hswap : (c.srv.processing ++ [v]).Perm ([v] ++ c.srv.processing) := List.perm_append_comm
        rw [hnew, hm, hp, List.append_assoc]
        refine (hperm.append_right [v]).trans ?_
        rw [List.append_assoc]
        exact hswap.append_left c.srv.main
      · have hnew : ((PodEv.act (.pop i (some v)) : PodEv W K).act?.bind Ev.pushes).toList = [] := rfl
        rw [hm, List.append_assoc] at hperm
        rw [hnew, List.append_nil, hp]
        exact hperm
      · have hnone : f.act?.bind Ev.pushes = none := by
          cases f with
          | restart w => rfl
          | act e => exact hq
        rw [hm, hp, hnone, Option.toList, List.append_nil]
        exact hperm
    · rw [worked, observed_snoc, ← worked, hwork, hw]; rfl
    · rw [removed, observed_snoc, ← removed, hrem, hr]; rfl
    · rw [leased, observed_snoc, ← leased, hset, hs]; rfl
    · rcases pod_cases he x with hsame | ⟨-, hinit⟩ | ⟨e, rfl, hserve, hmove⟩
      · exact processing_stays he (hend x (hsame ▸ hx))
      · rw [hinit] at hx
        rcases hx with hx | hx <;> cases hx
      · obtain ⟨w, n, rfl, hn⟩ := end_of_move hmove hx
        obtain ⟨hlen, heq⟩ := serve_llen.1 hserve
        rw [heq]
        intro hnil
        exact hn (by rw [← hlen, Server.queue, hnil]; rfl)

/-! ## Coming to an end -/

/-- Past the check, and still there. -/
def Worker.Entered (l : Worker) : Prop :=
  l.pc = .exited ∨ l.alive = true ∧ (l.pc = .pop ∨ ∃ q, l.pc = .probe .loop q)

theorem entered_pop : Worker.Entered ⟨.pop, true⟩ := .inr ⟨rfl, .inl rfl⟩

theorem entered_loop (q : QType) : Worker.Entered ⟨.probe .loop q, true⟩ := .inr ⟨rfl, .inr ⟨q, rfl⟩⟩

/-- There is an item to pop; or one has been popped, and nobody has to pass the check any more; or it is over. -/
def Ending (c : Config W (Server K) (Pod Worker)) : Prop :=
  c.srv.main ≠ [] ∨ (c.srv.processing ≠ [] ∧ ∀ w, (c.loc w).worker.Entered) ∨
    ∀ w, (c.loc w).worker.pc = .exited

omit [DecidableEq W] [DecidableEq K] in
/-- A container gets past its check by reading that there is an item to pop, or that none has been popped. -/
theorem entered_of_move {l l' : Worker} {e : Ev W K} (h : l.move e = some l') (hl' : l'.Entered) :
    l.Entered ∨ (∃ w n, e = .llen w .main n ∧ n ≠ 0) ∨ ∃ w, e = .llen w .processing 0 := by
  cases move_iff.1 h with
  | probeMain s w n =>
    by_cases hn : n = 0
    · subst hn
      cases s with
      | loop => exact .inl (entered_loop _)
      | report => simp [Worker.Entered] at hl'
      | check => simp [Worker.Entered] at hl'
    · exact .inr (.inl ⟨w, n, rfl, hn⟩)
  | probeProcessing s w n =>
    by_cases hn : n = 0
    · subst hn; exact .inr (.inr ⟨w, rfl⟩)
    · cases s with
      | loop => exact .inl (entered_loop _)
      | report => simp [Worker.Entered, afterEmpty] at hl'
      | check => simp [Worker.Entered, afterEmpty, hn] at hl'
  | pop w r => exact .inl entered_pop
  | crash w pc hf hx => simp [Worker.Entered, hx] at hl'

theorem entered_back (he : (jobs lossyPod P).exec c f = some c') (hm : c.srv.main = [])
    (hp : c.srv.processing ≠ []) (hx : (c'.loc x).worker.Entered) : (c.loc x).worker.Entered := by
  rcases pod_cases he x with hsame | ⟨-, hinit⟩ | ⟨e, rfl, hserve, hmove⟩
  · exact hsame ▸ hx
  · rw [hinit] at hx
    simp [Worker.Entered] at hx
  · rcases entered_of_move hmove hx with hl | ⟨w, n, rfl, hn⟩ | ⟨w, rfl⟩
    · exact hl
    · have hlen := (serve_llen.1 hserve).1
      rw [Server.queue, hm] at hlen
      exact absurd hlen.symm hn
    · exact absurd (List.length_eq_zero_iff.1 (serve_llen.1 hserve).1) hp

/-- Who has just left has left others behind with the item. -/
theorem exited_back (he : (jobs lossyPod P).exec c f = some c') (hx : (c'.loc x).worker.pc = .exited) :
    (c.loc x).worker.pc = .exited ∨ (c.loc x).worker.Entered ∧ c.srv.processing ≠ [] := by
  rcases pod_cases he x with hsame | ⟨-, hinit⟩ | ⟨e, rfl, hserve, hmove⟩
  · exact .inl (hsame ▸ hx)
  · rw [hinit] at hx
    cases hx
  · obtain ⟨w, n, rfl, hn⟩ := end_of_move hmove (.inr hx)
    have hlen := (serve_llen.1 hserve).1
    have hp : c.srv.processing ≠ [] := fun h => hn (by rw [← hlen, Server.queue, h]; rfl)
    rcases entered_of_move hmove (.inl hx) with hl | ⟨w', n', h', -⟩ | ⟨w', h'⟩
    · exact .inr ⟨hl, hp⟩
    · cases h'
    · cases h'
      exact absurd rfl hn

/-- **An end lost is lost**: only a push brings it back. -/
theorem ending_back (he : (jobs lossyPod P).exec c f = some c') (hq : f.pushes = none) (h : Ending c') :
    Ending c := by
  by_cases hm : c.srv.main = []
  · have hsame : c'.srv.main = [] ∧ c'.srv.processing = c.srv.processing := by
      rcases lists_of_exec he with ⟨v, rfl, -⟩ | ⟨i, v, rfl, hpop, -⟩ | ⟨-, hm', hp'⟩
      · cases hq
      · rw [hm] at hpop
        exact absurd hpop.symm (by simp)
      · exact ⟨hm'.trans hm, hp'⟩
    rcases h with h | ⟨hp, hall⟩ | hall
    · exact absurd hsame.1 h
    · rw [hsame.2] at hp
      exact .inr (.inl ⟨hp, fun x => entered_back he hm hp (hall x)⟩)
    · by_cases hp : c.srv.processing = []
      · exact .inr (.inr fun x => (exited_back he (hall x)).resolve_right fun h => h.2 hp)
      · refine .inr (.inl ⟨hp, fun x => ?_⟩)
        rcases exited_back he (hall x) with hx | hx
        · exact .inl hx
        · exact hx.1
  · exact .inl hm

/-- By steps and restarts of container `w` alone, `Q` comes to hold. -/
abbrev Gets (P : Params (W × ℕ) K) (w : W) (Q : Config W (Server K) (Pod Worker) → Prop)
    (c : Config W (Server K) (Pod Worker)) : Prop :=
  (jobs lossyPod P).Gets (fun f => f.working = true) w Q c

structure At (w : W) (s : Server K) (l : Worker) (c : Config W (Server K) (Pod Worker)) : Prop where
  srv : c.srv = s
  worker : (c.loc w).worker = l

variable {w : W} {s : Server K} {l l' : Worker} {g : Stage}

/-- A running container takes the next step of its program. -/
theorem gets_act {e : Ev (W × ℕ) K} (hl : (c.loc w).worker = l) (he : e.who = some (w, (c.loc w).incarnation))
    (hw : e.working = true) (hs : serve P c.srv e = some s) (hstep : Worker.Step l e l') :
    Gets P w (At w s l') c := by
  have hexec : (jobs lossyPod P).exec c (.act e) =
      some ⟨s, Function.update c.loc w ⟨(c.loc w).incarnation, l'⟩⟩ :=
    (exec_podAct he).2 ⟨rfl, hs, l', by rw [hl]; exact move_iff.2 hstep, rfl⟩
  have hwho : (jobs lossyPod P).who (.act e) = some w := by simp [jobs, PodEv.who, he]
  exact gets_step (jobs lossyPod P) (p := fun f => f.working = true) hwho hw hexec ⟨rfl, by simp⟩

theorem gets_restart (hf : lossyPod.failed (W := W) (K := K) (c.loc w).worker = true) :
    Gets P w (At w c.srv ⟨.probe .report .main, true⟩) c :=
  gets_step _ rfl rfl (exec_restart.2 ⟨hf, rfl⟩) ⟨rfl, by simp [lossyPod]⟩

/-- `_llen(MAIN)`, with something there. -/
theorem read_main (hm : c.srv.main ≠ []) (hl : (c.loc w).worker = ⟨.probe g .main, true⟩) :
    Gets P w (At w c.srv ⟨afterEmpty g false, true⟩) c := by
  have hne : (c.srv.queue .main).length ≠ 0 := fun h => hm (List.length_eq_zero_iff.1 h)
  have hread := Worker.Step.probeMain (K := K) g (w, (c.loc w).incarnation) (c.srv.queue .main).length
  rw [if_neg hne] at hread
  exact gets_act hl rfl rfl (serve_llen.2 ⟨rfl, rfl⟩) hread

theorem read_main_zero (hm : c.srv.main = []) (hl : (c.loc w).worker = ⟨.probe g .main, true⟩) :
    Gets P w (At w c.srv ⟨.probe g .processing, true⟩) c :=
  gets_act hl rfl rfl (serve_llen.2 ⟨by rw [Server.queue, hm]; rfl, rfl⟩)
    (.probeMain g (w, (c.loc w).incarnation) 0)

theorem read_processing (hl : (c.loc w).worker = ⟨.probe g .processing, true⟩) :
    Gets P w (At w c.srv ⟨afterEmpty g (c.srv.processing.length ≠ 0), true⟩) c :=
  gets_act hl rfl rfl (serve_llen.2 ⟨rfl, rfl⟩) (.probeProcessing g (w, (c.loc w).incarnation) _)

theorem pop_last {main : List Bytes} {v : Bytes} (hm : c.srv.main = main ++ [v])
    (hl : (c.loc w).worker = ⟨.pop, true⟩) :
    Gets P w (At w ⟨main, v :: c.srv.processing, c.srv.leases⟩ ⟨.probe .loop .main, true⟩) c :=
  gets_act hl rfl rfl (serve_pop_some.2 ⟨main, hm, rfl⟩) (.pop (w, (c.loc w).incarnation) _)

theorem pop_nothing (hm : c.srv.main = []) (hl : (c.loc w).worker = ⟨.pop, true⟩) :
    Gets P w (At w c.srv ⟨.probe .loop .main, true⟩) c :=
  gets_act hl rfl rfl (serve_pop_none.2 ⟨hm, rfl⟩) (.pop (w, (c.loc w).incarnation) none)

/-- **With an item to pop every container can get past its check**, failed ones after a restart. -/
theorem can_enter (hm : s.main ≠ []) (w : W) (hs : c.srv = s) :
    Gets P w (fun d => d.srv = s ∧ (d.loc w).worker.Entered) c := by
  have hcheck : ∀ d, At w s ⟨.probe .check .main, true⟩ d →
      Gets P w (fun d => d.srv = s ∧ (d.loc w).worker.Entered) d := fun d hd =>
    gets_trans _ (read_main (hd.srv ▸ hm) hd.worker) fun x hx =>
      gets_refl _ ⟨hx.srv.trans hd.srv, by rw [hx.worker]; exact entered_loop _⟩
  have hreport : ∀ d, At w s ⟨.probe .report .main, true⟩ d →
      Gets P w (fun d => d.srv = s ∧ (d.loc w).worker.Entered) d := fun d hd =>
    gets_trans _ (read_main (hd.srv ▸ hm) hd.worker) fun x hx => hcheck x ⟨hx.srv.trans hd.srv, hx.worker⟩
  have hfailed : ∀ d : Config W (Server K) (Pod Worker), d.srv = s →
      lossyPod.failed (W := W) (K := K) (d.loc w).worker = true →
      Gets P w (fun d => d.srv = s ∧ (d.loc w).worker.Entered) d := fun d hs hf =>
    gets_trans _ (gets_restart hf) fun x hx => hreport x ⟨hx.srv.trans hs, hx.worker⟩
  obtain ⟨⟨pc, alive⟩, hl⟩ : ∃ l, (c.loc w).worker = l := ⟨_, rfl⟩
  by_cases hx : pc = .exited
  · exact gets_refl _ ⟨hs, .inl (by rw [hl]; exact hx)⟩
  cases alive with
  | false => exact hfailed c hs (by simp [hl, lossyPod])
  | true =>
    cases pc with
    | probe g q =>
      cases g with
      | loop => exact gets_refl _ ⟨hs, by rw [hl]; exact entered_loop q⟩
      | report =>
        cases q with
        | main => exact hreport c ⟨hs, hl⟩
        | processing => exact gets_trans _ (read_processing hl) fun d hd => hcheck d ⟨hd.srv.trans hs, hd.worker⟩
      | check =>
        cases q with
        | main => exact hcheck c ⟨hs, hl⟩
        | processing =>
          refine gets_trans _ (read_processing hl) fun d hd => ?_
          by_cases hp : c.srv.processing.length = 0
          · have hin := hd.worker
            rw [hp] at hin
            exact gets_refl _ ⟨hd.srv.trans hs, by rw [hin]; exact entered_loop _⟩
          · exact hfailed d (hd.srv.trans hs) (by simp [hd.worker, hp, afterEmpty, lossyPod])
    | pop => exact gets_refl _ ⟨hs, by rw [hl]; exact entered_pop⟩
    | exit139 => exact hfailed c hs (by simp [hl, lossyPod])
    | exited => exact absurd rfl hx

/-- Something is in one of the lists. -/
def Something (c : Config W (Server K) (Pod Worker)) : Prop := c.srv.main ≠ [] ∨ c.srv.processing ≠ []

/-- The container has left, and something is left behind. -/
structure LeftBehind (w : W) (c : Config W (Server K) (Pod Worker)) : Prop where
  something : Something c
  exited : (c.loc w).worker.pc = .exited

theorem leave_by_processing (hp : c.srv.processing ≠ [])
    (hl : (c.loc w).worker = ⟨.probe .loop .processing, true⟩) : Gets P w (LeftBehind w) c := by
  have hne : c.srv.processing.length ≠ 0 := fun h => hp (List.length_eq_zero_iff.1 h)
  refine gets_trans _ (read_processing hl) fun d hd => gets_refl _ ⟨.inr (hd.srv ▸ hp), ?_⟩
  simp [hd.worker, hne, afterEmpty]

/-- From the top of the loop; the induction is on what is left to pop. -/
theorem leave_from_top (w : W) : ∀ (main : List Bytes) (c : Config W (Server K) (Pod Worker)), c.srv.main = main →
    Something c → (c.loc w).worker = ⟨.probe .loop .main, true⟩ → Gets P w (LeftBehind w) c := by
  intro main
  induction main using List.reverseRecOn with
  | nil =>
    intro c hm hsome hl
    have hp : c.srv.processing ≠ [] := hsome.resolve_left fun h => h hm
    exact gets_trans _ (read_main_zero hm hl) fun d hd => leave_by_processing (hd.srv ▸ hp) hd.worker
  | append_singleton main v ih =>
    intro c hm _ hl
    refine gets_trans _ (read_main (by simp [hm]) hl) fun d hd => ?_
    refine gets_trans _ (pop_last (hd.srv ▸ hm) hd.worker) fun x hx => ?_
    exact ih x (by rw [hx.srv]) (.inr (by simp [hx.srv])) hx.worker

theorem leave_by_pop (hsome : Something c) (hl : (c.loc w).worker = ⟨.pop, true⟩) : Gets P w (LeftBehind w) c := by
  rcases List.eq_nil_or_concat' c.srv.main with hm | ⟨main, v, hm⟩
  · refine gets_trans _ (pop_nothing hm hl) fun d hd => ?_
    exact leave_from_top w [] d (hd.srv ▸ hm) (by rwa [Something, hd.srv]) hd.worker
  · refine gets_trans _ (pop_last hm hl) fun d hd => ?_
    exact leave_from_top w main d (by rw [hd.srv]) (.inr (by simp [hd.srv])) hd.worker

/-- **Who is past the check can leave**, as long as there is something in the lists. -/
theorem can_leave (hsome : Something c) (hin : (c.loc w).worker.Entered) : Gets P w (LeftBehind w) c := by
  obtain ⟨⟨pc, alive⟩, hl⟩ : ∃ l, (c.loc w).worker = l := ⟨_, rfl⟩
  rw [hl] at hin
  rcases hin with rfl | ⟨rfl, rfl | ⟨q, rfl⟩⟩
  · exact gets_refl _ ⟨hsome, by rw [hl]⟩
  · exact leave_by_pop hsome hl
  · cases q with
    | main => exact leave_from_top w _ c rfl hsome hl
    | processing =>
      by_cases hp : c.srv.processing = []
      · refine gets_trans _ (read_processing hl) fun d hd => leave_by_pop (by rwa [Something, hd.srv]) ?_
        rw [hd.worker, hp]
        rfl
      · exact leave_by_processing hp hl

/-- All failed containers are started again and get past their check. -/
theorem all_enter (ws : List W) (hws : ∀ w, w ∈ ws) (hm : c.srv.main ≠ []) :
    ∃ d, (jobs lossyPod P).Reaches (fun f => f.working = true) c d ∧ d.srv = c.srv ∧
      ∀ w, (d.loc w).worker.Entered := by
  obtain ⟨d, hd, hs, hin⟩ := reaches_sweep (jobs lossyPod P) (I := fun d => d.srv = c.srv)
    (Q := fun l => l.worker.Entered) (p := fun f => f.working = true) ws
    (fun d w _ hs => can_enter hm w hs) c rfl
  exact ⟨d, hd, hs, fun w => hin w (hws w)⟩

/-- Then they all leave, one after the other. -/
theorem all_leave (ws : List W) (hws : ∀ w, w ∈ ws) (hsome : Something c) (hin : ∀ w, (c.loc w).worker.Entered) :
    ∃ d, (jobs lossyPod P).Reaches (fun f => f.working = true) c d ∧ ∀ w, (d.loc w).worker.pc = .exited := by
  have hdrive : ∀ c, ∀ w ∈ ws, (Something c ∧ ∀ x, (c.loc x).worker.Entered) →
      ∃ d, (jobs lossyPod P).Reaches (fun f => (jobs lossyPod P).who f = some w ∧ f.working = true) c d ∧
        (Something d ∧ ∀ x, (d.loc x).worker.Entered) ∧ (d.loc w).worker.pc = .exited := by
    rintro c w _ ⟨hsome, hin⟩
    obtain ⟨d, hd, hleft⟩ := can_leave (P := P) (w := w) hsome (hin w)
    refine ⟨d, hd, ⟨hleft.something, fun x => ?_⟩, hleft.exited⟩
    by_cases hx : x = w
    · subst hx
      exact .inl hleft.exited
    · have hstay : d.loc x = c.loc x :=
        reaches_frame _ (fun f hf heq => hx (Option.some.inj (heq.symm.trans hf.1))) hd
      rw [hstay]
      exact hin x
  obtain ⟨d, hd, -, hx⟩ := reaches_sweep (jobs lossyPod P)
    (I := fun c => Something c ∧ ∀ x, (c.loc x).worker.Entered) (Q := fun l => l.worker.pc = .exited)
    (p := fun f => f.working = true) ws hdrive c ⟨hsome, hin⟩
  exact ⟨d, hd, fun w => hx w (hws w)⟩

theorem ending_run (h : (jobs lossyPod P).run c tr = some c') (hq : ∀ f ∈ tr, f.pushes = none) (hend : Ending c') :
    Ending c :=
  run_rel (jobs lossyPod P) (R := fun c c' => Ending c' → Ending c) (p := fun f => f.pushes = none)
    (fun _ => id) (fun _ _ _ h1 h2 => h1 ∘ h2) (fun _ _ _ hq he => ending_back he hq) hq h hend

end Job

/-- **When the composition can come to its end**: without a further push all containers can exit with 0 exactly
if there is an item to pop, or one has been popped and all are past their check, or they all have. Then steps
and restarts of the containers are enough. -/
theorem lossy_can_finish_iff {n : ℕ} [DecidableEq K] (P : Params (Fin n × ℕ) K)
    (c : Config (Fin n) (Server K) (Pod Worker)) :
    ((∃ c', (jobs lossyPod P).Reaches (fun f => f.pushes = none) c c' ∧ ∀ w, (c'.loc w).worker.pc = .exited) ↔
      Ending c) ∧
    (Ending c →
      ∃ c', (jobs lossyPod P).Reaches (fun f => f.working = true) c c' ∧ ∀ w, (c'.loc w).worker.pc = .exited) := by
  have hfin : Ending c →
      ∃ c', (jobs lossyPod P).Reaches (fun f => f.working = true) c c' ∧ ∀ w, (c'.loc w).worker.pc = .exited := by
    rintro (hm | ⟨hp, hin⟩ | hx)
    · obtain ⟨d, hd, hs, hin⟩ := all_enter (P := P) (List.finRange n) List.mem_finRange hm
      obtain ⟨c', hc', hx⟩ := all_leave (P := P) (List.finRange n) List.mem_finRange (.inl (hs ▸ hm)) hin
      exact ⟨c', reaches_trans _ hd hc', hx⟩
    · exact all_leave (List.finRange n) List.mem_finRange (.inr hp) hin
    · exact ⟨c, reaches_refl _ _ c, hx⟩
  refine ⟨⟨?_, fun hend => ?_⟩, hfin⟩
  · rintro ⟨c', ⟨tr, hrun, hq⟩, hx⟩
    exact ending_run hrun hq (.inr (.inr hx))
  · obtain ⟨c', hc', hx⟩ := hfin hend
    refine ⟨c', reaches_mono _ (fun f hf => ?_) hc', hx⟩
    cases f with
    | restart w => rfl
    | act e => exact pushes_of_peaceful (peaceful_of_working hf)

/-- One container strands an item and leaves; the other starts on the empty main list, and fails. -/
def strandRun : List (PodEv ℕ Bytes) :=
  [.act (.rpush [97]), .act (.llen (0, 0) .main 1), .act (.llen (0, 0) .main 1), .act (.llen (0, 0) .main 1),
   .act (.pop (0, 0) (some [97])), .act (.llen (0, 0) .main 0), .act (.llen (0, 0) .processing 1),
   .act (.llen (1, 0) .main 0), .act (.llen (1, 0) .processing 1), .act (.llen (1, 0) .main 0),
   .act (.llen (1, 0) .processing 1), .restart 1]

theorem lossy_job_strandRun : ∃ c, (jobs lossyPod podParams).run (jobLaunch lossyPod .empty) strandRun = some c ∧
    (published (podActs strandRun)).Perm (c.srv.main ++ c.srv.processing) ∧
    worked (podActs strandRun) = [] ∧ removed (podActs strandRun) = [] ∧ leased (podActs strandRun) = [] ∧
    ∀ w, (c.loc w).worker.pc = .exit139 ∨ (c.loc w).worker.pc = .exited → c.srv.processing ≠ [] := by
  obtain ⟨c, hc⟩ : ∃ c, (jobs lossyPod podParams).run (jobLaunch lossyPod .empty) strandRun = some c := ⟨_, rfl⟩
  exact ⟨c, hc, lossy_job podParams hc⟩

end Consumer
end Hiredis
end RedisQueue
