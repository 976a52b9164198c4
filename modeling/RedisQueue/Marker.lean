import RedisQueue.CppWorker
import RedisQueue.Fifo

/-!
# The end-of-queue marker

`redis-cpp-queue` ends its workers with a marker: the loop of `sub_daemon.cpp` has no test
for an empty queue, it leaves on the item `EOQ`. `Subscriber` is the class of
`CppWorker.lean`, word for word.

| here | there |
| --- | --- |
| `Rds.EOQ` | the marker (`sub_daemon.cpp:20`; the push is `c-hiredis-producer/src/main.c:44`) |
| `Rds.Subscriber.report` | `sub.empty()` before the loop (`sub_daemon.cpp:12`) |
| `Rds.Subscriber.markerTurn` | one turn of `while (true)` (`sub_daemon.cpp:14-29`) |
| `SubDaemon.PC`, `SubDaemon.move` | the same program between two commands |

The `break` comes before `complete`, so the marker stays in the processing list for ever;
and the marker, pushed last, is popped first (`marker_left_behind`).
-/
namespace RedisQueue
open Program Interleave

variable {W K : Type}

namespace Rds

def EOQ : Bytes := [69, 79, 81]

namespace Subscriber
variable (q : Subscriber K)

def report : Run K Ctl := do
  let _ ← empty (K := K)
  return .again

/-- The work, a `sleep`, is between the test for the marker and `complete`. -/
def markerTurn : Run K Ctl := do
  match ← q.lease 5 2 true with
  | some value =>
    if value = EOQ then return .leave
    else
      q.complete value
      return .again
  | none => return .again

end Subscriber
end Rds

namespace SubDaemon

inductive PC where
  | probe (q : QType)
  | pop
  | setex (v : Bytes)
  | lrem (v : Bytes)
  | del (v : Bytes)
  | exited
deriving DecidableEq

structure Worker where
  pc : PC
  alive : Bool
deriving DecidableEq

/-- The worker's half of an event. The answer to the `SETEX` of the marker is the last thing a
worker waits for. -/
def Worker.move : Worker → Ev W K → Option Worker
  | ⟨.probe .main, true⟩, .llen _ .main n => some ⟨if n ≠ 0 then .probe .processing else .pop, true⟩
  | ⟨.probe .processing, true⟩, .llen _ .processing _ => some ⟨.pop, true⟩
  | ⟨.pop, true⟩, .pop _ none => some ⟨.pop, true⟩
  | ⟨.pop, true⟩, .pop _ (some v) => some ⟨.setex v, true⟩
  | ⟨.setex v, true⟩, .setex _ x =>
    if x = v then some ⟨if v = Rds.EOQ then .exited else .lrem v, true⟩ else none
  | ⟨.lrem v, true⟩, .lrem _ x _ => if x = v then some ⟨.del v, true⟩ else none
  | ⟨.del v, true⟩, .del _ x => if x = v then some ⟨.pop, true⟩ else none
  | ⟨pc, true⟩, .crash _ => if pc = .exited then none else some ⟨pc, false⟩
  | _, _ => none

/-- The steps of `Worker.move`, case by case. -/
inductive Worker.Step : Worker → Ev W K → Worker → Prop where
  | probeMain (w n) : Step ⟨.probe .main, true⟩ (.llen w .main n)
      ⟨if n ≠ 0 then .probe .processing else .pop, true⟩
  | probeProcessing (w n) : Step ⟨.probe .processing, true⟩ (.llen w .processing n) ⟨.pop, true⟩
  | timeout (w) : Step ⟨.pop, true⟩ (.pop w none) ⟨.pop, true⟩
  | pop (w v) : Step ⟨.pop, true⟩ (.pop w (some v)) ⟨.setex v, true⟩
  | setex (w v) : Step ⟨.setex v, true⟩ (.setex w v) ⟨if v = Rds.EOQ then .exited else .lrem v, true⟩
  | lrem (w v n) : Step ⟨.lrem v, true⟩ (.lrem w v n) ⟨.del v, true⟩
  | del (w v) : Step ⟨.del v, true⟩ (.del w v) ⟨.pop, true⟩
  | crash (w pc) (hx : pc ≠ .exited) : Step ⟨pc, true⟩ (.crash w) ⟨pc, false⟩

theorem move_iff {l l' : Worker} {e : Ev W K} : l.move e = some l' ↔ Worker.Step l e l' := by
  constructor
  · intro h
    unfold Worker.move at h
    split at h
    · cases h; exact .probeMain _ _
    · cases h; exact .probeProcessing _ _
    · cases h; exact .timeout _
    · cases h; exact .pop _ _
    · split at h <;> cases h
      rename_i hx; subst hx; exact .setex _ _
    · split at h <;> cases h
      rename_i hx; subst hx; exact .lrem _ _ _
    · split at h <;> cases h
      rename_i hx; subst hx; exact .del _ _
    · split at h <;> cases h
      rename_i hx; exact .crash _ _ hx
    · cases h
  · intro h
    cases h <;> simp_all [Worker.move]

/-! ## The automaton is the program -/

section Code
variable (q : Rds.Subscriber K)

/-- The rest of the program from a point on; `again` goes back to the top of the loop. -/
def PC.code : PC → Run K Ctl
  | .probe .main => Rds.Subscriber.report
  | .probe .processing => do
    let _ ← redis (.llen .processing)
    return .again
  | .pop => q.markerTurn
  | .setex v => do
    redis (.setex (q.keyFor v) 5 q.session)
    if v = Rds.EOQ then return .leave
    else
      q.complete v
      return .again
  | .lrem v => do
    q.complete v
    return .again
  | .del v => do
    let _ ← redis (.delete (q.keyFor v))
    return .again
  | .exited => return .leave

/-- A worker whose remaining program is `p`. -/
inductive Resumes : Run K Ctl → Worker → Prop where
  | at (pc : PC) : Resumes (pc.code q) ⟨pc, true⟩
  | again : Resumes (.ret .again) ⟨.pop, true⟩
  | leave : Resumes (.ret .leave) ⟨.exited, true⟩

end Code

/-- The C++ client of worker `w`. -/
def subscriber (P : Params W K) (w : W) : Rds.Subscriber K := ⟨P.session w, P.itemKey⟩

variable {P : Params W K} {w : W}

/-- Every step of the automaton but a crash issues the next command of the program and goes
where the program goes with the reply. -/
theorem program_of_move {l l' : Worker} {e : Ev W K} {c : Cmd K} {r : c.Reply} (he : Issues P e w c r)
    (h : l.move e = some l') :
    ∃ k, l.pc.code (subscriber P w) = .call c k ∧ Resumes (subscriber P w) (k r) l' := by
  cases he with
  | llen _ q n =>
    cases move_iff.1 h with
    | probeMain =>
      refine ⟨_, rfl, ?_⟩
      cases n with
      | zero => exact .again
      | succ n => exact .at (.probe .processing)
    | probeProcessing => exact ⟨_, rfl, .again⟩
  | pop _ r =>
    cases move_iff.1 h with
    | timeout => exact ⟨_, rfl, .again⟩
    | pop _ v => exact ⟨_, rfl, .at (.setex v)⟩
  | setex _ v =>
    cases move_iff.1 h with
    | setex =>
      refine ⟨_, rfl, ?_⟩
      by_cases hv : v = Rds.EOQ
      · simp only [if_pos hv]; exact .leave
      · simp only [if_neg hv]; exact .at (.lrem v)
  | work => cases move_iff.1 h
  | lrem _ v n =>
    cases move_iff.1 h with
    | lrem => exact ⟨_, rfl, .at (.del v)⟩
  | del _ v n =>
    cases move_iff.1 h with
    | del => exact ⟨_, rfl, .again⟩

/-- Whatever the program of a live worker does next, the automaton does. -/
theorem move_of_program {pc : PC} {c : Cmd K} {k : c.Reply → Run K Ctl}
    (hc : pc.code (subscriber P w) = .call c k) (r : c.Reply) :
    ∃ e l', Issues P e w c r ∧ Worker.move ⟨pc, true⟩ e = some l' := by
  cases pc with
  | probe q =>
    cases q with
    | main => cases hc; exact ⟨_, _, .llen w .main r, move_iff.2 (.probeMain w r)⟩
    | processing => cases hc; exact ⟨_, _, .llen w .processing r, move_iff.2 (.probeProcessing w r)⟩
  | pop =>
    cases hc
    cases r with
    | none => exact ⟨_, _, .pop w none, move_iff.2 (.timeout w)⟩
    | some v => exact ⟨_, _, .pop w (some v), move_iff.2 (.pop w v)⟩
  | setex v => cases hc; exact ⟨_, _, .setex w v, move_iff.2 (.setex w v)⟩
  | lrem v => cases hc; exact ⟨_, _, .lrem w v r, move_iff.2 (.lrem w v r)⟩
  | del v => cases hc; exact ⟨_, _, .del w v r, move_iff.2 (.del w v)⟩
  | exited => cases hc

end SubDaemon

/-! ## The marker in a run -/

/-- `sub_daemon` workers, publishers and Redis. -/
def subDaemons [DecidableEq K] (P : Params W K) : System W (Ev W K) (Server K) SubDaemon.Worker where
  who := Ev.who
  serve := serve P
  move := SubDaemon.Worker.move

/-- Every worker at its first command, the queue empty. -/
def subStart : Config W (Server K) SubDaemon.Worker := ⟨.empty, fun _ => ⟨.probe .main, true⟩⟩

/-- The items pushed before the marker have all been leased. -/
def AllLeased (items : List Bytes) (tr : List (Ev W K)) : Prop :=
  ∀ v, items.count v ≤ ((handed tr).map Prod.snd).count v

/-- Nothing the worker leased is in the processing list. -/
def NoneLeft (tr : List (Ev W K)) (w : W) (s : Server K) : Prop := ∀ v, (w, v) ∈ handed tr → v ∉ s.processing

/-- A worker that leaves its loop on the marker leaves a finished queue. -/
def MarkerEndsWork [DecidableEq W] [DecidableEq K] (P : Params W K) : Prop :=
  ∀ items tr c w, Rds.EOQ ∉ items → published tr <+: items ++ [Rds.EOQ] →
    (subDaemons P).run subStart tr = some c → (c.loc w).pc = .exited →
    AllLeased items tr ∧ NoneLeft tr w c.srv

/-- What one step does to a worker's own part of `Marked`. -/
theorem marked_own {l l' : SubDaemon.Worker} {e : Ev W K} {w : W} {S : List (W × Bytes)} (h : SubDaemon.Worker.Step l e l')
    (hw : e.who = some w) (hc : ∀ v, l.pc = .lrem v → v ≠ Rds.EOQ) (hs : ∀ v, l.pc = .setex v → (w, v) ∈ S)
    (hx : l.pc = .exited → (w, Rds.EOQ) ∈ S) :
    (∀ v, l'.pc = .lrem v → v ≠ Rds.EOQ) ∧ (∀ v, l'.pc = .setex v → (w, v) ∈ S ++ e.hands.toList) ∧
      (l'.pc = .exited → (w, Rds.EOQ) ∈ S ++ e.hands.toList) := by
  cases h with
  | pop x v =>
    cases hw
    refine ⟨nofun, fun u hu => ?_, nofun⟩
    cases hu
    exact List.mem_append_right _ (List.mem_singleton_self _)
  | setex x v =>
    by_cases hv : v = Rds.EOQ
    · subst hv
      simp only [if_true]
      exact ⟨nofun, nofun, fun _ => List.mem_append_left _ (hs _ rfl)⟩
    · simp only [if_neg hv]
      refine ⟨fun u hu => ?_, nofun, nofun⟩
      cases hu
      exact hv
  | probeMain x n =>
    by_cases hn : n ≠ 0 <;> simp [hn]
  | crash x pc hne =>
    exact ⟨hc, fun v hv => List.mem_append_left _ (hs v hv), fun h => absurd h hne⟩
  | _ => exact ⟨nofun, nofun, nofun⟩

section Marker
variable [DecidableEq W] [DecidableEq K] {P : Params W K} {tr : List (Ev W K)}
  {c c' : Config W (Server K) SubDaemon.Worker} {e : Ev W K} {w : W}

/-- Where the marker is, and who has it. -/
structure Marked (tr : List (Ev W K)) (c : Config W (Server K) SubDaemon.Worker) : Prop where
  /-- `complete` is never called on the marker. -/
  completes : ∀ w v, (c.loc w).pc = .lrem v → v ≠ Rds.EOQ
  leases : ∀ w v, (c.loc w).pc = .setex v → (w, v) ∈ handed tr
  left : ∀ w, (c.loc w).pc = .exited → (w, Rds.EOQ) ∈ handed tr
  stays : Rds.EOQ ∈ (handed tr).map Prod.snd → Rds.EOQ ∈ c.srv.processing

theorem subDaemon_step (hw : e.who = some w) (he : (subDaemons P).exec c e = some c') :
    SubDaemon.Worker.Step (c.loc w) e (c'.loc w) :=
  SubDaemon.move_iff.1 (exec_move (subDaemons P) hw he)

theorem marked_of_run : ∀ tr c, (subDaemons P).run subStart tr = some c → Marked tr c := by
  refine run_induct (subDaemons P) ?_ ?_
  · exact ⟨nofun, nofun, nofun, nofun⟩
  · intro tr c e c' _ ih he
    have hown : ∀ w, (∀ v, (c'.loc w).pc = .lrem v → v ≠ Rds.EOQ) ∧
        (∀ v, (c'.loc w).pc = .setex v → (w, v) ∈ handed (tr ++ [e])) ∧
        ((c'.loc w).pc = .exited → (w, Rds.EOQ) ∈ handed (tr ++ [e])) := by
      intro w
      rw [handed_snoc]
      by_cases hw : e.who = some w
      · exact marked_own (subDaemon_step hw he) hw (ih.completes w) (ih.leases w) (ih.left w)
      · rw [exec_frame (subDaemons P) hw he]
        exact ⟨ih.completes w, fun v hv => List.mem_append_left _ (ih.leases w v hv),
          fun hx => List.mem_append_left _ (ih.left w hx)⟩
    refine ⟨fun w => (hown w).1, fun w => (hown w).2.1, fun w => (hown w).2.2, fun hm => ?_⟩
    rw [handed_snoc, List.map_append, List.mem_append] at hm
    rcases serve_lists (exec_serve (subDaemons P) he) with
      ⟨_, hh, _, _, hp⟩ | ⟨v, rfl, _, hp⟩ | ⟨x, v, rfl, _, hp⟩ | ⟨x, v, n, rfl, _, _, hp⟩
    · rw [hp]
      exact ih.stays (hm.resolve_right (by simp [hh]))
    · rw [hp]
      exact ih.stays (hm.resolve_right (by simp [Ev.hands]))
    · rw [hp]
      rcases hm with hm | hm
      · exact List.mem_cons_of_mem _ (ih.stays hm)
      · simp [Ev.hands] at hm
        simp [hm]
    · -- an `LREM` of something else
      have hne : v ≠ Rds.EOQ := by
        have hstep := subDaemon_step (w := x) rfl he
        generalize hl : c.loc x = l at hstep
        generalize c'.loc x = l' at hstep
        cases hstep
        exact ih.completes x v (by rw [hl])
      rw [hp]
      refine List.mem_filter.2 ⟨ih.stays (hm.resolve_right (by simp [Ev.hands])), ?_⟩
      simpa using hne.symm

end Marker

/-- Once the marker has been handed out everything has been pushed. -/
theorem published_of_marker {tr : List (Ev W K)} {items : List Bytes} (hitems : Rds.EOQ ∉ items)
    (hpub : published tr <+: items ++ [Rds.EOQ]) (hm : Rds.EOQ ∈ published tr) :
    published tr = items ++ [Rds.EOQ] := by
  rcases List.prefix_concat_iff.1 hpub with h | h
  · exact h
  · exact absurd (h.subset hm) hitems

/-- Exactly the items in the main list have not been leased. -/
theorem allLeased_iff [DecidableEq K] {P : Params W K} {tr : List (Ev W K)} {s : Server K} {items : List Bytes}
    (hs : serverAfter P tr = some s) (hitems : Rds.EOQ ∉ items) (hpub : published tr = items ++ [Rds.EOQ])
    (hm : Rds.EOQ ∈ (handed tr).map Prod.snd) : AllLeased items tr ↔ s.main = [] := by
  have hbal := fun v => queued_eq v tr s hs
  simp only [hpub, List.count_append] at hbal
  constructor
  · intro hall
    refine List.eq_nil_iff_forall_not_mem.2 fun v hv => ?_
    have hpos := List.count_pos_iff.2 hv
    have hv' := hbal v
    by_cases hvm : v = Rds.EOQ
    · subst hvm
      have := List.count_pos_iff.2 hm
      have := List.count_eq_zero.2 hitems
      rw [List.count_singleton_self] at hv'
      omega
    · have := hall v
      have hlast : [Rds.EOQ].count v = 0 := List.count_eq_zero.2 (by simpa using hvm)
      omega
  · intro hnil v
    have hv' := hbal v
    rw [hnil, List.count_nil] at hv'
    omega

/-- One item, then the marker; worker 0 takes the marker first. -/
def markerRun : List (Ev Nat Bytes) :=
  [.rpush [97], .rpush Rds.EOQ, .llen 0 .main 2, .llen 0 .processing 0, .pop 0 (some Rds.EOQ), .setex 0 Rds.EOQ]

/-- Worker 0 leaves with the item still in the main list, and the marker in the processing list. -/
theorem marker_not_last : ¬ MarkerEndsWork plainParams := by
  intro h
  obtain ⟨c, hc, hx, hm⟩ : ∃ c, (subDaemons plainParams).run subStart markerRun = some c ∧
      (c.loc 0).pc = .exited ∧ c.srv.main = [[97]] := ⟨_, rfl, rfl, rfl⟩
  obtain ⟨hall, -⟩ := h [[97]] markerRun c 0 (by decide) (by decide) hc hx
  exact absurd (hall [97]) (by decide)

/-- **The marker is never finished**: a worker that leaves its loop has left the marker in the
processing list, and what is in the main list then is what was pushed before the marker and not
leased. -/
theorem marker_left_behind [DecidableEq W] [DecidableEq K] (P : Params W K) {items : List Bytes}
    {tr : List (Ev W K)} {c : Config W (Server K) SubDaemon.Worker} {w : W} (hitems : Rds.EOQ ∉ items)
    (hpub : published tr <+: items ++ [Rds.EOQ]) (h : (subDaemons P).run subStart tr = some c)
    (hx : (c.loc w).pc = .exited) :
    ¬ (AllLeased items tr ∧ NoneLeft tr w c.srv) ∧ Rds.EOQ ∈ c.srv.processing ∧
      (AllLeased items tr ↔ c.srv.main = []) := by
  have hm := marked_of_run tr c h
  have hw := hm.left w hx
  have hhand : Rds.EOQ ∈ (handed tr).map Prod.snd := mem_items.2 ⟨w, hw⟩
  have hproc := hm.stays hhand
  have hs := serverAfter_of_run (S := subDaemons P) rfl rfl h
  have hmem : Rds.EOQ ∈ published tr := by
    have hpos := List.count_pos_iff.2 hhand
    have hbal := queued_eq Rds.EOQ tr _ hs
    exact List.count_pos_iff.1 (by omega)
  exact ⟨fun hends => hends.2 _ hw hproc, hproc,
    allLeased_iff hs hitems (published_of_marker hitems hpub hmem) hhand⟩

theorem marker_left_behind_markerRun : ∃ c, (subDaemons plainParams).run subStart markerRun = some c ∧
    ¬ (AllLeased [[97]] markerRun ∧ NoneLeft markerRun 0 c.srv) ∧ Rds.EOQ ∈ c.srv.processing := by
  obtain ⟨c, hc, hx⟩ : ∃ c, (subDaemons plainParams).run subStart markerRun = some c ∧
      (c.loc 0).pc = .exited := ⟨_, rfl, rfl⟩
  obtain ⟨hends, hproc, -⟩ := marker_left_behind plainParams
    (show Rds.EOQ ∉ [[97]] by decide) (by decide) hc hx
  exact ⟨c, hc, hends, hproc⟩

end RedisQueue
