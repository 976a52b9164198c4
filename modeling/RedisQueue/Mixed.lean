import RedisQueue.CppDaemon
import RedisQueue.LeaseFree

/-!
# Workers of all kinds on one queue

Both prototypes read the queue `foo`, with Python workers in one and C++ workers in the other, and the
test bed lets C producers feed Python consumers. Nothing keeps the kinds apart. What they share is
the client of `Client.lean`: each is one as long as no payload is empty (`ClientLike`), and so is any
crowd of them (`ClientLike.sum`). What they do not share is the hash of an item, so each worker has its
own lease keys (`crew`).

| here | there |
| --- | --- |
| `Kind.python` | `daemon.py --action=sub`, and `redis-consumer-py/consumer.py`, which has its loop |
| `Kind.guard` | `sub_daemon` of `cuda-redis-cpp` |
| `Kind.marker` | `sub_daemon` of `redis-cpp-queue` |
-/
namespace RedisQueue
open Interleave

variable {W K L L' : Type}

/-- Workers of two kinds. -/
def sumMove (move : L → Ev W K → Option L) (move' : L' → Ev W K → Option L') : L ⊕ L' → Ev W K → Option (L ⊕ L')
  | .inl l, e => (move l e).map .inl
  | .inr l, e => (move' l e).map .inr

theorem ClientLike.sum {move : L → Ev W K → Option L} {move' : L' → Ev W K → Option L'} {abs : L → Client}
    {abs' : L' → Client} (h : ClientLike move abs) (h' : ClientLike move' abs') :
    ClientLike (sumMove move move') (Sum.elim abs abs') where
  move l e l₁ hl he := by
    cases l with
    | inl l =>
      obtain ⟨m, hm, rfl⟩ := Option.map_eq_some_iff.1 hl
      exact h.move l e m hm he
    | inr l =>
      obtain ⟨m, hm, rfl⟩ := Option.map_eq_some_iff.1 hl
      exact h'.move l e m hm he

theorem clientLike_worker [DecidableEq K] (P : Params W K) :
    ClientLike (W := W) (K := K) Worker.move Worker.toClient where
  move l e l' h _ := (worker_is_client P).move l e l' h

namespace SubDaemon

def PC.mode : PC → Mode
  | .setex v => .leasing v
  | .del v => .completing v
  | _ => .idle

/-- A worker leaves with the marker. -/
def PC.held : PC → List Bytes
  | .lrem v => [v]
  | .exited => [Rds.EOQ]
  | _ => []

def Worker.toClient (l : Worker) : Client := ⟨l.pc.mode, l.pc.held, l.alive⟩

theorem clientLike : ClientLike (W := W) (K := K) Worker.move Worker.toClient where
  move l e l' h hne := by
    refine client_move_iff.2 ?_
    cases move_iff.1 h with
    | probeMain w n =>
      by_cases hn : n ≠ 0
      · simp only [Worker.toClient, if_pos hn]; exact .llen _ _ _ _
      · simp only [Worker.toClient, if_neg hn]; exact .llen _ _ _ _
    | probeProcessing w n => exact .llen _ _ _ _
    | timeout w => exact .timeout _ _
    | pop w v => exact .pop _ _ _ fun h0 => hne w (by rw [h0])
    | setex w v =>
      by_cases hv : v = Rds.EOQ
      · subst hv
        simp only [Worker.toClient, if_true]
        exact .setex _ _ _
      · simp only [Worker.toClient, if_neg hv]
        exact .setex _ _ _
    | lrem w v n =>
      have hlrem := Client.Step.lrem (K := K) [v] w v n (List.mem_singleton_self v)
      rw [List.erase_cons_head] at hlrem
      exact hlrem
    | del w v => exact .del _ _ _
    | crash w pc hx => exact .crash _ _ _

end SubDaemon

inductive Kind where
  | python | guard | marker
deriving DecidableEq

abbrev AnyWorker : Type := Worker ⊕ GuardDaemon.Worker ⊕ SubDaemon.Worker

def anyMove : AnyWorker → Ev W K → Option AnyWorker :=
  sumMove Worker.move (sumMove GuardDaemon.Worker.move SubDaemon.Worker.move)

def AnyWorker.toClient : AnyWorker → Client :=
  Sum.elim Worker.toClient (Sum.elim GuardDaemon.Worker.toClient SubDaemon.Worker.toClient)

/-- A worker before its first command. -/
def Kind.start : Kind → AnyWorker
  | .python => .inl ⟨.probe false .main, true⟩
  | .guard => .inr (.inl ⟨.probe false .main, true⟩)
  | .marker => .inr (.inr ⟨.probe .main, true⟩)

/-- Workers of any kinds on an empty queue. -/
def anyLaunch (kind : W → Kind) : Config W (Server K) AnyWorker := ⟨.empty, fun w => (kind w).start⟩

theorem start_toClient (k : Kind) : k.start.toClient = ⟨.idle, [], true⟩ := by
  cases k <;> rfl

theorem clientLike_any : ClientLike (W := W) (K := Unit) anyMove AnyWorker.toClient :=
  (clientLike_worker ⟨fun _ => (), fun _ => []⟩).sum (GuardDaemon.clientLike.sum SubDaemon.clientLike)

theorem Keyless.sum {move : ∀ {K : Type}, L → Ev W K → Option L} {move' : ∀ {K : Type}, L' → Ev W K → Option L'}
    (h : Keyless move) (h' : Keyless move') : Keyless fun {K} => sumMove (move (K := K)) (move' (K := K)) := by
  intro K K' l e e' he
  cases l with
  | inl l => exact congrArg (Option.map Sum.inl) (h K K' l e e' he)
  | inr l => exact congrArg (Option.map Sum.inr) (h' K K' l e e' he)

theorem keyless_guard : Keyless (W := W) GuardDaemon.Worker.move := by
  refine keyless_of_step fun K K' l l' e e' he hl => GuardDaemon.move_iff.2 ?_
  cases GuardDaemon.move_iff.1 hl <;> cases he <;> constructor
  assumption

theorem keyless_any : Keyless (W := W) anyMove := keyless_worker.sum (keyless_guard.sum keyless_subDaemon)

/-- What a run did to the elements, the lease keys left out. -/
theorem observed_rekey {α K' : Type} {f : Ev W K → Option α} {f' : Ev W K' → Option α}
    (hf : ∀ e : Ev W K, e.rekey.bind f' = f e) (tr : List (Ev W K)) :
    (tr.filterMap Ev.rekey).filterMap f' = tr.filterMap f := by
  rw [List.filterMap_filterMap, funext hf]

theorem published_rekey {K' : Type} (tr : List (Ev W K)) :
    published (tr.filterMap Ev.rekey : List (Ev W K')) = published tr :=
  observed_rekey (fun e => by cases e <;> rfl) tr

theorem accounted_rekey [DecidableEq W] {K' : Type} {tr : List (Ev W K)} {s : Server K} {t : Server K'}
    (ha : Accounted (tr.filterMap Ev.rekey) t) (hm : s.main = t.main) (hp : s.processing = t.processing) :
    Accounted tr s := by
  have hhand : handed (tr.filterMap Ev.rekey : List (Ev W K')) = handed tr := by
    refine observed_rekey (fun e => ?_) tr
    cases e with
    | pop w r => cases r <;> rfl
    | _ => rfl
  have hrem : removed (tr.filterMap Ev.rekey : List (Ev W K')) = removed tr :=
    observed_rekey (fun e => by cases e <;> rfl) tr
  obtain ⟨hacc, hnodup, honce, howner, hremover⟩ := ha
  rw [← hm, ← hp, hrem] at hacc hnodup
  rw [published_rekey] at hacc
  rw [hhand] at honce
  rw [← hp, hhand, hrem] at howner
  rw [hhand, hrem] at hremover
  exact ⟨hacc, hnodup, honce, howner, hremover⟩

/-- Clients that do not look at lease keys lose nothing and share nothing, whatever keys each sets. -/
theorem crew_accounted [DecidableEq W] [DecidableEq K] {move : ∀ {K : Type}, L → Ev W K → Option L} {abs : L → Client}
    (hk : Keyless move) (hlike : ClientLike (W := W) (K := Unit) move abs) {P : W → Params W K} {loc : W → L}
    (hloc : ∀ w, abs (loc w) = ⟨.idle, [], true⟩) {tr : List (Ev W K)} {c : Config W (Server K) L}
    (h : (crew move P).run ⟨.empty, loc⟩ tr = some c) (hd : (published tr).Nodup) (h0 : [] ∉ published tr) :
    Accounted tr c.srv := by
  -- the same run with one key for all
  obtain ⟨d, hrun, hsame⟩ := run_rekey (Q := fun _ => ⟨fun _ => (), fun _ => []⟩) hk h
    (show SameWork ⟨.empty, loc⟩ ⟨.empty, loc⟩ from ⟨rfl, rfl, rfl⟩)
  have hpub : published (tr.filterMap Ev.rekey : List (Ev W Unit)) = published tr := published_rekey tr
  rw [crew_const] at hrun
  have hclients := hlike.run hrun List.not_mem_nil (hpub ▸ h0)
  have hready : (⟨.empty, loc⟩ : Config W (Server Unit) L).map abs = ready .empty := Config.ext rfl (funext hloc)
  rw [hready] at hclients
  exact accounted_rekey (accounted hclients (hpub ▸ hd)) hsame.main hsame.processing

/-- **Exclusive hand-over without loss, whoever works**: any number of workers of any kinds side by
side, each with its own lease keys, publishers, crashes, expiries, in any order. -/
theorem any_accounted [DecidableEq W] [DecidableEq K] (P : W → Params W K) (kind : W → Kind) {tr : List (Ev W K)}
    {c : Config W (Server K) AnyWorker} (h : (crew anyMove P).run (anyLaunch kind) tr = some c)
    (hd : (published tr).Nodup) (h0 : [] ∉ published tr) : Accounted tr c.srv :=
  crew_accounted keyless_any clientLike_any (fun w => start_toClient (kind w)) h hd h0

/-- **The lease table decides nothing**: workers of any kinds on two queues with the same elements, and
two sequences of events with the same commands, the expiries apart. Both are runs or neither is,
whatever the lease tables, the hash functions of the workers, the session names and the times keys last;
and they leave the same elements and the same workers. -/
theorem leases_decide_nothing {K' : Type} [DecidableEq W] [DecidableEq K] [DecidableEq K'] (P : W → Params W K)
    (Q : W → Params W K') {tr : List (Ev W K)} {tr' : List (Ev W K')} (he : commands tr = commands tr')
    {c : Config W (Server K) AnyWorker} {d : Config W (Server K') AnyWorker} (hs : SameWork c d) :
    ((∃ c', (crew anyMove P).run c tr = some c') ↔ ∃ d', (crew anyMove Q).run d tr' = some d') ∧
      ∀ c' d', (crew anyMove P).run c tr = some c' → (crew anyMove Q).run d tr' = some d' →
        SameWork c' d' := by
  refine ⟨⟨?_, ?_⟩, fun c' d' hc hd => ?_⟩
  · rintro ⟨c', hc⟩
    obtain ⟨d', hd, -⟩ := sameWork_of_commands keyless_any P Q he hc hs
    exact ⟨d', hd⟩
  · rintro ⟨d', hd⟩
    obtain ⟨c', hc, -⟩ := sameWork_of_commands keyless_any Q P he.symm hd
      ⟨hs.main.symm, hs.processing.symm, hs.loc.symm⟩
    exact ⟨c', hc⟩
  · obtain ⟨d₁, hd₁, hsame⟩ := sameWork_of_commands keyless_any P Q he hc hs
    obtain rfl := Option.some.inj (hd₁.symm.trans hd)
    exact hsame

/-- Worker 0 runs the Python program, worker 1 that of `gpu_workload_v1`, the others that with the marker. -/
def kinds : ℕ → Kind
  | 0 => .python
  | 1 => .guard
  | _ => .marker

/-- The Python worker and the others hash differently. -/
def kindParams : ℕ → Params ℕ Bytes
  | 0 => ⟨(0 :: ·), fun w => [w.toUInt8]⟩
  | _ => ⟨(1 :: ·), fun w => [w.toUInt8]⟩

/-- Worker 1 leaves because worker 0 has an item; worker 2 does the other one. -/
def mixedRun : List (Ev ℕ Bytes) :=
  [.rpush [97], .rpush [98], .llen 0 .main 2, .llen 0 .main 2, .pop 0 (some [98]), .llen 1 .main 1,
   .llen 1 .processing 1, .llen 1 .main 1, .llen 1 .processing 1, .setex 0 [98], .llen 2 .main 1,
   .llen 2 .processing 1, .pop 2 (some [97]), .setex 2 [97], .lrem 2 [97] 1, .del 2 [97], .crash 0]

theorem any_accounted_mixedRun : ∃ c, (crew anyMove kindParams).run (anyLaunch kinds) mixedRun = some c ∧
    Accounted mixedRun c.srv := by
  obtain ⟨c, hc⟩ : ∃ c, (crew anyMove kindParams).run (anyLaunch kinds) mixedRun = some c := ⟨_, rfl⟩
  exact ⟨c, hc, any_accounted kindParams kinds hc (by decide) (by decide)⟩

/-- `mixedRun` with one lease key for all items, which expires again and again. -/
def oneKeyRun : List (Ev ℕ Unit) :=
  [.rpush [97], .rpush [98], .llen 0 .main 2, .expire (), .llen 0 .main 2, .pop 0 (some [98]), .llen 1 .main 1,
   .llen 1 .processing 1, .llen 1 .main 1, .llen 1 .processing 1, .setex 0 [98], .expire (), .llen 2 .main 1,
   .llen 2 .processing 1, .pop 2 (some [97]), .setex 2 [97], .expire (), .lrem 2 [97] 1, .del 2 [97], .crash 0]

theorem leases_decide_nothing_oneKeyRun : ∃ c d,
    (crew anyMove kindParams).run (anyLaunch kinds) mixedRun = some c ∧
    (crew anyMove fun _ => ⟨fun _ => (), fun _ => []⟩).run (anyLaunch kinds) oneKeyRun = some d ∧ SameWork c d := by
  have hcmd : commands mixedRun = commands oneKeyRun := rfl
  obtain ⟨hruns, hsame⟩ := leases_decide_nothing kindParams (fun _ => ⟨fun _ => (), fun _ => []⟩) hcmd
    (c := anyLaunch kinds) (d := anyLaunch kinds) ⟨rfl, rfl, rfl⟩
  obtain ⟨c, hc⟩ : ∃ c, (crew anyMove kindParams).run (anyLaunch kinds) mixedRun = some c := ⟨_, rfl⟩
  obtain ⟨d, hd⟩ := hruns.1 ⟨c, hc⟩
  exact ⟨c, d, hc, hd, hsame c d hc hd⟩

end RedisQueue
