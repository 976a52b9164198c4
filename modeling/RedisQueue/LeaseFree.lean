import RedisQueue.Hands
import RedisQueue.Marker

/-!
# The lease table decides nothing

A worker sets a lease key and deletes it. It never reads one: `_lease_exists` (`worker.py:58-64`,
`subscriber.cpp:21-24`) has no caller, and no command but `EXISTS` depends on a lease key. So a run
of workers is a run of the same workers on a queue with any other leases: with other durations, so
that keys expire at other times or never, another hash function, other session names, or no
lease table at all (`sameWork_of_commands`). An expired lease in particular hands nothing on.

`crew` are workers that need not agree on their keys: `_item_key` hashes with SHA-224 (`worker.py:50-56`),
`_key_for` with `std::hash` (`subscriber.cpp:16-19`). `Ev.rekey` is an event with its lease keys
forgotten, `SameWork` a queue seen without its leases.
-/
namespace RedisQueue
open Interleave

variable {W K K' L : Type}

/-- The server's half of an event, each worker with a hash function and a session of its own. -/
def serveBy [DecidableEq K] (P : W → Params W K) (s : Server K) : Ev W K → Option (Server K)
  | .rpush v => some (s.rpush v)
  | .expire k => some (s.delete k)
  | .llen w q n => serve (P w) s (.llen w q n)
  | .pop w r => serve (P w) s (.pop w r)
  | .setex w v => serve (P w) s (.setex w v)
  | .work w v => serve (P w) s (.work w v)
  | .raise w v => serve (P w) s (.raise w v)
  | .lrem w v n => serve (P w) s (.lrem w v n)
  | .del w v => serve (P w) s (.del w v)
  | .crash w => serve (P w) s (.crash w)

/-- Workers with the automaton `move` on one queue, each with its own lease keys. -/
def crew [DecidableEq K] (move : L → Ev W K → Option L) (P : W → Params W K) :
    System W (Ev W K) (Server K) L where
  who := Ev.who
  serve := serveBy P
  move := move

theorem serveBy_who [DecidableEq K] {P : W → Params W K} {s : Server K} {e : Ev W K} {w : W} (hw : e.who = some w) :
    serveBy P s e = serve (P w) s e := by
  cases e <;> cases hw <;> rfl

theorem crew_const [DecidableEq K] (move : L → Ev W K → Option L) (P : Params W K) :
    crew move (fun _ => P) = workers move P := by
  have hserve : serveBy (fun _ => P) = serve P := by
    funext s e
    cases e <;> rfl
  rw [crew, workers, hserve]

/-- The same command on a queue with other lease keys; an expiry is no command. -/
def Ev.rekey : Ev W K → Option (Ev W K')
  | .rpush v => some (.rpush v)
  | .llen w q n => some (.llen w q n)
  | .pop w r => some (.pop w r)
  | .setex w v => some (.setex w v)
  | .work w v => some (.work w v)
  | .raise w v => some (.raise w v)
  | .lrem w v n => some (.lrem w v n)
  | .del w v => some (.del w v)
  | .crash w => some (.crash w)
  | .expire _ => none

/-- The commands of a run; which keys expire, and when, is left out. -/
def commands (tr : List (Ev W K)) : List (Ev W Unit) := tr.filterMap Ev.rekey

/-- The two lists and the workers are the same; nothing is said about the leases. -/
structure SameWork (c : Config W (Server K) L) (d : Config W (Server K') L) : Prop where
  main : c.srv.main = d.srv.main
  processing : c.srv.processing = d.srv.processing
  loc : c.loc = d.loc

/-- An automaton that does not look at lease keys. -/
def Keyless (move : ∀ {K : Type}, L → Ev W K → Option L) : Prop :=
  ∀ (K K' : Type) (l : L) (e : Ev W K) (e' : Ev W K'), e.rekey = some e' → move l e' = move l e

theorem rekey_who {e : Ev W K} {e' : Ev W K'} (h : e.rekey = some e') : e'.who = e.who := by
  cases e <;> cases h <;> rfl

theorem rekey_rekey {e : Ev W K} {e' : Ev W K'} (h : e.rekey = some e') : e'.rekey = some e := by
  cases e <;> cases h <;> rfl

theorem rekey_eq_none {e : Ev W K} (h : (e.rekey : Option (Ev W K')) = none) : ∃ k, e = .expire k := by
  cases e <;> cases h
  exact ⟨_, rfl⟩

section Serve
variable [DecidableEq K] [DecidableEq K'] {s s' : Server K} {t : Server K'}

/-- No reply depends on the lease table. -/
theorem serve_rekey {P : Params W K} {Q : Params W K'} {e : Ev W K} {e' : Ev W K'} (he : e.rekey = some e') (hs : serve P s e = some s')
    (hm : s.main = t.main) (hp : s.processing = t.processing) :
    ∃ t', serve Q t e' = some t' ∧ s'.main = t'.main ∧ s'.processing = t'.processing := by
  cases e with
  | rpush v => cases he; cases hs; exact ⟨_, rfl, congrArg (· ++ [v]) hm, hp⟩
  | llen w q n =>
    cases he
    obtain ⟨hn, rfl⟩ := serve_llen.1 hs
    refine ⟨t, serve_llen.2 ⟨?_, rfl⟩, hm, hp⟩
    cases q with
    | main => rw [← hn]; exact congrArg List.length hm.symm
    | processing => rw [← hn]; exact congrArg List.length hp.symm
  | pop w r =>
    cases he
    cases r with
    | none =>
      obtain ⟨h, rfl⟩ := serve_pop_none.1 hs
      exact ⟨t, serve_pop_none.2 ⟨hm ▸ h, rfl⟩, hm, hp⟩
    | some v =>
      obtain ⟨l, h, rfl⟩ := serve_pop_some.1 hs
      exact ⟨_, serve_pop_some.2 ⟨l, hm ▸ h, rfl⟩, rfl, congrArg (v :: ·) hp⟩
  | lrem w v n =>
    cases he
    obtain ⟨hn, rfl⟩ := serve_lrem.1 hs
    exact ⟨_, serve_lrem.2 ⟨hp ▸ hn, rfl⟩, hm, congrArg (lremList 0 v) hp⟩
  | setex w v => cases he; cases hs; exact ⟨_, rfl, hm, hp⟩
  | work w v => cases he; cases hs; exact ⟨_, rfl, hm, hp⟩
  | raise w v => cases he; cases hs; exact ⟨_, rfl, hm, hp⟩
  | del w v => cases he; cases hs; exact ⟨_, rfl, hm, hp⟩
  | crash w => cases he; cases hs; exact ⟨_, rfl, hm, hp⟩
  | expire k => cases he

theorem serveBy_rekey {P : W → Params W K} {Q : W → Params W K'} {e : Ev W K} {e' : Ev W K'} (he : e.rekey = some e')
    (hs : serveBy P s e = some s') (hm : s.main = t.main) (hp : s.processing = t.processing) :
    ∃ t', serveBy Q t e' = some t' ∧ s'.main = t'.main ∧ s'.processing = t'.processing := by
  cases hw : e.who with
  | some w =>
    rw [serveBy_who hw] at hs
    rw [serveBy_who ((rekey_who he).trans hw)]
    exact serve_rekey he hs hm hp
  | none =>
    cases e with
    | rpush v => cases he; cases hs; exact ⟨_, rfl, congrArg (· ++ [v]) hm, hp⟩
    | expire k => cases he
    | _ => cases hw

end Serve

section Runs
variable [DecidableEq W] [DecidableEq K] [DecidableEq K'] {move : ∀ {K : Type}, L → Ev W K → Option L}
  {P : W → Params W K} {Q : W → Params W K'} {c c' : Config W (Server K) L} {d d' : Config W (Server K') L}

theorem exec_rekey (hk : Keyless move) {e : Ev W K} {e' : Ev W K'} (he : e.rekey = some e')
    (h : (crew move P).exec c e = some c') (hs : SameWork c d) :
    ∃ d', (crew move Q).exec d e' = some d' ∧ SameWork c' d' := by
  obtain ⟨t, ht, hm, hp⟩ := serveBy_rekey (Q := Q) he (exec_serve _ h) hs.main hs.processing
  cases hw : e.who with
  | none =>
    have hloc := ((exec_env (crew move P) hw).1 h).2
    refine ⟨⟨t, d.loc⟩, (exec_env (crew move Q) ?_).2 ⟨ht, rfl⟩, hm, hp, hloc.trans hs.loc⟩
    exact (rekey_who he).trans hw
  | some w =>
    obtain ⟨-, l, hl, hloc⟩ := (exec_client (crew move P) hw).1 h
    refine ⟨⟨t, Function.update d.loc w l⟩, (exec_client (crew move Q) ?_).2 ⟨ht, l, ?_, rfl⟩, hm, hp, ?_⟩
    · exact (rekey_who he).trans hw
    · rw [← hs.loc]
      exact (hk K K' _ e e' he).trans hl
    · rw [hloc, hs.loc]

omit [DecidableEq K'] in
/-- An expiry is possible at any time, and changes no list and no worker. -/
theorem exec_expire (move : ∀ {K : Type}, L → Ev W K → Option L) (P : W → Params W K) (c : Config W (Server K) L)
    (k : K) : ∃ c', (crew move P).exec c (.expire k) = some c' ∧
      c'.srv.main = c.srv.main ∧ c'.srv.processing = c.srv.processing ∧ c'.loc = c.loc :=
  ⟨⟨c.srv.delete k, c.loc⟩, (exec_env (crew move P) rfl).2 ⟨rfl, rfl⟩, rfl, rfl, rfl⟩

/-- Forgetting the leases of a run, and its expiries. -/
theorem run_rekey (hk : Keyless move) {tr : List (Ev W K)} (h : (crew move P).run c tr = some c')
    (hs : SameWork c d) : ∃ d', (crew move Q).run d (tr.filterMap Ev.rekey) = some d' ∧ SameWork c' d' := by
  rw [List.filterMap_eq_flatMap_toList]
  refine run_simulates (crew move P) (crew move Q) (R := SameWork) (p := fun _ => True) ?_
    (fun _ _ => trivial) hs h
  intro c d e c' _ hs he
  cases hr : (e.rekey : Option (Ev W K')) with
  | some e' =>
    obtain ⟨d', hd', hs'⟩ := exec_rekey (Q := Q) hk hr he hs
    exact ⟨d', (run_cons _).2 ⟨d', hd', rfl⟩, hs'⟩
  | none =>
    obtain ⟨k, rfl⟩ := rekey_eq_none hr
    obtain ⟨c₁, hc₁, hm, hp, hl⟩ := exec_expire move P c k
    obtain rfl : c₁ = c' := Option.some.inj (hc₁.symm.trans he)
    exact ⟨d, rfl, hm.trans hs.main, hp.trans hs.processing, hl.trans hs.loc⟩

/-- Adding leases to a run, and expiries anywhere in it. -/
theorem run_unrekey (hk : Keyless move) {tr : List (Ev W K)}
    (h : (crew move Q).run d (tr.filterMap Ev.rekey) = some d') (hs : SameWork c d) :
    ∃ c', (crew move P).run c tr = some c' ∧ SameWork c' d' := by
  rw [List.filterMap_eq_flatMap_toList] at h
  refine run_lifts (crew move P) (crew move Q) (R := SameWork) ?_ hs h
  intro c d e d' hs he
  cases hr : (e.rekey : Option (Ev W K')) with
  | some e' =>
    rw [hr] at he
    obtain ⟨d₁, hd₁, hd'⟩ := (run_cons _).1 he
    cases hd'
    obtain ⟨c', hc', hs'⟩ := exec_rekey (Q := P) hk (rekey_rekey hr) hd₁ ⟨hs.main.symm, hs.processing.symm, hs.loc.symm⟩
    exact ⟨c', hc', hs'.main.symm, hs'.processing.symm, hs'.loc.symm⟩
  | none =>
    rw [hr] at he
    cases he
    obtain ⟨k, rfl⟩ := rekey_eq_none hr
    obtain ⟨c', hc', hm, hp, hl⟩ := exec_expire move P c k
    exact ⟨c', hc', hm.trans hs.main, hp.trans hs.processing, hl.trans hs.loc⟩

end Runs

theorem keyless_of_step {move : ∀ {K : Type}, L → Ev W K → Option L}
    (h : ∀ (K K' : Type) (l l' : L) (e : Ev W K) (e' : Ev W K'), e.rekey = some e' → move l e = some l' →
      move l e' = some l') : Keyless move := by
  intro K K' l e e' he
  refine Option.ext fun l' => ⟨fun hl => ?_, fun hl => ?_⟩
  · exact h K' K l l' e' e (rekey_rekey he) hl
  · exact h K K' l l' e e' he hl

theorem keyless_worker : Keyless (W := W) Worker.move := by
  refine keyless_of_step fun K K' l l' e e' he hl => move_iff.2 ?_
  cases move_iff.1 hl <;> cases he <;> constructor <;> assumption

theorem keyless_subDaemon : Keyless (W := W) SubDaemon.Worker.move := by
  refine keyless_of_step fun K K' l l' e e' he hl => SubDaemon.move_iff.2 ?_
  cases SubDaemon.move_iff.1 hl <;> cases he <;> constructor
  assumption

/-- Two lists of events with the same commands: if one is a run, so is the other, whatever the lease
tables, the hash functions and the session names; and it leaves the same lists and workers. -/
theorem sameWork_of_commands [DecidableEq W] [DecidableEq K] [DecidableEq K']
    {move : ∀ {K : Type}, L → Ev W K → Option L} (hk : Keyless move) (P : W → Params W K) (Q : W → Params W K')
    {tr : List (Ev W K)} {tr' : List (Ev W K')} (he : commands tr = commands tr')
    {c c' : Config W (Server K) L} {d : Config W (Server K') L} (h : (crew move P).run c tr = some c')
    (hs : SameWork c d) : ∃ d', (crew move Q).run d tr' = some d' ∧ SameWork c' d' := by
  let blank : Config W (Server Unit) L := ⟨⟨c.srv.main, c.srv.processing, fun _ => none⟩, c.loc⟩
  have hblank : SameWork c blank := ⟨rfl, rfl, rfl⟩
  obtain ⟨d₀, hd₀, hs₀⟩ := run_rekey (Q := fun _ => ⟨fun _ => (), fun _ => []⟩) hk h hblank
  replace hd₀ : (crew move (fun _ => ⟨fun _ => (), fun _ => []⟩ : W → Params W Unit)).run blank (commands tr) = some d₀ := hd₀
  rw [he] at hd₀
  obtain ⟨d', hd', hs'⟩ := run_unrekey (P := Q) hk hd₀ ⟨hs.main.symm, hs.processing.symm, hs.loc.symm⟩
  exact ⟨d', hd', hs₀.main.trans hs'.main.symm, hs₀.processing.trans hs'.processing.symm,
    hs₀.loc.trans hs'.loc.symm⟩

end RedisQueue
