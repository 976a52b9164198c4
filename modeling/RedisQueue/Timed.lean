import RedisQueue.Clock
import RedisQueue.Leases

/-!
# The lease table over time

`SETEX` gives the lease key a time to live, and Redis answers with a key only before its
deadline. Here clients and workers run against a discrete clock: a `SETEX` by `w` for `v`
arms the timer of the key for `dur w v` units (`lease_dur`, `worker.py:96`; Redis refuses
a duration that is not positive), and the server drops a key only when it is due.

| here | there |
| --- | --- |
| `live` | what a client finds under a lease key (`_lease_exists`, `worker.py:58-64`) |
| `LeaseTable` | what a live key, and an item without one, says about the workers |
-/
namespace RedisQueue
open Interleave

variable {W K : Type}

abbrev Durations (W : Type) := W → Bytes → {n : Nat // 0 < n}

def leaseTimers (P : Params W K) (dur : Durations W) : Timers (Ev W K) K where
  arms
    | .setex w v => some (P.itemKey v, dur w v)
    | _ => none
  fires
    | .expire k => some k
    | _ => none

/-- The value a client finds under a lease key. -/
def live (s : Clocked (Server K) K) (k : K) : Option Bytes :=
  if s.now < s.deadline k then s.srv.leases k else none

/-- At time 0, no timer armed. -/
def atZero {L : Type} (c : Config W (Server K) L) : Config W (Clocked (Server K) K) L :=
  ⟨⟨c.srv, 0, fun _ => 0⟩, c.loc⟩

theorem leases_of_live {s : Clocked (Server K) K} {k : K} {x : Bytes} (h : live s k = some x) :
    s.srv.leases k = some x := by
  unfold live at h
  split at h
  · exact h
  · cases h

/-- What the lease keys say about the workers after the run `tr`. -/
structure LeaseTable [DecidableEq W] [DecidableEq K] (P : Params W K) (dur : Durations W)
    (tr : List (Timed (Ev W K))) (s : Clocked (Server K) K) : Prop where
  /-- A live key is the key of a payload handed to exactly one worker, and holds its session. -/
  holder : ∀ k x, live s k = some x → ∃ w v, P.itemKey v = k ∧ x = P.session w ∧
    (handed (acts tr)).filter (fun p => p.2 = v) = [(w, v)]
  /-- Between its `SETEX` and its `DEL` a worker finds its own session under the key, for
  less than the lease duration. -/
  kept : ∀ w v pre post, tr = pre ++ .act (.setex w v) :: post → (w, v) ∉ released (acts tr) →
    ticks post < (dur w v).1 → live s (P.itemKey v) = some (P.session w)
  /-- The item of a live key is in the processing list, but between the `LREM` and the `DEL`. -/
  item : ∀ w v, (w, v) ∈ handed (acts tr) → live s (P.itemKey v) ≠ none →
    v ∈ s.srv.processing ∨ (w, v) ∈ removed (acts tr) ∧ (w, v) ∉ released (acts tr)
  /-- An item in the processing list without a live key is before its `SETEX` or past its
  lease duration. -/
  unleased : ∀ v ∈ s.srv.processing, live s (P.itemKey v) = none →
    ∃ w, (handed (acts tr)).filter (fun p => p.2 = v) = [(w, v)] ∧
      ((w, v) ∉ leased (acts tr) ∨
        ∃ pre post, tr = pre ++ .act (.setex w v) :: post ∧ (dur w v).1 ≤ ticks post)

section Kept
variable [DecidableEq W] [DecidableEq K] {P : Params W K} {dur : Durations W}
  {c c' : Config W (Clocked (Server K) K) Client} {tr post : List (Timed (Ev W K))} {k : K} {x : Bytes}

/-- Only a `SETEX` moves the deadline of a key. -/
theorem deadline_of_acts (h : ((clients P).clocked (leaseTimers P dur)).run c post = some c')
    (hset : ∀ w v, .setex w v ∈ acts post → P.itemKey v ≠ k) : c'.srv.deadline k = c.srv.deadline k := by
  refine deadline_of_run _ _ h fun e he m harm => ?_
  cases e with
  | setex w v => exact hset w v he (Prod.mk.inj (Option.some.inj harm)).1
  | _ => cases harm

/-- A key that is not set, deleted or due keeps its value. -/
theorem leases_of_run {d : Nat} (hx : c.srv.srv.leases k = some x) (hdl : c.srv.deadline k = c.srv.now + d) :
    ∀ post c', ((clients P).clocked (leaseTimers P dur)).run c post = some c' → ticks post < d →
      (∀ w v, .setex w v ∈ acts post → P.itemKey v ≠ k) → (∀ w v, .del w v ∈ acts post → P.itemKey v ≠ k) →
      c'.srv.srv.leases k = some x := by
  refine run_induct _ (fun _ _ _ => hx) ?_
  intro post c₁ t c₂ hrun ih ht hlt hset hdel
  cases t with
  | tick =>
    rw [ticks_snoc_tick] at hlt
    simp only [acts_snoc_tick] at hset hdel
    have hsrv : c₂.srv.srv = c₁.srv.srv := congrArg Config.srv (exec_tick _ _ ht).1
    rw [hsrv]
    exact ih (by omega) hset hdel
  | act e =>
    rw [ticks_snoc_act] at hlt
    simp only [acts_snoc_act, List.mem_append, List.mem_singleton] at hset hdel
    have hkeep := ih hlt (fun w v h => hset w v (.inl h)) (fun w v h => hdel w v (.inl h))
    obtain ⟨hs, hdue, -, -⟩ := serve_act _ _ (exec_serve _ ht)
    rcases serve_leases hs with hl | ⟨w, v, rfl, hl⟩ | ⟨w, v, rfl, hl⟩ | ⟨k', rfl, hl⟩
    · rw [hl]; exact hkeep
    · rw [hl, Function.update_of_ne (Ne.symm (hset w v (.inr rfl)))]
      exact hkeep
    · rw [hl, Function.update_of_ne (Ne.symm (hdel w v (.inr rfl)))]
      exact hkeep
    · -- an expiry of `k` would be too early
      have hk : k ≠ k' := by
        rintro rfl
        have hdl' := deadline_of_acts hrun fun w v he => hset w v (.inl he)
        have hnow := now_of_run _ _ _ _ hrun
        have hle : c₁.srv.deadline k ≤ c₁.srv.now := by
          simpa [Timers.due, leaseTimers] using hdue
        omega
      rw [hl, Function.update_of_ne hk]
      exact hkeep

end Kept

section Table
variable [DecidableEq W] [DecidableEq K] {P : Params W K} {dur : Durations W}
  {c : Config W (Clocked (Server K) K) Client} {tr : List (Timed (Ev W K))}

theorem ready_run (h : ((clients P).clocked (leaseTimers P dur)).run (atZero (ready .empty)) tr = some c) :
    (clients P).run (ready .empty) (acts tr) = some c.forget :=
  run_forget _ _ _ _ h

/-- After its `SETEX` for `v` no client executes a `SETEX` of the same key. -/
theorem setex_once (h : ((clients P).clocked (leaseTimers P dur)).run (atZero (ready .empty)) tr = some c)
    (hp : Proper P (acts tr)) {w : W} {v : Bytes} {pre post : List (Timed (Ev W K))}
    (htr : tr = pre ++ .act (.setex w v) :: post) {x : W} {u : Bytes} (hx : .setex x u ∈ acts post) :
    P.itemKey u ≠ P.itemKey v := by
  intro hku
  have hrun := ready_run h
  have hleased : (w, v) ∈ leased (acts tr) := mem_leased.2 (mem_acts.2 (by simp [htr]))
  have hhand := leased_handed _ _ hrun w v hleased
  have hx' : (x, u) ∈ leased (acts tr) := by
    rw [htr, acts_append, acts_cons_act]
    exact mem_leased.2 (by simp [hx])
  obtain ⟨rfl, rfl⟩ := handed_same_key hrun hp.collisionFree (hp.count_le v) hhand
    (leased_handed _ _ hrun x u hx') hku
  -- the same client would have leased the same item twice
  have hcount := leased_count_le hrun (hp.count_le u) (hp.nonempty u (handed_published hrun hhand)) (w := x)
  have hsplit : leased (acts tr) = leased (acts pre) ++ (x, u) :: leased (acts post) := by
    rw [htr, acts_append, acts_cons_act, leased, List.filterMap_append]
    rfl
  have hpos := List.count_pos_iff.2 (mem_leased.2 hx)
  rw [hsplit, List.count_append, List.count_cons_self] at hcount
  omega

/-- Only the client that was handed `v` deletes the key of `v`. -/
theorem del_own (h : ((clients P).clocked (leaseTimers P dur)).run (atZero (ready .empty)) tr = some c)
    (hp : Proper P (acts tr)) {w : W} {v : Bytes} (hhand : (w, v) ∈ handed (acts tr)) {x : W} {u : Bytes}
    (hx : (x, u) ∈ released (acts tr)) (hku : P.itemKey u = P.itemKey v) : x = w ∧ u = v := by
  have hrun := ready_run h
  have hxh := removed_handed hrun (released_removed hrun hx)
  exact handed_same_key hrun hp.collisionFree (hp.count_le v) hhand hxh hku

/-- **Own session**: no other step touches the key between a worker's `SETEX` and its `DEL`. -/
theorem live_of_setex (h : ((clients P).clocked (leaseTimers P dur)).run (atZero (ready .empty)) tr = some c)
    (hp : Proper P (acts tr)) {w : W} {v : Bytes} {pre post : List (Timed (Ev W K))}
    (htr : tr = pre ++ .act (.setex w v) :: post) (hr : (w, v) ∉ released (acts tr))
    (hlt : ticks post < (dur w v).1) : live c.srv (P.itemKey v) = some (P.session w) := by
  have hleased : (w, v) ∈ leased (acts tr) := mem_leased.2 (mem_acts.2 (by simp [htr]))
  have hhand := leased_handed _ _ (ready_run h) w v hleased
  have hset : ∀ x u, .setex x u ∈ acts post → P.itemKey u ≠ P.itemKey v :=
    fun x u hx => setex_once h hp htr hx
  have hdel : ∀ x u, .del x u ∈ acts post → P.itemKey u ≠ P.itemKey v := by
    intro x u hx hku
    have hx' : (x, u) ∈ released (acts tr) := by
      rw [htr, acts_append, acts_cons_act]
      exact mem_released.2 (by simp [hx])
    obtain ⟨rfl, rfl⟩ := del_own h hp hhand hx' hku
    exact hr hx'
  subst htr
  obtain ⟨c₀, -, hrest⟩ := (run_append _).1 h
  obtain ⟨c₁, hexec, hpost⟩ := (run_cons _).1 hrest
  obtain ⟨hs, -, hnow, hdl⟩ := serve_act _ _ (exec_serve _ hexec)
  have hx₁ : c₁.srv.srv.leases (P.itemKey v) = some (P.session w) := by
    have hs' : serve P c₀.srv.srv (.setex w v) = some c₁.srv.srv := hs
    rw [← Option.some.inj hs']
    simp [Server.setex]
  have hdl₁ : c₁.srv.deadline (P.itemKey v) = c₁.srv.now + (dur w v).1 := by
    rw [hdl, hnow]
    simp [Timers.armed, leaseTimers]
  have hdl' : c.srv.deadline (P.itemKey v) = c₁.srv.deadline (P.itemKey v) := deadline_of_acts hpost hset
  have hnow' := now_of_run _ _ _ _ hpost
  rw [live, if_pos (by omega)]
  exact leases_of_run hx₁ hdl₁ post c hpost hlt hset hdel

theorem leaseTable_of_run
    (h : ((clients P).clocked (leaseTimers P dur)).run (atZero (ready .empty)) tr = some c)
    (hp : Proper P (acts tr)) : LeaseTable P dur tr c.srv := by
  have hrun := ready_run h
  have h1 := hp.count_le
  refine ⟨fun k x hk => ?_, fun w v pre post htr hr hlt => ?_, fun w v hw hk => ?_, fun v hv hk => ?_⟩
  · obtain ⟨w, v, hl, hvk, hx⟩ := lease_origin _ _ hrun k x (leases_of_live hk)
    exact ⟨w, v, hvk, hx, handed_filter_once hrun (h1 v) (leased_handed _ _ hrun w v hl)⟩
  · exact live_of_setex h hp htr hr hlt
  · by_cases hrem : (w, v) ∈ removed (acts tr)
    · refine .inr ⟨hrem, fun hrel => hk ?_⟩
      have hgone : c.srv.srv.leases (P.itemKey v) = none := released_key_gone _ _ hrun hp w v hrel
      rw [live, hgone, ite_self]
    · exact .inl ((mem_processing_once hrun (h1 v)).2 ⟨w, (mem_inHand_once hrun (h1 v)).2 ⟨hw, hrem⟩⟩)
  · obtain ⟨w, hw⟩ := (mem_processing_once hrun (h1 v)).1 hv
    obtain ⟨hhand, hrem⟩ := (mem_inHand_once hrun (h1 v)).1 hw
    refine ⟨w, handed_filter_once hrun (h1 v) hhand, ?_⟩
    by_cases hl : (w, v) ∈ leased (acts tr)
    · obtain ⟨pre, post, htr⟩ := List.append_of_mem (mem_acts.1 (mem_leased.1 hl))
      refine .inr ⟨pre, post, htr, ?_⟩
      by_contra hlt
      have hlive := live_of_setex h hp htr
        (fun hrel => hrem (released_removed hrun hrel)) (Nat.lt_of_not_le hlt)
      rw [hk] at hlive
      cases hlive
    · exact .inl hl

end Table

/-- **The lease table**: any clients, in particular the workers of `daemon.py`, with crashes
and expiries at any time. -/
theorem lease_table [DecidableEq W] [DecidableEq K] (P : Params W K) (dur : Durations W)
    {tr : List (Timed (Ev W K))} (hp : Proper P (acts tr)) :
    (∀ c, ((clients P).clocked (leaseTimers P dur)).run (atZero (ready .empty)) tr = some c →
      LeaseTable P dur tr c.srv) ∧
    ∀ c, ((daemon P).clocked (leaseTimers P dur)).run (atZero start) tr = some c →
      LeaseTable P dur tr c.srv := by
  refine ⟨fun c h => leaseTable_of_run h hp, fun c h => ?_⟩
  exact leaseTable_of_run (((worker_is_client P).clocked (leaseTimers P dur)).run h) hp

/-- The lease of worker 0 runs out while it is still working. -/
def expiryRun : List (Timed (Ev Nat Bytes)) :=
  [.act (.rpush [97]), .act (.llen 0 .main 1), .act (.llen 0 .main 1), .act (.pop 0 (some [97])), .tick,
   .act (.setex 0 [97]), .tick, .tick, .act (.expire [97]), .act (.work 0 [97])]

theorem lease_table_expiryRun : ∃ c,
    ((daemon plainParams).clocked (leaseTimers plainParams fun _ _ => ⟨2, by decide⟩)).run (atZero start)
      expiryRun = some c ∧ LeaseTable plainParams (fun _ _ => ⟨2, by decide⟩) expiryRun c.srv := by
  obtain ⟨c, hc⟩ := Option.isSome_iff_exists.1 (show (((daemon plainParams).clocked
    (leaseTimers plainParams fun _ _ => ⟨2, by decide⟩)).run (atZero start) expiryRun).isSome = true from rfl)
  have hp : Proper plainParams (acts expiryRun) := ⟨by decide, by decide, fun _ _ _ _ h => h⟩
  exact ⟨c, hc, (lease_table plainParams _ hp).2 c hc⟩

end RedisQueue
