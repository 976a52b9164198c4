import RedisQueue.Interleave
import RedisQueue.Redis

/-!
# Atomic events on one queue

Publishers, workers and the passing of time act on the server one Redis command at a
time. An `Ev` is one executed command together with its reply, a local step of a
worker, the crash of a worker, or the expiry of a lease key. A run is a list of events;
what has been published, handed out and removed is read off the run.

| here | there |
| --- | --- |
| `Ev.rpush` | `RPUSH` by some publisher (`publisher.py:21`) |
| `Ev.llen` | one half of `empty()` (`worker.py:47-48`) |
| `Ev.pop` | the `BRPOPLPUSH` of `lease`; `none` is the timeout, possible only on an empty main list |
| `Ev.setex` | the `SETEX` of `lease`; `lease` returns the item after it, or after the pop for `b""` |
| `Ev.work`, `Ev.raise` | `daemon.py:37-41`: the item is decoded and worked on, or decoding raises |
| `Ev.lrem`, `Ev.del` | the two commands of `complete` |
-/
namespace RedisQueue
open Interleave

/-- `crash w`: the process of `w` dies. `expire k`: the lease key `k` times out, which does
nothing when `k` is absent. -/
inductive Ev (W K : Type) where
  | rpush (v : Bytes)
  | llen (w : W) (q : QType) (n : Nat)
  | pop (w : W) (r : Option Bytes)
  | setex (w : W) (v : Bytes)
  | work (w : W) (v : Bytes)
  | raise (w : W) (v : Bytes)
  | lrem (w : W) (v : Bytes) (n : Nat)
  | del (w : W) (v : Bytes)
  | crash (w : W)
  | expire (k : K)
deriving DecidableEq

/-- `itemKey` is `_item_key`; every worker process has its own `session`. -/
structure Params (W K : Type) where
  itemKey : Bytes → K
  session : W → Bytes

variable {W K : Type}

def Ev.who : Ev W K → Option W
  | .rpush _ | .expire _ => none
  | .llen w _ _ | .pop w _ | .setex w _ | .work w _ | .raise w _ | .lrem w _ _ | .del w _
  | .crash w => some w

/-- The server's half of an event; a command only happens with the reply Redis gives. -/
def serve [DecidableEq K] (P : Params W K) (s : Server K) : Ev W K → Option (Server K)
  | .rpush v => some (s.rpush v)
  | .llen _ q n => if (s.queue q).length = n then some s else none
  | .pop _ r => if s.rpoplpush.1 = r then some s.rpoplpush.2 else none
  | .setex w v => some (s.setex (P.itemKey v) (P.session w))
  | .lrem _ v n => if s.processing.count v = n then some (s.lrem 0 v) else none
  | .del _ v => some (s.delete (P.itemKey v))
  | .expire k => some (s.delete k)
  | .work _ _ | .raise _ _ | .crash _ => some s

/-! What an event pushes, hands to a worker, works on and removes, and the lease key it sets or deletes. -/

def Ev.pushes : Ev W K → Option Bytes
  | .rpush v => some v
  | _ => none

def Ev.hands : Ev W K → Option (W × Bytes)
  | .pop w (some v) => some (w, v)
  | _ => none

def Ev.works : Ev W K → Option (W × Bytes)
  | .work w v => some (w, v)
  | _ => none

def Ev.removes : Ev W K → Option (W × Bytes)
  | .lrem w v _ => some (w, v)
  | _ => none

def Ev.sets : Ev W K → Option (W × Bytes)
  | .setex w v => some (w, v)
  | _ => none

def Ev.dels : Ev W K → Option (W × Bytes)
  | .del w v => some (w, v)
  | _ => none

theorem hands_who (e : Ev W K) (p : W × Bytes) (h : e.hands = some p) : e.who = some p.1 := by
  cases e with
  | pop w r => cases r <;> cases h; rfl
  | _ => cases h

theorem works_who (e : Ev W K) (p : W × Bytes) (h : e.works = some p) : e.who = some p.1 := by
  cases e <;> cases h; rfl

theorem removes_who (e : Ev W K) (p : W × Bytes) (h : e.removes = some p) : e.who = some p.1 := by
  cases e <;> cases h; rfl

theorem sets_who (e : Ev W K) (p : W × Bytes) (h : e.sets = some p) : e.who = some p.1 := by
  cases e <;> cases h; rfl

theorem dels_who (e : Ev W K) (p : W × Bytes) (h : e.dels = some p) : e.who = some p.1 := by
  cases e <;> cases h; rfl

section Serve
variable [DecidableEq K] {P : Params W K} {s s' : Server K} {w : W} {v : Bytes} {n : Nat}

@[simp] theorem serve_llen {q : QType} :
    serve P s (.llen w q n) = some s' ↔ (s.queue q).length = n ∧ s' = s := by
  simp only [serve, Option.ite_none_right_eq_some, Option.some.injEq, eq_comm (a := s)]

@[simp] theorem serve_pop_some : serve P s (.pop w (some v)) = some s' ↔
    ∃ l, s.main = l ++ [v] ∧ s' = { s with main := l, processing := v :: s.processing } := by
  simp only [serve, Option.ite_none_right_eq_some, Option.some.injEq]
  rcases List.eq_nil_or_concat s.main with hm | ⟨l, x, hm⟩
  · simp [rpoplpush_nil hm, hm]
  · rw [List.concat_eq_append] at hm
    rw [rpoplpush_snoc hm, hm]
    constructor
    · rintro ⟨hx, rfl⟩
      cases hx
      exact ⟨l, rfl, rfl⟩
    · rintro ⟨l', hl, rfl⟩
      obtain ⟨rfl, hx⟩ := List.append_inj' hl rfl
      cases hx
      exact ⟨rfl, rfl⟩

@[simp] theorem serve_pop_none : serve P s (.pop w none) = some s' ↔ s.main = [] ∧ s' = s := by
  simp only [serve, Option.ite_none_right_eq_some, Option.some.injEq]
  rcases List.eq_nil_or_concat s.main with hm | ⟨l, x, hm⟩
  · simp [rpoplpush_nil hm, hm, eq_comm]
  · rw [List.concat_eq_append] at hm
    simp [rpoplpush_snoc hm, hm]

@[simp] theorem serve_lrem :
    serve P s (.lrem w v n) = some s' ↔ s.processing.count v = n ∧ s' = s.lrem 0 v := by
  simp only [serve, Option.ite_none_right_eq_some, Option.some.injEq, eq_comm (a := s.lrem 0 v)]

/-- The lists change only by pushes, pops and removals. -/
theorem serve_lists {e : Ev W K} (h : serve P s e = some s') :
    (e.pushes = none ∧ e.hands = none ∧ e.removes = none ∧ s'.main = s.main ∧ s'.processing = s.processing) ∨
    (∃ v, e = .rpush v ∧ s'.main = s.main ++ [v] ∧ s'.processing = s.processing) ∨
    (∃ w v, e = .pop w (some v) ∧ s.main = s'.main ++ [v] ∧ s'.processing = v :: s.processing) ∨
    ∃ w v n, e = .lrem w v n ∧ s.processing.count v = n ∧ s'.main = s.main ∧
      s'.processing = s.processing.filter (· ≠ v) := by
  cases e with
  | rpush v => cases h; exact .inr (.inl ⟨v, rfl, rfl, rfl⟩)
  | llen w q n => obtain ⟨_, rfl⟩ := serve_llen.1 h; exact .inl ⟨rfl, rfl, rfl, rfl, rfl⟩
  | pop w r =>
    cases r with
    | none => obtain ⟨_, rfl⟩ := serve_pop_none.1 h; exact .inl ⟨rfl, rfl, rfl, rfl, rfl⟩
    | some v =>
      obtain ⟨l, hl, rfl⟩ := serve_pop_some.1 h
      exact .inr (.inr (.inl ⟨w, v, rfl, hl, rfl⟩))
  | lrem w v n =>
    obtain ⟨hn, rfl⟩ := serve_lrem.1 h
    exact .inr (.inr (.inr ⟨w, v, n, rfl, hn, rfl, rfl⟩))
  | setex w v => cases h; exact .inl ⟨rfl, rfl, rfl, rfl, rfl⟩
  | work w v => cases h; exact .inl ⟨rfl, rfl, rfl, rfl, rfl⟩
  | raise w v => cases h; exact .inl ⟨rfl, rfl, rfl, rfl, rfl⟩
  | del w v => cases h; exact .inl ⟨rfl, rfl, rfl, rfl, rfl⟩
  | crash w => cases h; exact .inl ⟨rfl, rfl, rfl, rfl, rfl⟩
  | expire k => cases h; exact .inl ⟨rfl, rfl, rfl, rfl, rfl⟩

/-- The lease table changes only by `SETEX`, `DEL` and expiry. -/
theorem serve_leases {e : Ev W K} (h : serve P s e = some s') :
    s'.leases = s.leases ∨
    (∃ w v, e = .setex w v ∧ s'.leases = Function.update s.leases (P.itemKey v) (some (P.session w))) ∨
    (∃ w v, e = .del w v ∧ s'.leases = Function.update s.leases (P.itemKey v) none) ∨
    ∃ k, e = .expire k ∧ s'.leases = Function.update s.leases k none := by
  cases e with
  | setex w v => cases h; exact .inr (.inl ⟨w, v, rfl, rfl⟩)
  | del w v => cases h; exact .inr (.inr (.inl ⟨w, v, rfl, rfl⟩))
  | expire k => cases h; exact .inr (.inr (.inr ⟨k, rfl, rfl⟩))
  | llen w q n => obtain ⟨_, rfl⟩ := serve_llen.1 h; exact .inl rfl
  | pop w r =>
    cases r with
    | none => obtain ⟨_, rfl⟩ := serve_pop_none.1 h; exact .inl rfl
    | some v => obtain ⟨l, _, rfl⟩ := serve_pop_some.1 h; exact .inl rfl
  | lrem w v n => obtain ⟨_, rfl⟩ := serve_lrem.1 h; exact .inl rfl
  | rpush v => cases h; exact .inl rfl
  | work w v => cases h; exact .inl rfl
  | raise w v => cases h; exact .inl rfl
  | crash w => cases h; exact .inl rfl

end Serve

/-! ## What a run did -/

/-- The payloads pushed, in order. -/
def published (tr : List (Ev W K)) : List Bytes := tr.filterMap Ev.pushes

/-- The payloads popped by `lease`, each with the worker it went to. -/
def handed (tr : List (Ev W K)) : List (W × Bytes) := tr.filterMap Ev.hands

/-- The payloads worked on. -/
def worked (tr : List (Ev W K)) : List (W × Bytes) := tr.filterMap Ev.works

/-- The `LREM`s executed. -/
def removed (tr : List (Ev W K)) : List (W × Bytes) := tr.filterMap Ev.removes

/-- The `SETEX`s executed. -/
def leased (tr : List (Ev W K)) : List (W × Bytes) := tr.filterMap Ev.sets

/-- The `DEL`s executed. -/
def released (tr : List (Ev W K)) : List (W × Bytes) := tr.filterMap Ev.dels

@[simp] theorem published_snoc (tr : List (Ev W K)) (e : Ev W K) :
    published (tr ++ [e]) = published tr ++ e.pushes.toList :=
  filterMap_snoc _ tr e

@[simp] theorem handed_snoc (tr : List (Ev W K)) (e : Ev W K) :
    handed (tr ++ [e]) = handed tr ++ e.hands.toList :=
  filterMap_snoc _ tr e

@[simp] theorem worked_snoc (tr : List (Ev W K)) (e : Ev W K) :
    worked (tr ++ [e]) = worked tr ++ e.works.toList :=
  filterMap_snoc _ tr e

@[simp] theorem removed_snoc (tr : List (Ev W K)) (e : Ev W K) :
    removed (tr ++ [e]) = removed tr ++ e.removes.toList :=
  filterMap_snoc _ tr e

@[simp] theorem leased_snoc (tr : List (Ev W K)) (e : Ev W K) :
    leased (tr ++ [e]) = leased tr ++ e.sets.toList :=
  filterMap_snoc _ tr e

@[simp] theorem released_snoc (tr : List (Ev W K)) (e : Ev W K) :
    released (tr ++ [e]) = released tr ++ e.dels.toList :=
  filterMap_snoc _ tr e

theorem mem_items {l : List (W × Bytes)} {v : Bytes} : v ∈ l.map Prod.snd ↔ ∃ w, (w, v) ∈ l := by
  simp

theorem published_eq_nil {tr : List (Ev W K)} : published tr = [] ↔ ∀ e ∈ tr, e.pushes = none :=
  List.filterMap_eq_nil_iff

theorem published_count_le (v : Bytes) (tr : List (Ev W K)) (e : Ev W K) :
    (published tr).count v ≤ (published (tr ++ [e])).count v := by
  rw [published_snoc, List.count_append]
  exact Nat.le_add_right _ _

theorem handed_items (tr : List (Ev W K)) :
    (handed tr).map Prod.snd = tr.filterMap fun e => e.hands.map Prod.snd := by
  rw [handed, List.map_filterMap]

theorem mem_handed {tr : List (Ev W K)} {w : W} {v : Bytes} :
    (w, v) ∈ handed tr ↔ .pop w (some v) ∈ tr := by
  rw [handed, List.mem_filterMap]
  constructor
  · rintro ⟨e, he, hv⟩
    cases e with
    | pop x r => cases r <;> cases hv; exact he
    | _ => cases hv
  · intro h; exact ⟨_, h, rfl⟩

theorem mem_leased {tr : List (Ev W K)} {w : W} {v : Bytes} :
    (w, v) ∈ leased tr ↔ .setex w v ∈ tr := by
  rw [leased, List.mem_filterMap]
  constructor
  · rintro ⟨e, he, hv⟩
    cases e <;> cases hv
    exact he
  · intro h; exact ⟨_, h, rfl⟩

theorem mem_released {tr : List (Ev W K)} {w : W} {v : Bytes} :
    (w, v) ∈ released tr ↔ .del w v ∈ tr := by
  rw [released, List.mem_filterMap]
  constructor
  · rintro ⟨e, he, hv⟩
    cases e <;> cases hv
    exact he
  · intro h; exact ⟨_, h, rfl⟩

end RedisQueue
