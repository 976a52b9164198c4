import RedisQueue.HandOver

/-!
# The lease keys

Every `SETEX` follows its client's pop and every `DEL` its client's `LREM`
(`lease_ledger`, `complete_ledger`). A live key therefore tells who set it
(`lease_origin`), and, for payloads pushed once under a hash without collisions, who
holds the item: `lease_holder`, `released_key_gone`.
-/
namespace RedisQueue
open Interleave

variable {W K : Type} {P : Params W K}

/-- No two payloads of the run have the same lease key. -/
def CollisionFree (P : Params W K) (tr : List (Ev W K)) : Prop :=
  ∀ u ∈ published tr, ∀ v ∈ published tr, P.itemKey u = P.itemKey v → u = v

/-- Payloads pairwise distinct, non-empty and with different lease keys. -/
structure Proper (P : Params W K) (tr : List (Ev W K)) : Prop where
  distinct : (published tr).Nodup
  nonempty : ∀ v ∈ published tr, v ≠ []
  collisionFree : CollisionFree P tr

theorem Proper.count_le {tr : List (Ev W K)} (h : Proper P tr) (v : Bytes) : (published tr).count v ≤ 1 :=
  List.nodup_iff_count_le_one.1 h.distinct v

theorem Proper.of_snoc {tr : List (Ev W K)} {e : Ev W K} (h : Proper P (tr ++ [e])) : Proper P tr where
  distinct := by
    have hd := h.distinct
    rw [published_snoc] at hd
    exact hd.of_append_left
  nonempty v hv := h.nonempty v (by simp [hv])
  collisionFree u hu v hv := h.collisionFree u (by simp [hu]) v (by simp [hv])

variable [DecidableEq W] [DecidableEq K]

section Ledgers
variable {tr : List (Ev W K)} {c c' : Config W (Server K) Client}

/-- A lease that has popped has set its key, or is about to. -/
theorem lease_ledger (w : W) {v : Bytes} (hv : v ≠ []) (h : (clients P).run c tr = some c') :
    (if (c.loc w).mode = .leasing v then 1 else 0) + (handed tr).count (w, v) =
      (if (c'.loc w).mode = .leasing v then 1 else 0) + (leased tr).count (w, v) := by
  refine observed_ledger (clients P) w v (fun l => if l.mode = .leasing v then 1 else 0) hands_who sets_who
    (fun l e l' hw hm => ?_) h
  cases client_move_iff.1 hm with
  | popEmpty h x => cases hw; simp [Ev.hands, Ev.sets, hv.symm]
  | pop h x u hu =>
    cases hw
    by_cases huv : u = v <;> simp [Ev.hands, Ev.sets, huv]
  | setex h x u =>
    cases hw
    by_cases huv : u = v <;> simp [Ev.hands, Ev.sets, huv]
  | _ => rfl

/-- A completion that has removed its item has deleted the key, or is about to. -/
theorem complete_ledger (w : W) (v : Bytes) (h : (clients P).run c tr = some c') :
    (if (c.loc w).mode = .completing v then 1 else 0) + (removed tr).count (w, v) =
      (if (c'.loc w).mode = .completing v then 1 else 0) + (released tr).count (w, v) := by
  refine observed_ledger (clients P) w v (fun l => if l.mode = .completing v then 1 else 0) removes_who
    dels_who (fun l e l' hw hm => ?_) h
  cases client_move_iff.1 hm with
  | lrem h x u n hu =>
    cases hw
    by_cases huv : u = v <;> simp [Ev.removes, Ev.dels, huv]
  | del h x u =>
    cases hw
    by_cases huv : u = v <;> simp [Ev.removes, Ev.dels, huv]
  | _ => rfl

end Ledgers

section Origin
variable {tr : List (Ev W K)} {c : Config W (Server K) Client} {w : W} {v : Bytes}

theorem released_removed (h : (clients P).run (ready .empty) tr = some c)
    (hr : (w, v) ∈ released tr) : (w, v) ∈ removed tr := by
  have hl := complete_ledger w v h
  have := List.count_pos_iff.2 hr
  refine List.count_pos_iff.1 ?_
  simp [ready] at hl
  omega

theorem removed_of_completing (h : (clients P).run (ready .empty) tr = some c)
    (hm : (c.loc w).mode = .completing v) : (w, v) ∈ removed tr := by
  have hl := complete_ledger w v h
  refine List.count_pos_iff.1 ?_
  simp [ready, hm] at hl
  omega

/-- Only a client that was handed the item sets its key. -/
theorem leased_handed : ∀ tr c, (clients P).run (ready .empty) tr = some c →
    ∀ w v, (w, v) ∈ leased tr → (w, v) ∈ handed tr := by
  refine run_induct (clients P) (by simp [leased]) ?_
  intro tr c e c' hrun ih he w v hl
  rw [leased_snoc, List.mem_append] at hl
  rw [handed_snoc, List.mem_append]
  rcases hl with hl | hl
  · exact .inl (ih w v hl)
  · cases e with
    | setex x u =>
      obtain ⟨rfl, rfl⟩ : x = w ∧ u = v := by simpa [Ev.sets, eq_comm] using hl
      exact .inl (handed_of_inHand hrun (inHand_of_setex (exec_move (clients P) rfl he)))
    | _ => simp [Ev.sets] at hl

/-- A payload pushed once is leased once. -/
theorem leased_count_le (h : (clients P).run (ready .empty) tr = some c)
    (h1 : (published tr).count v ≤ 1) (hv : v ≠ []) : (leased tr).count (w, v) ≤ 1 := by
  have hl := lease_ledger w hv h
  have hle : (handed tr).count (w, v) ≤ ((handed tr).map Prod.snd).count v :=
    List.count_le_count_map (f := Prod.snd)
  have := handed_count_le h h1
  simp [ready] at hl
  omega

/-- A live key was set by the `SETEX` of some lease, and holds that worker's session. -/
theorem lease_origin : ∀ tr c, (clients P).run (ready .empty) tr = some c →
    ∀ k x, c.srv.leases k = some x → ∃ w v, (w, v) ∈ leased tr ∧ P.itemKey v = k ∧ x = P.session w := by
  refine run_induct (clients P) (by simp [ready, Server.empty]) ?_
  intro tr c e c' hrun ih he k x hk
  have hkeep : c.srv.leases k = some x →
      ∃ w v, (w, v) ∈ leased (tr ++ [e]) ∧ P.itemKey v = k ∧ x = P.session w := by
    intro hk
    obtain ⟨w, v, hw, hkey, hx⟩ := ih k x hk
    exact ⟨w, v, by rw [leased_snoc]; exact List.mem_append_left _ hw, hkey, hx⟩
  rcases serve_leases (exec_serve (clients P) he) with
    hl | ⟨w, v, rfl, hl⟩ | ⟨w, v, rfl, hl⟩ | ⟨k', rfl, hl⟩
  · exact hkeep (hl ▸ hk)
  · rw [hl, Function.update_apply] at hk
    by_cases hkey : k = P.itemKey v
    · rw [if_pos hkey] at hk
      cases hk
      exact ⟨w, v, by simp [Ev.sets], hkey.symm, rfl⟩
    · rw [if_neg hkey] at hk
      exact hkeep hk
  · rw [hl, Function.update_apply] at hk
    split at hk
    · cases hk
    · exact hkeep hk
  · rw [hl, Function.update_apply] at hk
    split at hk
    · cases hk
    · exact hkeep hk

/-- **The holder of a live key**: for a payload pushed once it is the one client the item
was handed to. -/
theorem lease_holder (h : (clients P).run (ready .empty) tr = some c) (hkey : CollisionFree P tr)
    (h1 : (published tr).count v ≤ 1) (hw : (w, v) ∈ handed tr) {x : Bytes}
    (hx : c.srv.leases (P.itemKey v) = some x) : (w, v) ∈ leased tr ∧ x = P.session w := by
  obtain ⟨w', u, hl, hku, rfl⟩ := lease_origin tr c h _ _ hx
  have hu := leased_handed tr c h w' u hl
  obtain rfl := hkey u (handed_published h hu) v (handed_published h hw) hku
  obtain rfl := handed_unique h h1 hw hu
  exact ⟨hl, rfl⟩

/-- Two payloads handed out under one key are one payload, handed to one client. -/
theorem handed_same_key {w' : W} {u : Bytes} (h : (clients P).run (ready .empty) tr = some c)
    (hkey : CollisionFree P tr) (h1 : (published tr).count v ≤ 1) (hw : (w, v) ∈ handed tr)
    (hw' : (w', u) ∈ handed tr) (hku : P.itemKey u = P.itemKey v) : w' = w ∧ u = v := by
  obtain rfl := hkey u (handed_published h hw') v (handed_published h hw) hku
  exact ⟨handed_unique h h1 hw' hw, rfl⟩

/-- A key that was deleted stays deleted. -/
theorem released_key_gone : ∀ tr c, (clients P).run (ready .empty) tr = some c → Proper P tr →
    ∀ w v, (w, v) ∈ released tr → c.srv.leases (P.itemKey v) = none := by
  refine run_induct (clients P) (by simp [released]) ?_
  intro tr c e c' hrun ih he hp w v hr
  by_cases hdel : e = .del w v
  · subst hdel
    have hs : serve P c.srv (.del w v) = some c'.srv := exec_serve (clients P) he
    rw [← Option.some.inj hs]
    simp [Server.delete]
  · have hr' : (w, v) ∈ released tr := by
      rcases List.mem_append.1 (mem_released.1 hr) with h | h
      · exact mem_released.2 h
      · exact absurd (List.mem_singleton.1 h).symm hdel
    have hgone := ih hp.of_snoc w v hr'
    rcases serve_leases (exec_serve (clients P) he) with
      hl | ⟨x, u, rfl, hl⟩ | ⟨x, u, rfl, hl⟩ | ⟨k, rfl, hl⟩
    · rw [hl]; exact hgone
    · have hku : P.itemKey v ≠ P.itemKey u := by
        intro hku
        have hw := removed_handed hrun (released_removed hrun hr')
        have hhand : u ∈ (c.loc x).inHand := inHand_of_setex (exec_move (clients P) rfl he)
        have hx := handed_of_inHand hrun hhand
        obtain ⟨rfl, rfl⟩ := handed_same_key hrun hp.of_snoc.collisionFree (hp.of_snoc.count_le u) hx hw hku
        exact not_removed_of_inHand hrun (hp.of_snoc.count_le v) hhand (released_removed hrun hr')
      rw [hl, Function.update_of_ne hku]
      exact hgone
    · rw [hl]; exact update_none _ hgone
    · rw [hl]; exact update_none _ hgone

end Origin

end RedisQueue
