import Mathlib.Data.List.Nodup
import RedisQueue.Client

/-!
# Exclusive hand-over

`LREM` removes by value, so what a completion does depends on whether its payload was
pushed once or more often.

* A payload pushed at most once is handed to at most one client, and is in the
  processing list exactly between its pop and that client's `LREM` (`processing_once`,
  `mem_inHand_once`). `exclusive_hand_over` puts this together for the workers.
* A payload pushed twice can be in the hands of two workers at once; see `Complete.lean`.
-/
namespace RedisQueue
open Interleave

variable {W K : Type} [DecidableEq W] [DecidableEq K] {P : Params W K}

section Once
variable {tr : List (Ev W K)} {c : Config W (Server K) Client} {v : Bytes}

theorem published_eq (h : (clients P).run (ready .empty) tr = some c) :
    (published tr).count v = c.srv.main.count v + ((handed tr).map Prod.snd).count v := by
  have := main_ledger v h
  simpa [ready, Server.empty] using this

theorem handed_eq (w : W) (h : (clients P).run (ready .empty) tr = some c) :
    (handed tr).count (w, v) = (c.loc w).inHand.count v + (removed tr).count (w, v) := by
  have := hand_ledger w v h
  simpa [ready, Client.inHand] using this

theorem handed_published {w : W} (h : (clients P).run (ready .empty) tr = some c)
    (hw : (w, v) ∈ handed tr) : v ∈ published tr := by
  have hv : v ∈ (handed tr).map Prod.snd := mem_items.2 ⟨w, hw⟩
  have := List.count_pos_iff.2 hv
  have := published_eq (v := v) h
  exact List.count_pos_iff.1 (by omega)

theorem removed_handed {w : W} (h : (clients P).run (ready .empty) tr = some c)
    (hw : (w, v) ∈ removed tr) : (w, v) ∈ handed tr := by
  have := List.count_pos_iff.2 hw
  have := handed_eq (v := v) w h
  exact List.count_pos_iff.1 (by omega)

theorem handed_of_inHand {w : W} (h : (clients P).run (ready .empty) tr = some c)
    (hv : v ∈ (c.loc w).inHand) : (w, v) ∈ handed tr := by
  have := List.count_pos_iff.2 hv
  have := handed_eq (v := v) w h
  exact List.count_pos_iff.1 (by omega)

theorem handed_count_le (h : (clients P).run (ready .empty) tr = some c)
    (h1 : (published tr).count v ≤ 1) : ((handed tr).map Prod.snd).count v ≤ 1 := by
  have := published_eq (v := v) h
  omega

/-- A payload pushed once is handed out once, to the client it was handed to. -/
theorem handed_filter_once {w : W} (h : (clients P).run (ready .empty) tr = some c)
    (h1 : (published tr).count v ≤ 1) (hw : (w, v) ∈ handed tr) :
    (handed tr).filter (fun p => p.2 = v) = [(w, v)] := by
  have hcount := handed_count_le h h1
  rw [List.count_eq_countP, List.countP_map, List.countP_eq_length_filter] at hcount
  have hmem : (w, v) ∈ (handed tr).filter (fun p => p.2 = v) := by simpa using hw
  have hlen : ((handed tr).filter (fun p => p.2 = v)).length ≤ 1 := by
    simpa [Function.comp_def, beq_eq_decide] using hcount
  generalize (handed tr).filter (fun p => p.2 = v) = l at hlen hmem ⊢
  match l with
  | [] => cases hmem
  | [x] => rw [List.mem_singleton.1 hmem]
  | _ :: _ :: _ => simp at hlen

/-- A payload pushed once is handed to one client. -/
theorem handed_unique {w w' : W} (h : (clients P).run (ready .empty) tr = some c)
    (h1 : (published tr).count v ≤ 1) (hw : (w, v) ∈ handed tr) (hw' : (w', v) ∈ handed tr) : w = w' := by
  have hmem : (w', v) ∈ (handed tr).filter (fun p => p.2 = v) := by simpa using hw'
  rw [handed_filter_once h h1 hw, List.mem_singleton] at hmem
  exact (congrArg Prod.fst hmem).symm

/-- While a client has a payload pushed once in hand, nobody has removed it. -/
theorem not_removed_of_inHand {w w' : W} (h : (clients P).run (ready .empty) tr = some c)
    (h1 : (published tr).count v ≤ 1) (hv : v ∈ (c.loc w).inHand) : (w', v) ∉ removed tr := by
  intro hr
  have hw := handed_of_inHand h hv
  obtain rfl := handed_unique h h1 hw (removed_handed h hr)
  have hpos := List.count_pos_iff.2 hv
  have hpos' := List.count_pos_iff.2 hr
  have hle : (handed tr).count (w, v) ≤ ((handed tr).map Prod.snd).count v :=
    List.count_le_count_map (f := Prod.snd)
  have := handed_count_le h h1
  have := handed_eq (v := v) w h
  omega

/-- **The life of a payload pushed once**: popped, it is in the processing list until an
`LREM` of it. -/
theorem processing_once : ∀ tr c, (clients P).run (ready .empty) tr = some c →
    (published tr).count v ≤ 1 →
    c.srv.processing.count v + ((removed tr).map Prod.snd).count v = ((handed tr).map Prod.snd).count v := by
  refine run_induct (clients P) (fun _ => rfl) ?_
  intro tr c e c' hrun ih he h1
  have h1' := Nat.le_trans (published_count_le v tr e) h1
  have ih' := ih h1'
  simp only [handed_snoc, removed_snoc, List.map_append, List.count_append]
  rcases serve_lists (exec_serve (clients P) he) with
    ⟨_, h2, h3, _, hp⟩ | ⟨x, rfl, _, hp⟩ | ⟨w, x, rfl, _, hp⟩ | ⟨w, x, n, rfl, hn, _, hp⟩
  · simp [h2, h3, hp]; omega
  · simp [Ev.hands, Ev.removes, hp]; omega
  · simp [Ev.hands, Ev.removes, hp, List.count_cons]; omega
  · by_cases hx : x = v
    · subst hx
      have hhand := inHand_of_lrem (exec_move (clients P) (w := w) rfl he)
      have hnone : ((removed tr).map Prod.snd).count x = 0 := by
        refine List.count_eq_zero.2 fun hmem => ?_
        obtain ⟨w', hr⟩ := mem_items.1 hmem
        exact not_removed_of_inHand hrun h1' hhand hr
      have hone : ((handed tr).map Prod.snd).count x = 1 := by
        have hw : x ∈ (handed tr).map Prod.snd := mem_items.2 ⟨w, handed_of_inHand hrun hhand⟩
        have := List.count_pos_iff.2 hw
        have := handed_count_le hrun h1'
        omega
      have hgone : c'.srv.processing.count x = 0 := by simp [hp, List.count_eq_zero]
      simp [Ev.hands, Ev.removes, hgone, hnone, hone]
    · have hne : v ≠ x := fun e => hx e.symm
      simp [Ev.hands, Ev.removes, hp, hx, List.count_filter, hne]; omega

/-- A payload pushed once is in a client's hand exactly from its pop to its removal. -/
theorem mem_inHand_once {w : W} (h : (clients P).run (ready .empty) tr = some c)
    (h1 : (published tr).count v ≤ 1) :
    v ∈ (c.loc w).inHand ↔ (w, v) ∈ handed tr ∧ (w, v) ∉ removed tr := by
  constructor
  · intro hv; exact ⟨handed_of_inHand h hv, not_removed_of_inHand h h1 hv⟩
  · rintro ⟨hw, hr⟩
    have := List.count_pos_iff.2 hw
    have := List.count_eq_zero.2 hr
    have := handed_eq (v := v) w h
    exact List.count_pos_iff.1 (by omega)

/-- A payload pushed once that a client has in hand is once in the processing list. -/
theorem processing_count_of_inHand {w : W} (h : (clients P).run (ready .empty) tr = some c)
    (h1 : (published tr).count v ≤ 1) (hv : v ∈ (c.loc w).inHand) : c.srv.processing.count v = 1 := by
  have hbal := processing_once tr c h h1
  have hle := handed_count_le h h1
  have hm : v ∈ (handed tr).map Prod.snd := mem_items.2 ⟨w, handed_of_inHand h hv⟩
  have := List.count_pos_iff.2 hm
  have hnone : ((removed tr).map Prod.snd).count v = 0 := by
    refine List.count_eq_zero.2 fun hmem => ?_
    obtain ⟨w', hr⟩ := mem_items.1 hmem
    exact not_removed_of_inHand h h1 hv hr
  omega

/-- A payload pushed once is in the processing list exactly while some client has it in hand. -/
theorem mem_processing_once (h : (clients P).run (ready .empty) tr = some c)
    (h1 : (published tr).count v ≤ 1) :
    v ∈ c.srv.processing ↔ ∃ w, v ∈ (c.loc w).inHand := by
  constructor
  · intro hv
    have hbal := processing_once tr c h h1
    have hle := handed_count_le h h1
    have := List.count_pos_iff.2 hv
    have hpos : 0 < ((handed tr).map Prod.snd).count v := by omega
    obtain ⟨w, hw⟩ := mem_items.1 (List.count_pos_iff.1 hpos)
    refine ⟨w, (mem_inHand_once h h1).2 ⟨hw, fun hr => ?_⟩⟩
    have hm : v ∈ (removed tr).map Prod.snd := mem_items.2 ⟨w, hr⟩
    have := List.count_pos_iff.2 hm
    omega
  · rintro ⟨w, hv⟩
    have := processing_count_of_inHand h h1 hv
    exact List.count_pos_iff.1 (by omega)

end Once

/-! ## Workers: nothing is lost, nothing is handed out twice -/

/-- Where every payload of a run is, when no payload was pushed twice. -/
structure HandOver (tr : List (Ev W K)) (c : Config W (Server K) Worker) : Prop where
  /-- Published is the disjoint union of main, processing and removed. -/
  accounted : (published tr).Perm (c.srv.main ++ c.srv.processing ++ (removed tr).map Prod.snd)
  nodup : (c.srv.main ++ c.srv.processing ++ (removed tr).map Prod.snd).Nodup
  /-- No payload is handed out twice. -/
  once : ((handed tr).map Prod.snd).Nodup
  /-- An element of the processing list was handed to one worker, live or crashed, which
  still carries it. -/
  owner : ∀ v ∈ c.srv.processing, ∃ w, (handed tr).filter (fun p => p.2 = v) = [(w, v)] ∧
    (w, v) ∉ removed tr ∧ (c.loc w).pc.carries = some v
  /-- Conversely, what a worker was handed and has not removed it carries, and it is in the
  processing list. -/
  kept : ∀ w v, (w, v) ∈ handed tr → (w, v) ∉ removed tr →
    (c.loc w).pc.carries = some v ∧ v ∈ c.srv.processing

/-- **Exclusive hand-over without loss**: any workers and publishers, any interleaving,
crashes between any two commands, leases expiring at any time. -/
theorem exclusive_hand_over (P : Params W K) {tr : List (Ev W K)} {c : Config W (Server K) Worker}
    (h : (daemon P).run start tr = some c) (hd : (published tr).Nodup) : HandOver tr c := by
  have hc := client_run_of_daemon h
  have h1 : ∀ v, (published tr).count v ≤ 1 := List.nodup_iff_count_le_one.1 hd
  have hperm : (published tr).Perm (c.srv.main ++ c.srv.processing ++ (removed tr).map Prod.snd) := by
    refine List.perm_iff_count.2 fun v => ?_
    have hmain := published_eq (v := v) hc
    have hproc := processing_once tr _ hc (h1 v)
    simp only [Config.map] at hmain hproc
    rw [List.count_append, List.count_append]
    omega
  have honce : ((handed tr).map Prod.snd).Nodup :=
    List.nodup_iff_count_le_one.2 fun v => handed_count_le hc (h1 v)
  refine ⟨hperm, hperm.nodup_iff.1 hd, honce, fun v hv => ?_, fun w v hw hr => ?_⟩
  · obtain ⟨w, hw⟩ := (mem_processing_once hc (h1 v)).1 hv
    obtain ⟨hhand, hrem⟩ := (mem_inHand_once hc (h1 v)).1 hw
    exact ⟨w, handed_filter_once hc (h1 v) hhand, hrem, mem_toClient_inHand.1 hw⟩
  · have hv := (mem_inHand_once (w := w) hc (h1 v)).2 ⟨hw, hr⟩
    exact ⟨mem_toClient_inHand.1 hv, (mem_processing_once hc (h1 v)).2 ⟨w, hv⟩⟩

/-- A hash without collisions, and the worker's number as its session. -/
def plainParams : Params Nat Bytes := ⟨id, fun w => [w.toUInt8]⟩

/-- Two payloads, the worker 0 crashing between its pop and its `SETEX`. -/
def crashRun : List (Ev Nat Bytes) :=
  [.rpush [97], .rpush [98], .llen 0 .main 2, .llen 1 .main 2, .llen 0 .main 2, .llen 1 .main 2,
   .pop 0 (some [98]), .crash 0, .pop 1 (some [97]), .setex 1 [97], .expire [97], .work 1 [97],
   .lrem 1 [97] 1]

theorem exclusive_hand_over_crashRun :
    ∃ c, (daemon plainParams).run start crashRun = some c ∧ HandOver crashRun c :=
  ⟨_, rfl, exclusive_hand_over plainParams rfl (by decide)⟩

end RedisQueue
