import RedisQueue.Leases

/-!
# What a completion removes

`complete(v)` addresses its item by value: `LREM` with count 0 removes every copy of
`v`, and the lease key is a hash of `v` (`worker.py:107-109`). For a payload pushed once
that is the caller's own entry and key. A restarted publisher pushes its payloads again;
then one worker's completion takes out the entry of another (`complete_not_confined`).
-/
namespace RedisQueue
open Interleave

variable {W K : Type} [DecidableEq W] [DecidableEq K]

/-- Every completion removes one entry and no foreign lease key, so the executed `LREM`s
account for what left the processing list. -/
def CompleteConfined (P : Params W K) : Prop :=
  ∀ tr c, (daemon P).run start tr = some c →
    (∀ w v n c', (daemon P).exec c (.lrem w v n) = some c' →
      c.srv.processing.Perm (v :: c'.srv.processing)) ∧
    (∀ w v c', (daemon P).exec c (.del w v) = some c' →
      ∀ x, c.srv.leases (P.itemKey v) = some x → x = P.session w) ∧
    ∀ v, (published tr).count v =
      c.srv.main.count v + c.srv.processing.count v + ((removed tr).map Prod.snd).count v

/-- The same payload pushed twice and handed to two workers; worker 0 completes first. -/
def duplicateRun : List (Ev Nat Bytes) :=
  [.rpush [97], .rpush [97], .llen 0 .main 2, .llen 1 .main 2, .llen 0 .main 2, .llen 1 .main 2,
   .pop 0 (some [97]), .setex 0 [97], .pop 1 (some [97]), .setex 1 [97], .work 0 [97], .work 1 [97],
   .lrem 0 [97] 2]

/-- One `LREM` has been executed, and two entries are gone. -/
theorem complete_not_confined : ¬ CompleteConfined plainParams := by
  intro h
  obtain ⟨c, hc, hm, hp⟩ : ∃ c, (daemon plainParams).run start duplicateRun = some c ∧
      c.srv.main = [] ∧ c.srv.processing = [] := ⟨_, rfl, rfl, rfl⟩
  have hcount := (h duplicateRun c hc).2.2 [97]
  rw [hm, hp] at hcount
  exact absurd hcount (by decide)

section Steps
variable {P : Params W K} {tr : List (Ev W K)} {c c' : Config W (Server K) Worker} {w : W} {v : Bytes} {n : Nat}

theorem srv_of_lrem (he : (daemon P).exec c (.lrem w v n) = some c') : n = c.srv.processing.count v ∧
    c'.srv = { c.srv with processing := c.srv.processing.filter (· ≠ v) } := by
  have hs : serve P c.srv (.lrem w v n) = some c'.srv := exec_serve (daemon P) he
  obtain ⟨hn, hs⟩ := serve_lrem.1 hs
  exact ⟨hn.symm, hs⟩

/-- Every payload is in main, in processing or among what the `LREM`s took out. -/
theorem took_ledger (h : (daemon P).run start tr = some c) (v : Bytes) : (published tr).count v =
    c.srv.main.count v + c.srv.processing.count v + (tr.map (Ev.took v)).sum := by
  have hc := client_run_of_daemon h
  have hmain := published_eq (v := v) hc
  have hproc := processing_ledger v hc
  simp [ready, Server.empty, Config.map] at hmain hproc
  omega

theorem removed_ledger (h : (daemon P).run start tr = some c) (h1 : (published tr).count v ≤ 1) :
    (published tr).count v =
      c.srv.main.count v + c.srv.processing.count v + ((removed tr).map Prod.snd).count v := by
  have hc := client_run_of_daemon h
  have hmain := published_eq (v := v) hc
  have hproc := processing_once tr _ hc h1
  simp only [Config.map] at hmain hproc
  omega

theorem lrem_takes_one (h : (daemon P).run start tr = some c) (h1 : (published tr).count v ≤ 1)
    (he : (daemon P).exec c (.lrem w v n) = some c') : c.srv.processing.Perm (v :: c'.srv.processing) := by
  have hmove := exec_move (clients P) (w := w) rfl ((worker_is_client P).exec he)
  have hone := processing_count_of_inHand (client_run_of_daemon h) h1 (inHand_of_lrem hmove)
  simp only [Config.map] at hone
  rw [(srv_of_lrem he).2]
  refine List.perm_iff_count.2 fun u => ?_
  by_cases huv : u = v
  · subst huv
    simp [hone, List.count_eq_zero]
  · simp [List.count_filter, huv, Ne.symm huv]

theorem del_own_session (h : (daemon P).run start tr = some c) (h1 : (published tr).count v ≤ 1)
    (hkey : CollisionFree P tr) (he : (daemon P).exec c (.del w v) = some c') {x : Bytes}
    (hx : c.srv.leases (P.itemKey v) = some x) : x = P.session w := by
  have hc := client_run_of_daemon h
  have hmove := exec_move (clients P) (w := w) rfl ((worker_is_client P).exec he)
  have hmode : ((c.map Worker.toClient).loc w).mode = .completing v := by
    generalize (c.map Worker.toClient).loc w = l at hmove
    generalize (c'.map Worker.toClient).loc w = l' at hmove
    cases client_move_iff.1 hmove with
    | del => rfl
  have hw := removed_handed hc (removed_of_completing hc hmode)
  exact (lease_holder hc hkey h1 hw hx).2

end Steps

/-- **Completion is by value.** An `LREM` of `v` removes every copy of `v` and nothing else,
a `DEL` only the key of `v`, and every payload is in main, in processing or among what the
`LREM`s took out. For a payload pushed once the completion is confined to the caller's lease. -/
theorem complete_spec (P : Params W K) {tr : List (Ev W K)} {c : Config W (Server K) Worker}
    (h : (daemon P).run start tr = some c) :
    (∀ v, (published tr).count v =
      c.srv.main.count v + c.srv.processing.count v + (tr.map (Ev.took v)).sum) ∧
    (∀ w v n c', (daemon P).exec c (.lrem w v n) = some c' →
      n = c.srv.processing.count v ∧ c'.srv = { c.srv with processing := c.srv.processing.filter (· ≠ v) }) ∧
    (∀ w v c', (daemon P).exec c (.del w v) = some c' →
      c'.srv = { c.srv with leases := Function.update c.srv.leases (P.itemKey v) none }) ∧
    ∀ v, (published tr).count v ≤ 1 →
      (published tr).count v =
        c.srv.main.count v + c.srv.processing.count v + ((removed tr).map Prod.snd).count v ∧
      (∀ w n c', (daemon P).exec c (.lrem w v n) = some c' →
        c.srv.processing.Perm (v :: c'.srv.processing)) ∧
      (CollisionFree P tr → ∀ w c', (daemon P).exec c (.del w v) = some c' →
        ∀ x, c.srv.leases (P.itemKey v) = some x → x = P.session w) := by
  refine ⟨took_ledger h, fun _ _ _ _ he => srv_of_lrem he, fun w v c' he => ?_, fun v h1 => ?_⟩
  · have hs := exec_serve (daemon P) he
    exact (Option.some.inj hs).symm
  · exact ⟨removed_ledger h h1, fun _ _ _ he => lrem_takes_one h h1 he,
      fun hkey _ _ he _ hx => del_own_session h h1 hkey he hx⟩

theorem complete_spec_duplicateRun : ∃ c, (daemon plainParams).run start duplicateRun = some c ∧
    (published duplicateRun).count [97] = c.srv.main.count [97] + c.srv.processing.count [97] +
      (duplicateRun.map (Ev.took [97])).sum := by
  obtain ⟨c, hc⟩ : ∃ c, (daemon plainParams).run start duplicateRun = some c := ⟨_, rfl⟩
  exact ⟨c, hc, (complete_spec plainParams hc).1 [97]⟩

end RedisQueue
