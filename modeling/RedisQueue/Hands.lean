import RedisQueue.HandOver

/-!
# What any worker of the queue has in its hands

`HandOver.lean` follows the items of one kind of worker. The repository has several, and they
differ in their loops only: each pops with `BRPOPLPUSH`, sets a lease, and completes with
`LREM` and `DEL`. Here `L` is the local state of any of them.

* `processing_held`: an element of the processing list is in somebody's hands, live or dead,
  since an `LREM` takes out all copies of what its worker holds.
* `ClientLike`: the worker is a client of `Client.lean` as long as no payload is empty; its runs
  are the clients' runs, and `accounted` says where every payload is.
-/
namespace RedisQueue
open Interleave

variable {W K L : Type}

/-- Clients of one queue: the lists change only by pushes, pops and removals. -/
structure OnQueue (S : System W (Ev W K) (Server K) L) : Prop where
  who : S.who = Ev.who
  lists : ∀ s e s', S.serve s e = some s' →
    (e.pushes = none ∧ e.hands = none ∧ e.removes = none ∧ s'.main = s.main ∧ s'.processing = s.processing) ∨
    (∃ v, e = .rpush v ∧ s'.main = s.main ++ [v] ∧ s'.processing = s.processing) ∨
    (∃ w v, e = .pop w (some v) ∧ s.main = s'.main ++ [v] ∧ s'.processing = v :: s.processing) ∨
    ∃ w v n, e = .lrem w v n ∧ s.processing.count v = n ∧ s'.main = s.main ∧
      s'.processing = s.processing.filter (· ≠ v)

/-- Workers with the automaton `move` on one queue. -/
def workers [DecidableEq K] (move : L → Ev W K → Option L) (P : Params W K) :
    System W (Ev W K) (Server K) L where
  who := Ev.who
  serve := serve P
  move := move

theorem onQueue_workers [DecidableEq K] (move : L → Ev W K → Option L) (P : Params W K) :
    OnQueue (workers move P) := ⟨rfl, fun _ _ _ => serve_lists⟩

/-- Nothing comes into an empty main list but by a push. -/
theorem OnQueue.main_nil [DecidableEq W] {S : System W (Ev W K) (Server K) L} (hS : OnQueue S)
    {c c' : Config W (Server K) L} {e : Ev W K} (he : S.exec c e = some c') (hp : e.pushes = none)
    (hm : c.srv.main = []) : c'.srv.main = [] := by
  rcases hS.lists _ _ _ (exec_serve S he) with
    ⟨_, _, _, h, _⟩ | ⟨x, rfl, _, _⟩ | ⟨x, u, rfl, h, _⟩ | ⟨x, u, n, rfl, _, h, _⟩
  · exact h.trans hm
  · cases hp
  · rw [hm] at h; simp at h
  · exact h.trans hm

/-- Pushes come in and pops go out. -/
theorem OnQueue.main_ledger [DecidableEq W] {S : System W (Ev W K) (Server K) L} (hS : OnQueue S)
    {c c' : Config W (Server K) L} {tr : List (Ev W K)} (v : Bytes) (h : S.run c tr = some c') :
    c.srv.main.count v + (published tr).count v =
      c'.srv.main.count v + ((handed tr).map Prod.snd).count v := by
  rw [handed_items, published, count_filterMap, count_filterMap]
  refine server_ledger S (fun s => s.main.count v) _ _ (fun s e s' hs => ?_) h
  rcases hS.lists _ _ _ hs with ⟨hp, hh, _, hm, _⟩ | ⟨u, rfl, hm, _⟩ | ⟨w, u, rfl, hm, _⟩ | ⟨w, u, n, rfl, _, hm, _⟩
  · rw [hm, hp, hh]; rfl
  · rw [hm, List.count_append]; rfl
  · rw [hm, List.count_append]; rfl
  · rw [hm]; rfl

/-- What the hands of a worker do in a step: a popped item is in them, and only the worker's own
`LREM` takes one out. The items are those that are `ok`. -/
structure Holds (ok : Bytes → Prop) (move : L → Ev W K → Option L) (hands : L → List Bytes) : Prop where
  pop : ∀ l w v l', ok v → move l (.pop w (some v)) = some l' → v ∈ hands l'
  keep : ∀ l e l' u, move l e = some l' → u ∈ hands l → u ∈ hands l' ∨ ∃ w n, e = .lrem w u n

section Held
variable [DecidableEq W] {S : System W (Ev W K) (Server K) L} {c c' : Config W (Server K) L}
  {ok : Bytes → Prop} {hands : L → List Bytes} {e : Ev W K} {tr : List (Ev W K)}

/-- What is in the main list was there or has been pushed. -/
theorem main_ok_step (hS : OnQueue S) (he : S.exec c e = some c') (hp : ∀ v, e.pushes = some v → ok v)
    (hc : ∀ v ∈ c.srv.main, ok v) : ∀ v ∈ c'.srv.main, ok v := by
  intro v hv
  rcases hS.lists _ _ _ (exec_serve S he) with
    ⟨_, _, _, hm, _⟩ | ⟨x, rfl, hm, _⟩ | ⟨w, x, rfl, hm, _⟩ | ⟨w, x, n, rfl, _, hm, _⟩
  · exact hc v (hm ▸ hv)
  · rw [hm, List.mem_append, List.mem_singleton] at hv
    rcases hv with hv | rfl
    · exact hc v hv
    · exact hp v rfl
  · exact hc v (by rw [hm]; exact List.mem_append_left _ hv)
  · exact hc v (hm ▸ hv)

theorem popped_ok (hS : OnQueue S) {w : W} {v : Bytes} (he : S.exec c (.pop w (some v)) = some c')
    (hc : ∀ v ∈ c.srv.main, ok v) : ok v := by
  rcases hS.lists _ _ _ (exec_serve S he) with ⟨_, hh, _⟩ | ⟨x, hx, _⟩ | ⟨y, x, hx, hm, _⟩ | ⟨y, x, n, hx, _⟩
  · cases hh
  · cases hx
  · cases hx
    exact hc v (by rw [hm]; simp)
  · cases hx

theorem held_keep (hh : Holds ok S.move hands) (he : S.exec c e = some c') {u : Bytes}
    (hne : ∀ w n, e ≠ .lrem w u n) (hu : ∃ w, u ∈ hands (c.loc w)) : ∃ w, u ∈ hands (c'.loc w) := by
  obtain ⟨w, hw⟩ := hu
  refine ⟨w, ?_⟩
  by_cases hwho : S.who e = some w
  · refine (hh.keep _ e _ u (exec_move S hwho he) hw).resolve_right ?_
    rintro ⟨x, n, rfl⟩
    exact hne x n rfl
  · rw [exec_frame S hwho he]
    exact hw

theorem processing_held_step (hS : OnQueue S) (hh : Holds ok S.move hands) (he : S.exec c e = some c')
    (hok : ∀ v ∈ c.srv.main, ok v) (h : ∀ v ∈ c.srv.processing, ∃ w, v ∈ hands (c.loc w)) :
    ∀ v ∈ c'.srv.processing, ∃ w, v ∈ hands (c'.loc w) := by
  intro v hv
  rcases hS.lists _ _ _ (exec_serve S he) with
    ⟨_, _, hr, _, hp⟩ | ⟨x, rfl, _, hp⟩ | ⟨x, u, rfl, _, hp⟩ | ⟨x, u, n, rfl, _, _, hp⟩
  · exact held_keep hh he (fun w n h => by rw [h] at hr; cases hr) (h v (hp ▸ hv))
  · exact held_keep hh he (fun _ _ h => by cases h) (h v (hp ▸ hv))
  · rw [hp] at hv
    rcases List.mem_cons.1 hv with rfl | hv
    · exact ⟨x, hh.pop _ x v _ (popped_ok hS he hok) (exec_move S (by rw [hS.who]; rfl) he)⟩
    · exact held_keep hh he (fun _ _ h => by cases h) (h v hv)
  · rw [hp] at hv
    obtain ⟨hv, hne⟩ := List.mem_filter.1 hv
    refine held_keep hh he (fun w m h => ?_) (h v hv)
    cases h
    simp at hne

/-- **Nothing lies in the processing list alone**: what was put there in the run is in the hands of
a worker, which may have crashed. -/
theorem processing_held (hS : OnQueue S) (hh : Holds ok S.move hands) (h : S.run c tr = some c')
    (hok : ∀ v ∈ c.srv.main ++ published tr, ok v) (hc : ∀ v ∈ c.srv.processing, ∃ w, v ∈ hands (c.loc w)) :
    ∀ v ∈ c'.srv.processing, ∃ w, v ∈ hands (c'.loc w) := by
  have hpush : ∀ e ∈ tr, ∀ v, e.pushes = some v → ok v := fun e he v hv =>
    hok v (List.mem_append_right _ (List.mem_filterMap.2 ⟨e, he, hv⟩))
  refine (run_rel S (R := fun c c' => (∀ v ∈ c.srv.main, ok v) ∧
      (∀ v ∈ c.srv.processing, ∃ w, v ∈ hands (c.loc w)) →
      (∀ v ∈ c'.srv.main, ok v) ∧ ∀ v ∈ c'.srv.processing, ∃ w, v ∈ hands (c'.loc w))
    (p := fun e => ∀ v, e.pushes = some v → ok v) (fun _ h => h) (fun _ _ _ h1 h2 h => h2 (h1 h))
    (fun _ _ _ hp he h => ⟨main_ok_step hS he hp h.1, processing_held_step hS hh he h.1 h.2⟩) hpush h
    ⟨fun v hv => hok v (List.mem_append_left _ hv), hc⟩).2

end Held

/-! ## Workers that are clients -/

/-- `abs` maps the steps of a worker to those of a client, the pop of an empty payload apart: the
Python client gives it no lease, the C++ clients do. -/
structure ClientLike (move : L → Ev W K → Option L) (abs : L → Client) : Prop where
  move : ∀ l e l', move l e = some l' → (∀ w, e ≠ .pop w (some [])) → (abs l).move e = some (abs l')

section ClientLike
variable [DecidableEq W] [DecidableEq K] {P : Params W K} {move : L → Ev W K → Option L} {abs : L → Client}

theorem ClientLike.exec (hm : ClientLike move abs) {c c' : Config W (Server K) L} {e : Ev W K}
    (he : ∀ w, e ≠ .pop w (some [])) (h : (workers move P).exec c e = some c') :
    (clients P).exec (c.map abs) e = some (c'.map abs) := by
  cases hw : e.who with
  | none =>
    obtain ⟨hs, hl⟩ := (exec_env (workers move P) hw).1 h
    refine (exec_env (clients P) hw).2 ⟨hs, ?_⟩
    simp only [Config.map, hl]
  | some w =>
    obtain ⟨hs, l, hl, hloc⟩ := (exec_client (workers move P) hw).1 h
    refine (exec_client (clients P) hw).2 ⟨hs, abs l, hm.move _ e l hl he, ?_⟩
    funext x
    by_cases hx : x = w
    · subst hx; simp [Config.map, hloc]
    · simp [Config.map, hloc, hx]

/-- **Workers refine clients**: a run with non-empty payloads is the same run of clients. -/
theorem ClientLike.run (hm : ClientLike move abs) {c c' : Config W (Server K) L} {tr : List (Ev W K)}
    (h : (workers move P).run c tr = some c') (hc : [] ∉ c.srv.main) (hp : [] ∉ published tr) :
    (clients P).run (c.map abs) tr = some (c'.map abs) := by
  have hpush : ∀ e ∈ tr, ∀ v, e.pushes = some v → v ≠ [] := fun e he v hv h0 =>
    hp (List.mem_filterMap.2 ⟨e, he, h0 ▸ hv⟩)
  obtain ⟨d', hd', -, rfl⟩ := run_simulates (workers move P) (clients P) (f := fun e => [e])
    (R := fun c d => (∀ v ∈ c.srv.main, v ≠ []) ∧ d = c.map abs) (p := fun e => ∀ v, e.pushes = some v → v ≠ []) (by
      rintro c d e c' hp ⟨hc, rfl⟩ he
      have hne : ∀ w, e ≠ .pop w (some []) := by
        rintro w rfl
        exact popped_ok (onQueue_workers move P) he hc rfl
      exact ⟨_, (run_cons _).2 ⟨_, hm.exec hne he, rfl⟩, main_ok_step (onQueue_workers move P) he hp hc, rfl⟩)
    hpush ⟨fun v hv h0 => hc (h0 ▸ hv), rfl⟩ h
  rw [List.flatMap_singleton'] at hd'
  exact hd'

end ClientLike

/-- Where every payload of a run is, when no payload was pushed twice. -/
structure Accounted (tr : List (Ev W K)) (s : Server K) : Prop where
  /-- Published is the disjoint union of main, processing and removed. -/
  accounted : (published tr).Perm (s.main ++ s.processing ++ (removed tr).map Prod.snd)
  nodup : (s.main ++ s.processing ++ (removed tr).map Prod.snd).Nodup
  /-- No payload is handed out twice. -/
  once : ((handed tr).map Prod.snd).Nodup
  /-- An element of the processing list was handed to one worker, which has not removed it. -/
  owner : ∀ v ∈ s.processing, ∃ w, (handed tr).filter (fun p => p.2 = v) = [(w, v)] ∧ (w, v) ∉ removed tr
  /-- Only the worker an item was handed to removes it. -/
  remover : ∀ w v, (w, v) ∈ removed tr → (handed tr).filter (fun p => p.2 = v) = [(w, v)]

/-- **Clients lose nothing and share nothing.** -/
theorem accounted [DecidableEq W] [DecidableEq K] {P : Params W K} {tr : List (Ev W K)}
    {c : Config W (Server K) Client} (h : (clients P).run (ready .empty) tr = some c)
    (hd : (published tr).Nodup) : Accounted tr c.srv := by
  have h1 : ∀ v, (published tr).count v ≤ 1 := List.nodup_iff_count_le_one.1 hd
  have hperm : (published tr).Perm (c.srv.main ++ c.srv.processing ++ (removed tr).map Prod.snd) := by
    refine List.perm_iff_count.2 fun v => ?_
    have hmain := published_eq (v := v) h
    have hproc := processing_once tr _ h (h1 v)
    rw [List.count_append, List.count_append]
    omega
  refine ⟨hperm, hperm.nodup_iff.1 hd, List.nodup_iff_count_le_one.2 fun v => handed_count_le h (h1 v),
    fun v hv => ?_, fun w v hr => handed_filter_once h (h1 v) (removed_handed h hr)⟩
  obtain ⟨w, hw⟩ := (mem_processing_once h (h1 v)).1 hv
  obtain ⟨hhand, hrem⟩ := (mem_inHand_once h (h1 v)).1 hw
  exact ⟨w, handed_filter_once h (h1 v) hhand, hrem⟩

end RedisQueue
