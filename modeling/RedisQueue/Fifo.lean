import RedisQueue.HandOver

/-!
# The order of hand-over

Publishers push to the right end of the main list (`publisher.py:21`, `publisher.cpp:8`)
and `lease` pops from the right end (`worker.py:87-93`, `subscriber.cpp:38-39`): the queue
is a stack. What is handed out first was pushed first exactly as long as no pop has a
choice (`fifo_iff`); with a backlog an item can be overtaken any number of times
(`overtaken_without_bound`).

What the lists hold depends on the events of the run only, not on the clients
(`serverAfter`), so this is about every kind of client.
-/
namespace RedisQueue
open Interleave

variable {W K : Type}

section After
variable [DecidableEq K] {P : Params W K} {tr pre post : List (Ev W K)} {e : Ev W K} {s : Server K} {v : Bytes}

/-- The server after the events of a run, from an empty queue. -/
def serverAfter (P : Params W K) (tr : List (Ev W K)) : Option (Server K) := tr.foldlM (serve P) .empty

theorem serverAfter_snoc :
    serverAfter P (tr ++ [e]) = some s ↔ ∃ s₀, serverAfter P tr = some s₀ ∧ serve P s₀ e = some s := by
  simp [serverAfter, List.foldlM_append, Option.bind_eq_some_iff]

/-- Any system over `serve` leaves the server its events leave. -/
theorem serverAfter_of_run [DecidableEq W] {L : Type} {S : System W (Ev W K) (Server K) L}
    (hS : S.serve = serve P) {c c' : Config W (Server K) L} (hc : c.srv = .empty) (h : S.run c tr = some c') :
    serverAfter P tr = some c'.srv := by
  refine run_induct S (P := fun tr c' => serverAfter P tr = some c'.srv) ?_ ?_ tr c' h
  · rw [hc]; rfl
  · intro tr d e d' _ ih he
    exact serverAfter_snoc.2 ⟨d.srv, ih, hS ▸ exec_serve S he⟩

/-- The server before and after an event in the middle of a run. -/
theorem serverAfter_split (h : serverAfter P (pre ++ e :: post) = some s) :
    ∃ s₀ s₁, serverAfter P pre = some s₀ ∧ serve P s₀ e = some s₁ := by
  simp only [serverAfter, List.foldlM_append, List.foldlM_cons, Option.bind_eq_bind,
    Option.bind_eq_some_iff] at h
  obtain ⟨s₀, h₀, s₁, h₁, -⟩ := h
  exact ⟨s₀, s₁, h₀, h₁⟩

/-- What has been pushed is in the main list or has been popped. -/
theorem queued_eq (v : Bytes) : ∀ tr s, serverAfter P tr = some s →
    (published tr).count v = s.main.count v + ((handed tr).map Prod.snd).count v := by
  intro tr
  induction tr using List.reverseRecOn with
  | nil =>
    intro s h
    cases h
    rfl
  | append_singleton tr e ih =>
    intro s h
    obtain ⟨s₀, h₀, he⟩ := serverAfter_snoc.1 h
    have ih := ih s₀ h₀
    simp only [published_snoc, handed_snoc, List.map_append, List.count_append]
    rcases serve_lists he with ⟨h1, h2, _, hm, _⟩ | ⟨x, rfl, hm, _⟩ | ⟨w, x, rfl, hm, _⟩ | ⟨w, x, n, rfl, _, hm, _⟩
    · simp [h1, h2, hm]; omega
    · simp [Ev.pushes, Ev.hands, hm, List.count_append]; omega
    · rw [hm, List.count_append] at ih
      simp [Ev.pushes, Ev.hands]; omega
    · simp [Ev.pushes, Ev.hands, hm]; omega

/-- The main list is in the order of the pushes. -/
theorem main_sublist : ∀ tr s, serverAfter P tr = some s → s.main.Sublist (published tr) := by
  intro tr
  induction tr using List.reverseRecOn with
  | nil =>
    intro s h
    cases h
    exact List.Sublist.refl _
  | append_singleton tr e ih =>
    intro s h
    obtain ⟨s₀, h₀, he⟩ := serverAfter_snoc.1 h
    have ih := ih s₀ h₀
    rw [published_snoc]
    rcases serve_lists he with ⟨_, _, _, hm, _⟩ | ⟨x, rfl, hm, _⟩ | ⟨w, x, rfl, hm, _⟩ | ⟨w, x, n, rfl, _, hm, _⟩
    · rw [hm]; exact ih.trans (List.sublist_append_left _ _)
    · rw [hm]; exact ih.append (List.Sublist.refl _)
    · rw [hm] at ih
      exact ((List.sublist_append_left _ _).trans ih).trans (List.sublist_append_left _ _)
    · rw [hm]; exact ih.trans (List.sublist_append_left _ _)

/-- For a payload pushed once: it is in the main list until its pop. -/
theorem mem_main_once (h : serverAfter P tr = some s) (h1 : (published tr).count v ≤ 1)
    (hv : v ∈ published tr) : v ∈ s.main ↔ v ∉ (handed tr).map Prod.snd := by
  have hbal := queued_eq v tr s h
  have hpos := List.count_pos_iff.2 hv
  constructor
  · intro hm hh
    have := List.count_pos_iff.2 hm
    have := List.count_pos_iff.2 hh
    omega
  · intro hh
    have := List.count_eq_zero.2 hh
    exact List.count_pos_iff.1 (by omega)

end After

/-! ## First in, first out -/

/-- A payload pushed before one that has been handed out was handed out before it. -/
def FirstInFirstOut (tr : List (Ev W K)) : Prop :=
  ∀ a b, [a, b].Sublist (published tr) → b ∈ (handed tr).map Prod.snd →
    [a, b].Sublist ((handed tr).map Prod.snd)

/-- The queue of any clients is first-in first-out. -/
def QueueIsFifo [DecidableEq W] [DecidableEq K] (P : Params W K) : Prop :=
  ∀ tr c, (daemon P).run start tr = some c → (published tr).Nodup → FirstInFirstOut tr

/-- Every pop finds one element in the main list. -/
def NoBacklog [DecidableEq K] (P : Params W K) (tr : List (Ev W K)) : Prop :=
  ∀ pre w v post s, tr = pre ++ .pop w (some v) :: post → serverAfter P pre = some s → s.main = [v]

/-- What comes before `b` in `l ++ l'` is in `l` when the last `b` is. -/
theorem mem_left_of_pair {α : Type} {a b : α} {l l' : List α} (h : [a, b].Sublist (l ++ l')) (hb : b ∉ l') :
    a ∈ l := by
  obtain ⟨l₁, l₂, heq, h₁, h₂⟩ := List.sublist_append_iff.1 h
  cases l₁ with
  | nil =>
    rw [List.nil_append] at heq
    exact absurd (h₂.subset (by simp [← heq])) hb
  | cons x xs =>
    obtain ⟨rfl, -⟩ := List.cons.inj heq
    exact h₁.subset List.mem_cons_self

theorem handed_split {pre post : List (Ev W K)} {w : W} {v : Bytes} :
    (handed (pre ++ .pop w (some v) :: post)).map Prod.snd =
      (handed pre).map Prod.snd ++ v :: (handed post).map Prod.snd := by
  simp [handed, Ev.hands]

section Fifo
variable [DecidableEq K] {P : Params W K} {tr pre post : List (Ev W K)} {s : Server K} {w : W} {v : Bytes}

theorem handed_nodup (h : serverAfter P tr = some s) (hd : (published tr).Nodup) :
    ((handed tr).map Prod.snd).Nodup := by
  refine List.nodup_iff_count_le_one.2 fun v => ?_
  have := queued_eq v tr s h
  have := List.nodup_iff_count_le_one.1 hd v
  omega

/-- The middle of a run: the server at the pop, and what has been pushed until then. -/
theorem pop_split (h : serverAfter P (pre ++ .pop w (some v) :: post) = some s)
    (hd : (published (pre ++ .pop w (some v) :: post)).Nodup) :
    ∃ s₀ l, serverAfter P pre = some s₀ ∧ s₀.main = l ++ [v] ∧ (published pre).Nodup := by
  obtain ⟨s₀, s₁, h₀, hserve⟩ := serverAfter_split h
  obtain ⟨l, hm, -⟩ := serve_pop_some.1 hserve
  rw [published, List.filterMap_append] at hd
  exact ⟨s₀, l, h₀, hm, hd.of_append_left⟩

/-- A pop that leaves an older payload behind is out of order. -/
theorem noBacklog_of_fifo (h : serverAfter P tr = some s) (hd : (published tr).Nodup)
    (hf : FirstInFirstOut tr) : NoBacklog P tr := by
  rintro pre w v post t rfl ht
  obtain ⟨s₀, l, h₀, hm, hdpre⟩ := pop_split h hd
  obtain rfl : t = s₀ := Option.some.inj (ht.symm.trans h₀)
  rcases List.eq_nil_or_concat' l with rfl | ⟨l', u, rfl⟩
  · exact hm
  · exfalso
    have huv : [u, v].Sublist t.main := by
      rw [hm, List.append_assoc]
      exact List.sublist_append_right _ _
    have hpub := huv.trans (main_sublist _ _ h₀)
    have hne : u ≠ v := by simpa using hpub.nodup hdpre
    have hu : u ∉ (handed pre).map Prod.snd :=
      (mem_main_once h₀ (List.nodup_iff_count_le_one.1 hdpre u) (hpub.subset (by simp))).1
        (huv.subset (by simp))
    have hord := hf u v (hpub.trans (by rw [published, published, List.filterMap_append]; simp))
      (by rw [handed_split]; simp)
    have hnodup := handed_nodup h hd
    rw [handed_split] at hnodup
    have hlast : v ∉ (handed post).map Prod.snd := (List.nodup_cons.1 hnodup.of_append_right).1
    rw [handed_split, List.append_cons] at hord
    rcases List.mem_append.1 (mem_left_of_pair hord hlast) with h | h
    · exact hu h
    · exact hne (List.mem_singleton.1 h)

theorem fifo_of_noBacklog (h : serverAfter P tr = some s) (hd : (published tr).Nodup)
    (hn : NoBacklog P tr) : FirstInFirstOut tr := by
  intro a b hab hb
  obtain ⟨w, hw⟩ := mem_items.1 hb
  obtain ⟨pre, post, rfl⟩ := List.append_of_mem (mem_handed.1 hw)
  obtain ⟨s₀, l, h₀, hm, hdpre⟩ := pop_split h hd
  have hone := hn pre w b post s₀ rfl h₀
  have hbpre : b ∈ published pre := (main_sublist _ _ h₀).subset (by simp [hm])
  -- `a` was pushed before `b`, so it has been pushed too, and is not in the main list
  have hapre : a ∈ published pre := by
    rw [published, List.filterMap_append] at hab hd
    exact mem_left_of_pair hab fun hpost => List.disjoint_of_nodup_append hd hbpre hpost
  have hne : a ≠ b := by simpa using hab.nodup hd
  have ha : a ∈ (handed pre).map Prod.snd := by
    by_contra hnot
    have hmain := (mem_main_once h₀ (List.nodup_iff_count_le_one.1 hdpre a) hapre).2 hnot
    rw [hone, List.mem_singleton] at hmain
    exact hne hmain
  rw [handed_split]
  exact (List.singleton_sublist.2 ha).append (List.singleton_sublist.2 List.mem_cons_self)

end Fifo

/-! ## Overtaking -/

section Overtaken

/-- The item that is pushed and popped as number `i` after the first one. -/
def overtaker (i : Nat) : Bytes := List.replicate (i + 2) 98

/-- Worker `i` finds two elements and takes the newer one. -/
def overtake (i : Nat) : List (Ev Nat Bytes) :=
  [.rpush (overtaker i), .llen i .main 2, .llen i .main 2, .pop i (some (overtaker i))]

def overtakeRun (n : Nat) : List (Ev Nat Bytes) := .rpush [97] :: (List.range n).flatMap overtake

theorem overtakeRun_succ (n : Nat) : overtakeRun (n + 1) = overtakeRun n ++ overtake n := by
  simp [overtakeRun, List.range_succ]

theorem published_overtakeRun (n : Nat) : published (overtakeRun n) = [97] :: (List.range n).map overtaker := by
  induction n with
  | zero => rfl
  | succ n ih =>
    rw [overtakeRun_succ, published, List.filterMap_append, ← published, ih, List.range_succ, List.map_append]
    rfl

theorem handed_overtakeRun (n : Nat) : (handed (overtakeRun n)).map Prod.snd = (List.range n).map overtaker := by
  induction n with
  | zero => rfl
  | succ n ih =>
    rw [overtakeRun_succ, handed, List.filterMap_append, List.map_append, ← handed, ih, List.range_succ,
      List.map_append]
    rfl

theorem published_overtakeRun_nodup (n : Nat) : (published (overtakeRun n)).Nodup := by
  rw [published_overtakeRun, List.nodup_cons]
  refine ⟨fun h => ?_, List.nodup_range.map fun i j h => ?_⟩
  · obtain ⟨i, -, hi⟩ := List.mem_map.1 h
    simpa [overtaker] using congrArg List.length hi
  · simpa [overtaker] using congrArg List.length h

/-- A worker at its start overtakes the item in the main list. -/
theorem run_overtake {c : Config Nat (Server Bytes) Worker} {i : Nat} (hm : c.srv.main = [[97]])
    (hi : c.loc i = ⟨.probe false .main, true⟩) :
    ∃ c', (daemon plainParams).run c (overtake i) = some c' ∧ c'.srv.main = [[97]] ∧
      ∀ w, w ≠ i → c'.loc w = c.loc w := by
  have hmain : (c.srv.rpush (overtaker i)).main = [[97]] ++ [overtaker i] := by rw [Server.rpush, hm]
  have hlen : ((c.srv.rpush (overtaker i)).queue .main).length = 2 := by rw [Server.queue, hmain]; rfl
  have hpush : (daemon plainParams).exec c (.rpush (overtaker i)) = some ⟨c.srv.rpush (overtaker i), c.loc⟩ :=
    (exec_env (daemon plainParams) rfl).2 ⟨rfl, rfl⟩
  refine ⟨_, (run_cons _).2 ⟨_, hpush, (run_cons _).2 ⟨_, exec_step hi rfl (serve_llen.2 ⟨hlen, rfl⟩)
    (.probeMain false i 2), (run_cons _).2 ⟨_, exec_step (Function.update_self ..) rfl
    (serve_llen.2 ⟨hlen, rfl⟩) (.probeMain true i 2), (run_cons _).2 ⟨_, exec_pop (Function.update_self ..) hmain,
    rfl⟩⟩⟩⟩, rfl, fun w hw => ?_⟩
  simp only [Function.update_of_ne hw]

theorem run_overtakeRun (n : Nat) : ∃ c, (daemon plainParams).run start (overtakeRun n) = some c ∧
    c.srv.main = [[97]] ∧ ∀ w, n ≤ w → c.loc w = ⟨.probe false .main, true⟩ := by
  induction n with
  | zero => exact ⟨_, rfl, rfl, fun _ _ => rfl⟩
  | succ n ih =>
    obtain ⟨c, hc, hm, hw⟩ := ih
    obtain ⟨c', hc', hm', hframe⟩ := run_overtake hm (hw n (Nat.le_refl n))
    refine ⟨c', ?_, hm', fun w hle => ?_⟩
    · rw [overtakeRun_succ]
      exact (run_append _).2 ⟨c, hc, hc'⟩
    · rw [hframe w (by omega)]
      exact hw w (by omega)

end Overtaken

/-- **Overtaking without bound**: the first item pushed is still in the main list when `n` later
ones have been handed out. -/
theorem overtaken_without_bound (n : Nat) : ∃ c, (daemon plainParams).run start (overtakeRun n) = some c ∧
    (published (overtakeRun n)).Nodup ∧ (published (overtakeRun n)).head? = some [97] ∧
    (handed (overtakeRun n)).length = n ∧ [97] ∈ c.srv.main := by
  obtain ⟨c, hc, hm, -⟩ := run_overtakeRun n
  refine ⟨c, hc, published_overtakeRun_nodup n, by rw [published_overtakeRun]; rfl, ?_, by simp [hm]⟩
  have hlen := congrArg List.length (handed_overtakeRun n)
  simpa using hlen

/-- With two items in the main list the newer one goes first. -/
theorem queue_not_fifo : ¬ QueueIsFifo plainParams := by
  intro h
  obtain ⟨c, hc⟩ : ∃ c, (daemon plainParams).run start (overtakeRun 1) = some c := ⟨_, rfl⟩
  have hf := h _ c hc (by decide) [97] (overtaker 0) (by decide) (by decide)
  exact absurd hf (by decide)

/-- **When the queue is first-in first-out**: exactly in the runs without a backlog, whoever the
clients are, and for the workers of `daemon.py`. -/
theorem fifo_iff [DecidableEq W] [DecidableEq K] (P : Params W K) {tr : List (Ev W K)}
    (hd : (published tr).Nodup) :
    (∀ c, (clients P).run (ready .empty) tr = some c → (FirstInFirstOut tr ↔ NoBacklog P tr)) ∧
    ∀ c, (daemon P).run start tr = some c → (FirstInFirstOut tr ↔ NoBacklog P tr) := by
  have hiff : ∀ s, serverAfter P tr = some s → (FirstInFirstOut tr ↔ NoBacklog P tr) :=
    fun s hs => ⟨noBacklog_of_fifo hs hd, fifo_of_noBacklog hs hd⟩
  exact ⟨fun c h => hiff _ (serverAfter_of_run (S := clients P) rfl rfl h),
    fun c h => hiff _ (serverAfter_of_run (S := daemon P) rfl rfl h)⟩

/-- Worker 0 keeps up with the publisher. -/
def keepUpRun : List (Ev Nat Bytes) :=
  [.rpush [97], .llen 0 .main 1, .llen 0 .main 1, .pop 0 (some [97]), .rpush [98], .llen 1 .main 1,
   .llen 1 .main 1, .pop 1 (some [98])]

theorem noBacklog_keepUpRun : NoBacklog plainParams keepUpRun := by
  intro pre w v post s htr hs
  have htake : keepUpRun.take pre.length = pre := by rw [htr]; simp
  have hget : keepUpRun[pre.length]? = some (.pop w (some v)) := by rw [htr]; simp
  have hlt : pre.length < 8 := by
    have hlen := congrArg List.length htr
    simp [keepUpRun] at hlen
    omega
  rw [← htake] at hs
  generalize pre.length = n at hs hget hlt
  -- the two pops are at 3 and 7
  obtain ⟨rfl | rfl, hv⟩ : (n = 3 ∨ n = 7) ∧ (if n = 3 then [97] else [98]) = v := by
    match n, hlt, hget with
    | 3, _, h => cases h; decide
    | 7, _, h => cases h; decide
  · cases hs; rw [← hv]; rfl
  · cases hs; rw [← hv]; rfl

theorem fifo_iff_keepUpRun : FirstInFirstOut keepUpRun := by
  obtain ⟨c, hc⟩ : ∃ c, (daemon plainParams).run start keepUpRun = some c := ⟨_, rfl⟩
  exact ((fifo_iff plainParams (by decide)).2 c hc).2 noBacklog_keepUpRun

end RedisQueue
