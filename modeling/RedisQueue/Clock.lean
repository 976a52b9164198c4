import RedisQueue.Interleave

/-!
# A clock over a system of clients

`System.clocked` runs a system against a discrete clock. Some events arm a timer, some
happen only when a timer is due; the rest of the system does not see the time. The clocked
system is a system again, so the rules for runs apply to it.

* `run_forget`: without its ticks a clocked run is a run.
* `deadline_of_run`: a timer that is not armed again keeps its deadline.
* `LocalSim.clocked`: a simulation survives the clock.
-/
namespace Interleave

variable {W E σ L L' K : Type*}

inductive Timed (E : Type*) where
  | act (e : E)
  | tick

def acts (tr : List (Timed E)) : List E := tr.filterMap fun
  | .act e => some e
  | .tick => none

def ticks (tr : List (Timed E)) : Nat := tr.countP fun
  | .act _ => false
  | .tick => true

/-- `arms`: the timer an event sets, and for how long. `fires`: the timer that has to be due. -/
structure Timers (E K : Type*) where
  arms : E → Option (K × Nat)
  fires : E → Option K

structure Clocked (σ K : Type*) where
  srv : σ
  now : Nat
  deadline : K → Nat

section Clock
variable [DecidableEq K] (T : Timers E K)

def Timers.armed (now : Nat) (deadline : K → Nat) (e : E) : K → Nat :=
  match T.arms e with
  | none => deadline
  | some (k, d) => Function.update deadline k (now + d)

def Timers.due (now : Nat) (deadline : K → Nat) (e : E) : Bool :=
  (T.fires e).all fun k => deadline k ≤ now

def System.clocked (S : System W E σ L) : System W (Timed E) (Clocked σ K) L where
  who
    | .act e => S.who e
    | .tick => none
  serve s
    | .act e => if T.due s.now s.deadline e then
        (S.serve s.srv e).map fun s' => ⟨s', s.now, T.armed s.now s.deadline e⟩
      else none
    | .tick => some { s with now := s.now + 1 }
  move l
    | .act e => S.move l e
    | .tick => none

def Config.forget (c : Config W (Clocked σ K) L) : Config W σ L := ⟨c.srv.srv, c.loc⟩

@[simp] theorem acts_snoc_act (tr : List (Timed E)) (e : E) : acts (tr ++ [.act e]) = acts tr ++ [e] := by
  simp [acts]

@[simp] theorem acts_snoc_tick (tr : List (Timed E)) : acts (tr ++ [.tick]) = acts tr := by
  simp [acts]

@[simp] theorem ticks_snoc_act (tr : List (Timed E)) (e : E) : ticks (tr ++ [.act e]) = ticks tr := by
  simp [ticks]

@[simp] theorem ticks_snoc_tick (tr : List (Timed E)) : ticks (tr ++ [.tick]) = ticks tr + 1 := by
  simp [ticks]

theorem acts_append (xs ys : List (Timed E)) : acts (xs ++ ys) = acts xs ++ acts ys :=
  List.filterMap_append

theorem acts_cons_act (e : E) (tr : List (Timed E)) : acts (.act e :: tr) = e :: acts tr := rfl

theorem mem_acts {tr : List (Timed E)} {e : E} : e ∈ acts tr ↔ .act e ∈ tr := by
  rw [acts, List.mem_filterMap]
  constructor
  · rintro ⟨t, ht, he⟩
    cases t <;> cases he
    exact ht
  · intro h; exact ⟨_, h, rfl⟩

theorem serve_act (S : System W E σ L) {s s' : Clocked σ K} {e : E} (h : (S.clocked T).serve s (.act e) = some s') :
    S.serve s.srv e = some s'.srv ∧ T.due s.now s.deadline e = true ∧ s'.now = s.now ∧
      s'.deadline = T.armed s.now s.deadline e := by
  simp only [System.clocked, Option.ite_none_right_eq_some, Option.map_eq_some_iff] at h
  obtain ⟨hdue, s₁, hs, rfl⟩ := h
  exact ⟨hs, hdue, rfl, rfl⟩

theorem LocalSim.clocked {S : System W E σ L} {S' : System W E σ L'} {abs : L → L'} (hsim : LocalSim S S' abs) :
    LocalSim (S.clocked T) (S'.clocked T) abs where
  who t := by
    cases t with
    | act e => exact hsim.who e
    | tick => rfl
  serve s t s' h := by
    cases t with
    | act e =>
      simp only [System.clocked, Option.ite_none_right_eq_some, Option.map_eq_some_iff] at h ⊢
      obtain ⟨hdue, s₁, hs, he⟩ := h
      exact ⟨hdue, s₁, hsim.serve _ _ _ hs, he⟩
    | tick => exact h
  move l t l' h := by
    cases t with
    | act e => exact hsim.move l e l' h
    | tick => cases h

variable [DecidableEq W] (S : System W E σ L) {c c' : Config W (Clocked σ K) L} {tr : List (Timed E)}

theorem exec_act {e : E} (h : (S.clocked T).exec c (.act e) = some c') :
    S.exec c.forget e = some c'.forget := by
  obtain ⟨hs, -⟩ := serve_act T S (exec_serve _ h)
  cases hw : S.who e with
  | none => exact (exec_env S hw).2 ⟨hs, ((exec_env (S.clocked T) (e := .act e) hw).1 h).2⟩
  | some w =>
    obtain ⟨-, l, hl, hloc⟩ := (exec_client (S.clocked T) (e := .act e) hw).1 h
    exact (exec_client S hw).2 ⟨hs, l, hl, hloc⟩

theorem exec_tick (h : (S.clocked T).exec c .tick = some c') :
    c'.forget = c.forget ∧ c'.srv.now = c.srv.now + 1 ∧ c'.srv.deadline = c.srv.deadline := by
  obtain ⟨hs, hloc⟩ := (exec_env (S.clocked T) (e := .tick) rfl).1 h
  have hsrv := Option.some.inj hs
  rw [← hsrv]
  exact ⟨Config.ext (by simp only [Config.forget, ← hsrv]) hloc, rfl, rfl⟩

/-- Without its ticks a clocked run is a run. -/
theorem run_forget {c₀ : Config W (Clocked σ K) L} : ∀ tr c, (S.clocked T).run c₀ tr = some c →
    S.run c₀.forget (acts tr) = some c.forget := by
  refine run_induct (S.clocked T) rfl ?_
  intro tr c t c' _ ih ht
  cases t with
  | act e =>
    rw [acts_snoc_act]
    exact (run_snoc S).2 ⟨c.forget, ih, exec_act T S ht⟩
  | tick => rw [acts_snoc_tick, (exec_tick T S ht).1]; exact ih

theorem now_of_run {c₀ : Config W (Clocked σ K) L} : ∀ tr c, (S.clocked T).run c₀ tr = some c →
    c.srv.now = c₀.srv.now + ticks tr := by
  refine run_induct (S.clocked T) rfl ?_
  intro tr c t c' _ ih ht
  cases t with
  | act e =>
    obtain ⟨-, -, hnow, -⟩ := serve_act T S (exec_serve _ ht)
    rw [hnow, ih, ticks_snoc_act]
  | tick => rw [(exec_tick T S ht).2.1, ih, ticks_snoc_tick, Nat.add_assoc]

/-- A timer that is not armed again keeps its deadline. -/
theorem deadline_of_run {k : K} (h : (S.clocked T).run c tr = some c')
    (hk : ∀ e ∈ acts tr, ∀ d, T.arms e ≠ some (k, d)) : c'.srv.deadline k = c.srv.deadline k := by
  refine run_rel (S.clocked T) (R := fun c c' => c'.srv.deadline k = c.srv.deadline k)
    (p := fun t => ∀ e, t = .act e → ∀ d, T.arms e ≠ some (k, d)) (fun _ => rfl)
    (fun _ _ _ h1 h2 => h2.trans h1) ?_ (fun t ht e he => hk e (mem_acts.2 (he ▸ ht))) h
  intro c t c' hp ht
  cases t with
  | act e =>
    obtain ⟨-, -, -, hd⟩ := serve_act T S (exec_serve _ ht)
    rw [hd, Timers.armed]
    cases ha : T.arms e with
    | none => rfl
    | some p =>
      have hne : k ≠ p.1 := fun heq => hp e rfl p.2 (by rw [ha, heq])
      exact Function.update_of_ne hne _ _
  | tick => rw [(exec_tick T S ht).2.2]

end Clock

end Interleave
