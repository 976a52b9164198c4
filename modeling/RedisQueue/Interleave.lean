import Mathlib.Algebra.BigOperators.Group.Finset.Basic
import Mathlib.Algebra.GroupWithZero.Nat
import Mathlib.Data.List.Count
import Mathlib.Data.List.Forall2
import Mathlib.Data.List.Induction
import Mathlib.Logic.Function.Basic

/-!
# Clients interleaving over one server

A `System` is a server with a state `σ` and any number of clients `w : W`, each
with a local state in `L`. An event `e : E` is one atomic step: the server's half
is `serve`, and, when the event belongs to a client (`who e = some w`), that
client's half is `move`. Either half may refuse the event. A run is a list of
events executed one after another, so the runs are exactly the interleavings.

* `run_induct`: what holds at the start and survives every step holds after every
  run, with the run so far at hand.
* `System.Gets`, `reaches_sweep`: what a client can do by itself; what every client can do for itself, they
  can all do one after another.
* `server_ledger`, `client_ledger`, `observed_ledger`: an account that every server step
  (every step of one client) balances is balanced over a whole run.
* `LocalSim`: when the local automata simulate each other, so do the systems, run
  for run.
* `run_simulates`, `run_lifts`: a relation between two systems whose steps match, run for run;
  the clients and the events of the two may differ.
* `LocalMatch`: the same for a relation of local states, and events of another kind that match.
* `run_budget`, `run_conserves`: ranks of the server and of the clients that steps are paid from bound the
  steps of every run; what steps only move between them stays the same.
* `run_components`: when each step acts on one of many components, the runs are the interleavings of
  runs of the components.
-/
namespace Interleave

variable {W E σ L L' α : Type*}

structure System (W E σ L : Type*) where
  /-- The client an event belongs to; `none` is the environment. -/
  who : E → Option W
  /-- The server's half; `none` when the server would not do this (another reply). -/
  serve : σ → E → Option σ
  /-- The client's half; `none` when the client is not at this event. -/
  move : L → E → Option L

@[ext] structure Config (W σ L : Type*) where
  srv : σ
  loc : W → L

section Exec
variable [DecidableEq W] (S : System W E σ L)

/-- One atomic step. -/
def System.exec (c : Config W σ L) (e : E) : Option (Config W σ L) :=
  match S.serve c.srv e, S.who e with
  | none, _ => none
  | some s, none => some ⟨s, c.loc⟩
  | some s, some w => match S.move (c.loc w) e with
    | none => none
    | some l => some ⟨s, Function.update c.loc w l⟩

def System.run (c : Config W σ L) : List E → Option (Config W σ L)
  | [] => some c
  | e :: es => match S.exec c e with
    | none => none
    | some c' => System.run c' es

theorem exec_env {c c' : Config W σ L} {e : E} (hw : S.who e = none) :
    S.exec c e = some c' ↔ S.serve c.srv e = some c'.srv ∧ c'.loc = c.loc := by
  unfold System.exec
  rw [hw]
  cases hs : S.serve c.srv e with
  | none => simp
  | some s =>
    simp only [Option.some.injEq]
    constructor
    · rintro rfl; exact ⟨rfl, rfl⟩
    · rintro ⟨h1, h2⟩; exact Config.ext h1 h2.symm

theorem exec_client {c c' : Config W σ L} {e : E} {w : W} (hw : S.who e = some w) :
    S.exec c e = some c' ↔ S.serve c.srv e = some c'.srv ∧
      ∃ l, S.move (c.loc w) e = some l ∧ c'.loc = Function.update c.loc w l := by
  unfold System.exec
  rw [hw]
  cases hs : S.serve c.srv e with
  | none => simp
  | some s =>
    cases hm : S.move (c.loc w) e with
    | none => simp [hm]
    | some l =>
      simp only [hm, Option.some.injEq, exists_eq_left']
      constructor
      · rintro rfl; exact ⟨rfl, rfl⟩
      · rintro ⟨h1, h2⟩; exact Config.ext h1 h2.symm

theorem exec_serve {c c' : Config W σ L} {e : E} (h : S.exec c e = some c') :
    S.serve c.srv e = some c'.srv := by
  cases hw : S.who e with
  | none => exact ((exec_env S hw).1 h).1
  | some w => exact ((exec_client S hw).1 h).1

/-- The client that steps: its local state moves along the event. -/
theorem exec_move {c c' : Config W σ L} {e : E} {w : W} (hw : S.who e = some w)
    (h : S.exec c e = some c') : S.move (c.loc w) e = some (c'.loc w) := by
  obtain ⟨_, l, hl, he⟩ := (exec_client S hw).1 h
  rw [he, Function.update_self, hl]

/-- Every other client stays where it is. -/
theorem exec_frame {c c' : Config W σ L} {e : E} {w : W} (hw : S.who e ≠ some w)
    (h : S.exec c e = some c') : c'.loc w = c.loc w := by
  cases hx : S.who e with
  | none => rw [((exec_env S hx).1 h).2]
  | some x =>
    obtain ⟨_, l, _, he⟩ := (exec_client S hx).1 h
    have hne : w ≠ x := fun heq => hw (by rw [hx, heq])
    rw [he, Function.update_of_ne hne]

/-! ## Runs -/

@[simp] theorem run_nil (c : Config W σ L) : S.run c [] = some c := rfl

theorem run_cons {c c' : Config W σ L} {e : E} {es : List E} :
    S.run c (e :: es) = some c' ↔ ∃ d, S.exec c e = some d ∧ S.run d es = some c' := by
  rw [System.run]
  cases S.exec c e <;> simp

theorem run_append {xs ys : List E} : ∀ {c c' : Config W σ L},
    S.run c (xs ++ ys) = some c' ↔ ∃ d, S.run c xs = some d ∧ S.run d ys = some c' := by
  induction xs with
  | nil => intro c c'; simp
  | cons e es ih =>
    intro c c'
    rw [List.cons_append, run_cons]
    constructor
    · rintro ⟨d, hd, h⟩
      obtain ⟨d', h1, h2⟩ := ih.1 h
      exact ⟨d', (run_cons S).2 ⟨d, hd, h1⟩, h2⟩
    · rintro ⟨d', h1, h2⟩
      obtain ⟨d, hd, h⟩ := (run_cons S).1 h1
      exact ⟨d, hd, ih.2 ⟨d', h, h2⟩⟩

theorem run_snoc {c c' : Config W σ L} {es : List E} {e : E} :
    S.run c (es ++ [e]) = some c' ↔ ∃ d, S.run c es = some d ∧ S.exec d e = some c' := by
  rw [run_append]
  simp only [run_cons, run_nil, Option.some.injEq, exists_eq_right]

/-- **The run rule.** What holds of the empty run and is kept by every step holds of every run. -/
theorem run_induct {P : List E → Config W σ L → Prop} {c₀ : Config W σ L} (h0 : P [] c₀)
    (hstep : ∀ tr c e c', S.run c₀ tr = some c → P tr c → S.exec c e = some c' → P (tr ++ [e]) c') :
    ∀ tr c, S.run c₀ tr = some c → P tr c := by
  intro tr
  induction tr using List.reverseRecOn with
  | nil =>
    intro c h
    cases h
    exact h0
  | append_singleton tr e ih =>
    intro c h
    obtain ⟨d, hd, he⟩ := (run_snoc S).1 h
    exact hstep tr d e c hd (ih d hd) he

/-- A relation every step satisfies, closed under composition, relates the ends of every run. -/
theorem run_rel {R : Config W σ L → Config W σ L → Prop} {p : E → Prop} (hrefl : ∀ c, R c c)
    (htrans : ∀ a b c, R a b → R b c → R a c)
    (hstep : ∀ c e c', p e → S.exec c e = some c' → R c c') :
    ∀ {tr : List E} {c c' : Config W σ L}, (∀ e ∈ tr, p e) → S.run c tr = some c' → R c c' := by
  intro tr
  induction tr with
  | nil =>
    intro c c' _ h
    cases h
    exact hrefl c
  | cons e es ih =>
    intro c c' hp h
    obtain ⟨d, hd, h'⟩ := (run_cons S).1 h
    rw [List.forall_mem_cons] at hp
    exact htrans c d c' (hstep c e d hp.1 hd) (ih hp.2 h')

/-- A client that can take no step takes none. -/
theorem run_stuck {l : L} (hl : ∀ e, S.move l e = none) {w : W} : ∀ {tr : List E} {c c' : Config W σ L},
    S.run c tr = some c' → c.loc w = l → (∀ e ∈ tr, S.who e ≠ some w) ∧ c'.loc w = l := by
  intro tr
  induction tr with
  | nil =>
    intro c c' h hw
    cases h
    exact ⟨by simp, hw⟩
  | cons e es ih =>
    intro c c' h hw
    obtain ⟨d, hd, h'⟩ := (run_cons S).1 h
    have hne : S.who e ≠ some w := fun hwho => by
      have hm := exec_move S hwho hd
      rw [hw, hl] at hm
      cases hm
    obtain ⟨hes, hend⟩ := ih h' ((exec_frame S hne hd).trans hw)
    exact ⟨List.forall_mem_cons.2 ⟨hne, hes⟩, hend⟩

/-! ## Continuations -/

/-- `c'` is reached from `c` by events of kind `p`. -/
def System.Reaches (p : E → Prop) (c c' : Config W σ L) : Prop :=
  ∃ tr, S.run c tr = some c' ∧ ∀ e ∈ tr, p e

theorem reaches_refl (p : E → Prop) (c : Config W σ L) : S.Reaches p c c := ⟨[], rfl, by simp⟩

theorem reaches_step {p : E → Prop} {c c' : Config W σ L} {e : E} (hp : p e) (h : S.exec c e = some c') :
    S.Reaches p c c' :=
  ⟨[e], (run_cons S).2 ⟨c', h, rfl⟩, by simpa using hp⟩

theorem reaches_trans {p : E → Prop} {a b c : Config W σ L} (h : S.Reaches p a b)
    (h' : S.Reaches p b c) : S.Reaches p a c := by
  obtain ⟨xs, hx, hxp⟩ := h
  obtain ⟨ys, hy, hyp⟩ := h'
  refine ⟨xs ++ ys, (run_append S).2 ⟨b, hx, hy⟩, fun e he => ?_⟩
  rcases List.mem_append.1 he with he | he
  · exact hxp e he
  · exact hyp e he

theorem reaches_mono {p q : E → Prop} {c c' : Config W σ L} (hpq : ∀ e, p e → q e)
    (h : S.Reaches p c c') : S.Reaches q c c' := by
  obtain ⟨tr, hr, hp⟩ := h
  exact ⟨tr, hr, fun e he => hpq e (hp e he)⟩

/-- Steps of other clients leave a client where it is. -/
theorem reaches_frame {p : E → Prop} {c c' : Config W σ L} {w : W} (hw : ∀ e, p e → S.who e ≠ some w)
    (h : S.Reaches p c c') : c'.loc w = c.loc w := by
  obtain ⟨tr, hr, hp⟩ := h
  exact run_rel S (R := fun c c' => c'.loc w = c.loc w) (fun _ => rfl)
    (fun _ _ _ h1 h2 => h2.trans h1) (fun _ _ _ he h => exec_frame S (hw _ he) h) hp hr

/-- By steps of client `w` alone, each of kind `p`, `Q` comes to hold. -/
def System.Gets (p : E → Prop) (w : W) (Q : Config W σ L → Prop) (c : Config W σ L) : Prop :=
  ∃ c', S.Reaches (fun e => S.who e = some w ∧ p e) c c' ∧ Q c'

section Gets
variable {p : E → Prop} {w : W} {Q R : Config W σ L → Prop} {c : Config W σ L}

theorem gets_refl (h : Q c) : S.Gets p w Q c := ⟨c, reaches_refl S _ c, h⟩

theorem gets_step {e : E} {c' : Config W σ L} (hw : S.who e = some w) (hp : p e) (h : S.exec c e = some c')
    (hQ : Q c') : S.Gets p w Q c :=
  ⟨c', reaches_step S ⟨hw, hp⟩ h, hQ⟩

theorem gets_trans (h : S.Gets p w R c) (hrest : ∀ d, R d → S.Gets p w Q d) : S.Gets p w Q c := by
  obtain ⟨d, hd, hR⟩ := h
  obtain ⟨c', hc', hQ⟩ := hrest d hR
  exact ⟨c', reaches_trans S hd hc', hQ⟩

end Gets

/-- **The sweep rule.** When every client of a list can bring itself into `Q` without leaving
`I`, they can do so one after another. -/
theorem reaches_sweep {I : Config W σ L → Prop} {Q : L → Prop} {p : E → Prop} : ∀ (ws : List W),
    (∀ c, ∀ w ∈ ws, I c →
      ∃ c', S.Reaches (fun e => S.who e = some w ∧ p e) c c' ∧ I c' ∧ Q (c'.loc w)) →
    ∀ c, I c → ∃ c', S.Reaches p c c' ∧ I c' ∧ ∀ w ∈ ws, Q (c'.loc w) := by
  intro ws hdrive
  -- clients outside the list stay put, so a client swept before keeps its `Q`
  suffices h : ∀ vs, (∀ w ∈ vs, w ∈ ws) → ∀ c, I c → ∃ c',
      S.Reaches (fun e => (∃ w ∈ vs, S.who e = some w) ∧ p e) c c' ∧ I c' ∧ ∀ w ∈ vs, Q (c'.loc w) by
    intro c hc
    obtain ⟨c', hr, hI, hQ⟩ := h ws (fun _ hw => hw) c hc
    exact ⟨c', reaches_mono S (fun _ he => he.2) hr, hI, hQ⟩
  intro vs
  induction vs with
  | nil => intro _ c hc; exact ⟨c, reaches_refl S _ c, hc, by simp⟩
  | cons v vs ih =>
    intro hsub c hc
    obtain ⟨d, hd, hId, hQd⟩ := hdrive c v (hsub v (by simp)) hc
    obtain ⟨c', hc', hI, hQ⟩ := ih (fun w hw => hsub w (by simp [hw])) d hId
    have hfirst : S.Reaches (fun e => (∃ w ∈ v :: vs, S.who e = some w) ∧ p e) c d :=
      reaches_mono S (fun e he => ⟨⟨v, by simp, he.1⟩, he.2⟩) hd
    have hrest : S.Reaches (fun e => (∃ w ∈ v :: vs, S.who e = some w) ∧ p e) d c' :=
      reaches_mono S (fun e ⟨⟨w, hw, hx⟩, hp⟩ => ⟨⟨w, by simp [hw], hx⟩, hp⟩) hc'
    refine ⟨c', reaches_trans S hfirst hrest, hI, fun w hw => ?_⟩
    by_cases hwv : w ∈ vs
    · exact hQ w hwv
    · obtain rfl : w = v := by simpa [hwv] using hw
      have hstay : c'.loc w = d.loc w := by
        refine reaches_frame S (fun e ⟨⟨x, hx, he⟩, _⟩ heq => hwv ?_) hc'
        rw [he] at heq
        exact Option.some.inj heq ▸ hx
      rw [hstay]
      exact hQd

/-! ## Ledgers -/

/-- An account on the server that every step balances is balanced over a run. -/
theorem server_ledger (bal : σ → Nat) (credit debit : E → Nat)
    (hstep : ∀ s e s', S.serve s e = some s' → bal s + credit e = bal s' + debit e) :
    ∀ {tr : List E} {c c' : Config W σ L}, S.run c tr = some c' →
      bal c.srv + (tr.map credit).sum = bal c'.srv + (tr.map debit).sum := by
  intro tr
  induction tr with
  | nil =>
    intro c c' h
    cases h
    rfl
  | cons e es ih =>
    intro c c' h
    obtain ⟨d, hd, h'⟩ := (run_cons S).1 h
    have h1 := hstep c.srv e d.srv (exec_serve S hd)
    have h2 := ih h'
    simp only [List.map_cons, List.sum_cons]
    omega

/-- An account of one client that each of its own steps balances, and that no other
event touches, is balanced over a run. -/
theorem client_ledger (w : W) (bal : L → Nat) (credit debit : E → Nat)
    (hown : ∀ l e l', S.who e = some w → S.move l e = some l' → bal l + credit e = bal l' + debit e)
    (hother : ∀ e, S.who e ≠ some w → credit e = debit e) :
    ∀ {tr : List E} {c c' : Config W σ L}, S.run c tr = some c' →
      bal (c.loc w) + (tr.map credit).sum = bal (c'.loc w) + (tr.map debit).sum := by
  intro tr
  induction tr with
  | nil =>
    intro c c' h
    cases h
    rfl
  | cons e es ih =>
    intro c c' h
    obtain ⟨d, hd, h'⟩ := (run_cons S).1 h
    have h2 := ih h'
    simp only [List.map_cons, List.sum_cons]
    by_cases hw : S.who e = some w
    · have h1 := hown _ _ _ hw (exec_move S hw hd)
      omega
    · have h1 := hother e hw
      rw [exec_frame S hw hd] at h2
      omega

/-- Counting the values a partial observation picks out of a run, event by event. -/
theorem count_filterMap [BEq α] [LawfulBEq α] (f : E → Option α) (a : α) (tr : List E) :
    (tr.filterMap f).count a = (tr.map fun e => (f e).toList.count a).sum := by
  induction tr with
  | nil => rfl
  | cons e es ih =>
    simp only [List.map_cons, List.sum_cons, ← ih]
    cases h : f e with
    | none => simp [h]
    | some b => simp [h, List.count_cons, Nat.add_comm]

theorem filterMap_snoc (f : E → Option α) (tr : List E) (e : E) :
    (tr ++ [e]).filterMap f = tr.filterMap f ++ (f e).toList := by
  cases h : f e <;> simp [h]

/-- The ledger of one client for observations that name the client they are about: the events
of the others count for nothing. -/
theorem observed_ledger [BEq (W × α)] [LawfulBEq (W × α)] (w : W) (a : α) (bal : L → Nat)
    {credit debit : E → Option (W × α)} (hc : ∀ e p, credit e = some p → S.who e = some p.1)
    (hd : ∀ e p, debit e = some p → S.who e = some p.1)
    (hown : ∀ l e l', S.who e = some w → S.move l e = some l' →
      bal l + (credit e).toList.count (w, a) = bal l' + (debit e).toList.count (w, a))
    {tr : List E} {c c' : Config W σ L} (h : S.run c tr = some c') :
    bal (c.loc w) + (tr.filterMap credit).count (w, a) =
      bal (c'.loc w) + (tr.filterMap debit).count (w, a) := by
  have hnone : ∀ f : E → Option (W × α), (∀ e p, f e = some p → S.who e = some p.1) →
      ∀ e, S.who e ≠ some w → (f e).toList.count (w, a) = 0 := by
    intro f hf e hw
    refine List.count_eq_zero.2 fun hmem => hw ?_
    exact hf e (w, a) (Option.mem_toList.1 hmem)
  rw [count_filterMap, count_filterMap]
  refine client_ledger S w bal _ _ hown (fun e hw => ?_) h
  rw [hnone credit hc e hw, hnone debit hd e hw]

end Exec

/-! ## Budgets -/

theorem length_filterMap (f : E → Option α) (tr : List E) :
    (tr.filterMap f).length = (tr.map fun e => (f e).toList.length).sum := by
  induction tr with
  | nil => rfl
  | cons e es ih => cases h : f e <;> simp [h, ih, Nat.add_comm]

/-- What the server and the clients have to spend. -/
def Config.funds [Fintype W] (srvRank : σ → Nat) (rank : L → Nat) (c : Config W σ L) : Nat :=
  srvRank c.srv + ∑ w, rank (c.loc w)

section Budget
variable [DecidableEq W] [Fintype W]

theorem sum_update_add (rank : L → Nat) (loc : W → L) (w : W) (l : L) :
    ∑ x, rank (Function.update loc w l x) + rank (loc w) = ∑ x, rank (loc x) + rank l := by
  have hrest : ∑ x ∈ Finset.univ.erase w, rank (Function.update loc w l x) =
      ∑ x ∈ Finset.univ.erase w, rank (loc x) := by
    refine Finset.sum_congr rfl fun x hx => ?_
    rw [Function.update_of_ne (Finset.ne_of_mem_erase hx)]
  rw [← Finset.add_sum_erase _ _ (Finset.mem_univ w), Function.update_self,
    ← Finset.add_sum_erase _ (fun x => rank (loc x)) (Finset.mem_univ w)]
  omega

/-- A client's step changes the server and that client. -/
theorem funds_client (S : System W E σ L) (srvRank : σ → Nat) (rank : L → Nat) {c c' : Config W σ L} {e : E} {w : W}
    (hw : S.who e = some w) (h : S.exec c e = some c') :
    c'.funds srvRank rank + (srvRank c.srv + rank (c.loc w)) =
      c.funds srvRank rank + (srvRank c'.srv + rank (c'.loc w)) := by
  obtain ⟨-, l, -, hloc⟩ := (exec_client S hw).1 h
  have hsum := sum_update_add rank c.loc w l
  unfold Config.funds
  rw [hloc, Function.update_self]
  omega

theorem funds_env (S : System W E σ L) (srvRank : σ → Nat) (rank : L → Nat) {c c' : Config W σ L} {e : E}
    (hw : S.who e = none) (h : S.exec c e = some c') :
    c'.funds srvRank rank + srvRank c.srv = c.funds srvRank rank + srvRank c'.srv := by
  obtain ⟨-, hl⟩ := (exec_env S hw).1 h
  unfold Config.funds
  rw [hl]
  omega

/-- **The budget rule**: when every step pays its cost out of what the server and the client that
takes it have, except for what it earns, so does every run. -/
theorem run_budget (S : System W E σ L) (srvRank : σ → Nat) (rank : L → Nat) (cost gain : E → Nat)
    (hclient : ∀ s e s' l l' w, S.who e = some w → S.serve s e = some s' → S.move l e = some l' →
      srvRank s' + rank l' + cost e ≤ srvRank s + rank l + gain e)
    (henv : ∀ s e s', S.who e = none → S.serve s e = some s' → srvRank s' + cost e ≤ srvRank s + gain e) :
    ∀ {tr : List E} {c c' : Config W σ L}, S.run c tr = some c' →
      c'.funds srvRank rank + (tr.map cost).sum ≤ c.funds srvRank rank + (tr.map gain).sum := by
  intro tr
  induction tr with
  | nil =>
    intro c c' h
    cases h
    exact Nat.le_refl _
  | cons e es ih =>
    intro c c' h
    obtain ⟨d, hd, h'⟩ := (run_cons S).1 h
    have hrest := ih h'
    have hstep : d.funds srvRank rank + cost e ≤ c.funds srvRank rank + gain e := by
      cases hw : S.who e with
      | none =>
        have hfunds := funds_env S srvRank rank hw hd
        have hle := henv _ _ _ hw (exec_serve S hd)
        omega
      | some w =>
        have hfunds := funds_client S srvRank rank hw hd
        have hle := hclient _ _ _ _ _ w hw (exec_serve S hd) (exec_move S hw hd)
        omega
    simp only [List.map_cons, List.sum_cons]
    omega

/-- **The conservation rule**: when a step changes what the server and its client have between them only by
what comes in, that is all that changes over a run. -/
theorem run_conserves (S : System W E σ L) (srvRank : σ → Nat) (rank : L → Nat) (gain : E → Nat)
    (hclient : ∀ s e s' l l' w, S.who e = some w → S.serve s e = some s' → S.move l e = some l' →
      srvRank s' + rank l' = srvRank s + rank l + gain e)
    (henv : ∀ s e s', S.who e = none → S.serve s e = some s' → srvRank s' = srvRank s + gain e) :
    ∀ {tr : List E} {c c' : Config W σ L}, S.run c tr = some c' →
      c'.funds srvRank rank = c.funds srvRank rank + (tr.map gain).sum := by
  intro tr
  induction tr with
  | nil =>
    intro c c' h
    cases h
    rfl
  | cons e es ih =>
    intro c c' h
    obtain ⟨d, hd, h'⟩ := (run_cons S).1 h
    have hrest := ih h'
    have hstep : d.funds srvRank rank = c.funds srvRank rank + gain e := by
      cases hw : S.who e with
      | none =>
        have hfunds := funds_env S srvRank rank hw hd
        have heq := henv _ _ _ hw (exec_serve S hd)
        omega
      | some w =>
        have hfunds := funds_client S srvRank rank hw hd
        have heq := hclient _ _ _ _ _ w hw (exec_serve S hd) (exec_move S hw hd)
        omega
    simp only [List.map_cons, List.sum_cons]
    omega

end Budget

/-! ## Simulation by a relation -/

section Simulates
variable {W' E' σ' : Type*} [DecidableEq W] [DecidableEq W'] (S : System W E σ L) (S' : System W' E' σ' L')

/-- **The relational simulation rule**: when every step is matched, every run is. -/
theorem run_simulates {R : Config W σ L → Config W' σ' L' → Prop} {p : E → Prop} {f : E → List E'}
    (hstep : ∀ c d e c', p e → R c d → S.exec c e = some c' → ∃ d', S'.run d (f e) = some d' ∧ R c' d') :
    ∀ {tr : List E} {c c' : Config W σ L} {d : Config W' σ' L'}, (∀ e ∈ tr, p e) → R c d →
      S.run c tr = some c' → ∃ d', S'.run d (tr.flatMap f) = some d' ∧ R c' d' := by
  intro tr
  induction tr with
  | nil =>
    intro c c' d _ hR h
    cases h
    exact ⟨d, rfl, hR⟩
  | cons e es ih =>
    intro c c' d hp hR h
    obtain ⟨c₁, he, h'⟩ := (run_cons S).1 h
    rw [List.forall_mem_cons] at hp
    obtain ⟨d₁, hd₁, hR₁⟩ := hstep c d e c₁ hp.1 hR he
    obtain ⟨d', hd', hR'⟩ := ih hp.2 hR₁ h'
    exact ⟨d', (run_append S').2 ⟨d₁, hd₁, hd'⟩, hR'⟩

/-- The converse: when every matching run comes from a step, every run of matches comes from a run. -/
theorem run_lifts {R : Config W σ L → Config W' σ' L' → Prop} {f : E → List E'}
    (hstep : ∀ c d e d', R c d → S'.run d (f e) = some d' → ∃ c', S.exec c e = some c' ∧ R c' d') :
    ∀ {tr : List E} {c : Config W σ L} {d d' : Config W' σ' L'}, R c d →
      S'.run d (tr.flatMap f) = some d' → ∃ c', S.run c tr = some c' ∧ R c' d' := by
  intro tr
  induction tr with
  | nil =>
    intro c d d' hR h
    cases h
    exact ⟨c, rfl, hR⟩
  | cons e es ih =>
    intro c d d' hR h
    rw [List.flatMap_cons] at h
    obtain ⟨d₁, hd₁, h'⟩ := (run_append S').1 h
    obtain ⟨c₁, hc₁, hR₁⟩ := hstep c d e d₁ hR hd₁
    obtain ⟨c', hc', hR'⟩ := ih hR₁ h'
    exact ⟨c', (run_cons S).2 ⟨c₁, hc₁, hc'⟩, hR'⟩

end Simulates

/-! ## Components -/

section Components
variable {β W' E' σ' : Type*} [DecidableEq β] [DecidableEq W] [DecidableEq W']

/-- The events on one component. -/
def component (tag : E → β) (ev : E → E') (b : β) (tr : List E) : List E' :=
  tr.filterMap fun e => if tag e = b then some (ev e) else none

theorem component_cons_self (tag : E → β) (ev : E → E') (e : E) (tr : List E) :
    component tag ev (tag e) (e :: tr) = ev e :: component tag ev (tag e) tr := by
  simp [component]

theorem component_cons_of_ne {tag : E → β} (ev : E → E') {e : E} {b : β} (h : b ≠ tag e) (tr : List E) :
    component tag ev b (e :: tr) = component tag ev b tr := by
  simp [component, h.symm]

/-- The steps of `S` on the components that `p` names act on one component each, as a step of its
system `T b` on what is in view of it. -/
structure Splits (S : System W E σ L) (T : β → System W' E' σ' L') (tag : E → β) (ev : E → E')
    (view : β → Config W σ L → Config W' σ' L') (I : Config W σ L → Prop) (p : β → Prop) : Prop where
  inv : ∀ c e c', I c → p (tag e) → S.exec c e = some c' → I c'
  self : ∀ c e, I c → p (tag e) → (S.exec c e).map (view (tag e)) = (T (tag e)).exec (view (tag e) c) (ev e)
  other : ∀ c e c' b, p (tag e) → p b → b ≠ tag e → S.exec c e = some c' → view b c' = view b c

/-- **The component rule**: events are a run exactly if the events on each component are a run of it;
and each component ends where the whole run leaves it. -/
theorem run_components {S : System W E σ L} {T : β → System W' E' σ' L'} {tag : E → β} {ev : E → E'}
    {view : β → Config W σ L → Config W' σ' L'} {I : Config W σ L → Prop} {p : β → Prop}
    (hs : Splits S T tag ev view I p) {tr : List E} {c : Config W σ L} (hI : I c) (hp : ∀ e ∈ tr, p (tag e)) :
    ((∃ c', S.run c tr = some c') ↔ ∀ b, p b → ∃ d, (T b).run (view b c) (component tag ev b tr) = some d) ∧
    ∀ c', S.run c tr = some c' → ∀ b, p b →
      (T b).run (view b c) (component tag ev b tr) = some (view b c') := by
  have hend : ∀ {tr : List E} {c c' : Config W σ L}, I c → (∀ e ∈ tr, p (tag e)) → S.run c tr = some c' →
      ∀ b, p b → (T b).run (view b c) (component tag ev b tr) = some (view b c') := by
    intro tr
    induction tr with
    | nil =>
      intro c c' _ _ h b _
      cases h
      rfl
    | cons e tr ih =>
      intro c c' hI hp h b hb
      obtain ⟨d, hd, h'⟩ := (run_cons S).1 h
      rw [List.forall_mem_cons] at hp
      have hrest := ih (hs.inv c e d hI hp.1 hd) hp.2 h' b hb
      by_cases hbe : b = tag e
      · subst hbe
        rw [component_cons_self]
        refine (run_cons _).2 ⟨view (tag e) d, ?_, hrest⟩
        rw [← hs.self c e hI hp.1, hd, Option.map_some]
      · rw [component_cons_of_ne ev hbe, ← hs.other c e d b hp.1 hb hbe hd]
        exact hrest
  have hrun : ∀ {tr : List E} {c : Config W σ L}, I c → (∀ e ∈ tr, p (tag e)) →
      (∀ b, p b → ∃ d, (T b).run (view b c) (component tag ev b tr) = some d) → ∃ c', S.run c tr = some c' := by
    intro tr
    induction tr with
    | nil => intro c _ _ _; exact ⟨c, rfl⟩
    | cons e tr ih =>
      intro c hI hp h
      rw [List.forall_mem_cons] at hp
      obtain ⟨d, hd⟩ := h (tag e) hp.1
      rw [component_cons_self] at hd
      obtain ⟨d₁, hd₁, hd'⟩ := (run_cons _).1 hd
      -- the component's own step is a step of the whole
      rw [← hs.self c e hI hp.1] at hd₁
      obtain ⟨c₁, hc₁, rfl⟩ := Option.map_eq_some_iff.1 hd₁
      obtain ⟨c', hc'⟩ := ih (hs.inv c e c₁ hI hp.1 hc₁) hp.2 fun b hb => by
        by_cases hbe : b = tag e
        · subst hbe
          exact ⟨d, hd'⟩
        · obtain ⟨x, hx⟩ := h b hb
          rw [component_cons_of_ne ev hbe] at hx
          exact ⟨x, by rw [hs.other c e c₁ b hp.1 hb hbe hc₁]; exact hx⟩
      exact ⟨c', (run_cons S).2 ⟨c₁, hc₁, hc'⟩⟩
  refine ⟨⟨?_, hrun hI hp⟩, fun c' h => hend hI hp h⟩
  rintro ⟨c', hc'⟩ b hb
  exact ⟨view b c', hend hI hp hc' b hb⟩

end Components

/-! ## Simulation by local states -/

def Config.map (f : L → L') (c : Config W σ L) : Config W σ L' := ⟨c.srv, fun w => f (c.loc w)⟩

/-- `abs` maps the steps of one kind of client to steps of another, on the same server. -/
structure LocalSim (S : System W E σ L) (S' : System W E σ L') (abs : L → L') : Prop where
  who : ∀ e, S'.who e = S.who e
  serve : ∀ s e s', S.serve s e = some s' → S'.serve s e = some s'
  move : ∀ l e l', S.move l e = some l' → S'.move (abs l) e = some (abs l')

variable [DecidableEq W] {S : System W E σ L} {S' : System W E σ L'} {abs : L → L'}

theorem LocalSim.exec (hsim : LocalSim S S' abs) {c c' : Config W σ L} {e : E}
    (h : S.exec c e = some c') : S'.exec (c.map abs) e = some (c'.map abs) := by
  cases hw : S.who e with
  | none =>
    have hw' : S'.who e = none := (hsim.who e).trans hw
    obtain ⟨h1, h2⟩ := (exec_env S hw).1 h
    refine (exec_env S' hw').2 ⟨hsim.serve _ _ _ h1, ?_⟩
    simp only [Config.map, h2]
  | some w =>
    have hw' : S'.who e = some w := (hsim.who e).trans hw
    obtain ⟨h1, l, h2, h3⟩ := (exec_client S hw).1 h
    refine (exec_client S' hw').2 ⟨hsim.serve _ _ _ h1, abs l, hsim.move _ _ _ h2, ?_⟩
    funext x
    simp only [Config.map, h3]
    by_cases hx : x = w
    · subst hx; simp
    · simp [hx]

/-- **The simulation rule**: the same run is a run of the simulating system. -/
theorem LocalSim.run (hsim : LocalSim S S' abs) : ∀ {tr : List E} {c c' : Config W σ L},
    S.run c tr = some c' → S'.run (c.map abs) tr = some (c'.map abs) := by
  intro tr
  induction tr with
  | nil =>
    intro c c' h
    cases h
    rfl
  | cons e es ih =>
    intro c c' h
    obtain ⟨d, hd, h'⟩ := (run_cons S).1 h
    exact (run_cons S').2 ⟨d.map abs, hsim.exec hd, ih h'⟩

/-! ## Simulation by a relation of local states -/

section Matching
variable {E' : Type*}

/-- Each step of `S` is a step of `S'` on the same server, by the same client, with an event that
matches; `Rel w` relates the two states of client `w`. -/
structure LocalMatch (S : System W E σ L) (S' : System W E' σ L') (M : E → E' → Prop) (Rel : W → L → L' → Prop) :
    Prop where
  who : ∀ e e', M e e' → S'.who e' = S.who e
  env : ∀ s e s', S.who e = none → S.serve s e = some s' → ∃ e', M e e' ∧ S'.serve s e' = some s'
  client : ∀ s e s' w l l' t, S.who e = some w → S.serve s e = some s' → S.move l e = some l' → Rel w l t →
    ∃ e' t', M e e' ∧ S'.serve s e' = some s' ∧ S'.move t e' = some t' ∧ Rel w l' t'

/-- The same server, and each client related to itself. -/
structure Config.Matched (Rel : W → L → L' → Prop) (c : Config W σ L) (d : Config W σ L') : Prop where
  srv : c.srv = d.srv
  loc : ∀ w, Rel w (c.loc w) (d.loc w)

variable {S' : System W E' σ L'} {M : E → E' → Prop} {Rel : W → L → L' → Prop}

theorem LocalMatch.exec (hm : LocalMatch S S' M Rel) {c c' : Config W σ L} {d : Config W σ L'} {e : E}
    (hcd : c.Matched Rel d) (h : S.exec c e = some c') :
    ∃ e' d', M e e' ∧ S'.exec d e' = some d' ∧ c'.Matched Rel d' := by
  cases hw : S.who e with
  | none =>
    obtain ⟨hs, hl⟩ := (exec_env S hw).1 h
    obtain ⟨e', hM, hs'⟩ := hm.env _ _ _ hw hs
    refine ⟨e', ⟨c'.srv, d.loc⟩, hM, (exec_env S' ((hm.who _ _ hM).trans hw)).2 ⟨hcd.srv ▸ hs', rfl⟩, rfl, fun w => ?_⟩
    rw [hl]
    exact hcd.loc w
  | some w =>
    obtain ⟨hs, l, hl, hloc⟩ := (exec_client S hw).1 h
    obtain ⟨e', t, hM, hs', ht, hR⟩ := hm.client _ _ _ w _ _ _ hw hs hl (hcd.loc w)
    refine ⟨e', ⟨c'.srv, Function.update d.loc w t⟩, hM,
      (exec_client S' ((hm.who _ _ hM).trans hw)).2 ⟨hcd.srv ▸ hs', t, ht, rfl⟩, rfl, fun x => ?_⟩
    rw [hloc]
    by_cases hx : x = w
    · subst hx
      simpa using hR
    · simpa [hx] using hcd.loc x

/-- **The matching rule**: a run is matched, event by event, by a run of the other system. -/
theorem LocalMatch.run (hm : LocalMatch S S' M Rel) : ∀ {tr : List E} {c c' : Config W σ L} {d : Config W σ L'},
    c.Matched Rel d → S.run c tr = some c' →
    ∃ tr' d', List.Forall₂ M tr tr' ∧ S'.run d tr' = some d' ∧ c'.Matched Rel d' := by
  intro tr
  induction tr with
  | nil =>
    intro c c' d hcd h
    cases h
    exact ⟨[], d, .nil, rfl, hcd⟩
  | cons e es ih =>
    intro c c' d hcd h
    obtain ⟨c₁, he, h'⟩ := (run_cons S).1 h
    obtain ⟨e', d₁, hM, hd₁, hcd₁⟩ := hm.exec hcd he
    obtain ⟨tr', d', hMs, hd', hcd'⟩ := ih hcd₁ h'
    exact ⟨e' :: tr', d', .cons hM hMs, (run_cons S').2 ⟨d₁, hd₁, hd'⟩, hcd'⟩

end Matching

end Interleave
