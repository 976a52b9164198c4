import Mathlib.Logic.Function.Basic

/-!
# Deferred writes to a table

Two copies of a table, one ahead of the other: each client owes the late copy at most one
write, and the early copy already has it. Where nobody owes a write the copies agree.

* `start`: a client's write goes into the early copy.
* `finish`: the client pays its debt to the late copy.
* `write`: a write to both copies at once.
* `settled`: when all debts are paid the copies are equal.
-/
namespace Deferred

variable {W K V : Type*}

/-- `early` is `late` with the writes that are owed. -/
structure Ahead (owes : W → Option (K × V)) (early late : K → V) : Prop where
  owed : ∀ w k x, owes w = some (k, x) → early k = x
  rest : ∀ k, (∀ w x, owes w ≠ some (k, x)) → early k = late k

theorem ahead_refl (t : K → V) : Ahead (fun _ : W => none) t t := ⟨by simp, fun _ _ => rfl⟩

theorem settled {owes : W → Option (K × V)} {early late : K → V} (h : Ahead owes early late)
    (hnone : ∀ w, owes w = none) : early = late :=
  funext fun k => h.rest k (by simp [hnone])

/-- A write to both copies, to a key nobody owes another value to. -/
theorem write [DecidableEq K] {owes : W → Option (K × V)} {early late : K → V} {k : K} {x : V}
    (h : Ahead owes early late) (hk : ∀ w y, owes w = some (k, y) → y = x) :
    Ahead owes (Function.update early k x) (Function.update late k x) := by
  constructor
  · intro v k' x' hv
    by_cases hkk : k' = k
    · subst hkk
      rw [Function.update_self]
      exact (hk v x' hv).symm
    · rw [Function.update_of_ne hkk]
      exact h.owed v k' x' hv
  · intro k' hfree
    by_cases hkk : k' = k
    · subst hkk; rw [Function.update_self, Function.update_self]
    · rw [Function.update_of_ne hkk, Function.update_of_ne hkk]
      exact h.rest k' hfree

variable [DecidableEq W] [DecidableEq K] {owes owes' : W → Option (K × V)} {early late : K → V}
  {w : W} {k : K} {x : V}

/-- The client `w` owes a new write, to a key nobody owes one to. -/
theorem start (h : Ahead owes early late) (hw : owes' = Function.update owes w (some (k, x)))
    (hnone : owes w = none) (hk : ∀ w x, owes w ≠ some (k, x)) :
    Ahead owes' (Function.update early k x) late := by
  subst hw
  constructor
  · intro v k' x' hv
    by_cases hvw : v = w
    · subst hvw
      rw [Function.update_self] at hv
      cases hv
      exact Function.update_self ..
    · rw [Function.update_of_ne hvw] at hv
      have hne : k' ≠ k := fun heq => hk v x' (heq ▸ hv)
      rw [Function.update_of_ne hne]
      exact h.owed v k' x' hv
  · intro k' hfree
    have hne : k' ≠ k := fun heq => hfree w x (by rw [heq]; exact Function.update_self ..)
    rw [Function.update_of_ne hne]
    refine h.rest k' fun v x' hv => ?_
    have hvw : v ≠ w := fun heq => by rw [heq, hnone] at hv; cases hv
    exact hfree v x' (by rw [Function.update_of_ne hvw]; exact hv)

/-- The client `w` writes what it owes. -/
theorem finish (h : Ahead owes early late) (hw : owes' = Function.update owes w none)
    (howes : owes w = some (k, x)) : Ahead owes' early (Function.update late k x) := by
  subst hw
  constructor
  · intro v k' x' hv
    by_cases hvw : v = w
    · subst hvw; simp at hv
    · rw [Function.update_of_ne hvw] at hv
      exact h.owed v k' x' hv
  · intro k' hfree
    by_cases hk : k' = k
    · subst hk
      rw [Function.update_self]
      exact h.owed w k' x howes
    · rw [Function.update_of_ne hk]
      refine h.rest k' fun v x' hv => ?_
      by_cases hvw : v = w
      · subst hvw
        rw [howes] at hv
        exact hk (Prod.mk.inj (Option.some.inj hv)).1.symm
      · exact hfree v x' (by rw [Function.update_of_ne hvw]; exact hv)

end Deferred
