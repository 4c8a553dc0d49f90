import Mathlib.Logic.Function.Basic

/-!
# AbtReconverse.Lib.Update

One party of a family moves. The places of the parties are a function `f`, and a step replaces one
of them (`Function.update f a y`). What is known of a place afterwards is known of the new one or of
an old one (`update_cases`); what the new place has in common with the one it replaces, every party
keeps (`update_congr`). `bump` is a step of a counter.
-/

namespace Lts

section

variable {A κ β : Type} [DecidableEq A] {f : A → κ} {a b : A} {y : κ}

theorem update_cases {P : κ → Prop} (h : P (Function.update f a y b)) :
    b = a ∧ P y ∨ b ≠ a ∧ P (f b) := by
  by_cases hb : b = a
  · rw [hb, Function.update_self] at h
    exact .inl ⟨hb, h⟩
  · rw [Function.update_of_ne hb] at h
    exact .inr ⟨hb, h⟩

theorem update_congr (g : κ → β) (h : g y = g (f a)) (b : A) :
    g (Function.update f a y b) = g (f b) := by
  by_cases hb : b = a
  · rw [hb, Function.update_self]
    exact h
  · rw [Function.update_of_ne hb]

/-- A family that stays as it is, as one with a party that moves to where it is. -/
theorem update_same (f : A → κ) (a : A) : f = Function.update f a (f a) :=
  (Function.update_eq_self ..).symm

end

/-- One more for `(p, u)`. -/
def bump {P U : Type} [DecidableEq P] [DecidableEq U] (f : P → U → Nat) (p : P) (u : U) :
    P → U → Nat :=
  Function.update f p (Function.update (f p) u (f p u + 1))

theorem bump_apply {P U : Type} [DecidableEq P] [DecidableEq U] (f : P → U → Nat) (p : P) (u : U)
    (q : P) (v : U) : bump f p u q v = f q v + if q = p ∧ v = u then 1 else 0 := by
  unfold bump
  by_cases hq : q = p
  · subst hq
    by_cases hv : v = u
    · subst hv; simp
    · simp [hv]
  · simp [hq]

end Lts
