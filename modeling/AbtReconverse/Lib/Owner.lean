import Mathlib.Logic.Function.Basic

/-!
# AbtReconverse.Lib.Owner

A lock between two families of parties. The place of a party in its code says whether it is inside
(`f` for the left family, `f'` for the right one), and `Owned` that whoever is inside is the owner,
so that there is one at most. The rules are for one party that moves: outside the lock, in, or out.
-/

namespace Lts

section

variable {A κ : Type} [DecidableEq A] {f : κ → Bool} {k : A → κ} {a : A} {y : κ}

/-- A flag of the party that moves. -/
theorem flag_update (x : A) :
    f (Function.update k a y x) = true ↔ x = a ∧ f y = true ∨ x ≠ a ∧ f (k x) = true := by
  by_cases hx : x = a
  · subst hx; simp
  · simp [hx]

/-- A flag that the party that moves keeps. -/
theorem flag_kept (h : f y = f (k a)) (x : A) :
    f (Function.update k a y x) = true ↔ f (k x) = true := by
  by_cases hx : x = a
  · subst hx; simp [h]
  · simp [hx]

end

structure Owned {A B κ ι : Type} (f : κ → Bool) (f' : ι → Bool) (p : A → κ) (k : B → ι)
    (owner : Option (A ⊕ B)) : Prop where
  left : ∀ a, f (p a) = true → owner = some (.inl a)
  right : ∀ b, f' (k b) = true → owner = some (.inr b)

namespace Owned

variable {A B κ ι : Type} {f : κ → Bool} {f' : ι → Bool} {p : A → κ} {k : B → ι}
  {owner : Option (A ⊕ B)} {a a' : A} {b b' : B} {x : κ} {y : ι}

theorem unique (h : Owned f f' p k owner) (hb : f' (k b) = true) (hb' : f' (k b') = true) :
    b' = b := by
  have := (h.right b' hb').symm.trans (h.right b hb)
  cases this
  rfl

theorem apart (h : Owned f f' p k owner) (ha : f (p a) = true) (hb : f' (k b) = true) : False := by
  have := (h.left a ha).symm.trans (h.right b hb)
  cases this

/-- The two families change places. -/
theorem swap (h : Owned f f' p k owner) : Owned f' f k p (owner.map Sum.swap) := by
  refine ⟨fun b hb => ?_, fun a ha => ?_⟩
  · rw [h.right b hb]; rfl
  · rw [h.left a ha]; rfl

section

variable [DecidableEq A]

theorem keep_left (h : Owned f f' p k owner) (hx : f x = f (p a)) :
    Owned f f' (Function.update p a x) k owner :=
  ⟨fun z hz => h.left z ((flag_kept hx z).mp hz), h.right⟩

theorem acquire_left (h : Owned f f' p k none) :
    Owned f f' (Function.update p a x) k (some (.inl a)) := by
  refine ⟨fun z hz => ?_, fun b hb => ?_⟩
  · obtain ⟨rfl, -⟩ | ⟨-, hz⟩ := (flag_update z).mp hz
    · rfl
    · cases h.left z hz
  · cases h.right b hb

theorem release_left (h : Owned f f' p k owner) (ha : f (p a) = true) (hx : f x = false) :
    Owned f f' (Function.update p a x) k none := by
  refine ⟨fun z hz => ?_, fun b hb => (h.apart ha hb).elim⟩
  obtain ⟨-, hz⟩ | ⟨hne, hz⟩ := (flag_update z).mp hz
  · simp [hx] at hz
  · have := (h.left z hz).symm.trans (h.left a ha)
    cases this
    exact absurd rfl hne

end

section

variable [DecidableEq B]

theorem keep_right (h : Owned f f' p k owner) (hy : f' y = f' (k b)) :
    Owned f f' p (Function.update k b y) owner :=
  ⟨h.left, fun z hz => h.right z ((flag_kept hy z).mp hz)⟩

theorem acquire_right (h : Owned f f' p k none) :
    Owned f f' p (Function.update k b y) (some (.inr b)) :=
  (acquire_left h.swap).swap

theorem release_right (h : Owned f f' p k owner) (hb : f' (k b) = true) (hy : f' y = false) :
    Owned f f' p (Function.update k b y) none :=
  (h.swap.release_left hb hy).swap

end

end Owned

end Lts
