import Mathlib.Logic.Function.Basic

/-!
# AbtReconverse.Lib.Place

Things that are in one place at a time. `At l t` says that thing `t` is in place `l`. `Placed At
loc` says that the function `loc` tells, for every thing, the one place it is in (or that it is
nowhere). A step that moves one thing and leaves the others alone moves `loc` at that thing only
(`Placed.move`, `Placed.enter`, `Placed.leave`).
-/

namespace Lts

def Placed {L T : Type} (At : L → T → Prop) (loc : T → Option L) : Prop :=
  ∀ l t, At l t ↔ loc t = some l

namespace Placed

variable {L T : Type} {At At' : L → T → Prop} {loc : T → Option L}

theorem congr (h : Placed At loc) (hsame : ∀ l u, At' l u ↔ At l u) : Placed At' loc :=
  fun l u => (hsame l u).trans (h l u)

/-- Thing `t` moves from place `o` to place `d`, everything else stays. -/
theorem move [DecidableEq T] (h : Placed At loc) {t : T} {o d : L} (ho : At o t)
    (hat : ∀ l u, At' l u ↔ (At l u ∧ ¬ (l = o ∧ u = t)) ∨ (l = d ∧ u = t)) :
    Placed At' (Function.update loc t (some d)) := by
  intro l u
  rw [hat l u, h l u]
  by_cases hut : u = t
  · subst hut
    have hlo : loc u = some o := (h o u).mp ho
    simp only [hlo, Function.update_self, Option.some.injEq, and_true]
    constructor
    · rintro (⟨he, hne⟩ | hd)
      · exact absurd he.symm hne
      · exact hd.symm
    · exact fun he => Or.inr he.symm
  · simp [hut]

/-- Thing `t`, so far nowhere, appears in place `d`. -/
theorem enter [DecidableEq T] (h : Placed At loc) {t : T} {d : L} (hn : loc t = none)
    (hat : ∀ l u, At' l u ↔ At l u ∨ (l = d ∧ u = t)) :
    Placed At' (Function.update loc t (some d)) := by
  intro l u
  rw [hat l u, h l u]
  by_cases hut : u = t
  · subst hut
    simp [hn, eq_comm]
  · simp [hut]

/-- Thing `t` leaves its place for good. -/
theorem leave [DecidableEq T] (h : Placed At loc) {t : T} {o : L} (ho : At o t)
    (hat : ∀ l u, At' l u ↔ At l u ∧ ¬ (l = o ∧ u = t)) :
    Placed At' (Function.update loc t none) := by
  intro l u
  rw [hat l u, h l u]
  by_cases hut : u = t
  · subst hut
    have hlo : loc u = some o := (h o u).mp ho
    simp [hlo, eq_comm]
  · simp [hut]

/-- A thing that `loc` places somewhere is in exactly one place. -/
theorem existsUnique (h : Placed At loc) {t : T} {l : L} (ht : loc t = some l) : ∃! l, At l t := by
  refine ⟨l, (h l t).mpr ht, fun l' hl' => ?_⟩
  have := (h l' t).mp hl'
  rw [ht] at this
  exact (Option.some.inj this).symm

theorem unique (h : Placed At loc) {t : T} {l l' : L} (ht : At l t) (ht' : At l' t) : l = l' := by
  have h1 := (h l t).mp ht
  rw [(h l' t).mp ht'] at h1
  exact (Option.some.inj h1).symm

end Placed

end Lts
