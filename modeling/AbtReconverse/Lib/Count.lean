import Mathlib.Data.Set.Card

/-!
# AbtReconverse.Lib.Count

A shared counter that several parties add to and subtract from. `Counts n P` says that the
counter holds `n` and that exactly `n` parties satisfy `P`, i.e. hold one unit of it. Parties
range over an arbitrary (possibly infinite) type; only finitely many hold a unit at a time.
-/

namespace Lts

/-- Exactly `n` elements satisfy `P`. -/
def Counts {α : Type} (n : Int) (P : α → Prop) : Prop :=
  ∃ F : Finset α, (∀ x, x ∈ F ↔ P x) ∧ n = F.card

namespace Counts

variable {α : Type} {n : Int} {P Q : α → Prop}

theorem zero (h : ∀ x, ¬ P x) : Counts 0 P :=
  ⟨∅, fun x => by simp [h x], by simp⟩

theorem congr (h : Counts n P) (hPQ : ∀ x, Q x ↔ P x) : Counts n Q := by
  obtain ⟨F, hF, hn⟩ := h
  exact ⟨F, fun x => (hF x).trans (hPQ x).symm, hn⟩

/-- One more party holds a unit. -/
theorem insert [DecidableEq α] (h : Counts n P) {a : α} (ha : ¬ P a)
    (hQ : ∀ x, Q x ↔ x = a ∨ P x) : Counts (n + 1) Q := by
  obtain ⟨F, hF, hn⟩ := h
  refine ⟨Insert.insert a F, fun x => ?_, ?_⟩
  · rw [Finset.mem_insert, hF, hQ]
  · have haF : a ∉ F := fun hm => ha ((hF a).mp hm)
    rw [Finset.card_insert_of_notMem haF, hn]; simp

/-- One party gives its unit back. -/
theorem erase [DecidableEq α] (h : Counts n P) {a : α} (ha : P a)
    (hQ : ∀ x, Q x ↔ x ≠ a ∧ P x) : Counts (n - 1) Q := by
  obtain ⟨F, hF, hn⟩ := h
  have haF : a ∈ F := (hF a).mpr ha
  refine ⟨F.erase a, fun x => ?_, ?_⟩
  · rw [Finset.mem_erase, hF, hQ]
  · have := Finset.card_erase_add_one haF
    omega

/-- The party `c` moves to `y`: its flag before and after says how the counter changes. -/
theorem update [DecidableEq α] {κ : Type} {k : α → κ} {f : κ → Bool}
    (h : Counts n fun x => f (k x) = true) (c : α) (y : κ) :
    Counts (n + (f y).toInt - (f (k c)).toInt) fun x => f (Function.update k c y x) = true := by
  have hsame : f y = f (k c) → Counts n fun x => f (Function.update k c y x) = true := by
    intro he
    refine h.congr fun x => ?_
    by_cases hxc : x = c
    · subst hxc; simp [he]
    · simp [hxc]
  cases hy : f y with
  | true =>
    cases hc : f (k c) with
    | true => simpa using hsame (hy.trans hc.symm)
    | false =>
      have hins := h.insert (a := c) (Q := fun x => f (Function.update k c y x) = true) (by simp [hc])
        fun x => by by_cases hxc : x = c <;> simp [hxc, hy]
      simpa using hins
  | false =>
    cases hc : f (k c) with
    | true =>
      have hers := h.erase (a := c) (Q := fun x => f (Function.update k c y x) = true) hc
        fun x => by by_cases hxc : x = c <;> simp [hxc, hy]
      simpa using hers
    | false => simpa using hsame (hy.trans hc.symm)

theorem eq_ncard (h : Counts n P) : n = ({x | P x} : Set α).ncard := by
  obtain ⟨F, hF, hn⟩ := h
  have : ({x | P x} : Set α) = F := Set.ext fun x => (hF x).symm
  rw [this, Set.ncard_coe_finset, hn]

theorem pos (h : Counts n P) {a : α} (ha : P a) : 0 < n := by
  obtain ⟨F, hF, hn⟩ := h
  have : 0 < F.card := Finset.card_pos.mpr ⟨a, (hF a).mpr ha⟩
  omega

theorem exists_of_pos (h : Counts n P) (hn : 0 < n) : ∃ x, P x := by
  obtain ⟨F, hF, hc⟩ := h
  obtain ⟨x, hx⟩ := Finset.card_pos.mp (show 0 < F.card by omega)
  exact ⟨x, (hF x).mp hx⟩

theorem nonneg (h : Counts n P) : 0 ≤ n := by
  obtain ⟨F, _, hn⟩ := h
  omega

end Counts

end Lts
