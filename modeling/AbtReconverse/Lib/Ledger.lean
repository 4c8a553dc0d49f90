import AbtReconverse.Lib.Update

/-!
# AbtReconverse.Lib.Ledger

Items on loan. `R t p u`: holder `t` has item `u` of lender `p`. A directory leads from an item to its
holder, and every lender counts how often it has given an item out and got it back. `Ledger` says
that the directory lists exactly the items on loan and that every lender has got back all that it
lent but those. An item may be given out again as soon as it is back.
-/

namespace Lts

section

variable {T P U : Type}

structure Ledger (R : T → P → U → Prop) (directory : U → Option T) (given back : P → U → Nat) :
    Prop where
  listed : ∀ u t, directory u = some t ↔ ∃ p, R t p u
  one : ∀ {t p u q v}, R t p u → R t q v → q = p ∧ v = u
  balance : ∀ p u, (∃ t, R t p u) ∧ given p u = back p u + 1 ∨
    (¬ ∃ t, R t p u) ∧ given p u = back p u

namespace Ledger

variable {R R' : T → P → U → Prop} {directory : U → Option T} {given back : P → U → Nat} {t : T}
  {p : P} {u : U}

/-- An item has one holder and one lender. -/
theorem unique (h : Ledger R directory given back) {v : T} {q : P} (hv : R v q u) (ht : R t p u) :
    v = t ∧ q = p := by
  obtain rfl : v = t :=
    Option.some.inj (((h.listed u v).mpr ⟨q, hv⟩).symm.trans ((h.listed u t).mpr ⟨p, ht⟩))
  exact ⟨rfl, (h.one ht hv).1⟩

theorem congr (h : Ledger R directory given back) (hR : ∀ t p u, R' t p u ↔ R t p u) :
    Ledger R' directory given back := by
  refine ⟨fun u t => ?_, fun ht hv => h.one ((hR _ _ _).mp ht) ((hR _ _ _).mp hv), fun p u => ?_⟩
  · simp only [hR]; exact h.listed u t
  · simp only [hR]; exact h.balance p u

/-- An item comes back. -/
theorem lose [DecidableEq P] [DecidableEq U] (h : Ledger R directory given back) (ht : R t p u)
    (hR : ∀ v q w, R' v q w ↔ R v q w ∧ v ≠ t) :
    Ledger R' (Function.update directory u none) given (bump back p u) := by
  refine ⟨fun w v => ?_, fun hv hw => h.one ((hR _ _ _).mp hv).1 ((hR _ _ _).mp hw).1,
    fun q w => ?_⟩
  · by_cases hw : w = u
    · subst hw
      rw [Function.update_self]
      refine ⟨fun hno => by simp at hno, ?_⟩
      rintro ⟨q, hq⟩
      obtain ⟨hv, hne⟩ := (hR v q w).mp hq
      exact absurd (h.unique hv ht).1 hne
    · rw [Function.update_of_ne hw, h.listed w v]
      refine exists_congr fun q => ⟨fun hv => (hR v q w).mpr ⟨hv, ?_⟩, fun hv => ((hR v q w).mp hv).1⟩
      rintro rfl
      exact hw (h.one ht hv).2
  · by_cases hpw : q = p ∧ w = u
    · obtain ⟨rfl, rfl⟩ := hpw
      refine .inr ⟨?_, ?_⟩
      · rintro ⟨v, hv⟩
        obtain ⟨hv, hne⟩ := (hR v q w).mp hv
        exact hne (h.unique hv ht).1
      · rw [bump_apply, if_pos ⟨rfl, rfl⟩]
        obtain ⟨-, hb⟩ | ⟨hno, -⟩ := h.balance q w
        · exact hb
        · exact absurd ⟨t, ht⟩ hno
    · have hsame : (∃ v, R' v q w) ↔ ∃ v, R v q w := by
        refine exists_congr fun v => ⟨fun hv => ((hR v q w).mp hv).1, fun hv =>
          (hR v q w).mpr ⟨hv, ?_⟩⟩
        rintro rfl
        exact hpw (h.one ht hv)
      rw [bump_apply, if_neg hpw, Nat.add_zero, hsame]
      exact h.balance q w

/-- An item that nobody has is given to somebody who has none. -/
theorem gain [DecidableEq P] [DecidableEq U] (h : Ledger R directory given back)
    (hu : ∀ v q, ¬ R v q u) (ht : ∀ q w, ¬ R t q w)
    (hR : ∀ v q w, R' v q w ↔ R v q w ∨ v = t ∧ q = p ∧ w = u) :
    Ledger R' (Function.update directory u (some t)) (bump given p u) back := by
  refine ⟨fun w v => ?_, fun {v q w q' w'} hv hw => ?_, fun q w => ?_⟩
  · by_cases hw : w = u
    · subst hw
      rw [Function.update_self]
      constructor
      · rintro hv
        cases hv
        exact ⟨p, (hR t p w).mpr (.inr ⟨rfl, rfl, rfl⟩)⟩
      · rintro ⟨q, hq⟩
        obtain hv | ⟨rfl, -, -⟩ := (hR v q w).mp hq
        · exact absurd hv (hu v q)
        · rfl
    · rw [Function.update_of_ne hw, h.listed w v]
      refine exists_congr fun q => ⟨fun hv => (hR v q w).mpr (.inl hv), fun hv => ?_⟩
      obtain hv | ⟨-, -, hwu⟩ := (hR v q w).mp hv
      · exact hv
      · exact absurd hwu hw
  · obtain hv | ⟨rfl, rfl, rfl⟩ := (hR v q w).mp hv
    · obtain hw | ⟨rfl, -, -⟩ := (hR v q' w').mp hw
      · exact h.one hv hw
      · exact absurd hv (ht q w)
    · obtain hw | ⟨-, rfl, rfl⟩ := (hR v q' w').mp hw
      · exact absurd hw (ht q' w')
      · exact ⟨rfl, rfl⟩
  · by_cases hpw : q = p ∧ w = u
    · obtain ⟨rfl, rfl⟩ := hpw
      refine .inl ⟨⟨t, (hR t q w).mpr (.inr ⟨rfl, rfl, rfl⟩)⟩, ?_⟩
      rw [bump_apply, if_pos ⟨rfl, rfl⟩]
      obtain ⟨⟨v, hv⟩, -⟩ | ⟨-, hb⟩ := h.balance q w
      · exact absurd hv (hu v q)
      · rw [hb]
    · have hsame : (∃ v, R' v q w) ↔ ∃ v, R v q w := by
        refine exists_congr fun v => ⟨fun hv => ?_, fun hv => (hR v q w).mpr (.inl hv)⟩
        obtain hv | ⟨-, hq, hw⟩ := (hR v q w).mp hv
        · exact hv
        · exact absurd ⟨hq, hw⟩ hpw
      rw [bump_apply, if_neg hpw, Nat.add_zero, hsame]
      exact h.balance q w

end Ledger

end

end Lts
