import AbtReconverse.Lib.Count

/-!
# AbtReconverse.Lib.Tokens

Items and those who answer for them. Producers make items visible (`count`) and then wake one of the
sleepers; a producer that has not got so far yet has a token (`tok`). Whoever is awake and about to
take an item, or has taken one and still has to subtract it (`owe`), has it in hand (`hand`). No item
is left lying while somebody sleeps: `Covered` says that the visible items are at most as many as the
tokens and the hands, as long as there is a sleeper.

An awake consumer may come back with nothing. If it does so only when there is nothing left, then it
was not needed. With `holes` it may also miss items that lie behind one which is still `late`, not
yet visible. Then the producer of the late item will wake one more, so a single sleeper is safe, and
two are safe as long as the items are covered without the help of those who may miss them.
-/

namespace Lts

namespace Counts

variable {α : Type} {n : Int} {P Q : α → Prop}

theorem unique {m : Int} (h : Counts n P) (h' : Counts m P) : n = m := h.eq_ncard.trans h'.eq_ncard.symm

theorem three [DecidableEq α] (h : Counts n P) {a b c : α} (ha : P a) (hb : P b) (hc : P c)
    (hab : a ≠ b) (hac : a ≠ c) (hbc : b ≠ c) : 3 ≤ n := by
  have h₁ := h.erase ha (Q := fun x => x ≠ a ∧ P x) fun _ => Iff.rfl
  have h₂ := h₁.erase ⟨hab.symm, hb⟩ (Q := fun x => x ≠ b ∧ x ≠ a ∧ P x) fun _ => Iff.rfl
  have := h₂.pos ⟨hbc.symm, hac.symm, hc⟩
  omega

theorem subset (h : Counts n P) (hQ : ∀ x, Q x → P x) : ∃ m ≤ n, Counts m Q := by
  classical
  obtain ⟨F, hF, rfl⟩ := h
  refine ⟨(F.filter Q).card, by exact_mod_cast Finset.card_filter_le F Q, F.filter Q, fun x => ?_, rfl⟩
  rw [Finset.mem_filter, hF]
  exact ⟨fun hx => hx.2, fun hx => ⟨hQ x hx, hx⟩⟩

/-- `a` holds a unit now, whether or not it did before. -/
theorem add (h : Counts n P) (a : α) (hQ : ∀ x, Q x ↔ x = a ∨ P x) :
    ∃ m, Counts m Q ∧ n ≤ m ∧ (¬ P a → m = n + 1) := by
  classical
  by_cases ha : P a
  · refine ⟨n, h.congr fun x => (hQ x).trans ⟨?_, .inr⟩, le_refl n, fun hn => absurd ha hn⟩
    rintro (rfl | hx)
    · exact ha
    · exact hx
  · exact ⟨n + 1, h.insert ha hQ, by omega, fun _ => rfl⟩

/-- `a` holds no unit now. -/
theorem drop (h : Counts n P) (a : α) (hQ : ∀ x, Q x ↔ x ≠ a ∧ P x) :
    ∃ m, Counts m Q ∧ n ≤ m + 1 ∧ m ≤ n := by
  classical
  by_cases ha : P a
  · exact ⟨n - 1, h.erase ha hQ, by omega, by omega⟩
  · refine ⟨n, h.congr fun x => (hQ x).trans ⟨fun hx => hx.2, fun hx => ⟨?_, hx⟩⟩, by omega, le_refl n⟩
    rintro rfl
    exact ha hx

end Counts

section

variable {P C : Type} {holes : Bool} {count : Int} {late late' : Prop} {tok tok' : P → Prop}
  {hand hand' owe owe' sleeps sleeps' : C → Prop} {g : P} {c : C}

structure Covered (holes : Bool) (count : Int) (late : Prop) (tok : P → Prop)
    (hand owe sleeps : C → Prop) : Prop where
  owed : ∀ c, owe c → hand c
  counts : ∃ t h d, Counts t tok ∧ Counts h hand ∧ Counts d owe ∧
    ((∃ c, sleeps c) → count ≤ t + h ∨ holes = true ∧ (late ∨ 0 < t)) ∧
    (holes = true → ∀ c c', sleeps c → sleeps c' → c ≠ c' → count ≤ t + d)

namespace Covered

theorem congr (h : Covered holes count late tok hand owe sleeps) (hl : late → late')
    (ht : ∀ g, tok' g ↔ tok g) (hh : ∀ c, hand' c ↔ hand c) (ho : ∀ c, owe' c ↔ owe c)
    (hs : ∀ c, sleeps' c ↔ sleeps c) : Covered holes count late' tok' hand' owe' sleeps' := by
  obtain ⟨howed, t, k, d, ct, ck, cd, h₁, h₂⟩ := h
  refine ⟨fun c hc => (hh c).mpr (howed c ((ho c).mp hc)), t, k, d, ct.congr ht, ck.congr hh,
    cd.congr ho, ?_, ?_⟩
  · rintro ⟨c, hc⟩
    exact (h₁ ⟨c, (hs c).mp hc⟩).imp_right fun hx => ⟨hx.1, hx.2.imp_left hl⟩
  · intro hx c c' hc hc' hne
    exact h₂ hx c c' ((hs c).mp hc) ((hs c').mp hc') hne

/-- A consumer takes up work. -/
theorem gain (h : Covered holes count late tok hand owe sleeps) (c : C)
    (hh : ∀ x, hand' x ↔ x = c ∨ hand x) : Covered holes count late tok hand' owe sleeps := by
  obtain ⟨howed, t, k, d, ct, ck, cd, h₁, h₂⟩ := h
  obtain ⟨k', ck', hk, -⟩ := ck.add c hh
  refine ⟨fun x hx => (hh x).mpr (.inr (howed x hx)), t, k', d, ct, ck', cd, fun hs => ?_, h₂⟩
  exact (h₁ hs).imp_left fun hx => by omega

/-- An item arrives that is not visible yet. It may hide others. -/
theorem arrive (h : Covered holes count late tok hand owe sleeps) (hl : late')
    (hsub : ∀ x, hand' x → hand x) (howe : ∀ x, owe x → hand' x)
    (hsame : holes = false → ∀ x, hand x → hand' x) :
    Covered holes count late' tok hand' owe sleeps := by
  obtain ⟨-, t, k, d, ct, ck, cd, h₁, h₂⟩ := h
  cases holes with
  | true =>
    obtain ⟨k', -, ck'⟩ := ck.subset hsub
    exact ⟨howe, t, k', d, ct, ck', cd, fun _ => .inr ⟨rfl, .inl hl⟩, h₂⟩
  | false =>
    have ck' : Counts k hand' := ck.congr fun x => ⟨hsub x, hsame rfl x⟩
    refine ⟨howe, t, k, d, ct, ck', cd, fun hs => (h₁ hs).imp_right fun hx => ?_, h₂⟩
    exact ⟨hx.1, .inl hl⟩

/-- The late item becomes visible; its producer has a token. -/
theorem reveal [DecidableEq P] (h : Covered holes count late tok hand owe sleeps) (hg : ¬ tok g)
    (ht : ∀ x, tok' x ↔ x = g ∨ tok x) :
    Covered holes (count + 1) late' tok' hand owe sleeps := by
  obtain ⟨howed, t, k, d, ct, ck, cd, h₁, h₂⟩ := h
  have hnn := ct.nonneg
  refine ⟨howed, t + 1, k, d, ct.insert hg ht, ck, cd, fun hs => ?_, fun hx a b ha hb hne => ?_⟩
  · obtain hc | ⟨hx, -⟩ := h₁ hs
    · exact .inl (by omega)
    · exact .inr ⟨hx, .inr (by omega)⟩
  · have := h₂ hx a b ha hb hne
    omega

/-- Nobody sleeps: a producer needs to wake nobody. -/
theorem spend (h : Covered holes count late tok hand owe sleeps) (hs : ∀ c, ¬ sleeps c)
    (ht : ∀ x, tok' x → tok x) : Covered holes count late tok' hand owe sleeps := by
  obtain ⟨howed, t, k, d, ct, ck, cd, -, -⟩ := h
  obtain ⟨t', -, ct'⟩ := ct.subset ht
  exact ⟨howed, t', k, d, ct', ck, cd, fun ⟨c, hc⟩ => absurd hc (hs c),
    fun _ c _ hc => absurd hc (hs c)⟩

/-- A producer wakes one of the sleepers. -/
theorem notify [DecidableEq P] [DecidableEq C] (h : Covered holes count late tok hand owe sleeps)
    (hg : tok g) (hc : sleeps c) (hno : ¬ hand c) (ht : ∀ x, tok' x ↔ x ≠ g ∧ tok x)
    (hh : ∀ x, hand' x ↔ x = c ∨ hand x) (hs : ∀ x, sleeps' x ↔ x ≠ c ∧ sleeps x)
    (hfew : holes = true → ∀ a b, sleeps a → sleeps b → a ≠ c → b ≠ c → a = b) :
    Covered holes count late tok' hand' owe sleeps' := by
  obtain ⟨howed, t, k, d, ct, ck, cd, h₁, h₂⟩ := h
  have hdk : d ≤ k := by
    obtain ⟨m, hm, cm⟩ := ck.subset howed
    exact cd.unique cm ▸ hm
  refine ⟨fun x hx => (hh x).mpr (.inr (howed x hx)), t - 1, k + 1, d, ct.erase hg ht,
    ck.insert hno hh, cd, ?_, fun hx a b ha hb hne => ?_⟩
  · rintro ⟨a, ha⟩
    obtain ⟨hac, ha⟩ := (hs a).mp ha
    -- two were asleep, so nobody who may miss an item is needed
    obtain hle | ⟨hx, -⟩ := h₁ ⟨c, hc⟩
    · exact .inl (by omega)
    · have := h₂ hx a c ha hc hac
      exact .inl (by omega)
  · obtain ⟨hac, ha⟩ := (hs a).mp ha
    obtain ⟨hbc, hb⟩ := (hs b).mp hb
    exact absurd (hfew hx a b ha hb hac hbc) hne

/-- A sleeper wakes by itself. -/
theorem wake (h : Covered holes count late tok hand owe sleeps)
    (hh : ∀ x, hand' x ↔ x = c ∨ hand x) (hs : ∀ x, sleeps' x → sleeps x) :
    Covered holes count late tok hand' owe sleeps' := by
  obtain ⟨howed, t, k, d, ct, ck, cd, h₁, h₂⟩ := h.gain c hh
  exact ⟨howed, t, k, d, ct, ck, cd, fun ⟨x, hx⟩ => h₁ ⟨x, hs x hx⟩,
    fun hx a b ha hb => h₂ hx a b (hs a ha) (hs b hb)⟩

/-- A consumer takes an item that it still has to subtract. -/
theorem take (h : Covered holes count late tok hand owe sleeps)
    (hh : ∀ x, hand' x ↔ x = c ∨ hand x) (ho : ∀ x, owe' x ↔ x = c ∨ owe x) :
    Covered holes count late tok hand' owe' sleeps := by
  obtain ⟨-, t, k, d, ct, ck, cd, h₁, h₂⟩ := h.gain c hh
  obtain ⟨d', cd', hd, -⟩ := cd.add c ho
  refine ⟨fun x hx => ?_, t, k, d', ct, ck, cd', h₁, fun hx a b ha hb hne => ?_⟩
  · exact (hh x).mpr (((ho x).mp hx).imp_right (h.owed x))
  · have := h₂ hx a b ha hb hne
    omega

/-- It subtracts the item and has nothing to do any more. -/
theorem pay [DecidableEq C] (h : Covered holes count late tok hand owe sleeps) (hc : owe c)
    (hh : ∀ x, hand' x ↔ x ≠ c ∧ hand x) (ho : ∀ x, owe' x ↔ x ≠ c ∧ owe x) :
    Covered holes (count - 1) late tok hand' owe' sleeps := by
  obtain ⟨howed, t, k, d, ct, ck, cd, h₁, h₂⟩ := h
  refine ⟨fun x hx => ?_, t, k - 1, d - 1, ct, ck.erase (howed c hc) hh, cd.erase hc ho,
    fun hs => ?_, fun hx a b ha hb hne => ?_⟩
  · obtain ⟨hne, hx⟩ := (ho x).mp hx
    exact (hh x).mpr ⟨hne, howed x hx⟩
  · exact (h₁ hs).imp_left fun hx => by omega
  · have := h₂ hx a b ha hb hne
    omega

/-- A consumer takes an item and subtracts it in one. -/
theorem remove [DecidableEq C] (h : Covered holes count late tok hand owe sleeps) (hc : ¬ owe c)
    (hh : ∀ x, hand' x ↔ x ≠ c ∧ hand x) : Covered holes (count - 1) late tok hand' owe sleeps := by
  have htake := h.take (c := c) (fun x => Iff.rfl) (fun x => Iff.rfl)
  refine htake.pay (.inl rfl) (fun x => ?_) fun x => ?_
  · rw [hh]
    exact ⟨fun hx => ⟨hx.1, .inr hx.2⟩, fun hx => ⟨hx.1, hx.2.resolve_left hx.1⟩⟩
  · refine ⟨fun hx => ⟨?_, .inr hx⟩, fun hx => hx.2.resolve_left hx.1⟩
    rintro rfl
    exact hc hx

/-- A consumer comes back with nothing: all visible items are taken, or some are hidden. -/
theorem miss (h : Covered holes count late tok hand owe sleeps) (hc : ¬ owe c)
    (hh : ∀ x, hand' x ↔ x ≠ c ∧ hand x)
    (hmiss : holes = true ∧ late ∨ ∃ d, Counts d owe ∧ count ≤ d) :
    Covered holes count late tok hand' owe sleeps := by
  obtain ⟨howed, t, k, d, ct, ck, cd, -, h₂⟩ := h
  obtain ⟨k', ck', -, -⟩ := ck.drop c hh
  have howed' : ∀ x, owe x → hand' x := by
    intro x hx
    refine (hh x).mpr ⟨?_, howed x hx⟩
    rintro rfl
    exact hc hx
  refine ⟨howed', t, k', d, ct, ck', cd, fun _ => ?_, h₂⟩
  obtain ⟨hx, hl⟩ | ⟨d', cd', hd'⟩ := hmiss
  · exact .inr ⟨hx, .inl hl⟩
  · obtain ⟨m, hm, cm⟩ := ck'.subset howed'
    have := cd'.unique cm
    have := ct.nonneg
    exact .inl (by omega)

/-- With no item visible one more goes to sleep. -/
theorem sleep (h : Covered holes count late tok hand owe sleeps) (hcount : count ≤ 0) (hc : ¬ owe c)
    (hh : ∀ x, hand' x ↔ x ≠ c ∧ hand x) :
    Covered holes count late tok hand' owe sleeps' := by
  obtain ⟨howed, t, k, d, ct, ck, cd, -, -⟩ := h
  obtain ⟨k', ck', -, -⟩ := ck.drop c hh
  have ht := ct.nonneg
  have hk := ck'.nonneg
  have hd := cd.nonneg
  refine ⟨fun x hx => (hh x).mpr ⟨?_, howed x hx⟩, t, k', d, ct, ck', cd, fun _ => .inl (by omega),
    fun _ _ _ _ _ _ => by omega⟩
  rintro rfl
  exact hc hx

/-- One more goes to sleep while the items are covered without it. -/
theorem join (h : Covered false count late tok hand owe sleeps)
    (hcount : ∀ t k, Counts t tok → Counts k hand → count ≤ t + k) :
    Covered false count late tok hand owe sleeps' := by
  obtain ⟨howed, t, k, d, ct, ck, cd, -, -⟩ := h
  exact ⟨howed, t, k, d, ct, ck, cd, fun _ => .inl (hcount t k ct ck), fun hx => by cases hx⟩

/-- With no token, no hand and nothing late nobody sleeps over a visible item. -/
theorem none_left (h : Covered holes count late tok hand owe sleeps) (hc : sleeps c)
    (hl : ¬ late) (ht : ∀ g, ¬ tok g) (hh : ∀ c, ¬ hand c) : count ≤ 0 := by
  obtain ⟨-, t, k, -, ct, ck, -, h₁, -⟩ := h
  have ht := ct.unique (Counts.zero ht)
  have hk := ck.unique (Counts.zero hh)
  obtain hle | ⟨-, hx | hx⟩ := h₁ ⟨c, hc⟩
  · omega
  · exact absurd hx hl
  · omega

end Covered
end

end Lts
