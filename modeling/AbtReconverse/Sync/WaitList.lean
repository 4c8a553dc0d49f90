import AbtReconverse.Lib.Chain
import AbtReconverse.Lib.Update

/-!
# AbtReconverse.Sync.WaitList

The wait list of a synchronization object (`ABTI_waitlist`): a head and a tail pointer over the
`next` fields of the waiter records. `wlPush`, `wlPop` and `wlRemove` are the source's pointer
code; `wlRemove` carries a bound on its walk, since on a damaged list it need not end.

`Rep next wl l` says that the list holds the records `l`, oldest first. On such a list the three
functions append, take the first and delete (`rep_push`, `rep_pop`, `rep_remove`).
-/

namespace AbtReconverse
namespace Sync

open Lts

/-- `ABTI_waitlist`. -/
structure WaitList (R : Type) where
  head : Option R
  tail : Option R
  deriving DecidableEq, Repr

section Ops

variable {R : Type}

/-- `wl_push`. -/
def wlPush [DecidableEq R] (next : R → Option R) (wl : WaitList R) (w : R) : (R → Option R) × WaitList R :=
  let next := Function.update next w none
  match wl.tail with
  | some z => (Function.update next z (some w), ⟨wl.head, some w⟩)
  | none => (next, ⟨some w, some w⟩)

/-- `wl_pop`. -/
def wlPop (next : R → Option R) (wl : WaitList R) : Option R × WaitList R :=
  match wl.head with
  | none => (none, wl)
  | some w => (some w, ⟨next w, if (next w).isNone then none else wl.tail⟩)

/-- The loop of `wl_remove`, at record `c` behind `prev`; `none` when the bound is reached. -/
def wlRemoveFrom [DecidableEq R] (next : R → Option R) (wl : WaitList R) (w : R) :
    Nat → Option R → Option R → Option (Bool × (R → Option R) × WaitList R)
  | 0, _, _ => none
  | _ + 1, _, none => some (false, next, wl)
  | n + 1, prev, some c =>
    if c ≠ w then wlRemoveFrom next wl w n (some c) (next c)
    else
      let tail := if wl.tail = some c then prev else wl.tail
      match prev with
      | some z => some (true, Function.update next z (next c), ⟨wl.head, tail⟩)
      | none => some (true, next, ⟨next c, tail⟩)

/-- `wl_remove`. -/
def wlRemove [DecidableEq R] (next : R → Option R) (wl : WaitList R) (w : R) (fuel : Nat) :
    Option (Bool × (R → Option R) × WaitList R) :=
  wlRemoveFrom next wl w fuel none wl.head

end Ops

/-- The list holds `l`, oldest first. -/
structure Rep {R : Type} (next : R → Option R) (wl : WaitList R) (l : List R) : Prop where
  path : Path next wl.head l
  tail : wl.tail = l.getLast?

section Lemmas

variable {R : Type} {next : R → Option R} {wl : WaitList R} {l : List R} {w : R}

theorem rep_empty (next : R → Option R) : Rep next ⟨none, none⟩ [] := ⟨rfl, rfl⟩

/-- A write to a record that is not on the list. -/
theorem Rep.update [DecidableEq R] {v : Option R} (h : Rep next wl l) (hw : w ∉ l) :
    Rep (Function.update next w v) wl l :=
  ⟨(Path.update_iff hw).mpr h.path, h.tail⟩

theorem rep_push [DecidableEq R] (h : Rep next wl l) (hw : w ∉ l) :
    Rep (wlPush next wl w).1 (wlPush next wl w).2 (l ++ [w]) := by
  have h' := h.update (v := none) hw
  rcases List.eq_nil_or_concat l with rfl | ⟨l, z, rfl⟩
  · have ht : wl.tail = none := h.tail
    simp only [wlPush, ht]
    exact ⟨⟨rfl, Function.update_self ..⟩, rfl⟩
  · rw [List.concat_eq_append] at *
    have ht : wl.tail = some z := by rw [h.tail]; simp
    simp only [wlPush, ht]
    refine ⟨?_, by simp⟩
    have := h'.path.snoc hw (Function.update_self ..)
    simpa using this

theorem wlPush_next [DecidableEq R] {u : R} (hw : u ≠ w) (ht : wl.tail ≠ some u) :
    (wlPush next wl w).1 u = next u := by
  unfold wlPush
  cases hz : wl.tail with
  | none => exact Function.update_of_ne hw _ _
  | some z =>
    have huz : u ≠ z := fun he => ht (he ▸ hz)
    simp only [Function.update_of_ne huz, Function.update_of_ne hw]

/-- What a push writes to a `next`. -/
theorem wlPush_some [DecidableEq R] {u v : R} (h : (wlPush next wl w).1 u = some v) :
    wl.tail = some u ∧ v = w ∨ next u = some v := by
  have hnew : ∀ {u v}, Function.update next w none u = some v → next u = some v := by
    intro u v hu
    obtain ⟨-, hu⟩ | ⟨-, hu⟩ := update_cases (P := fun x => x = some v) hu
    · cases hu
    · exact hu
  unfold wlPush at h
  cases hz : wl.tail with
  | none =>
    rw [hz] at h
    exact .inr (hnew h)
  | some z =>
    rw [hz] at h
    obtain ⟨rfl, hu⟩ | ⟨-, hu⟩ := update_cases (P := fun x => x = some v) h
    · exact .inl ⟨rfl, (Option.some.inj hu).symm⟩
    · exact .inr (hnew hu)

theorem wlPush_head [DecidableEq R] {v : R} (h : (wlPush next wl w).2.head = some v) :
    v = w ∨ wl.head = some v := by
  unfold wlPush at h
  cases hz : wl.tail with
  | none =>
    rw [hz] at h
    exact .inl (Option.some.inj h).symm
  | some z =>
    rw [hz] at h
    exact .inr h

theorem wlPush_tail [DecidableEq R] : (wlPush next wl w).2.tail = some w := by
  unfold wlPush
  cases wl.tail <;> rfl

/-- What a pop leaves in the two pointers. -/
theorem wlPop_ends {v : R} (hh : wl.head = some w)
    (h : (wlPop next wl).2.head = some v ∨ (wlPop next wl).2.tail = some v) :
    next w = some v ∨ wl.tail = some v := by
  simp only [wlPop, hh] at h
  obtain h | h := h
  · exact .inl h
  · split at h
    · cases h
    · exact .inr h

theorem rep_pop_nil (h : Rep next wl []) : wlPop next wl = (none, wl) := by
  have hh : wl.head = none := h.path
  simp only [wlPop, hh]

theorem rep_pop (h : Rep next wl (w :: l)) :
    (wlPop next wl).1 = some w ∧ Rep next (wlPop next wl).2 l := by
  have hh : wl.head = some w := h.path.1
  simp only [wlPop, hh, true_and]
  refine ⟨h.path.2, ?_⟩
  have hn := h.path.2.head_eq
  cases l with
  | nil => simp [hn]
  | cons v l => simp [hn, h.tail]

/-- The loop of `wl_remove` on a path: `l₁` is behind it, `l₂` in front of it. -/
theorem removeFrom_path [DecidableEq R] (l₁ : List R) {l₂ : List R} {n : Nat}
    {r : Bool × (R → Option R) × WaitList R} (h : Rep next wl (l₁ ++ l₂)) (hw : w ∉ l₁)
    (hl : Path next l₂.head? l₂)
    (hr : wlRemoveFrom next wl w n l₁.getLast? l₂.head? = some r) :
    (r.1 = true ↔ w ∈ l₂) ∧ Rep r.2.1 r.2.2 ((l₁ ++ l₂).erase w) ∧
      ∀ u, u ∉ (l₁ ++ l₂).erase w → r.2.1 u = next u := by
  induction n generalizing l₁ l₂ with
  | zero => cases hr
  | succ n ih =>
    cases l₂ with
    | nil =>
      obtain rfl := Option.some.inj hr
      rw [List.append_nil] at *
      refine ⟨by simp, ?_, fun u _ => rfl⟩
      rwa [List.erase_of_not_mem hw]
    | cons c l₂ =>
      have hnext : next c = l₂.head? := hl.2.head_eq
      simp only [List.head?_cons, wlRemoveFrom] at hr
      split at hr
      · rename_i hc
        have happ : l₁ ++ c :: l₂ = (l₁ ++ [c]) ++ l₂ := by simp
        have hlast : (l₁ ++ [c]).getLast? = some c := by simp
        rw [hnext, ← hlast] at hr
        rw [happ] at h ⊢
        obtain ⟨h1, h2, h3⟩ := ih _ h (by simp [hw, Ne.symm hc]) (hnext ▸ hl.2) hr
        exact ⟨by simp [h1, Ne.symm hc], h2, h3⟩
      · rename_i hc
        obtain rfl : c = w := not_not.mp hc
        have herase : (l₁ ++ c :: l₂).erase c = l₁ ++ l₂ := by
          rw [List.erase_append_right _ hw, List.erase_cons_head]
        rw [herase]
        have hcl : c ∉ l₂ := (List.nodup_cons.mp (List.nodup_append.mp h.path.nodup).2.1).1
        -- the tail moves back iff `c` was the last record
        have htail : (if wl.tail = some c then l₁.getLast? else wl.tail) = (l₁ ++ l₂).getLast? := by
          rw [h.tail]
          rcases List.eq_nil_or_concat l₂ with rfl | ⟨l₂, z, rfl⟩
          · simp
          · have hz : z ≠ c := by rintro rfl; simp at hcl
            have h1 : (l₁ ++ c :: l₂.concat z).getLast? = some z := by
              simp [List.getLast?_append, List.getLast?_cons]
            have h2 : (l₁ ++ l₂.concat z).getLast? = some z := by simp [List.getLast?_append]
            rw [h1, h2, if_neg (by simpa using hz)]
        rcases List.eq_nil_or_concat l₁ with rfl | ⟨l₁, z, rfl⟩
        · simp only [List.getLast?_nil] at hr
          obtain rfl := Option.some.inj hr
          refine ⟨by simp, ⟨h.path.2, htail⟩, fun u _ => rfl⟩
        · rw [List.concat_eq_append] at *
          have hlast : (l₁ ++ [z]).getLast? = some z := by simp
          rw [hlast] at hr htail
          obtain rfl := Option.some.inj hr
          refine ⟨by simp, ⟨?_, htail⟩, fun u hu => ?_⟩
          · have := h.path
            simp only [List.append_assoc, List.singleton_append] at this ⊢
            exact this.bypass
          · refine Function.update_of_ne ?_ _ _
            rintro rfl
            exact hu (by simp)

/-- The loop of `wl_remove` comes to the end of a path, or to the record before. -/
theorem exists_removeFrom [DecidableEq R] {p prev : Option R} {n : Nat} (h : Path next p l)
    (hn : l.length < n) : ∃ r, wlRemoveFrom next wl w n prev p = some r := by
  induction l generalizing p prev n with
  | nil =>
    obtain rfl : p = none := h
    cases n with
    | zero => cases hn
    | succ n => exact ⟨_, by rw [wlRemoveFrom]⟩
  | cons c l ih =>
    obtain ⟨rfl, h⟩ := h
    cases n with
    | zero => cases hn
    | succ n =>
      rw [wlRemoveFrom]
      by_cases hc : c ≠ w
      · rw [if_pos hc]
        exact ih h (Nat.lt_of_succ_lt_succ hn)
      · rw [if_neg hc]
        cases prev with
        | none => exact ⟨_, rfl⟩
        | some z => exact ⟨_, rfl⟩

/-- `wl_remove` deletes the record and says whether it was there; it writes no other list. -/
theorem rep_remove [DecidableEq R] {fuel : Nat} {r : Bool × (R → Option R) × WaitList R}
    (h : Rep next wl l) (hr : wlRemove next wl w fuel = some r) :
    (r.1 = true ↔ w ∈ l) ∧ Rep r.2.1 r.2.2 (l.erase w) ∧
      ∀ u, u ∉ l.erase w → r.2.1 u = next u := by
  have hh := h.path.head_eq
  rw [wlRemove, hh] at hr
  exact removeFrom_path [] h (by simp) (hh ▸ h.path) hr

end Lemmas

end Sync
end AbtReconverse
