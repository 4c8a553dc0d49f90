import Mathlib.Data.List.Chain
import Mathlib.Data.List.Nodup
import Mathlib.Logic.Function.Basic

/-!
# AbtReconverse.Lib.Broken

Linked queues whose links are written late. A producer first swings the tail to its node and then
writes the `next` field of the node that was last; until then the chain is broken there.
`Broken next pend l` says that `l` are the nodes in the order of their exchanges: consecutive nodes
are linked, or the link between them is pending.

The operations of such a queue: `exchange` (a node joins at the end), `link` (a pending link is
written), `drop` (the first node is passed once its link is there).
-/

namespace Lts

structure Broken {R : Type} (next : R → Option R) (pend : R → R → Prop) (l : List R) : Prop where
  nodup : l.Nodup
  links : l.IsChain fun u v => next u = some v ∨ (next u = none ∧ pend u v)
  last : ∀ z, l.getLast? = some z → next z = none

/-- What stands behind a node of a list without repetition. -/
theorem pair_unique {R : Type} {l : List R} {u v v' : R} (hl : l.Nodup) (h : [u, v] <:+: l)
    (h' : [u, v'] <:+: l) : v = v' := by
  obtain ⟨l₁, l₂, e⟩ := h
  obtain ⟨k₁, k₂, e'⟩ := h'
  have e₁ : l = l₁ ++ u :: (v :: l₂) := by rw [← e]; simp
  have e₂ : l = k₁ ++ u :: (v' :: k₂) := by rw [← e']; simp
  rw [e₁, List.nodup_append] at hl
  have hu₁ : u ∉ l₁ := fun hm => hl.2.2 u hm u (by simp) rfl
  have hu₂ : u ∉ v :: l₂ := (List.nodup_cons.mp hl.2.1).1
  have := (List.append_cons_inj_of_notMem hu₁ hu₂).mp (e₁.symm.trans e₂)
  simpa using congrArg List.head? this.2.2

theorem pair_tail {R : Type} {l : List R} {u v w : R} (h : [u, v] <:+: w :: l) (hu : u ≠ w) :
    [u, v] <:+: l := by
  obtain ⟨l₁, l₂, e⟩ := h
  cases l₁ with
  | nil => exact absurd (List.cons.inj e).1 hu
  | cons a l₁ => exact ⟨l₁, l₂, (List.cons.inj e).2⟩

theorem pair_snoc {R : Type} {l : List R} {z w : R} (hz : l.getLast? = some z) :
    [z, w] <:+: l ++ [w] := by
  obtain ⟨l', rfl⟩ := List.getLast?_eq_some_iff.mp hz
  exact ⟨l', [], by simp⟩

theorem pair_mem {R : Type} {l : List R} {u v : R} (h : [u, v] <:+: l) : u ∈ l ∧ v ∈ l :=
  ⟨h.subset (by simp), h.subset (by simp)⟩

namespace Broken

variable {R : Type} {next next' : R → Option R} {pend pend' : R → R → Prop} {l : List R} {u v w z : R}

theorem congr (h : Broken next pend l) (hn : ∀ u ∈ l, next' u = next u)
    (hp : ∀ u ∈ l, ∀ v ∈ l, pend u v → pend' u v) : Broken next' pend' l := by
  refine ⟨h.nodup, h.links.imp_of_mem_imp fun a b ha hb hab => ?_, fun z hz => ?_⟩
  · rw [hn a ha]
    exact hab.imp_right fun hab => ⟨hab.1, hp a ha b hb hab.2⟩
  · rw [hn z (List.mem_of_getLast? hz)]
    exact h.last z hz

/-- Node `w` becomes the last one; the link to it is pending. -/
theorem exchange (h : Broken next pend l) (hz : l.getLast? = some z) (hw : w ∉ l)
    (hn : next w = none) (hp : pend z w) : Broken next pend (l ++ [w]) := by
  refine ⟨?_, ?_, ?_⟩
  · rw [List.nodup_append]
    refine ⟨h.nodup, List.nodup_singleton w, ?_⟩
    rintro a ha b hb rfl
    exact hw (List.mem_singleton.mp hb ▸ ha)
  · rw [List.isChain_append]
    refine ⟨h.links, List.isChain_singleton w, ?_⟩
    intro x hx y hy
    obtain rfl : z = x := Option.some.inj (hz.symm.trans hx)
    obtain rfl : w = y := by simpa using hy
    exact .inr ⟨h.last z hz, hp⟩
  · intro x hx
    obtain rfl : w = x := by simpa using hx
    exact hn

/-- The pending link from `u` to `v` is written. -/
theorem link [DecidableEq R] (h : Broken next pend l) (huv : [u, v] <:+: l)
    (hp : ∀ a b, a ≠ u → pend a b → pend' a b) :
    Broken (Function.update next u (some v)) pend' l := by
  obtain ⟨l₁, l₂, hl⟩ := huv
  have hl' : l = l₁ ++ u :: (v :: l₂) := by rw [← hl]; simp
  have hnd := h.nodup
  rw [hl', List.nodup_append] at hnd
  have hu₁ : u ∉ l₁ := fun hm => hnd.2.2 u hm u (by simp) rfl
  have hu₂ : u ∉ v :: l₂ := (List.nodup_cons.mp hnd.2.1).1
  refine ⟨h.nodup, ?_, ?_⟩
  · rw [List.isChain_iff_forall_rel_of_append_cons_cons]
    intro a b k₁ k₂ hk
    by_cases ha : a = u
    · -- the only node behind `u` is `v`
      subst ha
      rw [hl', List.append_cons_inj_of_notMem hu₁ hu₂] at hk
      refine .inl ?_
      rw [Function.update_self]
      exact congrArg List.head? hk.2.2
    · rw [Function.update_of_ne ha]
      have := List.isChain_iff_forall_rel_of_append_cons_cons.mp h.links hk
      exact this.imp_right fun hab => ⟨hab.1, hp a b ha hab.2⟩
  · intro z hz
    have hzu : z ≠ u := by
      rintro rfl
      rw [hl', List.getLast?_append, List.getLast?_cons_cons] at hz
      have hm : (v :: l₂).getLast? = some z := by
        cases hg : (v :: l₂).getLast? with
        | none => simp at hg
        | some y => rw [hg] at hz; exact hz
      exact hu₂ (List.mem_of_getLast? hm)
    rw [Function.update_of_ne hzu]
    exact h.last z hz

theorem drop (h : Broken next pend (u :: l)) : Broken next pend l := by
  refine ⟨(List.nodup_cons.mp h.nodup).2, h.links.tail, fun z hz => h.last z ?_⟩
  cases l with
  | nil => cases hz
  | cons a l => simpa using hz

theorem next_head (h : Broken next pend (u :: l)) (hu : next u = some v) : ∃ l', l = v :: l' := by
  cases l with
  | nil => have := h.last u rfl; rw [hu] at this; cases this
  | cons a l =>
    rcases (List.isChain_cons_cons.mp h.links).1 with ha | ⟨ha, _⟩
    · rw [hu] at ha; obtain rfl := Option.some.inj ha; exact ⟨l, rfl⟩
    · rw [hu] at ha; cases ha

theorem pend_of_none (h : Broken next pend (u :: v :: l)) (hu : next u = none) : pend u v := by
  rcases (List.isChain_cons_cons.mp h.links).1 with ha | ⟨_, ha⟩
  · rw [hu] at ha; cases ha
  · exact ha

end Broken

end Lts
