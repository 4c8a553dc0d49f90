import Mathlib.Data.List.Basic
import Mathlib.Data.List.Perm.Basic
import Mathlib.Logic.Function.Basic

/-!
# AbtReconverse.Lib.Queue

Queues with a policy of their own, and a list of such queues polled in order.

`Queue Q α` gives `push` and `pop` on a representation `Q` together with the elements it holds; the
laws say that nothing is lost or invented and that `pop` fails only on an empty queue, and leave
open which element `pop` takes. `Queue.Fifo`: what is pushed later does not change what is popped
next. `popFirst` pops from the first non-empty queue of a list.
-/

namespace Lts

structure Queue (Q α : Type) where
  empty : Q
  push : Q → α → Q
  pop : Q → Option (α × Q)
  units : Q → List α
  units_empty : units empty = []
  push_perm : ∀ q u, (units (push q u)).Perm (u :: units q)
  pop_none : ∀ q, pop q = none ↔ units q = []
  pop_perm : ∀ q t q', pop q = some (t, q') → (units q).Perm (t :: units q')

namespace Queue

variable {Q α : Type}

def Fifo (c : Queue Q α) : Prop :=
  ∀ q u t q', c.pop q = some (t, q') → c.pop (c.push q u) = some (t, c.push q' u)

theorem mem_push (c : Queue Q α) {q : Q} {u t : α} :
    t ∈ c.units (c.push q u) ↔ t = u ∨ t ∈ c.units q := by
  rw [(c.push_perm q u).mem_iff, List.mem_cons]

theorem mem_pop (c : Queue Q α) {q q' : Q} {t u : α} (h : c.pop q = some (t, q')) :
    u ∈ c.units q ↔ u = t ∨ u ∈ c.units q' := by
  rw [(c.pop_perm q t q' h).mem_iff, List.mem_cons]

theorem nodup_push (c : Queue Q α) {q : Q} {u : α} (hq : (c.units q).Nodup)
    (hu : u ∉ c.units q) : (c.units (c.push q u)).Nodup :=
  (c.push_perm q u).nodup_iff.mpr (List.nodup_cons.mpr ⟨hu, hq⟩)

theorem nodup_pop (c : Queue Q α) {q q' : Q} {t : α} (hq : (c.units q).Nodup)
    (h : c.pop q = some (t, q')) : t ∉ c.units q' ∧ (c.units q').Nodup :=
  List.nodup_cons.mp ((c.pop_perm q t q' h).nodup_iff.mp hq)

/-- First in, first out. -/
def fifo (α : Type) : Queue (List α) α where
  empty := []
  push q u := q ++ [u]
  pop
    | [] => none
    | t :: q => some (t, q)
  units q := q
  units_empty := rfl
  push_perm q u := List.perm_append_singleton u q
  pop_none q := by cases q <;> simp
  pop_perm q t q' h := by
    cases q with
    | nil => cases h
    | cons a q => cases h; exact .refl _

/-- Last in, first out. -/
def lifo (α : Type) : Queue (List α) α where
  empty := []
  push q u := u :: q
  pop
    | [] => none
    | t :: q => some (t, q)
  units q := q
  units_empty := rfl
  push_perm _ _ := .refl _
  pop_none q := by cases q <;> simp
  pop_perm q t q' h := by
    cases q with
    | nil => cases h
    | cons a q => cases h; exact .refl _

theorem fifo_fifo (α : Type) : (fifo α).Fifo := by
  intro q u t q' h
  cases q with
  | nil => cases h
  | cons a q => cases h; rfl

end Queue

/-- The first occurrence of an element. -/
theorem split_idxOf {α : Type} [DecidableEq α] {l : List α} {a : α} (h : a ∈ l) :
    a ∉ l.take (l.idxOf a) ∧ ∃ r, l = l.take (l.idxOf a) ++ a :: r := by
  induction l with
  | nil => cases h
  | cons b l ih =>
    by_cases hb : b = a
    · subst hb; simp
    · have hm : a ∈ l := (List.mem_cons.mp h).resolve_left (Ne.symm hb)
      obtain ⟨hn, r, hr⟩ := ih hm
      rw [List.idxOf_cons_ne _ hb, List.take_succ_cons]
      refine ⟨fun ha => ?_, r, by rw [List.cons_append, ← hr]⟩
      rcases List.mem_cons.mp ha with rfl | ha
      · exact hb rfl
      · exact hn ha

section Polled

variable {ι Q α : Type} [DecidableEq ι] (ops : ι → Queue Q α)

/-- Pop from the first queue of the list that has something. -/
def popFirst (q : ι → Q) : List ι → Option (α × (ι → Q))
  | [] => none
  | p :: ps =>
    match (ops p).pop (q p) with
    | some (t, x) => some (t, Function.update q p x)
    | none => popFirst q ps

variable {ops} {q q₀ : ι → Q} {ps ps' : List ι} {p : ι} {t : α}

theorem popFirst_eq_none : popFirst ops q ps = none ↔ ∀ p ∈ ps, (ops p).units (q p) = [] := by
  induction ps with
  | nil => simp [popFirst]
  | cons p ps ih =>
    simp only [popFirst, List.forall_mem_cons, ← (ops p).pop_none]
    cases hp : (ops p).pop (q p) with
    | none => simpa using ih
    | some e => simp

/-- The queue it came from, and the queues before it are empty. -/
theorem popFirst_eq_some {q' : ι → Q} (h : popFirst ops q ps = some (t, q')) :
    ∃ l p r x, ps = l ++ p :: r ∧ (∀ p' ∈ l, (ops p').units (q p') = []) ∧
      (ops p).pop (q p) = some (t, x) ∧ q' = Function.update q p x := by
  induction ps with
  | nil => cases h
  | cons a ps ih =>
    simp only [popFirst] at h
    cases ha : (ops a).pop (q a) with
    | some e =>
      rw [ha] at h
      cases h
      exact ⟨[], a, ps, _, rfl, by simp, ha, rfl⟩
    | none =>
      rw [ha] at h
      obtain ⟨l, p, r, x, rfl, hl, hp, hq⟩ := ih h
      refine ⟨a :: l, p, r, x, rfl, ?_, hp, hq⟩
      rw [List.forall_mem_cons]
      exact ⟨((ops a).pop_none _).mp ha, hl⟩

/-- It is the first queue that has something. -/
theorem popFirst_idxOf {q' : ι → Q} (h : popFirst ops q ps = some (t, q')) :
    ∃ p x, p ∈ ps ∧ (ops p).pop (q p) = some (t, x) ∧ q' = Function.update q p x ∧
      ∀ p' ∈ ps, ps.idxOf p' < ps.idxOf p → (ops p').units (q p') = [] := by
  obtain ⟨l, p, r, x, rfl, hl, hp, hq⟩ := popFirst_eq_some h
  have hpl : p ∉ l := fun hm => by
    have := hl p hm
    rw [← (ops p).pop_none, hp] at this; cases this
  refine ⟨p, x, by simp, hp, hq, fun p' hp' hlt => hl p' ?_⟩
  rw [List.idxOf_append_of_notMem hpl, List.idxOf_cons_self, Nat.add_zero,
    ← List.mem_take_iff_idxOf_lt hp', List.take_left] at hlt
  exact hlt

theorem popFirst_append (h : popFirst ops q ps = none) :
    popFirst ops q (ps ++ ps') = popFirst ops q ps' := by
  induction ps with
  | nil => rfl
  | cons a ps ih =>
    rw [popFirst_eq_none, List.forall_mem_cons] at h
    simp only [List.cons_append, popFirst, ((ops a).pop_none _).mpr h.1]
    exact ih (popFirst_eq_none.mpr h.2)

theorem popFirst_append_some {e : α × (ι → Q)} (h : popFirst ops q ps = some e) :
    popFirst ops q (ps ++ ps') = some e := by
  induction ps with
  | nil => cases h
  | cons a ps ih =>
    simp only [List.cons_append, popFirst] at h ⊢
    cases ha : (ops a).pop (q a) with
    | some e' => rw [ha] at h; exact h
    | none => rw [ha] at h; exact ih h

/-- Polling looks only at the queues of the list. -/
theorem popFirst_congr (h : ∀ p ∈ ps, q₀ p = q p) {q' : ι → Q}
    (hp : popFirst ops q ps = some (t, q')) :
    ∃ p ∈ ps, ∃ x, q' = Function.update q p x ∧
      popFirst ops q₀ ps = some (t, Function.update q₀ p x) := by
  induction ps with
  | nil => cases hp
  | cons a ps ih =>
    rw [List.forall_mem_cons] at h
    simp only [popFirst] at hp ⊢
    rw [h.1]
    cases ha : (ops a).pop (q a) with
    | some e =>
      rw [ha] at hp
      cases hp
      exact ⟨a, by simp, _, rfl, rfl⟩
    | none =>
      rw [ha] at hp
      obtain ⟨p, hm, x, hq, hr⟩ := ih h.2 hp
      exact ⟨p, List.mem_cons_of_mem _ hm, x, hq, hr⟩

theorem popFirst_congr_none (h : ∀ p ∈ ps, q₀ p = q p) (hp : popFirst ops q ps = none) :
    popFirst ops q₀ ps = none := by
  rw [popFirst_eq_none] at hp ⊢
  intro p hm
  rw [h p hm]
  exact hp p hm

end Polled

end Lts
