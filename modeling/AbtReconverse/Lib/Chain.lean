import Mathlib.Data.List.Nodup
import Mathlib.Logic.Function.Basic

/-!
# AbtReconverse.Lib.Chain

Singly linked chains in a heap given by a `next` function. `Path next p l` says that following
`next` from pointer `p` visits exactly the nodes `l` and then ends. The nodes of a path are
distinct (`Path.nodup`), a heap has one path from a pointer (`Path.unique`), and writing a node
that is not on the path does not matter (`Path.update_iff`). `walk` follows the pointers.
-/

namespace Lts

def Path {R : Type} (next : R → Option R) : Option R → List R → Prop
  | p, [] => p = none
  | p, w :: l => p = some w ∧ Path next (next w) l

/-- The nodes met by following `next` from a pointer to the end, with fuel for each of them. -/
def walk {R : Type} (next : R → Option R) : Nat → Option R → Option (List R)
  | _, none => some []
  | 0, some _ => none
  | n + 1, some w => (walk next n (next w)).map (w :: ·)

namespace Path

variable {R : Type} {next next' : R → Option R} {p : Option R} {l l' : List R}

theorem head_eq (h : Path next p l) : p = l.head? := by
  cases l with
  | nil => exact h
  | cons w l => exact h.1

theorem walk_eq (h : Path next p l) {n : Nat} (hn : l.length ≤ n) : walk next n p = some l := by
  induction l generalizing p n with
  | nil =>
    rw [Path] at h
    rw [h, walk]
  | cons w l ih =>
    obtain ⟨rfl, h⟩ := h
    cases n with
    | zero => cases hn
    | succ n =>
      rw [walk, ih h (Nat.le_of_succ_le_succ hn)]
      rfl

theorem unique (h : Path next p l) (h' : Path next p l') : l = l' := by
  induction l generalizing p l' with
  | nil =>
    cases l' with
    | nil => rfl
    | cons w l' => rw [Path] at h; rw [h] at h'; cases h'.1
  | cons w l ih =>
    obtain ⟨rfl, h⟩ := h
    cases l' with
    | nil => cases h'
    | cons w' l' =>
      obtain ⟨hw, h'⟩ := h'
      obtain rfl := Option.some.inj hw
      rw [ih h h']

theorem congr (h : Path next p l) (hn : ∀ w ∈ l, next' w = next w) : Path next' p l := by
  induction l generalizing p with
  | nil => exact h
  | cons w l ih =>
    refine ⟨h.1, ?_⟩
    rw [hn w (List.mem_cons_self ..)]
    exact ih h.2 fun v hv => hn v (List.mem_cons_of_mem _ hv)

/-- The part of a path from one of its nodes on. -/
theorem suffix (h : Path next p (l ++ l')) : ∃ p', Path next p' l' := by
  induction l generalizing p with
  | nil => exact ⟨p, h⟩
  | cons w l ih => exact ih h.2

theorem nodup (h : Path next p l) : l.Nodup := by
  induction l generalizing p with
  | nil => exact List.nodup_nil
  | cons w l ih =>
    refine List.nodup_cons.mpr ⟨fun hw => ?_, ih h.2⟩
    -- a second visit of `w` would start a shorter path from the same pointer
    obtain ⟨l₁, l₂, rfl⟩ := List.append_of_mem hw
    obtain ⟨p', hp'⟩ := h.2.suffix
    have := h.2.unique hp'.2
    have := congrArg List.length this
    simp at this
    omega

theorem next_mem (h : Path next p l) {u v : R} (hu : u ∈ l) (hv : next u = some v) : v ∈ l := by
  induction l generalizing p with
  | nil => cases hu
  | cons w l ih =>
    rcases List.mem_cons.mp hu with rfl | hu
    · have hhead := h.2.head_eq
      rw [hv] at hhead
      exact List.mem_cons_of_mem _ (List.mem_of_head? hhead.symm)
    · exact List.mem_cons_of_mem _ (ih h.2 hu)

theorem update_iff [DecidableEq R] {w : R} {v : Option R} (hw : w ∉ l) :
    Path (Function.update next w v) p l ↔ Path next p l := by
  have he : ∀ u ∈ l, Function.update next w v u = next u := fun u hu =>
    Function.update_of_ne (fun he : u = w => hw (he ▸ hu)) _ _
  exact ⟨fun h => h.congr fun u hu => (he u hu).symm, fun h => h.congr he⟩

/-- Linking a new node `w` behind the last one. -/
theorem snoc [DecidableEq R] {z w : R} (h : Path next p (l ++ [z])) (hw : w ∉ l ++ [z])
    (hn : next w = none) : Path (Function.update next z (some w)) p (l ++ [z, w]) := by
  induction l generalizing p with
  | nil =>
    simp only [List.nil_append, List.mem_singleton] at hw
    refine ⟨h.1, ?_, ?_⟩
    · rw [Function.update_self]
    · rw [Function.update_of_ne hw]; exact hn
  | cons u l ih =>
    have hu : u ≠ z := by
      rintro rfl
      exact (List.nodup_cons.mp h.nodup).1 (by simp)
    refine ⟨h.1, ?_⟩
    rw [Function.update_of_ne hu]
    exact ih h.2 fun hm => hw (List.mem_cons_of_mem _ hm)

/-- Unlinking node `w` behind node `z`. -/
theorem bypass [DecidableEq R] {z w : R} (h : Path next p (l ++ z :: w :: l')) :
    Path (Function.update next z (next w)) p (l ++ z :: l') := by
  have hz : z ∉ w :: l' := (List.nodup_cons.mp (List.nodup_append.mp h.nodup).2.1).1
  induction l generalizing p with
  | nil =>
    refine ⟨h.1, ?_⟩
    rw [Function.update_self, update_iff fun hm => hz (List.mem_cons_of_mem _ hm)]
    exact h.2.2
  | cons u l ih =>
    have hu : u ≠ z := by
      rintro rfl
      exact (List.nodup_cons.mp h.nodup).1 (by simp)
    refine ⟨h.1, ?_⟩
    rw [Function.update_of_ne hu]
    exact ih h.2

end Path

end Lts
