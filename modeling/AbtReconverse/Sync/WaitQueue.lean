import AbtReconverse.Sync.WaitList

/-!
# AbtReconverse.Sync.WaitQueue

A wait list is a queue: `wl_push`, `wl_pop`, `wl_remove` and the detaching of the whole list
(`ABT_cond_broadcast`, `ABT_eventual_set`), in any order. Records are pushed, taken off and pushed
again, and nothing clears the `next` of a record that leaves, so the memory a list starts from is
arbitrary.

* `run`: the operations on the pointers, with what each of them returns.
* `after`, `answers`: the same operations on a queue.

`step_spec` compares them for one operation, `run_spec` for a whole run, and says besides which
records a run does not write. `wait_list_queue` puts this together with the chains that were
detached on the way.
-/

namespace AbtReconverse
namespace WaitQueue

open Lts
open Sync

inductive Op (R : Type) where
  | push (w : R)
  | pop
  | remove (w : R)
  /-- `list = wl.head; wl.head = wl.tail = nullptr`. -/
  | detach
  deriving DecidableEq, Repr

/-- What an operation returns. -/
inductive Answer (R : Type) where
  | pushed
  | popped (w : Option R)
  | removed (found : Bool)
  | detached (list : Option R)
  deriving DecidableEq, Repr

structure State (R : Type) where
  next : R → Option R
  wl : WaitList R

/-- A new list, over records with any contents. -/
def initial {R : Type} (next : R → Option R) : State R := ⟨next, ⟨none, none⟩⟩

section Ops

variable {R : Type} [DecidableEq R]

/-- One operation; `none` when the loop of `wl_remove` has not ended within `fuel` records. -/
def step (fuel : Nat) (s : State R) : Op R → Option (Answer R × State R)
  | .push w =>
    let r := wlPush s.next s.wl w
    some (.pushed, ⟨r.1, r.2⟩)
  | .pop =>
    let r := wlPop s.next s.wl
    some (.popped r.1, ⟨s.next, r.2⟩)
  | .remove w => (wlRemove s.next s.wl w fuel).map fun r => (.removed r.1, ⟨r.2.1, r.2.2⟩)
  | .detach => some (.detached s.wl.head, ⟨s.next, ⟨none, none⟩⟩)

def run (fuel : Nat) (s : State R) : List (Op R) → Option (List (Answer R) × State R)
  | [] => some ([], s)
  | op :: ops =>
    (step fuel s op).bind fun r => (run fuel r.2 ops).map fun r' => (r.1 :: r'.1, r'.2)

/-- The queue after an operation. -/
def Op.after (q : List R) : Op R → List R
  | .push w => q ++ [w]
  | .pop => q.tail
  | .remove w => q.erase w
  | .detach => []

/-- What an operation returns on a queue. -/
def Op.answer (q : List R) : Op R → Answer R
  | .push _ => .pushed
  | .pop => .popped q.head?
  | .remove w => .removed (decide (w ∈ q))
  | .detach => .detached q.head?

def after (q : List R) (ops : List (Op R)) : List R := ops.foldl Op.after q

def answers (q : List R) : List (Op R) → List (Answer R)
  | [] => []
  | op :: ops => op.answer q :: answers (op.after q) ops

/-- Only records that are not on the list are pushed. -/
def Allowed (q : List R) : List (Op R) → Prop
  | [] => True
  | op :: ops => (∀ w ∈ q, op ≠ .push w) ∧ Allowed (op.after q) ops

instance decidableAllowed (q : List R) : (ops : List (Op R)) → Decidable (Allowed q ops)
  | [] => .isTrue trivial
  | op :: ops =>
    have := decidableAllowed (op.after q) ops
    inferInstanceAs (Decidable ((∀ w ∈ q, op ≠ .push w) ∧ Allowed (op.after q) ops))

end Ops

/-- What the pointers look like when the list holds `q`. -/
structure Represents {R : Type} (s : State R) (q : List R) : Prop where
  /-- Following `next` from `head` visits `q` and comes to an end. -/
  chain : walk s.next q.length s.wl.head = some q
  nodup : q.Nodup
  ends : s.wl.head = none ↔ s.wl.tail = none
  last : s.wl.tail = q.getLast?
  stop : ∀ z, s.wl.tail = some z → s.next z = none

theorem represents {R : Type} {s : State R} {q : List R} (h : Rep s.next s.wl q) : Represents s q where
  chain := h.path.walk_eq (Nat.le_refl _)
  nodup := h.path.nodup
  ends := by
    rw [h.path.head_eq, h.tail, List.head?_eq_none_iff, List.getLast?_eq_none_iff]
  last := h.tail
  stop z hz := by
    rw [h.tail] at hz
    obtain ⟨l, rfl⟩ := List.getLast?_eq_some_iff.mp hz
    obtain ⟨p, hp⟩ := h.path.suffix
    exact hp.2

section Lemmas

variable {R : Type} [DecidableEq R] {s : State R} {q : List R} {fuel : Nat} {op : Op R}
  {ops : List (Op R)}

/-- A step is the operation on the queue, and writes only records that are on the list or pushed. -/
theorem step_spec (h : Rep s.next s.wl q) (hok : ∀ w ∈ q, op ≠ .push w) (hf : q.length < fuel) :
    ∃ s', step fuel s op = some (op.answer q, s') ∧ Rep s'.next s'.wl (op.after q) ∧
      ∀ u, u ∉ q → op ≠ .push u → s'.next u = s.next u := by
  cases op with
  | push w =>
    have hw : w ∉ q := fun hm => hok w hm rfl
    refine ⟨_, rfl, rep_push h hw, fun u hu hne => wlPush_next ?_ ?_⟩
    · rintro rfl
      exact hne rfl
    · intro ht
      rw [h.tail] at ht
      exact hu (List.mem_of_getLast? ht)
  | pop =>
    cases q with
    | nil =>
      have hpop := rep_pop_nil h
      refine ⟨s, ?_, h, fun u _ _ => rfl⟩
      rw [step, hpop]
      rfl
    | cons w q =>
      obtain ⟨hw, hrep⟩ := rep_pop h
      refine ⟨⟨s.next, (wlPop s.next s.wl).2⟩, ?_, hrep, fun u _ _ => rfl⟩
      rw [step, hw]
      rfl
  | remove w =>
    obtain ⟨r, hr⟩ : ∃ r, wlRemove s.next s.wl w fuel = some r := exists_removeFrom h.path hf
    obtain ⟨hfound, hrep, hkeep⟩ := rep_remove h hr
    refine ⟨⟨r.2.1, r.2.2⟩, ?_, hrep, fun u hu _ => hkeep u fun hm => hu (List.mem_of_mem_erase hm)⟩
    have hb : r.1 = decide (w ∈ q) := by
      rw [Bool.eq_iff_iff, hfound, decide_eq_true_iff]
    rw [step, hr, Op.answer, ← hb]
    rfl
  | detach =>
    refine ⟨initial s.next, ?_, rep_empty s.next, fun u _ _ => rfl⟩
    rw [step, h.path.head_eq]
    rfl

/-- The list is never longer than the number of operations, so fuel for that many records is
enough. -/
theorem run_spec (h : Rep s.next s.wl q) (hok : Allowed q ops) (hf : q.length + ops.length < fuel) :
    ∃ s', run fuel s ops = some (answers q ops, s') ∧ Rep s'.next s'.wl (after q ops) ∧
      ∀ u, u ∉ q → .push u ∉ ops → s'.next u = s.next u := by
  induction ops generalizing s q with
  | nil => exact ⟨s, rfl, h, fun u _ _ => rfl⟩
  | cons op ops ih =>
    rw [List.length_cons] at hf
    obtain ⟨s₁, hs₁, h₁, hk₁⟩ := step_spec h hok.1 (by omega : q.length < fuel)
    have hlen : (op.after q).length ≤ q.length + 1 := by
      cases op with
      | push w => simp [Op.after]
      | pop => simp [Op.after]; omega
      | remove w =>
        have : (q.erase w).length ≤ q.length := List.length_erase_le
        rw [Op.after]
        omega
      | detach => simp [Op.after]
    obtain ⟨s₂, hs₂, h₂, hk₂⟩ := ih h₁ hok.2 (by omega)
    refine ⟨s₂, by rw [run, hs₁, Option.bind_some, hs₂]; rfl, h₂, fun u hu hpush => ?_⟩
    rw [List.mem_cons, not_or] at hpush
    have hu₁ : u ∉ op.after q := by
      cases op with
      | push w =>
        have hne : u ≠ w := fun he => hpush.1 (he ▸ rfl)
        simp [Op.after, hu, hne]
      | pop => exact fun hm => hu (List.mem_of_mem_tail hm)
      | remove w => exact fun hm => hu (List.mem_of_mem_erase hm)
      | detach => simp [Op.after]
    rw [hk₂ u hu₁ hpush.2, hk₁ u hu (Ne.symm hpush.1)]

theorem run_append (s : State R) (ops ops' : List (Op R)) :
    run fuel s (ops ++ ops') =
      (run fuel s ops).bind fun r => (run fuel r.2 ops').map fun r' => (r.1 ++ r'.1, r'.2) := by
  induction ops generalizing s with
  | nil => simp [run]
  | cons op ops ih =>
    rw [List.cons_append, run, run]
    cases step fuel s op with
    | none => rfl
    | some r =>
      rw [Option.bind_some, Option.bind_some, ih]
      cases run fuel r.2 ops with
      | none => rfl
      | some r₁ =>
        rw [Option.bind_some, Option.map_some, Option.bind_some]
        cases run fuel r₁.2 ops' <;> rfl

theorem allowed_append {ops' : List (Op R)} :
    Allowed q (ops ++ ops') ↔ Allowed q ops ∧ Allowed (after q ops) ops' := by
  induction ops generalizing q with
  | nil => simp [Allowed, after]
  | cons op ops ih => simp only [List.cons_append, Allowed, ih, after, List.foldl_cons, and_assoc]

/-- A chain that was detached stays as it was, as long as none of its records is pushed again. -/
theorem detached_chain {next : R → Option R} {before : List (Op R)} {s : State R}
    {as : List (Answer R)} (hok : Allowed [] (before ++ .detach :: ops))
    (hf : (before ++ .detach :: ops).length < fuel)
    (hrun : run fuel (initial next) (before ++ .detach :: ops) = some (as, s))
    (hpush : ∀ w ∈ after [] before, .push w ∉ ops) :
    walk s.next (after [] before).length (after [] before).head? = some (after [] before) := by
  rw [List.length_append, List.length_cons] at hf
  obtain ⟨hok₁, -, hok₂⟩ := allowed_append.mp hok
  obtain ⟨s₁, hs₁, h₁, -⟩ := run_spec (s := initial next) (rep_empty next) hok₁
    (show 0 + before.length < fuel by omega)
  obtain ⟨s₂, hs₂, -, hk₂⟩ := run_spec (s := initial s₁.next) (rep_empty s₁.next) hok₂
    (show 0 + ops.length < fuel by omega)
  have hs : s = s₂ := by
    rw [run_append, hs₁, Option.bind_some, run, step, Option.bind_some] at hrun
    rw [initial] at hs₂
    rw [hs₂] at hrun
    cases hrun
    rfl
  -- the records of the chain keep their `next`: they are neither on the new list nor pushed
  have hpath : Path s₂.next (after [] before).head? (after [] before) := by
    rw [← h₁.path.head_eq]
    exact h₁.path.congr fun w hw => hk₂ w (by simp) (hpush w hw)
  rw [hs]
  exact hpath.walk_eq (Nat.le_refl _)

end Lemmas

/-- Whatever the records hold at first and in whatever order the operations come, they return what
they return on a queue, and the pointers hold that queue; a list that was detached can be walked,
at the end of the run as well, if its records are not pushed again. -/
theorem wait_list_queue {R : Type} [DecidableEq R] (next : R → Option R) (ops : List (Op R))
    (fuel : Nat) (hok : Allowed [] ops) (hf : ops.length < fuel) :
    ∃ s, run fuel (initial next) ops = some (answers [] ops, s) ∧ Represents s (after [] ops) ∧
      ∀ before rest, ops = before ++ .detach :: rest →
        (∀ w ∈ after [] before, .push w ∉ rest) →
        walk s.next (after [] before).length (after [] before).head? = some (after [] before) := by
  obtain ⟨s, hs, h, -⟩ := run_spec (s := initial next) (rep_empty next) hok
    (show 0 + ops.length < fuel by omega)
  refine ⟨s, hs, represents h, ?_⟩
  rintro before rest rfl hpush
  exact detached_chain hok hf hs hpush

/-- Records 1, 2 and 3 are queued over stale pointers; 2 is removed and found, then not found again;
1 is popped and queued again; the list is detached, and record 2 starts a new one. -/
theorem wait_list_queue_reused : ∃ s,
    run 10 (initial fun w : Nat => some w) [.push 1, .push 2, .push 3, .remove 2, .remove 2, .pop,
      .push 1, .detach, .push 2] = some ([.pushed, .pushed, .pushed, .removed true, .removed false,
        .popped (some 1), .pushed, .detached (some 3), .pushed], s) ∧
      Represents s [2] ∧ walk s.next 2 (some 3) = some [3, 1] := by
  obtain ⟨s, hs, hrep, hwalk⟩ := wait_list_queue (fun w : Nat => some w)
    [.push 1, .push 2, .push 3, .remove 2, .remove 2, .pop, .push 1, .detach, .push 2] 10
    (by decide) (by decide)
  exact ⟨s, hs, hrep, hwalk
    [.push 1, .push 2, .push 3, .remove 2, .remove 2, .pop, .push 1] [.push 2] rfl (by decide)⟩

end WaitQueue
end AbtReconverse
