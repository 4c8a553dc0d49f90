import Mathlib.Algebra.Order.BigOperators.Group.List
import Mathlib.Algebra.Order.Ring.Nat
import AbtReconverse.Basic

/-!
# AbtReconverse.Runtime.Stop

The three tests that tell a scheduler whether it may stop: `pools_drained` for the main scheduler
of an xstream, `sched_has_unit` for a stacked one, `ABT_sched_has_to_stop` for a user-defined one.
They are stated over what they read of the pools, for any list of pools in any state. The first
test asks whether the exact number of units that count is 0 (`total`), the third adds up the same
number as a `size_t`, and the second also counts the blocked ULTs of a `PRIV` pool that several
schedulers list. `drain_tests_agree` says when the three agree. `Runtime.Drain` has the tests with
every load of a counter as a step.
-/

namespace AbtReconverse

/-- `ABTI_sched::request`. -/
structure Runtime.Request where
  finish : Bool
  exit : Bool
  deriving DecidableEq, Repr

namespace Stop

open AbtReconverse.Runtime

/-- What the tests read of an `ABTI_pool`. -/
structure PoolState where
  access : PoolAccess
  size : Nat
  numBlocked : Int
  numScheds : Int
  deriving DecidableEq, Repr

/-- `pools_drained`; `held` is whether `ABTI_held` is set. -/
def poolsDrained (held : Bool) (pools : List PoolState) : Bool :=
  if held then false
  else pools.all fun p =>
    if p.size ≠ 0 then false
    else if p.numScheds ≤ 1 ∧ p.numBlocked ≠ 0 then false
    else true

/-- `sched_has_unit`. -/
def schedHasUnit (pools : List PoolState) : Bool :=
  pools.any fun p =>
    if 0 < p.size then true
    else if p.access = .priv ∨ p.numScheds = 1 then decide (0 < p.numBlocked)
    else false

/-- The body of the loop in `ABT_sched_has_to_stop`; `n` is a `size_t`. -/
def stopAdd (n : Nat) (p : PoolState) : Nat :=
  let n := (n + p.size) % 2 ^ 64
  if p.numScheds ≤ 1 then
    if 0 < p.numBlocked then (n + p.numBlocked.toNat) % 2 ^ 64 else n
  else n

/-- `ABT_sched_has_to_stop`. -/
def hasToStop (pools : List PoolState) (req : Request) : Bool :=
  if req.exit then true
  else if req.finish then pools.foldl stopAdd 0 == 0
  else false

/-- The units of a pool that keep its scheduler: the queued ones, and the blocked ones if no other
scheduler lists the pool. -/
def PoolState.units (p : PoolState) : Nat :=
  p.size + if p.numScheds ≤ 1 then p.numBlocked.toNat else 0

/-- The units that keep a scheduler with these pools. -/
def total (pools : List PoolState) : Nat :=
  (pools.map PoolState.units).sum

/-- A `PRIV` pool that several schedulers list and that has blocked ULTs. -/
def PoolState.SharedPriv (p : PoolState) : Prop :=
  p.access = .priv ∧ 1 < p.numScheds ∧ 0 < p.numBlocked

/-- The values that the counters of a pool in some scheduler's list can have. -/
def PoolState.Valid (p : PoolState) : Prop :=
  0 ≤ p.numBlocked ∧ 1 ≤ p.numScheds

instance (p : PoolState) : Decidable p.SharedPriv := inferInstanceAs (Decidable (_ ∧ _))

instance (p : PoolState) : Decidable p.Valid := inferInstanceAs (Decidable (_ ∧ _))

section

variable {pools : List PoolState} {p : PoolState}

theorem total_eq_zero : total pools = 0 ↔ ∀ p ∈ pools, p.units = 0 := by
  simp [total, List.sum_eq_zero_iff]

theorem units_eq_zero (h : p.Valid) :
    p.units = 0 ↔ p.size = 0 ∧ (p.numScheds ≤ 1 → p.numBlocked = 0) := by
  obtain ⟨hb, -⟩ := h
  unfold PoolState.units
  split <;> omega

theorem poolsDrained_iff (h : ∀ p ∈ pools, p.Valid) :
    poolsDrained false pools = true ↔ total pools = 0 := by
  simp only [poolsDrained, Bool.false_eq_true, if_false, List.all_eq_true, total_eq_zero]
  refine forall₂_congr fun p hp => ?_
  rw [units_eq_zero (h p hp)]
  by_cases hs : p.size = 0
  · simp only [hs, ne_eq, not_true_eq_false, if_false, true_and]
    split <;> simp <;> omega
  · simp [hs]

theorem schedHasUnit_iff (h : ∀ p ∈ pools, p.Valid) :
    schedHasUnit pools = false ↔ total pools = 0 ∧ ∀ p ∈ pools, ¬ p.SharedPriv := by
  simp only [schedHasUnit, List.any_eq_false, total_eq_zero, ← forall₂_and]
  refine forall₂_congr fun p hp => ?_
  obtain ⟨hb, hn⟩ := h p hp
  rw [units_eq_zero ⟨hb, hn⟩]
  unfold PoolState.SharedPriv
  by_cases hs : p.size = 0
  · by_cases ha : p.access = .priv <;> by_cases h1 : p.numScheds = 1 <;> simp [hs, ha, h1] <;> omega
  · simp [hs, Nat.pos_of_ne_zero hs]

theorem stopAdd_eq (n : Nat) (p : PoolState) : stopAdd n p % 2 ^ 64 = (n + p.units) % 2 ^ 64 := by
  unfold stopAdd PoolState.units
  by_cases hs : p.numScheds ≤ 1
  · by_cases hb : 0 < p.numBlocked
    · simp [hs, hb, Nat.add_assoc]
    · have h0 : p.numBlocked.toNat = 0 := by omega
      simp [hs, hb, h0]
  · simp [hs]

theorem stopAdd_lt (n : Nat) (p : PoolState) : stopAdd n p < 2 ^ 64 := by
  unfold stopAdd
  dsimp only
  split
  · split <;> exact Nat.mod_lt _ (by decide)
  · exact Nat.mod_lt _ (by decide)

/-- The loop of `ABT_sched_has_to_stop` computes the exact sum modulo `2 ^ 64`. -/
theorem foldl_stopAdd (pools : List PoolState) :
    ∀ n < 2 ^ 64, pools.foldl stopAdd n = (n + total pools) % 2 ^ 64 := by
  induction pools with
  | nil =>
    intro n hn
    exact (Nat.mod_eq_of_lt hn).symm
  | cons p ps ih =>
    intro n _
    rw [List.foldl_cons, ih _ (stopAdd_lt n p), Nat.add_mod, stopAdd_eq, ← Nat.add_mod]
    simp [total, Nat.add_assoc]

theorem hasToStop_iff : hasToStop pools ⟨true, false⟩ = true ↔ total pools % 2 ^ 64 = 0 := by
  simp only [hasToStop, Bool.false_eq_true, if_false, if_true, beq_iff_eq]
  rw [foldl_stopAdd pools 0 (by decide), Nat.zero_add]

end

/-- With no parked unit and a FINISH request, the three tests agree on a list of pools exactly if
the sum of `ABT_sched_has_to_stop` does not wrap around to 0, and no shared `PRIV` pool has blocked
ULTs while nothing else keeps the scheduler. -/
theorem drain_tests_agree (pools : List PoolState) (h : ∀ p ∈ pools, p.Valid) :
    (poolsDrained false pools = !schedHasUnit pools ∧
        poolsDrained false pools = hasToStop pools ⟨true, false⟩) ↔
      (total pools % 2 ^ 64 = 0 → total pools = 0) ∧
        (total pools = 0 → ∀ p ∈ pools, ¬ p.SharedPriv) := by
  have hd := poolsDrained_iff h
  have hu := schedHasUnit_iff h
  have ht : hasToStop pools ⟨true, false⟩ = true ↔ total pools % 2 ^ 64 = 0 := hasToStop_iff
  have hfirst : poolsDrained false pools = !schedHasUnit pools ↔
      (total pools = 0 → ∀ p ∈ pools, ¬ p.SharedPriv) := by
    rw [Bool.eq_iff_iff, hd, Bool.not_eq_true', hu]
    exact ⟨fun he h0 => (he.mp h0).2, fun hs => ⟨fun h0 => ⟨h0, hs h0⟩, And.left⟩⟩
  have hsecond : poolsDrained false pools = hasToStop pools ⟨true, false⟩ ↔
      (total pools % 2 ^ 64 = 0 → total pools = 0) := by
    rw [Bool.eq_iff_iff, hd, ht]
    exact ⟨Iff.mpr, fun hw => ⟨fun h0 => by rw [h0]; rfl, hw⟩⟩
  rw [hfirst, hsecond, and_comm]

/-- A blocked ULT of a private pool of this scheduler alone, and an empty shared pool. -/
theorem drain_tests_agree_blocked :
    let pools : List PoolState := [⟨.priv, 0, 1, 1⟩, ⟨.mpmc, 0, 2, 3⟩]
    (poolsDrained false pools = !schedHasUnit pools ∧
      poolsDrained false pools = hasToStop pools ⟨true, false⟩) :=
  (drain_tests_agree [⟨.priv, 0, 1, 1⟩, ⟨.mpmc, 0, 2, 3⟩] (by decide)).mpr (by decide)

/-- A `PRIV` pool in the lists of two schedulers with one blocked ULT: the main and the user-defined
scheduler stop, the stacked one does not. -/
theorem drain_tests_differ :
    let pools : List PoolState := [⟨.priv, 0, 1, 2⟩]
    (∀ p ∈ pools, p.Valid) ∧ poolsDrained false pools = true ∧ schedHasUnit pools = true ∧
      hasToStop pools ⟨true, false⟩ = true := by
  decide

end Stop
end AbtReconverse
