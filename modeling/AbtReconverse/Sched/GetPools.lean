import Mathlib.Algebra.Order.Ring.Int
import AbtReconverse.Api.Machine
import AbtReconverse.Objects.Effect

/-!
# AbtReconverse.Sched.GetPools

`ABT_sched_get_pools` on the machine's integers. The bound is tested on `idx + max_pools`, an addition
of two `int` that wraps around here, and the pool list is indexed without a check: an index outside of
it is `none`.

`requested` says what the call is to do, on the integers of mathematics. `get_pools_in_range`: the code
does that iff `idx` is negative or the sum fits into an `int`. When it does not fit the test passes and
the loop leaves the list (`copyFrom_none`).
-/

namespace AbtReconverse
namespace GetPools

/-- The pools of a scheduler. The creators take `num_pools` as an `int` (`created_fits`). -/
structure PoolVector where
  pools : List Nat
  fits : pools.length < 2 ^ 31

inductive Ret where
  | success
  | invSched
  | errSched
  deriving DecidableEq, Repr

/-- An `int` as an index of the vector, which is a `size_t`. -/
def index (k : Int32) : Nat := (k.toInt % 2 ^ 64).toNat

/-- The loop from `i` on with `n` passes left: what it writes, in the order of the array. -/
def copyFrom (pools : List Nat) (idx : Int32) : Nat → Nat → Option (List Nat)
  | 0, _ => some []
  | n + 1, i =>
    match pools[index (idx + Int32.ofNat i)]? with
    | none => none
    | some p => (copyFrom pools idx n (i + 1)).map (p :: ·)

/-- `ABT_sched_get_pools`: the return code and the handles written. -/
def getPools (sched : Option PoolVector) (maxPools idx : Int32) : Option (Ret × List Nat) :=
  match sched with
  | none => some (.invSched, [])
  | some s =>
    if idx < 0 ∨ Int32.ofNat s.pools.length < idx + maxPools then some (.errSched, [])
    else (copyFrom s.pools idx maxPools.toInt.toNat 0).map fun l => (.success, l)

/-- What the call is to do. -/
def requested (s : PoolVector) (maxPools idx : Int32) : Ret × List Nat :=
  if 0 ≤ idx.toInt ∧ idx.toInt + maxPools.toInt ≤ s.pools.length then
    (.success, (s.pools.drop idx.toInt.toNat).take maxPools.toInt.toNat)
  else (.errSched, [])

/-! ### The creators -/

theorem length_pools (l : List (Option Nat)) (s : Objects.State) :
    (s.pools l).2.length = l.length := by
  induction l generalizing s with
  | nil => rfl
  | cons p l ih =>
    cases p with
    | none => exact congrArg (· + 1) (ih _)
    | some p => exact congrArg (· + 1) (ih _)

theorem length_poolList (predef : SchedPredef) {args : Api.PoolArgs} (h : args.num < 2 ^ 31) :
    (Api.poolList predef args).length < 2 ^ 31 := by
  unfold Api.poolList
  split
  · rw [List.length_replicate]
    split <;> omega
  · rw [List.length_take]
    omega

/-- A scheduler made by `ABTI_sched_create_predef`. -/
theorem created_fits {s s' : Api.State} {predef : Option SchedPredef} {args : Api.PoolArgs}
    {automatic userDef : Bool} (hnum : args.num < 2 ^ 31)
    (h : s.schedCreatePredef predef args automatic userDef = .ok s') :
    (s'.objects.sched s.objects.nextSched).pools.length < 2 ^ 31 := by
  cases predef with
  | none => cases h
  | some d =>
    simp only [Api.State.schedCreatePredef] at h
    split at h
    · cases h
    · cases h
      rw [Objects.newSched_self, length_pools]
      exact length_poolList d hnum

/-! ### The loop -/

section

variable {pools : List Nat} {idx : Int32} {i : Nat}

theorem toInt_add_ofNat (hidx : 0 ≤ idx.toInt) (hi : i < 2 ^ 31) :
    (idx + Int32.ofNat i).toInt =
      if idx.toInt + i < 2 ^ 31 then idx.toInt + i else idx.toInt + i - 2 ^ 32 := by
  have hlt := idx.toInt_lt
  rw [Int32.toInt_add, Int32.toInt_ofNat_of_lt hi, Int.bmod_def]
  split <;> split <;> omega

/-- Within the list the index is the sum. -/
theorem index_of_lt (hidx : 0 ≤ idx.toInt) (h : idx.toInt + i < 2 ^ 31) :
    index (idx + Int32.ofNat i) = idx.toInt.toNat + i := by
  rw [index, toInt_add_ofNat hidx (by omega), if_pos h]
  omega

/-- A sum that wraps around is a large index. -/
theorem le_index (hidx : 0 ≤ idx.toInt) (hi : i < 2 ^ 31) {n : Nat} (hn : n < 2 ^ 31)
    (h : (n : Int) ≤ idx.toInt + i) : n ≤ index (idx + Int32.ofNat i) := by
  have hlt := idx.toInt_lt
  rw [index, toInt_add_ofNat hidx hi]
  split
  · omega
  · exact Nat.le_trans (Nat.le_of_lt hn) (by omega)

theorem copyFrom_eq (hpools : pools.length < 2 ^ 31) (hidx : 0 ≤ idx.toInt) (n : Nat)
    (h : idx.toInt + i + n ≤ pools.length) :
    copyFrom pools idx n i = some ((pools.drop (idx.toInt.toNat + i)).take n) := by
  induction n generalizing i with
  | zero => rfl
  | succ n ih =>
    have hlt : idx.toInt.toNat + i < pools.length := by omega
    have hrest := ih (i := i + 1) (by omega)
    rw [copyFrom, index_of_lt hidx (by omega), List.getElem?_eq_getElem hlt, hrest,
      List.drop_eq_getElem_cons hlt]
    rfl

/-- A loop that goes on behind the end of the list, by induction on the passes left. -/
theorem copyFrom_none (hpools : pools.length < 2 ^ 31) (hidx : 0 ≤ idx.toInt) {n : Nat}
    (hn : 0 < n) (hi : i + n ≤ 2 ^ 31) (h : (pools.length : Int) < idx.toInt + i + n) :
    copyFrom pools idx n i = none := by
  induction n generalizing i with
  | zero => cases hn
  | succ n ih =>
    by_cases hend : (pools.length : Int) ≤ idx.toInt + i
    · have hle := le_index hidx (by omega) hpools hend
      rw [copyFrom, List.getElem?_eq_none hle]
    · have hrest := ih (i := i + 1) (by omega) (by omega) (by omega)
      rw [copyFrom, hrest]
      split <;> rfl

end

/-! ### The call -/

section

variable (s : PoolVector) {maxPools idx : Int32}

theorem getPools_of_neg (h : idx.toInt < 0) :
    getPools (some s) maxPools idx = some (requested s maxPools idx) := by
  have hneg : idx < 0 := by
    rw [Int32.lt_iff_toInt_lt, Int32.toInt_zero]
    exact h
  rw [getPools, requested, if_pos (.inl hneg), if_neg (by omega)]

theorem toInt_sum (h : 0 ≤ idx.toInt) : (idx + maxPools).toInt =
    if idx.toInt + maxPools.toInt < 2 ^ 31 then idx.toInt + maxPools.toInt
    else idx.toInt + maxPools.toInt - 2 ^ 32 := by
  have hlt := idx.toInt_lt
  have hmax := maxPools.toInt_lt
  have hmin := maxPools.le_toInt
  rw [Int32.toInt_add, Int.bmod_def]
  split <;> split <;> omega

theorem test_iff (h : 0 ≤ idx.toInt) :
    (idx < 0 ∨ Int32.ofNat s.pools.length < idx + maxPools) ↔
      (s.pools.length : Int) < (idx + maxPools).toInt := by
  rw [Int32.lt_iff_toInt_lt, Int32.lt_iff_toInt_lt, Int32.toInt_zero,
    Int32.toInt_ofNat_of_lt s.fits]
  omega

theorem getPools_of_fits (hidx : 0 ≤ idx.toInt) (h : idx.toInt + maxPools.toInt < 2 ^ 31) :
    getPools (some s) maxPools idx = some (requested s maxPools idx) := by
  simp only [getPools, requested, test_iff s hidx, toInt_sum hidx, if_pos h]
  by_cases hle : idx.toInt + maxPools.toInt ≤ s.pools.length
  · rw [if_neg (by omega), if_pos ⟨hidx, hle⟩]
    by_cases hmax : maxPools.toInt ≤ 0
    · rw [Int.toNat_of_nonpos hmax]
      rfl
    · rw [copyFrom_eq s.fits hidx _ (by omega)]
      rfl
  · rw [if_pos (by omega), if_neg (by omega)]

/-- The sum is negative and passes the test. -/
theorem getPools_of_wraps (hidx : 0 ≤ idx.toInt) (h : 2 ^ 31 ≤ idx.toInt + maxPools.toInt) :
    getPools (some s) maxPools idx = none := by
  have hlt := idx.toInt_lt
  have hmax := maxPools.toInt_lt
  have hfits := s.fits
  simp only [getPools, test_iff s hidx, toInt_sum hidx]
  rw [if_neg (Int.not_lt.mpr h), if_neg (by omega),
    copyFrom_none s.fits hidx (by omega) (by omega) (by omega)]
  rfl

end

theorem get_pools_in_range (s : PoolVector) (maxPools idx : Int32) :
    getPools (some s) maxPools idx = some (requested s maxPools idx) ↔
      idx.toInt < 0 ∨ idx.toInt + maxPools.toInt < 2 ^ 31 := by
  by_cases hneg : idx.toInt < 0
  · exact iff_of_true (getPools_of_neg s hneg) (.inl hneg)
  by_cases hfits : idx.toInt + maxPools.toInt < 2 ^ 31
  · exact iff_of_true (getPools_of_fits s (by omega) hfits) (.inr hfits)
  · rw [getPools_of_wraps s (by omega) (by omega)]
    refine iff_of_false ?_ (by omega)
    intro h
    cases h

/-- One pool, `idx = INT_MAX` and `max_pools = 1`: the sum is `INT_MIN`. -/
theorem get_pools_out_of_range :
    requested ⟨[5], by decide⟩ 1 2147483647 = (.errSched, []) ∧
      getPools (some ⟨[5], by decide⟩) 1 2147483647 = none := by
  decide

end GetPools
end AbtReconverse
