import AbtReconverse.Lib.Strtol

/-!
# AbtReconverse.Runtime.NumPes

`ABTI_num_pes_rule`: how many PEs the runtime starts, from the number of cores and two variables of
the environment. `long` has 64 bits, and the sum `maxx + 1` is `none` where it overflows.

`Sets env v m`: the variable holds a numeral of `m > 0`, all else is as good as unset
(`envLong_of_sets`, `envLong_of_not_sets`). The rule overflows iff `ABT_MAX_NUM_XSTREAMS` decides and
is `2 ^ 63 - 1` or more, which `strtol` reads as the largest `long` (`exists_numPesRule`). Every other
result is between 2 and 256, so that a rank has its bit in the sleeper mask of a pool.
-/

namespace AbtReconverse
namespace NumPes

open CInt

inductive Var where
  /-- `ABT_RECONVERSE_NUM_PES` -/
  | numPes
  /-- `ABT_MAX_NUM_XSTREAMS` -/
  | maxNumXstreams
  deriving DecidableEq, Repr

/-- `getenv`. -/
abbrev Env := Var → Option (List Char)

def envLong (env : Env) (name : Var) (dflt : Int) : Int :=
  match env name with
  | none => dflt
  | some [] => dflt
  | some v => if (strtol 64 v).2 = [] ∧ 0 < (strtol 64 v).1 then (strtol 64 v).1 else dflt

/-- `maxx + 1 < 16 ? 16 : maxx + 1` -/
def secondaries (maxx : Int) : Option Int :=
  (add 64 maxx 1).map fun n => if n < 16 then 16 else n

/-- `n` before it is brought between 2 and 256. -/
def wanted (env : Env) (cores : Int) : Option Int :=
  let cores := if cores < 1 then 1 else cores
  let n := envLong env .numPes 0
  if n ≤ 0 then
    let maxx := envLong env .maxNumXstreams 0
    if 0 < maxx then secondaries maxx
    else some (if cores < 16 then 16 else if 32 < cores then 32 else cores)
  else some n

def numPesRule (env : Env) (cores : Int) : Option Int :=
  (wanted env cores).map fun n =>
    let n := if n < 2 then 2 else n
    if 256 < n then 256 else n

/-- The variable is set to a numeral of `m > 0`. -/
def Sets (env : Env) (name : Var) (m : Int) : Prop :=
  ∃ s, env name = some s ∧ Numeral s m ∧ 0 < m

/-- `ABT_MAX_NUM_XSTREAMS` decides, and is set to `m`. -/
structure Only (env : Env) (m : Int) : Prop where
  unset : ∀ k, ¬ Sets env .numPes k
  sets : Sets env .maxNumXstreams m

section

variable {env : Env} {name : Var} {m dflt : Int} (cores : Int)

theorem hi_64 : hi 64 = 2 ^ 63 - 1 := rfl

theorem lo_64 : lo 64 = -2 ^ 63 := rfl

theorem envLong_of_sets (h : Sets env name m) : envLong env name dflt = min (hi 64) m := by
  obtain ⟨s, hs, hnum, hpos⟩ := h
  have hsat : saturate 64 m = min (hi 64) m := by
    rw [saturate, hi_64, lo_64]
    omega
  have hmin : 0 < min (hi 64) m := by
    rw [hi_64]
    omega
  cases s with
  | nil => exact absurd rfl hnum.ne_nil
  | cons c s =>
    simp only [envLong, hs, strtol_numeral hnum, hsat]
    rw [if_pos ⟨trivial, hmin⟩]

theorem envLong_of_not_sets (h : ∀ k, ¬ Sets env name k) : envLong env name dflt = dflt := by
  unfold envLong
  split
  · rfl
  · rfl
  · rename_i v hne hv
    rw [if_neg]
    rintro ⟨hend, hpos⟩
    obtain ⟨k, hnum⟩ := numeral_of_strtol hne hend
    rw [strtol_numeral hnum] at hpos
    have hk : 0 < k := by
      simp only [saturate, hi_64, lo_64] at hpos
      omega
    exact h k ⟨v, hv, hnum, hk⟩

theorem secondaries_eq (h : 0 < m) :
    secondaries (min (hi 64) m) = if m < 2 ^ 63 - 1 then some (max 16 (m + 1)) else none := by
  unfold secondaries add
  rw [hi_64, lo_64]
  split
  · rename_i hm
    rw [if_pos (by omega), Option.map_some]
    congr 1
    split <;> omega
  · rw [if_neg (by omega), Option.map_none]

theorem wanted_of_sets {k : Int} (h : Sets env .numPes k) :
    wanted env cores = some (min (hi 64) k) := by
  have hpos : ¬ min (hi 64) k ≤ 0 := by
    obtain ⟨s, -, -, hk⟩ := h
    rw [hi_64]
    omega
  simp only [wanted, envLong_of_sets h]
  rw [if_neg hpos]

theorem wanted_of_only (h : Only env m) :
    wanted env cores = if m < 2 ^ 63 - 1 then some (max 16 (m + 1)) else none := by
  obtain ⟨s, -, -, hm⟩ := h.sets
  have hpos : 0 < min (hi 64) m := by
    rw [hi_64]
    omega
  simp only [wanted, envLong_of_not_sets h.unset, envLong_of_sets h.sets]
  rw [if_pos (Int.le_refl 0), if_pos hpos, secondaries_eq hm]

theorem wanted_of_not_sets (hpes : ∀ k, ¬ Sets env .numPes k)
    (hmax : ∀ k, ¬ Sets env .maxNumXstreams k) : ∃ n, wanted env cores = some n := by
  simp only [wanted, envLong_of_not_sets hpes, envLong_of_not_sets hmax]
  exact ⟨_, rfl⟩

theorem numPesRule_bounds {n cores : Int} (h : numPesRule env cores = some n) : 2 ≤ n ∧ n ≤ 256 := by
  obtain ⟨k, -, rfl⟩ := Option.map_eq_some_iff.mp h
  dsimp only
  split <;> split <;> omega

theorem numPesRule_of_only (h : Only env m) :
    numPesRule env cores = if m < 2 ^ 63 - 1 then some (min 256 (max 16 (m + 1))) else none := by
  rw [numPesRule, wanted_of_only cores h]
  split
  · rw [Option.map_some]
    congr 1
    dsimp only
    split <;> split <;> omega
  · rfl

/-- The rule gives a number unless the sum overflows. -/
theorem exists_numPesRule (env : Env) : (∃ n, numPesRule env cores = some n) ↔
    (∃ k, Sets env .numPes k) ∨ ∀ m, Sets env .maxNumXstreams m → m < 2 ^ 63 - 1 := by
  by_cases hpes : ∃ k, Sets env .numPes k
  · obtain ⟨k, hk⟩ := hpes
    rw [numPesRule, wanted_of_sets cores hk]
    exact ⟨fun _ => .inl ⟨k, hk⟩, fun _ => ⟨_, rfl⟩⟩
  have hunset : ∀ k, ¬ Sets env .numPes k := fun k hk => hpes ⟨k, hk⟩
  by_cases hmax : ∃ m, Sets env .maxNumXstreams m
  · obtain ⟨m, hm⟩ := hmax
    rw [numPesRule_of_only cores ⟨hunset, hm⟩]
    constructor
    · rintro ⟨n, hn⟩
      refine .inr fun m' hm' => ?_
      have hrule := numPesRule_of_only cores ⟨hunset, hm'⟩
      rw [numPesRule_of_only cores ⟨hunset, hm⟩, hn] at hrule
      split at hrule
      · assumption
      · cases hrule
    · rintro (⟨k, hk⟩ | hlt)
      · exact absurd hk (hunset k)
      · rw [if_pos (hlt m hm)]
        exact ⟨_, rfl⟩
  · have hnone : ∀ k, ¬ Sets env .maxNumXstreams k := fun k hk => hmax ⟨k, hk⟩
    obtain ⟨n, hn⟩ := wanted_of_not_sets cores hunset hnone
    rw [numPesRule, hn]
    exact ⟨fun _ => .inr fun m hm => absurd hm (hnone m), fun _ => ⟨_, rfl⟩⟩

end

/-! ### The sleeper mask of a pool -/

/-- Rank `r` has bit `r & 63` of word `r >> 6`. -/
structure Sleepers where
  nsleepers : Int
  smask : Vector (BitVec 64) 4

namespace Sleepers

/-- `smask[w] = f(smask[w])`; the words are indexed without a check, `none` is outside the array. -/
def fetch (smask : Vector (BitVec 64) 4) (w : Nat) (f : BitVec 64 → BitVec 64) :
    Option (Vector (BitVec 64) 4) :=
  if h : w < 4 then some (smask.set w (f smask[w])) else none

def addSleeper (s : Sleepers) (rank : Nat) : Option Sleepers :=
  (fetch s.smask (rank >>> 6) (· ||| 1#64 <<< (rank &&& 63))).map fun smask =>
    { nsleepers := s.nsleepers + 1, smask }

def removeSleeper (s : Sleepers) (rank : Nat) : Option Sleepers :=
  (fetch s.smask (rank >>> 6) (· &&& ~~~(1#64 <<< (rank &&& 63)))).map fun smask =>
    { nsleepers := s.nsleepers - 1, smask }

theorem exists_fetch {rank : Nat} (h : rank < 256) (smask : Vector (BitVec 64) 4)
    (f : BitVec 64 → BitVec 64) : ∃ smask', fetch smask (rank >>> 6) f = some smask' := by
  have hw : rank >>> 6 < 4 := by
    rw [Nat.shiftRight_eq_div_pow]
    omega
  exact ⟨_, dif_pos hw⟩

end Sleepers

/-- What the number of PEs is to be. -/
structure Sized (env : Env) (n : Int) : Prop where
  two_le : 2 ≤ n
  le_max : n ≤ 256
  only : ∀ m, Only env m → n = min 256 (max 16 (m + 1))
  /-- `m` secondaries and the primary. -/
  room : ∀ m, Only env m → m ≤ 255 → m + 1 ≤ n
  mono : ∀ m, Only env m → ∀ env' cores' m' n', Only env' m' → m ≤ m' →
    numPesRule env' cores' = some n' → n ≤ n'
  /-- Every rank has its bit in the sleeper mask. -/
  mask : ∀ rank : Nat, (rank : Int) < n → ∀ s : Sleepers,
    (∃ s', s.addSleeper rank = some s') ∧ ∃ s', s.removeSleeper rank = some s'

theorem sized {env : Env} {cores n : Int} (h : numPesRule env cores = some n) : Sized env n := by
  have hbounds := numPesRule_bounds h
  have honly : ∀ env cores m n, Only env m → numPesRule env cores = some n →
      n = min 256 (max 16 (m + 1)) := by
    intro env cores m n hm hn
    rw [numPesRule_of_only cores hm] at hn
    split at hn
    · exact (Option.some.inj hn).symm
    · cases hn
  refine ⟨hbounds.1, hbounds.2, fun m hm => honly _ _ m n hm h, ?_, ?_, ?_⟩
  · intro m hm hle
    have := honly _ _ m n hm h
    omega
  · intro m hm env' cores' m' n' hm' hle hn'
    have := honly _ _ m n hm h
    have := honly _ _ m' n' hm' hn'
    omega
  · intro rank hrank s
    have hlt : rank < 256 := by omega
    obtain ⟨set, hset⟩ := Sleepers.exists_fetch hlt s.smask _
    obtain ⟨clear, hclear⟩ := Sleepers.exists_fetch hlt s.smask _
    exact ⟨⟨_, by rw [Sleepers.addSleeper, hset]; rfl⟩,
      ⟨_, by rw [Sleepers.removeSleeper, hclear]; rfl⟩⟩

theorem num_pes_rule_sized (env : Env) (cores : Int) :
    (∃ n, numPesRule env cores = some n ∧ Sized env n) ↔
      (∃ k, Sets env .numPes k) ∨ ∀ m, Sets env .maxNumXstreams m → m < 2 ^ 63 - 1 := by
  rw [← exists_numPesRule cores]
  constructor
  · rintro ⟨n, hn, -⟩
    exact ⟨n, hn⟩
  · rintro ⟨n, hn⟩
    exact ⟨n, hn, sized hn⟩

/-- `ABT_MAX_NUM_XSTREAMS=9223372036854775807` -/
def largest : Env :=
  Function.update (fun _ => none) .maxNumXstreams (some ['9', '2', '2', '3', '3', '7', '2', '0', '3',
    '6', '8', '5', '4', '7', '7', '5', '8', '0', '7'])

theorem only_largest : Only largest (2 ^ 63 - 1) := by
  constructor
  · rintro k ⟨s, hs, -⟩
    cases hs
  · refine ⟨_, rfl, ?_, by decide⟩
    exact @Numeral.mk [] [] _ false (by simp) .empty (by simp) (List.all_eq_true.mp rfl)

theorem num_pes_rule_overflows : Only largest (2 ^ 63 - 1) ∧ numPesRule largest 8 = none ∧
    ¬ ∃ n, numPesRule largest 8 = some n ∧ Sized largest n := by
  have hnone : numPesRule largest 8 = none := by decide
  refine ⟨only_largest, hnone, ?_⟩
  rintro ⟨n, hn, -⟩
  rw [hnone] at hn
  cases hn

end NumPes
end AbtReconverse
