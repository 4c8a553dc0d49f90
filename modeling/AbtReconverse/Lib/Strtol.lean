import Mathlib.Algebra.Order.Ring.Int
import Mathlib.Data.List.TakeWhile

/-!
# AbtReconverse.Lib.Strtol

The signed integers of C, of `w` bits, and how they are read from text.

* `lo w`, `hi w`: the range. `add w x y`: a sum, `none` if it is out of range, where the addition of
  C is undefined.
* `strtol w s`: the value of the longest numeral at the start of `s`, brought into the range
  (`saturate`), and what comes behind it. Without a numeral nothing is read.
* `Numeral s m`: all of `s` is a numeral, of `m`. `strtol_numeral` and `numeral_of_strtol`: these are
  the texts that `strtol` reads to the end.
-/

namespace CInt

def lo (w : Nat) : Int := -2 ^ (w - 1)

def hi (w : Nat) : Int := 2 ^ (w - 1) - 1

def add (w : Nat) (x y : Int) : Option Int :=
  if lo w ≤ x + y ∧ x + y ≤ hi w then some (x + y) else none

def saturate (w : Nat) (x : Int) : Int := max (lo w) (min (hi w) x)

/-- `isspace` in the C locale. -/
def isSpace (c : Char) : Bool := c = ' ' || (9 ≤ c.toNat && c.toNat ≤ 13)

/-- Whether there is a minus sign, and what comes behind the sign. -/
def sign : List Char → Bool × List Char
  | '-' :: t => (true, t)
  | '+' :: t => (false, t)
  | t => (false, t)

def value (neg : Bool) (ds : List Char) : Int :=
  if neg then -(Nat.ofDigitChars 10 ds 0 : Int) else Nat.ofDigitChars 10 ds 0

/-- `strtol` with base 10. -/
def strtol (w : Nat) (s : List Char) : Int × List Char :=
  let r := sign (s.dropWhile isSpace)
  let ds := r.2.takeWhile Char.isDigit
  if ds = [] then (0, s) else (saturate w (value r.1 ds), r.2.dropWhile Char.isDigit)

inductive Sign : List Char → Bool → Prop
  | empty : Sign [] false
  | plus : Sign ['+'] false
  | minus : Sign ['-'] true

/-- Spaces, a sign, and at least one digit. -/
inductive Numeral : List Char → Int → Prop
  | mk {spaces sg ds : List Char} {neg : Bool} (hspaces : ∀ c ∈ spaces, isSpace c = true)
      (hsign : Sign sg neg) (hne : ds ≠ []) (hds : ∀ c ∈ ds, c.isDigit = true) :
      Numeral (spaces ++ (sg ++ ds)) (value neg ds)

section

variable {w : Nat} {s t : List Char} {m : Int}

theorem not_isSpace_of_isDigit {c : Char} (h : c.isDigit = true) : isSpace c = false := by
  have hc : 48 ≤ c.toNat := by
    simp only [Char.isDigit, Bool.and_eq_true, decide_eq_true_eq] at h
    exact h.1
  have hne : c ≠ ' ' := by
    rintro rfl
    cases h
  simp [isSpace, hne]
  omega

theorem sign_digits {ds : List Char} (hds : ∀ c ∈ ds, c.isDigit = true) :
    sign ds = (false, ds) := by
  cases ds with
  | nil => rfl
  | cons c ds =>
    have hc := hds c (List.mem_cons_self ..)
    unfold sign
    split
    · rename_i heq
      cases heq
      cases hc
    · rename_i heq
      cases heq
      cases hc
    · rfl

/-- `sign` on a sign and digits. -/
theorem sign_append {sg ds : List Char} {neg : Bool} (hsign : Sign sg neg)
    (hds : ∀ c ∈ ds, c.isDigit = true) : sign (sg ++ ds) = (neg, ds) := by
  cases hsign with
  | empty => exact sign_digits hds
  | plus => rfl
  | minus => rfl

/-- What `sign` takes off is a sign. -/
theorem sign_split (t : List Char) : ∃ sg, Sign sg (sign t).1 ∧ t = sg ++ (sign t).2 := by
  unfold sign
  split
  · exact ⟨['-'], .minus, rfl⟩
  · exact ⟨['+'], .plus, rfl⟩
  · exact ⟨[], .empty, rfl⟩

theorem strtol_numeral (h : Numeral s m) : strtol w s = (saturate w m, []) := by
  obtain @⟨spaces, sg, ds, neg, hspaces, hsign, hne, hds⟩ := h
  have hdrop : (spaces ++ (sg ++ ds)).dropWhile isSpace = sg ++ ds := by
    rw [List.dropWhile_append_of_pos hspaces]
    cases hsign with
    | empty =>
      cases ds with
      | nil => exact absurd rfl hne
      | cons c ds =>
        have hc := not_isSpace_of_isDigit (hds c (List.mem_cons_self ..))
        exact List.dropWhile_cons_of_neg (by simp [hc])
    | plus => exact List.dropWhile_cons_of_neg (by decide)
    | minus => exact List.dropWhile_cons_of_neg (by decide)
  have htake : ds.takeWhile Char.isDigit = ds := List.takeWhile_eq_self_iff.mpr hds
  have hrest : ds.dropWhile Char.isDigit = [] := List.dropWhile_eq_nil_iff.mpr hds
  simp only [strtol, hdrop, sign_append hsign hds, htake, hrest]
  rw [if_neg hne]

theorem numeral_of_strtol (hne : s ≠ []) (h : (strtol w s).2 = []) : ∃ m, Numeral s m := by
  obtain ⟨sg, hsign, hsplit⟩ := sign_split (s.dropWhile isSpace)
  simp only [strtol] at h
  split at h
  · exact absurd h hne
  · rename_i hds
    have hall := List.dropWhile_eq_nil_iff.mp h
    rw [List.takeWhile_eq_self_iff.mpr hall] at hds
    have hs : s.takeWhile isSpace ++ (sg ++ (sign (s.dropWhile isSpace)).2) = s := by
      rw [← hsplit, List.takeWhile_append_dropWhile]
    have hspaces : ∀ c ∈ s.takeWhile isSpace, isSpace c = true := fun c hc =>
      List.mem_takeWhile_imp hc
    have hnum := Numeral.mk hspaces hsign hds hall
    rw [hs] at hnum
    exact ⟨_, hnum⟩

theorem Numeral.ne_nil (h : Numeral s m) : s ≠ [] := by
  obtain ⟨-, -, hne, -⟩ := h
  simp [hne]

end

end CInt
