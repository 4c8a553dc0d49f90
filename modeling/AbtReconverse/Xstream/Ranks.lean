import AbtReconverse.Api.Machine
import AbtReconverse.Xstream.Release

/-!
# AbtReconverse.Xstream.Ranks

Which xstream has which rank, over the whole cycle of creation, join, release and free. The joins,
the release handler and the steps of `ABT_xstream_free` are those of `Xstream.Release`; around them
are the table `ABTI_g->xstreams`, the two halves of a creation (`ABTI_xstream_lease` under `xm`, then
the messages of `ABTI_xstream_install`) and the lease message on its way to the PE and back. Every
thread may be in a creation, a join or a free, all at the same time.

A creation is given no scheduler or one that is not in use, so its test of `used_by` passes and is
left out. A handle is passed to `ABT_xstream_free` once, and it can be used from the moment the lease
is sent: on the PE `ABT_xstream_self` gives it away before the creation has returned. The PE gives
the lease back when its scheduler is asked to finish, or when the `run` of a user-defined scheduler
returns.

`rank_leases`: in every run in which no negative rank is asked for, ranks and slots agree, a creation
gets the rank it should, and a lease is sent only after the last holder of the rank has finished. A
negative rank is taken for "any" (`negative_rank_granted`).
-/

namespace AbtReconverse
namespace Ranks

open Lts
open Api.State (freeRank leaseRank)

structure Config where
  numPes : Nat
  canBlock : Nat → Bool
  automatic : Nat → Bool
  /-- The main scheduler of the xstream is user-defined. -/
  userDef : Nat → Bool

/-- Xstream 0 is the primary one. -/
def Config.release (c : Config) : Release.Config := ⟨fun x => x == 0, c.canBlock, c.automatic⟩

inductive Code where
  | success
  | invXstreamRank
  deriving DecidableEq, Repr

/-- Where a thread is in `ABT_xstream_create` (no `want`) or `ABT_xstream_create_with_rank`. -/
inductive MakePc where
  | out
  | lease (want : Option Int)
  | install (x : Nat)
  | publish (x : Nat)
  deriving DecidableEq, Repr

/-- The lease message of an xstream: not sent, on its way, accepted by the PE, and given back. -/
inductive LeasePc where
  | unsent
  | sent
  | held
  | back
  deriving DecidableEq, Repr

structure State where
  rel : Release.State
  /-- `ABTI_g->xstreams`. -/
  slots : Nat → Option Nat
  rank : Nat → Nat
  /-- The number of the next xstream. -/
  next : Nat
  maker : Nat → MakePc
  lease : Nat → LeasePc
  /-- What the last creation of a thread returned. -/
  ret : Nat → Option Code

/-- After `ABT_init`. -/
def initial : State where
  rel := Release.initial.create 0
  slots := Function.update (fun _ => none) 0 (some 0)
  rank := fun _ => 0
  next := 1
  maker := fun _ => .out
  lease := Function.update (fun _ => .unsent) 0 .held
  ret := fun _ => none

namespace State

def setMaker (s : State) (j : Nat) (pc : MakePc) : State :=
  { s with maker := Function.update s.maker j pc }

/-- The creation of thread `j` returns. -/
def back (s : State) (j : Nat) (code : Code) : State :=
  { s with ret := Function.update s.ret j (some code) }.setMaker j .out

/-- The new xstream in its slot. -/
def leased (s : State) (j r : Nat) : State :=
  { s with
    rel := s.rel.create s.next
    slots := Function.update s.slots r (some s.next)
    rank := Function.update s.rank s.next r
    next := s.next + 1 }.setMaker j (.install s.next)

/-- The slot that a step of `ABT_xstream_free` clears. -/
def cleared (s : State) : Release.Act → Nat → Option Nat
  | .free j =>
    match s.rel.free j with
    | .table x => Function.update s.slots (s.rank x) none
    | _ => s.slots
  | _ => s.slots

/-- No xstream is made here, a handle is known once the lease is sent, and the release message follows
the end of the lease. -/
def allows (s : State) : Release.Act → Bool
  | .create _ => false
  | .call j x _ _ => s.maker j = .out && s.lease x ≠ .unsent
  | .release x => s.lease x = .back
  | _ => true

end State

inductive Act where
  | create (j : Nat) (want : Option Int)
  /-- The next step of a creation. -/
  | make (j : Nat)
  /-- The PE accepts the lease. -/
  | deliver (x : Nat)
  | giveBack (x : Nat)
  | rel (a : Release.Act)
  deriving DecidableEq, Repr

def makeStep (c : Config) (s : State) (j : Nat) : Option State :=
  match s.maker j with
  | .out => none
  | .lease want =>
    match leaseRank c.numPes s.slots (want.getD (-1)) with
    | none => some (s.back j .invXstreamRank)
    | some r => some (s.leased j r)
  | .install x => some ({ s with lease := Function.update s.lease x .sent }.setMaker j (.publish x))
  | .publish _ => some (s.back j .success)

def step (c : Config) (s : State) : Act → Option State
  | .create j want =>
    if s.maker j = .out ∧ s.rel.free j = .out ∧ s.rel.join.pc j = .idle then
      some (s.setMaker j (.lease want))
    else none
  | .make j => makeStep c s j
  | .deliver x =>
    if s.lease x = .sent then some { s with lease := Function.update s.lease x .held } else none
  | .giveBack x =>
    if s.lease x = .held ∧ ((s.rel.join.obj x).finishing ∨ c.userDef x) then
      some { s with lease := Function.update s.lease x .back }
    else none
  | .rel a =>
    if s.allows a then
      (Release.step c.release s.rel a).map fun r => { s with rel := r, slots := s.cleared a }
    else none

def system (c : Config) : System State Act where
  init s := s = initial
  step := step c

/-- A rank that is asked for is not negative. -/
def Nonneg (_ : State) : Act → Prop
  | .create _ want => ∀ w ∈ want, 0 ≤ w
  | _ => True

instance (s : State) (a : Act) : Decidable (Nonneg s a) :=
  match a with
  | .create _ want => inferInstanceAs (Decidable (∀ w ∈ want, (0 : Int) ≤ w))
  | .make _ | .deliver _ | .giveBack _ | .rel _ => inferInstanceAs (Decidable True)

/-! ### The rank of a lease -/

section

variable {n : Nat} {slots : Nat → Option Nat} {r : Nat}

theorem freeRank_some : freeRank n slots = some r ↔
    (1 ≤ r ∧ r < n ∧ slots r = none) ∧ ∀ q, 1 ≤ q → q < r → slots q ≠ none := by
  rw [freeRank, List.range_eq_range', List.drop_range', List.find?_range'_eq_some]
  simp only [List.mem_range'_1, Option.isNone_iff_eq_none, Bool.not_eq_true',
    Option.isNone_eq_false_iff, Option.isSome_iff_ne_none]
  constructor
  · rintro ⟨hn, hr, hq⟩
    exact ⟨⟨by omega, by omega, hn⟩, fun q h1 hlt => hq q (by omega) hlt⟩
  · rintro ⟨⟨h1, hlt, hn⟩, hq⟩
    exact ⟨hn, by omega, fun q h0 hlt => hq q (by omega) hlt⟩

theorem freeRank_none : freeRank n slots = none ↔ ∀ r, 1 ≤ r → r < n → slots r ≠ none := by
  rw [freeRank, List.range_eq_range', List.drop_range', List.find?_range'_eq_none]
  simp only [Bool.not_eq_true', Option.isNone_eq_false_iff, Option.isSome_iff_ne_none]
  constructor
  · intro h r h1 hlt
    exact h r (by omega) (by omega)
  · intro h r h1 hlt
    exact h r (by omega) (by omega)

theorem leaseRank_some {want : Int} (h : leaseRank n slots want = some r) :
    1 ≤ r ∧ r < n ∧ slots r = none := by
  simp only [leaseRank] at h
  split at h
  · exact (freeRank_some.mp h).1
  · split at h
    · rename_i hw
      cases h
      exact ⟨by omega, by omega, hw.2.2⟩
    · cases h

theorem leaseRank_nonneg {want : Int} (hw : 0 ≤ want) : leaseRank n slots want =
    if 1 ≤ want ∧ want < n ∧ slots want.toNat = none then some want.toNat else none := by
  simp only [leaseRank]
  rw [if_neg (by omega)]
  by_cases h : 0 < want ∧ want < n ∧ slots want.toNat = none
  · rw [if_pos h, if_pos ⟨by omega, h.2⟩]
  · rw [if_neg h, if_neg fun hh => h ⟨by omega, hh.2⟩]

end

/-! ### The invariant -/

/-- The xstream whose slot an `ABT_xstream_free` has yet to clear. -/
def pending : Release.FreePc → Option Nat
  | .joining x | .destroy x | .table x => some x
  | .out | .delete _ => none

/-- The table and the xstreams that have not been freed. -/
structure Table (s : State) : Prop where
  slot : ∀ r x, s.slots r = some x → x < s.next ∧ s.rank x = r ∧ s.rel.table x = true
  listed : ∀ x, s.rel.table x = true → s.slots (s.rank x) = some x
  rank : ∀ x, x < s.next → (s.rank x = 0 ↔ x = 0)
  primary : s.rel.table 0 = true
  deleting : ∀ x, s.rel.live x = true → s.rel.table x = true ∨ ∃ j, s.rel.free j = .delete x

/-- What is under way: frees of different xstreams whose lease is sent, and creations of different
xstreams whose lease is not. -/
structure Calls (s : State) : Prop where
  freeing : ∀ j x, pending (s.rel.free j) = some x →
    s.rel.table x = true ∧ s.rel.freed x = true ∧ s.lease x ≠ .unsent
  once : ∀ i j x, pending (s.rel.free i) = some x → pending (s.rel.free j) = some x → i = j
  making : ∀ j x, s.maker j = .install x → s.rel.table x = true ∧ s.lease x = .unsent
  sole : ∀ i j x, s.maker i = .install x → s.maker j = .install x → i = j
  fresh : ∀ x, s.next ≤ x → s.lease x = .unsent
  freed : ∀ j x, s.rel.free j = .delete x → s.rel.freed x = true
  secondary : ∀ j x, (s.rel.free j).joined = some x → x ≠ 0

structure Inv (c : Config) (s : State) : Prop where
  rel : Release.Joined c.release s.rel
  table : Table s
  calls : Calls s
  /-- Whoever is not in the table any more has finished. -/
  gone : ∀ x, x < s.next → s.rel.table x = false → (s.rel.join.exit x 0).past = true
  unborn : ∀ x, s.next ≤ x → s.rel.handler x = .unborn

section

variable {c : Config} {s s' : State} {j x r : Nat}

theorem Table.unlisted (h : Table s) (hx : s.next ≤ x) : s.rel.table x = false := by
  cases ht : s.rel.table x with
  | false => rfl
  | true =>
    have := (h.slot _ x (h.listed x ht)).1
    omega

theorem initial_inv : Inv c initial := by
  have hrel : Release.Joined c.release initial.rel :=
    Release.Joined.initial.step (a := .create 0) rfl
  have hcreate : ∀ x, (Release.initial.create 0).table x = true → x = 0 := by
    intro x hx
    by_contra hne
    simp [Release.State.create, Release.initial, hne] at hx
  refine ⟨hrel, ⟨fun r x hx => ?_, fun x hx => ?_, fun x hx => ?_, rfl, fun x hx => .inl hx⟩,
    ⟨nofun, nofun, nofun, nofun, fun x hx => ?_, nofun, nofun⟩, fun x hx ht => ?_, fun x hx => ?_⟩
  · have hx : Function.update (fun _ => none) 0 (some 0) r = some x := hx
    obtain ⟨rfl, hx⟩ | ⟨-, hx⟩ := update_cases (P := (· = some x)) hx
    · cases hx
      exact ⟨Nat.one_pos, rfl, rfl⟩
    · cases hx
  · rw [hcreate x hx]
    rfl
  · have hx : x < 1 := hx
    simp only [initial, true_iff]
    omega
  · exact Function.update_of_ne (f := fun _ => LeasePc.unsent) (Nat.ne_of_gt hx) ..
  · obtain rfl : x = 0 := Nat.lt_one_iff.mp hx
    cases ht
  · exact Function.update_of_ne (Nat.ne_of_gt hx) ..

/-- A thread moves in its creation, away from the lease message. -/
theorem Calls.moves (h : Calls s) {pc : MakePc} (hm : s'.maker = Function.update s.maker j pc)
    (hsame : s'.rel = s.rel ∧ s'.lease = s.lease ∧ s'.next = s.next)
    (hpc : ∀ y, pc ≠ .install y) : Calls s' := by
  obtain ⟨hrel, hlease, hnext⟩ := hsame
  have hmade : ∀ i y, s'.maker i = .install y → s.maker i = .install y := by
    intro i y hi
    rw [hm, Function.update_apply] at hi
    split at hi
    · exact absurd hi (hpc y)
    · exact hi
  refine ⟨?_, ?_, fun i y hi => ?_, fun i k y hi hk => ?_, ?_, ?_, ?_⟩
  · rw [hrel, hlease]
    exact h.freeing
  · rw [hrel]
    exact h.once
  · rw [hrel, hlease]
    exact h.making i y (hmade i y hi)
  · exact h.sole i k y (hmade i y hi) (hmade k y hk)
  · rw [hnext, hlease]
    exact h.fresh
  · rw [hrel]
    exact h.freed
  · rw [hrel]
    exact h.secondary

/-- The lease message of an xstream moves, and no creation has yet to send it. -/
theorem Calls.sends (h : Calls s) {v : LeasePc} {maker : Nat → MakePc} (hx : x < s.next)
    (hv : v ≠ .unsent)
    (hm : ∀ i y, maker i = .install y → y ≠ x ∧ s.maker i = .install y) :
    Calls { s with
      lease := Function.update s.lease x v
      maker := maker } := by
  refine ⟨fun i y hi => ?_, h.once, fun i y hi => ?_, fun i k y hi hk => ?_, fun y hy => ?_,
    h.freed, h.secondary⟩
  · obtain ⟨ht, hf, hp⟩ := h.freeing i y hi
    refine ⟨ht, hf, ?_⟩
    show Function.update s.lease x v y ≠ .unsent
    rw [Function.update_apply]
    split
    · exact hv
    · exact hp
  · obtain ⟨hne, hi⟩ := hm i y hi
    obtain ⟨ht, hp⟩ := h.making i y hi
    exact ⟨ht, (Function.update_of_ne hne _ _).trans hp⟩
  · exact h.sole i k y (hm i y hi).2 (hm k y hk).2
  · have hy : s.next ≤ y := hy
    have hne : y ≠ x := by omega
    exact (Function.update_of_ne hne _ _).trans (h.fresh y hy)

/-- The PE answers a lease message. -/
theorem Calls.answers (h : Calls s) {v : LeasePc} (hx : s.lease x ≠ .unsent) (hv : v ≠ .unsent) :
    Calls { s with lease := Function.update s.lease x v } := by
  refine h.sends ?_ hv fun i y hi => ⟨?_, hi⟩
  · by_contra hge
    exact hx (h.fresh x (by omega))
  · rintro rfl
    exact hx (h.making i y hi).2

/-- A new xstream gets a free slot. -/
theorem Table.leases (h : Table s) (hr : 1 ≤ r) (hfree : s.slots r = none) :
    Table (s.leased j r) := by
  have hnew : s.rel.table s.next = false := h.unlisted (Nat.le_refl _)
  have hrank : ∀ y, y < s.next → Function.update s.rank s.next r y = s.rank y := fun y hy =>
    Function.update_of_ne (Nat.ne_of_lt hy) _ _
  have hlt : ∀ y, s.rel.table y = true → y < s.next := fun y hy => (h.slot _ y (h.listed y hy)).1
  refine ⟨fun q y hq => ?_, fun y hy => ?_, fun y hy => ?_, ?_, fun y hy => ?_⟩
  · change Function.update s.slots r (some s.next) q = some y at hq
    rw [Function.update_apply] at hq
    split at hq
    · rename_i hqr
      cases hq
      exact ⟨Nat.lt_succ_self _, (Function.update_self ..).trans hqr.symm, Function.update_self ..⟩
    · obtain ⟨hy, hrk, ht⟩ := h.slot q y hq
      refine ⟨Nat.lt_succ_of_lt hy, (hrank y hy).trans hrk, ?_⟩
      exact (Function.update_of_ne (Nat.ne_of_lt hy) _ _).trans ht
  · change Function.update s.rel.table s.next true y = true at hy
    show Function.update s.slots r (some s.next) (Function.update s.rank s.next r y) = some y
    by_cases hyn : y = s.next
    · subst hyn
      rw [Function.update_self, Function.update_self]
    · rw [Function.update_of_ne hyn] at hy
      have hs := h.listed y hy
      rw [hrank y (hlt y hy), Function.update_of_ne, hs]
      intro he
      rw [he, hfree] at hs
      cases hs
  · change y < s.next + 1 at hy
    show Function.update s.rank s.next r y = 0 ↔ y = 0
    have hpos : 0 < s.next := hlt 0 h.primary
    by_cases hyn : y = s.next
    · subst hyn
      rw [Function.update_self]
      omega
    · rw [hrank y (by omega)]
      exact h.rank y (by omega)
  · exact (Function.update_of_ne (Nat.ne_of_lt (hlt 0 h.primary)) _ _).trans h.primary
  · change Function.update s.rel.live s.next true y = true at hy
    by_cases hyn : y = s.next
    · subst hyn
      exact .inl (Function.update_self ..)
    · rw [Function.update_of_ne hyn] at hy
      exact (h.deleting y hy).imp_left fun ht => (Function.update_of_ne hyn _ _).trans ht

theorem Calls.leases (h : Calls s) (ht : Table s) : Calls (s.leased j r) := by
  have hlt : ∀ y, s.rel.table y = true → y < s.next := fun y hy => (ht.slot _ y (ht.listed y hy)).1
  have htab : ∀ y, s.rel.table y = true → (s.leased j r).rel.table y = true := fun y hy =>
    (Function.update_of_ne (Nat.ne_of_lt (hlt y hy)) _ _).trans hy
  have hmade : ∀ i y, (s.leased j r).maker i = .install y →
      i = j ∧ y = s.next ∨ i ≠ j ∧ s.maker i = .install y := by
    intro i y hi
    change Function.update s.maker j (.install s.next) i = .install y at hi
    rw [Function.update_apply] at hi
    split at hi
    · rename_i hij
      cases hi
      exact .inl ⟨hij, rfl⟩
    · rename_i hij
      exact .inr ⟨hij, hi⟩
  refine ⟨fun i y hi => ?_, h.once, fun i y hi => ?_, fun i k y hi hk => ?_, fun y hy => ?_,
    h.freed, h.secondary⟩
  · obtain ⟨h1, h2, h3⟩ := h.freeing i y hi
    exact ⟨htab y h1, h2, h3⟩
  · obtain ⟨-, rfl⟩ | ⟨-, hi⟩ := hmade i y hi
    · exact ⟨Function.update_self .., h.fresh s.next (Nat.le_refl _)⟩
    · obtain ⟨h1, h2⟩ := h.making i y hi
      exact ⟨htab y h1, h2⟩
  · obtain ⟨hij, hyn⟩ | ⟨-, hi'⟩ := hmade i y hi
    · obtain ⟨hkj, -⟩ | ⟨-, hk'⟩ := hmade k y hk
      · exact hij.trans hkj.symm
      · exact absurd hyn (Nat.ne_of_lt (hlt y (h.making k y hk').1))
    · obtain ⟨-, hyn⟩ | ⟨-, hk'⟩ := hmade k y hk
      · exact absurd hyn (Nat.ne_of_lt (hlt y (h.making i y hi').1))
      · exact h.sole i k y hi' hk'
  · have hy : s.next + 1 ≤ y := hy
    exact h.fresh y (by omega)

/-! ### Joins, releases and frees -/

section

variable {C : Release.Config} {t t' : Release.State} {a : Release.Act}

/-- The steps that are neither a call nor one of `ABT_xstream_free`. -/
theorem quiet_step (hst : Release.step C t a = some t')
    (hc : ∀ j x here free, a ≠ .call j x here free) (hf : ∀ j, a ≠ .free j)
    (hn : ∀ x, a ≠ .create x) :
    t'.table = t.table ∧ t'.free = t.free ∧ t'.freed = t.freed ∧ t'.live = t.live := by
  cases Release.step_cases hst with
  | create _ => exact absurd rfl (hn _)
  | call _ _ _ => exact absurd rfl (hc _ _ _ _)
  | free _ => exact absurd rfl (hf _)
  | join _ _ | callback _ _ | release _ => exact ⟨rfl, rfl, rfl, rfl⟩
  | handler hst => cases hst <;> exact ⟨rfl, rfl, rfl, rfl⟩

/-- Only a creation makes an xstream. -/
theorem step_unborn (hst : Release.step C t a = some t') (hn : ∀ y, a ≠ .create y)
    (hx : t.handler x = .unborn) : t'.handler x = .unborn := by
  have hne : ∀ {y : Nat}, t.handler y ≠ .unborn → x ≠ y := by
    rintro y hy rfl
    exact hy hx
  cases Release.step_cases hst with
  | create _ => exact absurd rfl (hn _)
  | call _ _ _ | join _ _ | callback _ _ => exact hx
  | free hst => cases hst <;> exact hx
  | release hy => exact (Function.update_of_ne (hne (by simp [hy])) _ _).trans hx
  | handler hst =>
    cases hst with
    | usedBy hy => exact (Function.update_of_ne (hne (by simp [hy])) _ _).trans hx
    | state hy => exact (Function.update_of_ne (hne (by simp [hy])) _ _).trans hx
    | joining _ _ => exact hx

/-- What has finished stays so. -/
theorem step_past (hst : Release.step C t a = some t') (hp : (t.join.exit x 0).past = true) :
    (t'.join.exit x 0).past = true := by
  cases Release.step_cases hst with
  | create _ | release _ => exact hp
  | call hJ _ _ | join hJ _ | callback hJ _ => exact JoinProtocol.step_past hJ hp
  | free hst => cases hst <;> exact hp
  | handler hst =>
    cases hst with
    | usedBy _ | state _ => exact hp
    | @joining J _ hJ => exact JoinProtocol.step_past (c := C.join) (a := .exit _ 0) hJ hp

end

/-- A free moves on; it clears no slot but that of its own xstream. -/
theorem Calls.frees (h : Calls s) {t : Release.State} {p : Release.FreePc}
    {slots : Nat → Option Nat} (hfree : t.free = Function.update s.rel.free j p)
    (htab : ∀ y, s.rel.table y = true → t.table y = true ∨ pending (s.rel.free j) = some y)
    (hfreed : ∀ y, s.rel.freed y = true → t.freed y = true)
    (hpc : ∀ y, pending p = some y → t.table y = true ∧ t.freed y = true ∧
      s.lease y ≠ .unsent ∧ ∀ i, i ≠ j → pending (s.rel.free i) ≠ some y)
    (hdel : ∀ y, p = .delete y → t.freed y = true) (hsec : ∀ y, p.joined = some y → y ≠ 0) :
    Calls { s with
      rel := t
      slots := slots } := by
  have hcase : ∀ {P : Release.FreePc → Prop} {i : Nat}, P (t.free i) →
      i = j ∧ P p ∨ i ≠ j ∧ P (s.rel.free i) := fun hP => update_cases (hfree ▸ hP)
  refine ⟨fun i y hi => ?_, fun i k y hi hk => ?_, fun i y hi => ?_, h.sole, h.fresh,
    fun i y hi => ?_, fun i y hi => ?_⟩
  · obtain ⟨-, hi⟩ | ⟨hij, hi⟩ := hcase (P := fun q => pending q = some y) hi
    · obtain ⟨h1, h2, h3, -⟩ := hpc y hi
      exact ⟨h1, h2, h3⟩
    · obtain ⟨h1, h2, h3⟩ := h.freeing i y hi
      exact ⟨(htab y h1).resolve_right fun hj => hij (h.once i j y hi hj), hfreed y h2, h3⟩
  · obtain ⟨hij, hi⟩ | ⟨hij, hi⟩ := hcase (P := fun q => pending q = some y) hi
    · obtain ⟨hkj, -⟩ | ⟨hkj, hk⟩ := hcase (P := fun q => pending q = some y) hk
      · exact hij.trans hkj.symm
      · exact absurd hk ((hpc y hi).2.2.2 k hkj)
    · obtain ⟨-, hk⟩ | ⟨-, hk⟩ := hcase (P := fun q => pending q = some y) hk
      · exact absurd hi ((hpc y hk).2.2.2 i hij)
      · exact h.once i k y hi hk
  · obtain ⟨h1, h2⟩ := h.making i y hi
    exact ⟨(htab y h1).resolve_right fun hj => (h.freeing j y hj).2.2 h2, h2⟩
  · obtain ⟨-, hi⟩ | ⟨-, hi⟩ := hcase (P := fun q => q = .delete y) hi
    · exact hdel y hi
    · exact hfreed y (h.freed i y hi)
  · obtain ⟨-, hi⟩ | ⟨-, hi⟩ := hcase (P := fun q => q.joined = some y) hi
    · exact hsec y hi
    · exact h.secondary i y hi

/-- A free moves on and the table stays. -/
theorem Inv.frees (h : Inv c s) {t : Release.State} {pc : Release.FreePc}
    (hb : Release.Joined c.release t) (hh : t.handler = s.rel.handler)
    (hfree : t.free = Function.update s.rel.free j pc)
    (hsame : t.table = s.rel.table ∧ t.live = s.rel.live ∧ t.join.exit = s.rel.join.exit)
    (hfreed : ∀ y, s.rel.freed y = true → t.freed y = true)
    (hold : ∀ y, s.rel.free j ≠ .delete y) (hdel : ∀ y, pc ≠ .delete y)
    (hpc : ∀ y, pending pc = some y → s.rel.table y = true ∧ t.freed y = true ∧
      s.lease y ≠ .unsent ∧ ∀ i, i ≠ j → pending (s.rel.free i) ≠ some y)
    (hsec : ∀ y, pc.joined = some y → y ≠ 0) : Inv c { s with rel := t } := by
  obtain ⟨htab, hlive, hjoin⟩ := hsame
  have hcalls : Calls { s with rel := t } := h.calls.frees hfree
    (fun y hy => .inl (htab ▸ hy)) hfreed (htab ▸ hpc) (fun y hy => absurd hy (hdel y)) hsec
  refine ⟨hb, ⟨?_, ?_, h.table.rank, ?_, fun y hy => ?_⟩, hcalls, ?_, ?_⟩
  · show ∀ r x, s.slots r = some x → x < s.next ∧ s.rank x = r ∧ t.table x = true
    rw [htab]
    exact h.table.slot
  · show ∀ x, t.table x = true → s.slots (s.rank x) = some x
    rw [htab]
    exact h.table.listed
  · show t.table 0 = true
    rw [htab]
    exact h.table.primary
  · change t.live y = true at hy
    rw [hlive] at hy
    show t.table y = true ∨ ∃ i, t.free i = .delete y
    rw [htab]
    refine (h.table.deleting y hy).imp_right fun ⟨i, hi⟩ => ⟨i, ?_⟩
    rw [hfree, Function.update_of_ne, hi]
    rintro rfl
    exact hold y hi
  · show ∀ x, x < s.next → t.table x = false → (t.join.exit x 0).past = true
    rw [htab, hjoin]
    exact h.gone
  · show ∀ x, s.next ≤ x → t.handler x = .unborn
    rw [hh]
    exact h.unborn

theorem Inv.call (h : Inv c s) {t : Release.State} {here free : Bool}
    (hst : Release.step c.release s.rel (.call j x here free) = some t)
    (hsent : s.lease x ≠ .unsent) : Inv c { s with rel := t } := by
  have hb := h.rel.step hst
  cases Release.step_cases hst with | call _ hsame hg =>
  obtain ⟨hout, hlive, honce⟩ := hg
  refine h.frees hb rfl rfl ⟨rfl, rfl, hsame.1⟩ (fun y hy => ?_) (fun y => ?_) (fun y => ?_)
    (fun y hy => ?_) fun y hy => ?_
  · show Function.update s.rel.freed x (s.rel.freed x || free) y = true
    rw [Function.update_apply]
    split
    · rename_i hyx
      rw [← hyx, hy]
      rfl
    · exact hy
  · rw [hout]
    simp
  · split <;> simp
  · cases free with
    | false => cases hy
    | true =>
      cases hy
      have hnew : s.rel.freed x = false := by simpa using honce
      refine ⟨?_, ?_, hsent, fun i _ hi => ?_⟩
      · obtain ht | ⟨i, hi⟩ := h.table.deleting x hlive
        · exact ht
        · have := h.calls.freed i x hi
          rw [hnew] at this
          cases this
      · show Function.update s.rel.freed x (s.rel.freed x || true) x = true
        rw [Function.update_self]
        simp
      · have := (h.calls.freeing i x hi).2.1
        rw [hnew] at this
        cases this
  · split at hy <;> cases hy

/-- The slot of a finished xstream is cleared. -/
theorem Inv.clears (h : Inv c s) {t : Release.State} (hb : Release.Joined c.release t)
    (hpc : s.rel.free j = .table x)
    (ht : t = { s.rel with table := Function.update s.rel.table x false }.setFree j (.delete x)) :
    Inv c { s with
      rel := t
      slots := Function.update s.slots (s.rank x) none } := by
  have hpend : pending (s.rel.free j) = some x := by rw [hpc]; rfl
  have hjoined : (s.rel.free j).joined = some x := by rw [hpc]; rfl
  obtain ⟨hx, hfreed, -⟩ := h.calls.freeing j x hpend
  have hslot := h.table.listed x hx
  have htab : ∀ y, y ≠ x → t.table y = s.rel.table y := fun y hy => by
    rw [ht]
    exact Function.update_of_ne hy _ _
  have htrue : ∀ y, t.table y = true → y ≠ x ∧ s.rel.table y = true := by
    intro y hy
    rw [ht] at hy
    obtain ⟨-, hy⟩ | hy := update_cases (P := (· = true)) hy
    · cases hy
    · exact hy
  have hcalls : Calls { s with
      rel := t
      slots := Function.update s.slots (s.rank x) none } := by
    refine h.calls.frees (p := .delete x) (by rw [ht]; rfl) (fun y hy => ?_)
      (fun y hy => by rw [ht]; exact hy) nofun ?_ ?_
    · by_cases hyx : y = x
      · exact .inr (hyx ▸ hpend)
      · exact .inl ((htab y hyx).trans hy)
    · rintro _ ⟨⟩
      rw [ht]
      exact hfreed
    · rintro _ ⟨⟩
      exact h.calls.secondary j x hjoined
  refine ⟨hb, ⟨fun r y hr => ?_, fun y hy => ?_, h.table.rank, ?_, fun y hy => ?_⟩, hcalls,
    fun y hy hty => ?_, ?_⟩
  · obtain ⟨-, hr⟩ | ⟨hne, hr⟩ := update_cases (P := (· = some y)) hr
    · cases hr
    · obtain ⟨hlt, hrk, hty⟩ := h.table.slot r y hr
      refine ⟨hlt, hrk, (htab y ?_).trans hty⟩
      rintro rfl
      exact hne hrk.symm
  · obtain ⟨hne, hty⟩ := htrue y hy
    have hs := h.table.listed y hty
    show Function.update s.slots (s.rank x) none (s.rank y) = some y
    rw [Function.update_of_ne, hs]
    intro he
    rw [he, hslot] at hs
    cases hs
    exact hne rfl
  · exact (htab 0 (h.calls.secondary j x hjoined).symm).trans h.table.primary
  · rw [ht] at hy ⊢
    by_cases hyx : y = x
    · exact .inr ⟨j, hyx ▸ Function.update_self ..⟩
    · refine (h.table.deleting y hy).imp (fun ht' => (Function.update_of_ne hyx ..).trans ht')
        fun ⟨i, hi⟩ => ⟨i, ?_⟩
      refine (Function.update_of_ne ?_ ..).trans hi
      rintro rfl
      rw [hpc] at hi
      cases hi
  · rw [ht]
    by_cases hyx : y = x
    · exact hyx ▸ h.rel.joined j x hjoined
    · exact h.gone y hy ((htab y hyx).symm.trans hty)
  · rw [ht]
    exact h.unborn

/-- The xstream is deleted. -/
theorem Inv.deletes (h : Inv c s) {t : Release.State} (hb : Release.Joined c.release t)
    (hpc : s.rel.free j = .delete x)
    (ht : t = { s.rel with live := Function.update s.rel.live x false }.setFree j .out) :
    Inv c { s with rel := t } := by
  subst ht
  have hcalls : Calls { s with
      rel := { s.rel with live := Function.update s.rel.live x false }.setFree j .out } :=
    h.calls.frees (p := .out) rfl (fun _ => .inl) (fun _ => id) nofun nofun nofun
  refine ⟨hb, ⟨h.table.slot, h.table.listed, h.table.rank, h.table.primary, fun y hy => ?_⟩, hcalls,
    h.gone, h.unborn⟩
  obtain ⟨-, hy⟩ | ⟨hyx, hy⟩ := update_cases (P := (· = true)) hy
  · cases hy
  · refine (h.table.deleting y hy).imp_right fun ⟨i, hi⟩ => ⟨i, (Function.update_of_ne ?_ ..).trans hi⟩
    rintro rfl
    rw [hpc] at hi
    cases hi
    exact hyx rfl

theorem Inv.free (h : Inv c s) {t : Release.State}
    (hst : Release.step c.release s.rel (.free j) = some t) :
    Inv c { s with
      rel := t
      slots := s.cleared (.free j) } := by
  have hb := h.rel.step hst
  -- a free that goes on with the same xstream, or ends without having joined
  have hkeep : ∀ {pc : Release.FreePc}, t.handler = s.rel.handler →
      t.free = Function.update s.rel.free j pc →
      t.table = s.rel.table ∧ t.live = s.rel.live ∧ t.join.exit = s.rel.join.exit →
      t.freed = s.rel.freed → (∀ y, s.rel.free j ≠ .delete y) → (∀ y, pc ≠ .delete y) →
      (∀ y, pending pc = some y → pending (s.rel.free j) = some y) →
      (∀ y, pc.joined = some y → y ≠ 0) → (∀ y, s.rel.free j ≠ .table y) →
      Inv c { s with
        rel := t
        slots := s.cleared (.free j) } := by
    intro pc hh hf hsame hfd hold hdel hpend hsec hnt
    have hslots : s.cleared (.free j) = s.slots := by
      simp only [State.cleared]
    rw [hslots]
    refine h.frees hb hh hf hsame (fun y hy => by rw [hfd]; exact hy) hold hdel (fun y hy => ?_)
      hsec
    obtain ⟨h1, h2, h3⟩ := h.calls.freeing j y (hpend y hy)
    refine ⟨h1, by rw [hfd]; exact h2, h3, fun i hij hi => ?_⟩
    exact hij (h.calls.once i j y hi (hpend y hy))
  cases Release.freeStep_cases hst with
  | @joined x hpc hr =>
    refine hkeep rfl rfl ⟨rfl, rfl, rfl⟩ rfl (by simp [hpc]) (by simp) (fun y hy => ?_)
      (fun y hy => ?_) (by simp [hpc])
    · cases hy
      rw [hpc]
      rfl
    · cases hy
      have hk := (JoinProtocol.reach_refused h.rel.protocol).ret j x hr
      rintro rfl
      exact hk rfl
  | @failed x hpc =>
    refine hkeep rfl rfl ⟨rfl, rfl, rfl⟩ rfl (by simp [hpc]) (by simp) (fun y hy => ?_)
      (fun y hy => ?_) (by simp [hpc])
    · cases hy
    · cases hy
  | @destroys x hpc _ | @keeps x hpc =>
    refine hkeep rfl rfl ⟨rfl, rfl, rfl⟩ rfl (by simp [hpc]) (by simp) (fun y hy => ?_)
      (fun y hy => ?_) (by simp [hpc])
    · cases hy
      rw [hpc]
      rfl
    · cases hy
      exact h.calls.secondary j x (by rw [hpc]; rfl)
  | @clears x hpc =>
    have hslots : s.cleared (.free j) = Function.update s.slots (s.rank x) none := by
      simp only [State.cleared, hpc]
    rw [hslots]
    exact h.clears hb hpc rfl
  | @deletes x hpc =>
    have hslots : s.cleared (.free j) = s.slots := by
      simp only [State.cleared, hpc]
    rw [hslots]
    exact h.deletes hb hpc rfl

theorem Inv.quiet (h : Inv c s) {t : Release.State} {a : Release.Act}
    (hst : Release.step c.release s.rel a = some t) (hn : ∀ y, a ≠ .create y)
    (hq : t.table = s.rel.table ∧ t.free = s.rel.free ∧ t.freed = s.rel.freed ∧
      t.live = s.rel.live) : Inv c { s with rel := t } := by
  obtain ⟨htab, hfree, hfreed, hlive⟩ := hq
  obtain ⟨⟨h1, h2, h3, h4, h5⟩, ⟨k1, k2, k3, k4, k5, k6, k7⟩⟩ := And.intro h.table h.calls
  have hgone : ∀ x, x < s.next → s.rel.table x = false → (t.join.exit x 0).past = true :=
    fun x hx ht => step_past hst (h.gone x hx ht)
  rw [← htab] at h1 h2 h4 h5 k1 k3 hgone
  rw [← hfree] at h5 k1 k2 k6 k7
  rw [← hlive] at h5
  rw [← hfreed] at k1 k6
  exact ⟨h.rel.step hst, ⟨h1, h2, h3, h4, h5⟩, ⟨k1, k2, k3, k4, k5, k6, k7⟩, hgone,
    fun x hx => step_unborn hst hn (h.unborn x hx)⟩

theorem Inv.makeStep (h : Inv c s) (hst : makeStep c s j = some s') : Inv c s' := by
  simp only [Ranks.makeStep] at hst
  generalize hj : s.maker j = pc at hst
  cases pc with
  | out =>
    cases hst
  | lease want =>
    cases hr : leaseRank c.numPes s.slots (want.getD (-1)) with
    | none =>
      simp only [hr, Option.some.injEq] at hst
      subst hst
      exact ⟨h.rel, { h.table with },
        h.calls.moves rfl ⟨rfl, rfl, rfl⟩ (by simp), h.gone, h.unborn⟩
    | some r =>
      simp only [hr, Option.some.injEq] at hst
      subst hst
      obtain ⟨hpos, -, hfree⟩ := leaseRank_some hr
      have hnew : s.rel.handler s.next ≠ .joining := by
        rw [h.unborn s.next (Nat.le_refl _)]
        simp
      refine ⟨h.rel.setHandler (x := s.next) rfl rfl rfl hnew, h.table.leases hpos hfree,
        h.calls.leases h.table, fun x hx ht => ?_, fun x hx => ?_⟩
      · have hx : x < s.next + 1 := hx
        have hne : x ≠ s.next := by
          rintro rfl
          have ht : Function.update s.rel.table s.next true s.next = false := ht
          rw [Function.update_self] at ht
          cases ht
        have hold : Function.update s.rel.table s.next true x = s.rel.table x :=
          Function.update_of_ne hne _ _
        exact h.gone x (by omega) (hold.symm.trans ht)
      · have hx : s.next + 1 ≤ x := hx
        have hne : x ≠ s.next := by omega
        exact (Function.update_of_ne hne _ _).trans (h.unborn x (by omega))
  | install x =>
    cases hst
    have hx := (h.calls.making j x hj).1
    refine ⟨h.rel, { h.table with },
      h.calls.sends (h.table.slot _ x (h.table.listed x hx)).1 (by simp) fun i y hi => ?_, h.gone,
      h.unborn⟩
    rw [Function.update_apply] at hi
    split at hi
    · cases hi
    · rename_i hij
      refine ⟨?_, hi⟩
      rintro rfl
      exact hij (h.calls.sole i j y hi hj)
  | publish x =>
    cases hst
    exact ⟨h.rel, { h.table with },
      h.calls.moves rfl ⟨rfl, rfl, rfl⟩ (by simp), h.gone, h.unborn⟩

theorem Inv.step (h : Inv c s) {a : Act} (hst : step c s a = some s') : Inv c s' := by
  have hlease : ∀ {x : Nat} {v : LeasePc}, s.lease x ≠ .unsent → v ≠ .unsent →
      Inv c { s with lease := Function.update s.lease x v } := fun hx hv =>
    ⟨h.rel, { h.table with },
      h.calls.answers hx hv, h.gone, h.unborn⟩
  cases a with
  | create j want =>
    simp only [Ranks.step, Option.ite_none_right_eq_some] at hst
    obtain ⟨-, hst⟩ := hst
    cases hst
    exact ⟨h.rel, { h.table with },
      h.calls.moves rfl ⟨rfl, rfl, rfl⟩ (by simp), h.gone, h.unborn⟩
  | make j => exact h.makeStep hst
  | deliver x =>
    simp only [Ranks.step, Option.ite_none_right_eq_some] at hst
    obtain ⟨hx, hst⟩ := hst
    cases hst
    exact hlease (by simp [hx]) (by simp)
  | giveBack x =>
    simp only [Ranks.step, Option.ite_none_right_eq_some] at hst
    obtain ⟨⟨hx, -⟩, hst⟩ := hst
    cases hst
    exact hlease (by simp [hx]) (by simp)
  | rel a =>
    simp only [Ranks.step, Option.ite_none_right_eq_some] at hst
    obtain ⟨hal, hst⟩ := hst
    obtain ⟨t, ht, rfl⟩ := Option.map_eq_some_iff.mp hst
    cases a with
    | create x => cases hal
    | call j x here free =>
      simp only [State.allows, Bool.and_eq_true, decide_eq_true_eq] at hal
      exact h.call ht hal.2
    | free j => exact h.free ht
    | join _ | callback _ | release _ | handler _ =>
      exact h.quiet ht (by simp) (quiet_step ht (by simp) (by simp) (by simp))

theorem reach_inv {G : State → Act → Prop} (h : Reach (system c) G s) : Inv c s := by
  refine h.invariant (I := Inv c) ?_ fun _ _ _ _ hi _ hst => hi.step hst
  rintro _ rfl
  exact initial_inv

/-- A thread is about to take `xm` only if it has been so before, or has just called. -/
theorem step_asks {a : Act} {want : Option Int} (hst : step c s a = some s')
    (hj : s'.maker j = .lease want) : s.maker j = .lease want ∨ a = .create j want := by
  have hset : ∀ {i : Nat} {pc : MakePc}, Function.update s.maker i pc j = .lease want →
      i = j ∧ pc = .lease want ∨ s.maker j = .lease want := by
    intro i pc hu
    rw [Function.update_apply] at hu
    split at hu
    · rename_i hji
      exact .inl ⟨hji.symm, hu⟩
    · exact .inr hu
  cases a with
  | create i want' =>
    simp only [step, Option.ite_none_right_eq_some] at hst
    obtain ⟨-, hst⟩ := hst
    cases hst
    obtain ⟨rfl, hpc⟩ | hold := hset hj
    · cases hpc
      exact .inr rfl
    · exact .inl hold
  | make i =>
    have hpc : ∃ pc, s'.maker = Function.update s.maker i pc ∧ pc ≠ .lease want := by
      simp only [step, makeStep] at hst
      split at hst
      · cases hst
      · split at hst <;> cases hst <;> exact ⟨_, rfl, by simp⟩
      · cases hst
        exact ⟨_, rfl, by simp⟩
      · cases hst
        exact ⟨_, rfl, by simp⟩
    obtain ⟨pc, hm, hne⟩ := hpc
    rw [hm] at hj
    obtain ⟨-, hpc⟩ | hold := hset hj
    · exact absurd hpc hne
    · exact .inl hold
  | deliver x =>
    simp only [step, Option.ite_none_right_eq_some] at hst
    obtain ⟨-, hst⟩ := hst
    cases hst
    exact .inl hj
  | giveBack x =>
    simp only [step, Option.ite_none_right_eq_some] at hst
    obtain ⟨-, hst⟩ := hst
    cases hst
    exact .inl hj
  | rel a =>
    simp only [step, Option.ite_none_right_eq_some] at hst
    obtain ⟨-, hst⟩ := hst
    obtain ⟨t, -, rfl⟩ := Option.map_eq_some_iff.mp hst
    exact .inl hj

theorem reach_nonneg (h : Reach (system c) Nonneg s) :
    ∀ j w, s.maker j = .lease (some w) → 0 ≤ w := by
  refine h.invariant (I := fun s => ∀ j w, s.maker j = .lease (some w) → 0 ≤ w) ?_ ?_
  · rintro _ rfl j w hj
    cases hj
  · intro s a s' _ hi hg hst j w hj
    obtain hold | rfl := step_asks hst hj
    · exact hi j w hold
    · exact hg w rfl

/-! ### The ranks of every run -/

/-- The creation of `j` takes rank `r` for a new xstream and goes on to send the lease. -/
def Granted (s s' : State) (j r : Nat) : Prop :=
  s'.maker j = .install s.next ∧ s'.rank s.next = r ∧
    s'.slots = Function.update s.slots r (some s.next)

/-- The creation of `j` fails, and nothing is leased. -/
def Denied (s s' : State) (j : Nat) : Prop :=
  s'.maker j = .out ∧ s'.ret j = some .invXstreamRank ∧ s'.slots = s.slots ∧ s'.next = s.next

/-- A secondary rank that nobody has. -/
def FreeAt (c : Config) (s : State) (r : Nat) : Prop := 1 ≤ r ∧ r < c.numPes ∧ s.slots r = none

structure Leases (c : Config) (s : State) : Prop where
  slot : ∀ r x, s.slots r = some x → s.rank x = r
  primary : s.slots 0 = some 0
  /-- Two xstreams that exist have different ranks, unless `ABT_xstream_free` has cleared the slot of
  one of them and is about to delete it. -/
  apart : ∀ x y, s.rel.live x = true → s.rel.live y = true → s.rank x = s.rank y →
    x = y ∨ ∃ j, s.rel.free j = .delete x ∨ s.rel.free j = .delete y
  /-- `ABT_xstream_create`. -/
  any : ∀ j, s.maker j = .lease none → ∃ s', step c s (.make j) = some s' ∧
    (∀ r, Granted s s' j r ↔ FreeAt c s r ∧ ∀ q, q < r → ¬ FreeAt c s q) ∧
    (Denied s s' j ↔ ∀ r, ¬ FreeAt c s r)
  /-- `ABT_xstream_create_with_rank`. -/
  ranked : ∀ j w, s.maker j = .lease (some w) → ∃ s', step c s (.make j) = some s' ∧
    (∀ r, Granted s s' j r ↔ w = r ∧ FreeAt c s r) ∧
    (Denied s s' j ↔ ¬ (1 ≤ w ∧ w < c.numPes ∧ s.slots w.toNat = none))
  /-- The lease of an xstream is sent when all others that ever had its rank have finished; -/
  sent : ∀ j x, s.maker j = .install x → s.lease x = .unsent ∧
    (∀ y, y < s.next → y ≠ x → s.rank y = s.rank x → (s.rel.join.obj y).flag = true) ∧
    ∃ s', step c s (.make j) = some s' ∧ s'.lease x = .sent ∧ s'.maker j = .publish x
  /-- and then the creation succeeds. -/
  returns : ∀ j x, s.maker j = .publish x → ∃ s', step c s (.make j) = some s' ∧
    s'.maker j = .out ∧ s'.ret j = some .success

/-- What the step under `xm` answers. -/
theorem make_lease {want : Option Int} (hj : s.maker j = .lease want) :
    ∃ s', step c s (.make j) = some s' ∧
      (∀ r, Granted s s' j r ↔ leaseRank c.numPes s.slots (want.getD (-1)) = some r) ∧
      (Denied s s' j ↔ leaseRank c.numPes s.slots (want.getD (-1)) = none) := by
  cases hr : leaseRank c.numPes s.slots (want.getD (-1)) with
  | none =>
    refine ⟨s.back j .invXstreamRank, by simp [step, makeStep, hj, hr], fun r => ?_, ?_⟩
    · simp [Granted, State.back, State.setMaker]
    · simp [Denied, State.back, State.setMaker]
  | some r =>
    refine ⟨s.leased j r, by simp [step, makeStep, hj, hr], fun q => ?_, ?_⟩
    · simp only [Granted, State.leased, State.setMaker, Function.update_self, true_and,
        Option.some.injEq]
      constructor
      · rintro ⟨hq, -⟩
        exact hq
      · rintro rfl
        exact ⟨rfl, rfl⟩
    · simp [Denied, State.leased, State.setMaker]

theorem Inv.apart (h : Inv c s) {y : Nat} (hx : s.rel.live x = true) (hy : s.rel.live y = true)
    (hr : s.rank x = s.rank y) :
    x = y ∨ ∃ j, s.rel.free j = .delete x ∨ s.rel.free j = .delete y := by
  obtain htx | ⟨j, hj⟩ := h.table.deleting x hx
  · obtain hty | ⟨j, hj⟩ := h.table.deleting y hy
    · have hsx := h.table.listed x htx
      have hsy := h.table.listed y hty
      rw [hr, hsy] at hsx
      cases hsx
      exact .inl rfl
    · exact .inr ⟨j, .inr hj⟩
  · exact .inr ⟨j, .inl hj⟩

/-- Whoever had the rank of a new xstream has finished. -/
theorem Inv.finished (h : Inv c s) {y : Nat} (hj : s.maker j = .install x) (hy : y < s.next)
    (hne : y ≠ x) (hr : s.rank y = s.rank x) : (s.rel.join.obj y).flag = true := by
  have hx := h.table.listed x (h.calls.making j x hj).1
  refine h.rel.flag (h.gone y hy ?_)
  cases hty : s.rel.table y with
  | false => rfl
  | true =>
    have hs := h.table.listed y hty
    rw [hr, hx] at hs
    cases hs
    exact absurd rfl hne

/-- In every run in which no negative rank is asked for. -/
theorem rank_leases (h : Reach (system c) Nonneg s) : Leases c s := by
  have hi := reach_inv h
  refine ⟨fun r x hr => (hi.table.slot r x hr).2.1, ?_, fun x y hx hy hr => hi.apart hx hy hr,
    fun j hj => ?_, fun j w hj => ?_, fun j x hj => ?_, fun j x hj => ?_⟩
  · have h0 := hi.table.listed 0 hi.table.primary
    have hlt := (hi.table.slot _ 0 h0).1
    rw [(hi.table.rank 0 hlt).mpr rfl] at h0
    exact h0
  · obtain ⟨s', hst, hg, hd⟩ := make_lease (c := c) hj
    have hany : leaseRank c.numPes s.slots (-1) = freeRank c.numPes s.slots := rfl
    refine ⟨s', hst, fun r => ?_, ?_⟩
    · rw [hg, Option.getD_none, hany, freeRank_some]
      refine and_congr_right fun hr => ⟨fun hq q hlt hf => ?_, fun hq q h1 hlt hn => ?_⟩
      · exact hq q hf.1 hlt hf.2.2
      · exact hq q hlt ⟨h1, Nat.lt_trans hlt hr.2.1, hn⟩
    · rw [hd, Option.getD_none, hany, freeRank_none]
      exact ⟨fun hn r hf => hn r hf.1 hf.2.1 hf.2.2, fun hn r h1 hlt h0 => hn r ⟨h1, hlt, h0⟩⟩
  · obtain ⟨s', hst, hg, hd⟩ := make_lease (c := c) hj
    have hw := reach_nonneg h j w hj
    refine ⟨s', hst, fun r => ?_, ?_⟩
    · rw [hg, Option.getD_some, leaseRank_nonneg hw, Option.ite_none_right_eq_some,
        Option.some.injEq]
      constructor
      · rintro ⟨⟨h1, hlt, hn⟩, rfl⟩
        exact ⟨by omega, by omega, by omega, hn⟩
      · rintro ⟨rfl, h1, hlt, hn⟩
        exact ⟨⟨by omega, by omega, hn⟩, rfl⟩
    · rw [hd, Option.getD_some, leaseRank_nonneg hw]
      simp
  · have hst : step c s (.make j) =
        some ({ s with lease := Function.update s.lease x .sent }.setMaker j (.publish x)) := by
      simp [step, makeStep, hj]
    refine ⟨(hi.calls.making j x hj).2, fun y hy hne hr => hi.finished hj hy hne hr, _, hst, ?_, ?_⟩
    · simp [State.setMaker]
    · simp [State.setMaker]
  · refine ⟨s.back j .success, by simp [step, makeStep, hj], ?_, ?_⟩
    · simp [State.back, State.setMaker]
    · simp [State.back, State.setMaker]

end

/-- Rank 1 is leased, given back and freed, and then leased to another creation. -/
theorem rank_leases_again :
    ∃ s, Reach (system ⟨2, fun _ => false, fun _ => true, fun _ => false⟩) Nonneg s ∧
      Leases ⟨2, fun _ => false, fun _ => true, fun _ => false⟩ s ∧
      (s.maker 8 = .install 2 ∧ 1 < s.next ∧ s.rank 1 = s.rank 2) ∧
      (s.rel.join.obj 1).flag = true := by
  obtain ⟨s, h, hj, hlt, hr⟩ := Reach.exists_run
    (M := system ⟨2, fun _ => false, fun _ => true, fun _ => false⟩) (G := Nonneg) (.start rfl)
    (fun s => s.maker 8 = .install 2 ∧ 1 < s.next ∧ s.rank 1 = s.rank 2)
    [.create 7 none, .make 7, .make 7, .make 7, .deliver 1, .rel (.call 7 1 false true),
      .rel (.join 7), .rel (.join 7), .rel (.join 7), .rel (.join 7), .giveBack 1,
      .rel (.release 1), .rel (.handler 1), .rel (.handler 1), .rel (.handler 1),
      .rel (.handler 1), .rel (.handler 1), .rel (.join 7), .rel (.free 7), .rel (.free 7),
      .rel (.free 7), .create 8 none, .make 8] (by decide)
  have hl := rank_leases h
  exact ⟨s, h, hl, ⟨hj, hlt, hr⟩, (hl.sent 8 2 hj).2.1 1 hlt (by decide) hr⟩

/-- A creation that asks for rank -5 gets rank 1. -/
theorem negative_rank_granted :
    ∃ s s', Reach (system ⟨3, fun _ => true, fun _ => true, fun _ => false⟩) Free s ∧
      s.maker 7 = .lease (some (-5)) ∧
      (system ⟨3, fun _ => true, fun _ => true, fun _ => false⟩).step s (.make 7) = some s' ∧
      Granted s s' 7 1 ∧ ¬ (1 ≤ (-5 : Int)) := by
  refine ⟨initial.setMaker 7 (.lease (some (-5))), _, ?_, rfl, rfl, ⟨rfl, rfl, rfl⟩, by decide⟩
  exact .next (a := .create 7 (some (-5))) (.start rfl) trivial rfl

end Ranks
end AbtReconverse
