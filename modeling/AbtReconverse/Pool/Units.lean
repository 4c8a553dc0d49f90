import Mathlib.Logic.Function.Basic
import AbtReconverse.Basic
import AbtReconverse.Lib.Ledger
import AbtReconverse.Lib.Lts

/-!
# AbtReconverse.Pool.Units

The units of user-defined pools. A thread that is associated with a user pool has a unit there, which
the pool's `u_create_from_thread` makes and `u_free` takes back, and `ABTI_g->units` leads from the
unit to the thread. In a built-in pool the unit of a thread is its handle, so units and descriptors
share one space of addresses.

The machine has every route to `ABTI_pool_associate` and every end of a descriptor: a detached thread
exits, a named one is freed, `ABT_finalize` releases the primary, and the runner of a user-defined
scheduler returns. The last one deletes the descriptor without `ABTI_pool_disassociate`. An address is
given out again once its descriptor or unit is gone; the allocator of descriptors and the user's
`u_create_from_thread` return an address that is not in use.
-/

namespace AbtReconverse
namespace UnitMap

open Lts

structure Thread where
  live : Bool
  type : ThreadType
  pool : Option Nat
  unit : Option Nat
  migrateTo : Option Nat
  deriving DecidableEq, Repr

structure State where
  thread : Nat → Thread
  /-- `ABTI_g->units`. -/
  units : Nat → Option Nat
  user : Nat → Bool
  numPools : Nat
  /-- `num_user_pools`. -/
  numUserPools : Nat
  /-- How often a pool's `u_create_from_thread` has returned a unit. -/
  created : Nat → Nat → Nat
  /-- How often a pool's `u_free` was given a unit. -/
  freed : Nat → Nat → Nat

/-- After `ABT_init`: a built-in pool and the primary ULT, here at address 1. -/
def initial : State where
  thread := Function.update (fun _ => ⟨false, .named, none, none, none⟩) 1
    ⟨true, .primary, some 0, none, none⟩
  units := fun _ => none
  user := fun _ => false
  numPools := 1
  numUserPools := 0
  created := fun _ _ => 0
  freed := fun _ _ => 0

namespace State

def setThread (s : State) (t : Nat) (o : Thread) : State :=
  { s with thread := Function.update s.thread t o }

/-- The address is neither a descriptor nor a unit. -/
def unused (s : State) (x : Nat) : Bool :=
  !(s.thread x).live && (List.range s.numPools).all fun p => s.created p x = s.freed p x

/-- The unit leaves the map and `u_free` of its pool gets it. -/
def takeBack (s : State) (p u : Nat) : State :=
  { s with units := Function.update s.units u none, freed := bump s.freed p u }

def dropUnit (s : State) (t : Nat) : State :=
  match (s.thread t).pool, (s.thread t).unit with
  | some p, some u => if s.user p then s.takeBack p u else s
  | _, _ => s

/-- `ABTI_pool_disassociate`. -/
def disassociate (s : State) (t : Nat) : State :=
  (s.dropUnit t).setThread t { s.thread t with pool := none, unit := none }

/-- `u_create_from_thread` of pool `p` has returned `u` for `t`. -/
def lend (s : State) (t p u : Nat) : State :=
  { s.setThread t { s.thread t with pool := some p, unit := some u } with
    units := Function.update s.units u (some t)
    created := bump s.created p u }

/-- `ABTI_pool_associate`; `u` is what `u_create_from_thread` returns, if it is called. -/
def associate (s : State) (t p u : Nat) : Option State :=
  if (s.thread t).pool = some p then some s
  else
    let s' := s.disassociate t
    if s.user p then
      if s'.unused u then some (s'.lend t p u) else none
    else some (s'.setThread t { s'.thread t with pool := some p })

/-- `ABTI_thread_release`. -/
def release (s : State) (t : Nat) : State := s.setThread t { s.thread t with live := false }

/-- `unit_to_thread`. -/
def unitToThread (s : State) (x : Nat) : Option Nat :=
  if s.numUserPools = 0 then none else s.units x

/-- `any_unit_to_thread`. -/
def anyUnitToThread (s : State) (x : Nat) : Nat := (s.unitToThread x).getD x

/-- `ABT_thread_get_unit`. -/
def getUnit (s : State) (t : Nat) : Option Nat :=
  match (s.thread t).pool with
  | some p => if s.user p then (s.thread t).unit else some t
  | none => some t

end State

inductive Act where
  | poolCreate (user : Bool)
  /-- `thread_create_impl`, `task_create_impl`. -/
  | create (t p : Nat) (detached : Bool) (u : Nat)
  /-- `ABTI_thread_wrap_runner`. -/
  | wrapRunner (t : Nat) (pool : Option Nat)
  | poolPush (p unit u : Nat)
  /-- `ABT_thread_set_associated_pool`, `ABT_pool_push_thread`, `ABT_self_schedule`. -/
  | setAssociatedPool (t p u : Nat)
  | migrateToPool (t p : Nat)
  /-- `ABTI_thread_awaken_fn`. -/
  | awaken (t u : Nat)
  /-- `ABT_xstream_set_main_sched`, called by `t`. -/
  | setMainSched (t : Nat) (old new : List Nat) (u : Nat)
  /-- A detached thread terminates. -/
  | exit (t : Nat)
  | threadFree (t : Nat)
  /-- The end of `sched_runner`. -/
  | runnerEnd (t : Nat)
  | finalize
  deriving DecidableEq, Repr

def step (s : State) : Act → Option State
  | .poolCreate user => some { s with
      user := Function.update s.user s.numPools user
      numPools := s.numPools + 1
      numUserPools := if user then s.numUserPools + 1 else s.numUserPools }
  | .create t p detached u =>
    if s.unused t ∧ p < s.numPools then
      (s.setThread t ⟨true, if detached then .detached else .named, none, none, none⟩).associate t p u
    else none
  | .wrapRunner t pool =>
    if s.unused t ∧ ∀ p ∈ pool, p < s.numPools then
      some (s.setThread t ⟨true, .sched, pool, none, none⟩)
    else none
  | .poolPush p x u =>
    let t := s.anyUnitToThread x
    if (s.thread t).live ∧ p < s.numPools then s.associate t p u else none
  | .setAssociatedPool t p u =>
    if (s.thread t).live ∧ p < s.numPools then s.associate t p u else none
  | .migrateToPool t p =>
    if (s.thread t).live ∧ p < s.numPools then
      some (s.setThread t { s.thread t with migrateTo := some p })
    else none
  | .awaken t u =>
    if (s.thread t).live ∧ (s.thread t).type ≠ .sched then
      match (s.thread t).migrateTo with
      | some p => (s.setThread t { s.thread t with migrateTo := none }).associate t p u
      | none => some s
    else none
  | .setMainSched t old new u =>
    if (s.thread t).live ∧ ∀ p ∈ new, p < s.numPools then
      match (s.thread t).pool, new with
      | some q, p :: _ => if q ∈ old then s.associate t p u else some s
      | _, _ => some s
    else none
  | .exit t =>
    if (s.thread t).live ∧ (s.thread t).type = .detached then
      some ((s.disassociate t).release t)
    else none
  | .threadFree t =>
    if (s.thread t).live ∧ (s.thread t).type = .named then
      some ((s.disassociate t).release t)
    else none
  | .runnerEnd t =>
    if (s.thread t).live ∧ (s.thread t).type = .sched then some (s.release t) else none
  | .finalize =>
    if (s.thread 1).live ∧ (s.thread 1).type = .primary then
      some ((s.disassociate 1).release 1)
    else none

def system : System State Act where
  init := fun s => s = initial
  step := step

/-- Thread `t` is associated with user pool `p` and has the unit `u` there. -/
def Has (s : State) (t p u : Nat) : Prop :=
  (s.thread t).live = true ∧ (s.thread t).pool = some p ∧ (s.thread t).unit = some u

/-- The pools a descriptor names exist. -/
def InRange (n : Nat) (o : Thread) : Prop := ∀ p, o.pool = some p ∨ o.migrateTo = some p → p < n

structure Inv (s : State) : Prop where
  ledger : Ledger (Has s) s.units s.created s.freed
  pool : ∀ t u, (s.thread t).live = true → (s.thread t).unit = some u →
    ∃ p, (s.thread t).pool = some p
  user : ∀ t p u, Has s t p u → s.user p = true
  member : ∀ t p, (s.thread t).live = true → (s.thread t).type ≠ .sched →
    (s.thread t).pool = some p → s.user p = true → (s.thread t).unit ≠ none
  apart : ∀ t p u, Has s t p u → (s.thread u).live = false
  range : ∀ t, (s.thread t).live = true → InRange s.numPools (s.thread t)
  pools : ∀ p, s.user p = true → p < s.numPools ∧ 0 < s.numUserPools

namespace Inv

variable {s s' : State} {t p u : Nat} {o : Thread}

theorem has_other {s : State} {t v : Nat} (hv : v ≠ t) (q w : Nat) :
    Has (s.setThread t o) v q w ↔ Has s v q w := by
  simp [Has, State.setThread, hv]

theorem has_self {s : State} {t : Nat} (q w : Nat) :
    Has (s.setThread t o) t q w ↔ o.live = true ∧ o.pool = some q ∧ o.unit = some w := by
  simp [Has, State.setThread]

theorem unused (h : Inv s) (hu : s.unused u = true) :
    (s.thread u).live = false ∧ ∀ t p, ¬ Has s t p u := by
  simp only [State.unused, Bool.and_eq_true, Bool.not_eq_eq_eq_not, Bool.not_true, List.all_eq_true,
    List.mem_range, decide_eq_true_eq] at hu
  refine ⟨hu.1, fun t p ht => ?_⟩
  have heq := hu.2 p (h.pools p (h.user t p u ht)).1
  obtain ⟨-, hb⟩ | ⟨hno, -⟩ := h.ledger.balance p u
  · omega
  · exact hno ⟨t, ht⟩

/-- A descriptor without a unit changes to one without a unit; an address that was not a descriptor
is not a unit either. -/
theorem setBare (h : Inv s) (hold : (s.thread t).live = true → (s.thread t).unit = none)
    (hnew : o.live = true → o.unit = none)
    (hmember : ∀ p, o.live = true → o.type ≠ .sched → o.pool = some p → s.user p = false)
    (haddr : o.live = true → (s.thread t).live = true ∨ ∀ v q, ¬ Has s v q t)
    (hrange : o.live = true → InRange s.numPools o) :
    Inv (s.setThread t o) := by
  have hno : ∀ q w, ¬ Has s t q w := by
    rintro q w ⟨hl, -, hu⟩
    simp [hold hl] at hu
  have hno' : ∀ q w, ¬ Has (s.setThread t o) t q w := by
    intro q w hw
    obtain ⟨hl, -, hu⟩ := (has_self q w).mp hw
    simp [hnew hl] at hu
  have hsame : ∀ v q w, Has (s.setThread t o) v q w ↔ Has s v q w := by
    intro v q w
    by_cases hv : v = t
    · subst hv; exact ⟨fun hw => absurd hw (hno' q w), fun hw => absurd hw (hno q w)⟩
    · exact has_other hv q w
  refine ⟨h.ledger.congr hsame, fun v w hl hw => ?_, fun v q w hw => ?_, fun v q hl hty hq hus => ?_,
    fun v q w hw => ?_, fun v hl => ?_, h.pools⟩
  · by_cases hv : v = t
    · subst hv
      simp only [State.setThread, Function.update_self] at hl hw
      simp [hnew hl] at hw
    · simp only [State.setThread, Function.update_of_ne hv] at hl hw ⊢
      exact h.pool v w hl hw
  · exact h.user v q w ((hsame v q w).mp hw)
  · by_cases hv : v = t
    · subst hv
      simp only [State.setThread, Function.update_self] at hl hty hq
      have hf := hmember q hl hty hq
      exact absurd (hus.symm.trans hf) (by simp)
    · simp only [State.setThread, Function.update_of_ne hv] at hl hty hq ⊢
      exact h.member v q hl hty hq hus
  · have hw' := (hsame v q w).mp hw
    have hdead := h.apart v q w hw'
    by_cases hwt : w = t
    · subst hwt
      simp only [State.setThread, Function.update_self]
      rw [Bool.eq_false_iff]
      intro ho
      obtain hl | hfree := haddr ho
      · simp [hdead] at hl
      · exact hfree v q hw'
    · simp only [State.setThread, Function.update_of_ne hwt]
      exact hdead
  · by_cases hv : v = t
    · subst hv
      simp only [State.setThread, Function.update_self] at hl ⊢
      exact hrange hl
    · simp only [State.setThread, Function.update_of_ne hv] at hl ⊢
      exact h.range v hl

/-- The descriptor of a thread with a unit changes in nothing that matters here. -/
theorem setKept (h : Inv s) (hl : o.live = (s.thread t).live) (hp : o.pool = (s.thread t).pool)
    (hu : o.unit = (s.thread t).unit) (hty : o.type = (s.thread t).type)
    (hrange : o.live = true → InRange s.numPools o) : Inv (s.setThread t o) := by
  have heq : ∀ v, ((s.setThread t o).thread v).live = (s.thread v).live ∧
      ((s.setThread t o).thread v).pool = (s.thread v).pool ∧
      ((s.setThread t o).thread v).unit = (s.thread v).unit ∧
      ((s.setThread t o).thread v).type = (s.thread v).type := by
    intro v
    by_cases hv : v = t
    · subst hv
      simp only [State.setThread, Function.update_self]
      exact ⟨hl, hp, hu, hty⟩
    · simp only [State.setThread, Function.update_of_ne hv, and_self]
  have hsame : ∀ v q w, Has (s.setThread t o) v q w ↔ Has s v q w := by
    intro v q w
    obtain ⟨h₁, h₂, h₃, -⟩ := heq v
    simp only [Has, h₁, h₂, h₃]
  refine ⟨h.ledger.congr hsame, fun v w => ?_, fun v q w hw => h.user v q w ((hsame v q w).mp hw),
    fun v q => ?_, fun v q w hw => ?_, fun v hv => ?_, h.pools⟩
  · obtain ⟨h₁, h₂, h₃, -⟩ := heq v
    rw [h₁, h₂, h₃]
    exact h.pool v w
  · obtain ⟨h₁, h₂, h₃, h₄⟩ := heq v
    rw [h₁, h₂, h₃, h₄]
    exact h.member v q
  · rw [(heq w).1]
    exact h.apart v q w ((hsame v q w).mp hw)
  · by_cases hvt : v = t
    · subst hvt
      simp only [State.setThread, Function.update_self] at hv ⊢
      exact hrange hv
    · simp only [State.setThread, Function.update_of_ne hvt] at hv ⊢
      exact h.range v hv

/-- `ABTI_pool_disassociate`: the unit of a thread, if it has one, goes back to its pool. -/
theorem disassociate (h : Inv s) (ht : (s.thread t).live = true) : Inv (s.disassociate t) := by
  cases hu : (s.thread t).unit with
  | none =>
    have hdrop : s.dropUnit t = s := by
      unfold State.dropUnit
      cases (s.thread t).pool <;> simp [hu]
    unfold State.disassociate
    rw [hdrop]
    exact h.setBare (fun _ => hu) (fun _ => rfl) (fun p _ _ hp => by simp at hp) (fun _ => .inl ht)
      fun _ p hp => h.range t ht p (.inr (by simpa using hp))
  | some u =>
    obtain ⟨p, hp⟩ := h.pool t u ht hu
    have hhas : Has s t p u := ⟨ht, hp, hu⟩
    have hdrop : s.dropUnit t = s.takeBack p u := by
      simp only [State.dropUnit, hp, hu, h.user t p u hhas, if_true]
    unfold State.disassociate
    rw [hdrop]
    have hlost : ∀ v q w, Has ((s.takeBack p u).setThread t
        { s.thread t with pool := none, unit := none }) v q w ↔ Has s v q w ∧ v ≠ t := by
      intro v q w
      by_cases hv : v = t
      · subst hv; rw [has_self]; simp
      · rw [has_other hv]; exact ⟨fun hw => ⟨hw, hv⟩, fun hw => hw.1⟩
    refine ⟨h.ledger.lose hhas hlost, fun v w hl hw => ?_,
      fun v q w hw => h.user v q w ((hlost v q w).mp hw).1, fun v q hl hty hq hus => ?_,
      fun v q w hw => ?_, fun v hl => ?_, h.pools⟩
    · by_cases hv : v = t
      · subst hv; simp [State.setThread] at hw
      · simp only [State.setThread, Function.update_of_ne hv] at hl hw ⊢
        exact h.pool v w hl hw
    · by_cases hv : v = t
      · subst hv; simp [State.setThread] at hq
      · simp only [State.setThread, Function.update_of_ne hv] at hl hty hq ⊢
        exact h.member v q hl hty hq hus
    · have hw' := ((hlost v q w).mp hw).1
      have hdead := h.apart v q w hw'
      have hne : w ≠ t := by
        rintro rfl
        simp [ht] at hdead
      simp only [State.setThread, Function.update_of_ne hne]
      exact hdead
    · by_cases hv : v = t
      · subst hv
        simp only [State.setThread, Function.update_self]
        exact fun p hp => h.range v ht p (.inr (by simpa using hp))
      · simp only [State.setThread, Function.update_of_ne hv] at hl ⊢
        exact h.range v hl

/-- A thread without a unit gets an unused one. -/
theorem lend (h : Inv s) (ht : (s.thread t).live = true) (hbare : (s.thread t).unit = none)
    (hp : s.user p = true) (hu : s.unused u = true) : Inv (s.lend t p u) := by
  obtain ⟨hdead, hnone⟩ := h.unused hu
  have hno : ∀ q w, ¬ Has s t q w := by
    rintro q w ⟨-, -, hw⟩
    simp [hbare] at hw
  have hgot : ∀ v q w, Has (s.lend t p u) v q w ↔ Has s v q w ∨ v = t ∧ q = p ∧ w = u := by
    intro v q w
    by_cases hv : v = t
    · subst hv
      refine (has_self q w).trans ⟨fun hw => .inr ⟨rfl, ?_, ?_⟩, ?_⟩
      · exact (Option.some.inj hw.2.1).symm
      · exact (Option.some.inj hw.2.2).symm
      · rintro (hw | ⟨-, rfl, rfl⟩)
        · exact absurd hw (hno q w)
        · exact ⟨ht, rfl, rfl⟩
    · refine (has_other hv q w).trans ⟨.inl, ?_⟩
      rintro (hw | ⟨hvt, -, -⟩)
      · exact hw
      · exact absurd hvt hv
  have hlive : ∀ v, ((s.lend t p u).thread v).live = (s.thread v).live := by
    intro v
    by_cases hv : v = t
    · subst hv; simp [State.lend, State.setThread]
    · simp [State.lend, State.setThread, hv]
  refine ⟨h.ledger.gain hnone hno hgot, fun v w hl hw => ?_, fun v q w hw => ?_,
    fun v q hl hty hq hus => ?_, fun v q w hw => ?_, fun v hl => ?_, h.pools⟩
  · by_cases hv : v = t
    · subst hv; exact ⟨p, by simp [State.lend, State.setThread]⟩
    · simp only [State.lend, State.setThread, Function.update_of_ne hv] at hl hw ⊢
      exact h.pool v w hl hw
  · obtain hw | ⟨-, rfl, -⟩ := (hgot v q w).mp hw
    · exact h.user v q w hw
    · exact hp
  · by_cases hv : v = t
    · subst hv; simp [State.lend, State.setThread]
    · simp only [State.lend, State.setThread, Function.update_of_ne hv] at hl hty hq ⊢
      exact h.member v q hl hty hq hus
  · rw [hlive]
    obtain hw | ⟨-, -, rfl⟩ := (hgot v q w).mp hw
    · exact h.apart v q w hw
    · exact hdead
  · by_cases hv : v = t
    · subst hv
      simp only [State.lend, State.setThread, Function.update_self]
      rintro q (hq | hq)
      · cases hq; exact (h.pools p hp).1
      · exact h.range v ht q (.inr hq)
    · simp only [State.lend, State.setThread, Function.update_of_ne hv] at hl ⊢
      exact h.range v hl

/-- What `ABTI_pool_disassociate` leaves. -/
theorem disassociate_frame (s : State) (t : Nat) :
    (s.disassociate t).thread t = { s.thread t with pool := none, unit := none } ∧
      (s.disassociate t).user = s.user ∧ (s.disassociate t).numPools = s.numPools := by
  unfold State.disassociate State.dropUnit
  split
  · split <;> exact ⟨Function.update_self .., rfl, rfl⟩
  · exact ⟨Function.update_self .., rfl, rfl⟩

theorem associate (h : Inv s) (ht : (s.thread t).live = true) (hp : p < s.numPools)
    (hs : s.associate t p u = some s') : Inv s' := by
  unfold State.associate at hs
  split at hs
  · cases hs; exact h
  · have h₁ := h.disassociate ht
    obtain ⟨hself, huser, hnum⟩ := disassociate_frame s t
    have hlive : ((s.disassociate t).thread t).live = true := by rw [hself]; exact ht
    have hbare : ((s.disassociate t).thread t).unit = none := by rw [hself]
    dsimp only at hs
    split at hs
    · rename_i hup
      split at hs
      · rename_i hfree
        cases hs
        exact h₁.lend hlive hbare (huser ▸ hup) hfree
      · cases hs
    · rename_i hup
      cases hs
      refine h₁.setBare (fun _ => hbare) (fun _ => hbare) (fun q _ _ hq => ?_) (fun _ => .inl hlive)
        fun _ q hq => ?_
      · cases hq
        rw [huser]
        exact Bool.eq_false_iff.mpr hup
      · rw [hnum]
        obtain hq | hq := hq
        · cases hq; exact hp
        · rw [hself] at hq
          exact h.range t ht q (.inr hq)

/-- A descriptor without a unit is released. -/
theorem release (h : Inv s) (hu : (s.thread t).live = true → (s.thread t).unit = none) :
    Inv (s.release t) :=
  h.setBare hu (fun hl => by simp at hl) (fun _ hl => by simp at hl) (fun hl => by simp at hl)
    fun hl => by simp at hl

/-- A descriptor goes after its association has ended. -/
theorem destroy (h : Inv s) (ht : (s.thread t).live = true) :
    Inv ((s.disassociate t).release t) :=
  (h.disassociate ht).release fun _ => by rw [(disassociate_frame s t).1]

/-- A new descriptor. -/
theorem alloc (h : Inv s) (ht : s.unused t = true) (hu : o.unit = none)
    (hmember : o.type ≠ .sched → o.pool = none) (hrange : InRange s.numPools o) :
    Inv (s.setThread t o) := by
  obtain ⟨hdead, hnone⟩ := h.unused ht
  refine h.setBare (fun hl => ?_) (fun _ => hu) (fun p _ hty hp => ?_) (fun _ => .inr hnone)
    fun _ => hrange
  · simp [hdead] at hl
  · simp [hmember hty] at hp

theorem poolCreate (h : Inv s) (user : Bool) : Inv { s with
    user := Function.update s.user s.numPools user
    numPools := s.numPools + 1
    numUserPools := if user then s.numUserPools + 1 else s.numUserPools } := by
  have hold : ∀ p, p < s.numPools → Function.update s.user s.numPools user p = s.user p :=
    fun p hp => Function.update_of_ne (by omega) ..
  refine ⟨h.ledger, h.pool, fun t p u ht => ?_, fun t p hl hty hp hus => ?_, h.apart,
    fun t hl p hp => Nat.lt_succ_of_lt (h.range t hl p hp), fun p hus => ?_⟩
  · exact (hold p (h.range t ht.1 p (.inl ht.2.1))).trans (h.user t p u ht)
  · exact h.member t p hl hty hp ((hold p (h.range t hl p (.inl hp))).symm.trans hus)
  · dsimp only at hus ⊢
    by_cases hp : p = s.numPools
    · subst hp
      rw [Function.update_self] at hus
      simp [hus]
    · rw [Function.update_of_ne hp] at hus
      have hp := h.pools p hus
      split <;> omega

end Inv

/-- A runner that returns is not associated with a user pool. -/
def RunnerFree (s : State) : Act → Prop
  | .runnerEnd t => (s.thread t).unit = none
  | _ => True

instance (s : State) (a : Act) : Decidable (RunnerFree s a) :=
  match a with
  | .runnerEnd t => inferInstanceAs (Decidable ((s.thread t).unit = none))
  | .poolCreate _ | .create _ _ _ _ | .wrapRunner _ _ | .poolPush _ _ _ | .setAssociatedPool _ _ _
  | .migrateToPool _ _ | .awaken _ _ | .setMainSched _ _ _ _ | .exit _ | .threadFree _
  | .finalize => isTrue trivial

theorem step_inv {s s' : State} {a : Act} (h : Inv s) (hg : RunnerFree s a)
    (hs : step s a = some s') : Inv s' := by
  cases a with
  | poolCreate user => cases hs; exact h.poolCreate user
  | create t p detached u =>
    simp only [step] at hs
    split at hs
    · rename_i hc
      refine (h.alloc hc.1 rfl (fun _ => rfl) fun q hq => by simp at hq).associate ?_ hc.2 hs
      simp [State.setThread]
    · cases hs
  | wrapRunner t pool =>
    simp only [step] at hs
    split at hs
    · rename_i hc
      cases hs
      refine h.alloc hc.1 rfl (fun hty => absurd rfl hty) fun p hp => hc.2 p ?_
      simpa using hp
    · cases hs
  | poolPush p x u =>
    simp only [step] at hs
    split at hs
    · rename_i hc
      exact h.associate hc.1 hc.2 hs
    · cases hs
  | setAssociatedPool t p u =>
    simp only [step] at hs
    split at hs
    · rename_i hc
      exact h.associate hc.1 hc.2 hs
    · cases hs
  | migrateToPool t p =>
    simp only [step] at hs
    split at hs
    · rename_i hc
      cases hs
      refine h.setKept rfl rfl rfl rfl fun _ q hq => ?_
      obtain hq | hq := hq
      · exact h.range t hc.1 q (.inl hq)
      · cases hq; exact hc.2
    · cases hs
  | awaken t u =>
    simp only [step] at hs
    split at hs
    · rename_i hc
      split at hs
      · rename_i p hp
        have hrange := h.range t hc.1
        have h₁ : Inv (s.setThread t { s.thread t with migrateTo := none }) :=
          h.setKept rfl rfl rfl rfl fun _ q hq => hrange q (.inl (by simpa using hq))
        refine h₁.associate ?_ (hrange p (.inr hp)) hs
        simpa [State.setThread] using hc.1
      · cases hs; exact h
    · cases hs
  | setMainSched t old new u =>
    simp only [step] at hs
    split at hs
    · rename_i hc
      split at hs
      · split at hs
        · exact h.associate hc.1 (hc.2 _ (by simp)) hs
        · cases hs; exact h
      · cases hs; exact h
    · cases hs
  | exit t | threadFree t =>
    simp only [step] at hs
    split at hs
    · rename_i hc
      cases hs
      exact h.destroy hc.1
    · cases hs
  | runnerEnd t =>
    simp only [step] at hs
    split at hs
    · cases hs
      exact h.release fun _ => hg
    · cases hs
  | finalize =>
    simp only [step] at hs
    split at hs
    · rename_i hc
      cases hs
      exact h.destroy hc.1
    · cases hs

theorem reach_inv {s : State} (h : Reach system RunnerFree s) : Inv s := by
  refine Reach.invariant (I := Inv) ?_ (fun s a s' _ hi hg hs => step_inv hi hg hs) h
  rintro s rfl
  have hunit : ∀ t, (initial.thread t).unit = none := by
    intro t
    by_cases ht : t = 1
    · subst ht; rfl
    · simp [initial, ht]
  have hno : ∀ t p u, ¬ Has initial t p u := by
    rintro t p u ⟨-, -, hu⟩
    simp [hunit t] at hu
  refine ⟨⟨fun u t => ?_, fun ht => absurd ht (hno _ _ _), fun p u => .inr ⟨?_, rfl⟩⟩,
    fun t u _ hu => ?_, fun t p u ht => absurd ht (hno t p u), fun t p _ _ _ hus => ?_,
    fun t p u ht => absurd ht (hno t p u), fun t hl p hp => ?_, fun p hus => ?_⟩
  · exact ⟨fun hm => by simp [initial] at hm, fun ⟨p, hp⟩ => absurd hp (hno t p u)⟩
  · rintro ⟨t, ht⟩
    exact hno t p u ht
  · simp [hunit t] at hu
  · simp [initial] at hus
  · by_cases ht : t = 1
    · subst ht
      simp [initial] at hp
      subst hp
      decide
    · simp [initial, ht] at hl
  · simp [initial] at hus

/-- A unit leads to the thread that has it. -/
theorem anyUnitToThread_unit {s : State} {t p u : Nat} (h : Inv s) (ht : Has s t p u) :
    s.anyUnitToThread u = t := by
  have hpos := (h.pools p (h.user t p u ht)).2
  have hlisted := (h.ledger.listed u t).mpr ⟨p, ht⟩
  simp [State.anyUnitToThread, State.unitToThread, hlisted, Nat.pos_iff_ne_zero.mp hpos]

/-- The address of a descriptor leads to itself. -/
theorem anyUnitToThread_self {s : State} {t : Nat} (h : Inv s) (ht : (s.thread t).live = true) :
    s.anyUnitToThread t = t := by
  have hnone : s.units t = none := by
    rw [Option.eq_none_iff_forall_not_mem]
    intro v hv
    obtain ⟨p, hp⟩ := (h.ledger.listed t v).mp hv
    simp [h.apart v p t hp] at ht
  simp [State.anyUnitToThread, State.unitToThread, hnone]

theorem getUnit_leads_back {s : State} {t : Nat} (h : Inv s) (ht : (s.thread t).live = true)
    (hty : (s.thread t).type ≠ .sched) :
    ∃ x, s.getUnit t = some x ∧ s.anyUnitToThread x = t := by
  have hself := anyUnitToThread_self h ht
  unfold State.getUnit
  cases hp : (s.thread t).pool with
  | none => exact ⟨t, rfl, hself⟩
  | some p =>
    by_cases hus : s.user p = true
    · obtain ⟨u, hu⟩ := Option.ne_none_iff_exists'.mp (h.member t p ht hty hp hus)
      exact ⟨u, by simp [hus, hu], anyUnitToThread_unit h ⟨ht, hp, hu⟩⟩
    · exact ⟨t, by simp [hus], hself⟩

/-- The map holds the units of the live threads and no others, every pool has got back each unit it
made as often as it made it but for those in use, and the unit that a thread reports leads to it. -/
theorem unit_map {s : State} (h : Reach system RunnerFree s) :
    (∀ u t, s.units u = some t ↔ (s.thread t).live = true ∧ (s.thread t).unit = some u ∧
      ∃ p, (s.thread t).pool = some p ∧ s.user p = true) ∧
    (∀ p u, (∃ t, Has s t p u) ∧ s.created p u = s.freed p u + 1 ∨
      (¬ ∃ t, Has s t p u) ∧ s.created p u = s.freed p u) ∧
    ∀ t, (s.thread t).live = true → (s.thread t).type ≠ .sched →
      ∃ x, s.getUnit t = some x ∧ s.anyUnitToThread x = t := by
  have hi := reach_inv h
  refine ⟨fun u t => (hi.ledger.listed u t).trans ⟨?_, ?_⟩, hi.ledger.balance,
    fun t ht hty => getUnit_leads_back hi ht hty⟩
  · rintro ⟨p, hp⟩
    exact ⟨hp.1, hp.2.2, p, hp.2.1, hi.user t p u hp⟩
  · rintro ⟨hl, hu, p, hp, -⟩
    exact ⟨p, hl, hp, hu⟩

/-- Thread 10 gets unit 20 of pool 1 and is freed; thread 20 then has that address, and its own unit
there is at 10. -/
def recycling : List Act :=
  [.poolCreate true, .create 10 1 false 20, .threadFree 10, .create 20 1 false 10]

theorem unit_map_recycled :
    ∃ s : State, (s.units 10 = some 20 ∧ s.units 20 = none ∧ s.created 1 20 = 1 ∧
      s.freed 1 20 = 1 ∧ (s.thread 20).live = true ∧ (s.thread 20).type = .named) ∧
      ∃ x, s.getUnit 20 = some x ∧ s.anyUnitToThread x = 20 := by
  obtain ⟨s, hr, hs⟩ := (Reach.start (M := system) (G := RunnerFree) rfl).exists_run
    (fun s => s.units 10 = some 20 ∧ s.units 20 = none ∧ s.created 1 20 = 1 ∧
      s.freed 1 20 = 1 ∧ (s.thread 20).live = true ∧ (s.thread 20).type = .named) recycling
    (by decide)
  exact ⟨s, hs, (unit_map hr).2.2 20 hs.2.2.2.2.1 (by rw [hs.2.2.2.2.2]; decide)⟩

/-- The runner 10 of a scheduler over pool 0 replaces it by one over the user pool 1, and so gets
unit 20 there; it returns, and the unit stays in the map. -/
theorem runner_keeps_unit :
    ∃ s : State, Reach system Free s ∧ s.units 20 = some 10 ∧
      (s.thread 10).live = false ∧ s.created 1 20 = 1 ∧ s.freed 1 20 = 0 :=
  (Reach.start (M := system) (G := Free) rfl).exists_run
    (fun s => s.units 20 = some 10 ∧ (s.thread 10).live = false ∧ s.created 1 20 = 1 ∧
      s.freed 1 20 = 0)
    [.poolCreate true, .wrapRunner 10 (some 0), .setMainSched 10 [0] [1] 20, .runnerEnd 10]
    (by decide)

end UnitMap
end AbtReconverse
