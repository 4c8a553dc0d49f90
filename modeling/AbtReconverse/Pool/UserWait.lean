import AbtReconverse.Lib.Lts
import AbtReconverse.Lib.Owner
import AbtReconverse.Lib.Queue
import AbtReconverse.Lib.Tokens

/-!
# AbtReconverse.Pool.UserWait

`pop_timedwait` on a user-defined pool that brings no `p_pop_timedwait` of its own. The pool is a
parameter, a `Queue`: `p_push` and `p_pop` are atomic, nothing is lost or invented, and `p_pop`
returns `ABT_UNIT_NULL` only when the pool is empty. `pinned c t`: for the PE of consumer `c`, unit
`t` is the primary ULT of another PE, which `pop` puts back.

A producer goes on after `p_push` to the first half of `wake_after_push`, the load of `waiters` and the
notification under `wm`; the second half concerns parked PEs and nothing here. A caller of
`pop_timedwait` pops, adds itself to `waiters` under `wm` and waits on `cv`. On a built-in pool it
would look at `count` in between. Here nothing tells it of a push that came after its pop and found
`waiters` at 0.

The invariant is the one of `Pool.Wakeup`: while somebody sleeps, the units in the pool are covered by
producers on their way to notify and by callers that have left the wait and will pop again.
-/

namespace AbtReconverse
namespace UserWait

open Lts

/-- Where a producer is in `push`. -/
inductive ProdPc where
  | idle
  | store (t : Nat)
  | loadWaiters
  | lockWm
  | notify
  | unlockWm
  deriving DecidableEq, Repr

/-- Which pop it is: a plain one, or one of the two of `pop_timedwait`. -/
inductive Which where
  | plain
  | first
  | second
  deriving DecidableEq, Repr

/-- Where a consumer is. The pop puts a unit that is pinned elsewhere back and tries once more. -/
inductive ConsPc where
  | out
  | pop (k : Which)
  | putBack (k : Which) (t : Nat)
  | popNext (k : Which)
  | putBackNext (k : Which) (t : Nat)
  | lock
  | incr
  | sleep
  | asleep
  | woken
  | decr
  | unlock
  deriving DecidableEq, Repr

structure State (Q : Type) where
  pool : Q
  producer : Nat → ProdPc
  consumer : Nat → ConsPc
  waiters : Int
  /-- Who has `wm`, a producer or a consumer. -/
  wm : Option (Nat ⊕ Nat)
  /-- The callers asleep on `cv`. -/
  cv : List Nat

inductive Act where
  | push (g t : Nat)
  /-- The next step of a producer; `c` is the sleeper that `notify_one` wakes, if it finds one. -/
  | producer (g : Nat) (c : Option Nat)
  | pop (c : Nat)
  | popTimedwait (c : Nat)
  /-- The next step of a consumer; `b`: its deadline has passed. -/
  | consumer (c : Nat) (b : Bool)
  /-- A caller asleep in `wait_for` wakes without a notification. -/
  | wake (c : Nat)
  deriving DecidableEq, Repr

/-- The consumer whose next step it is. -/
def Act.moved : Act → Option Nat
  | .consumer c _ => some c
  | _ => none

variable {Q : Type}

def initial (U : Queue Q Nat) : State Q where
  pool := U.empty
  producer := fun _ => .idle
  consumer := fun _ => .out
  waiters := 0
  wm := none
  cv := []

namespace State

def setProducer (s : State Q) (g : Nat) (pc : ProdPc) : State Q :=
  { s with producer := Function.update s.producer g pc }

def setConsumer (s : State Q) (c : Nat) (pc : ConsPc) : State Q :=
  { s with consumer := Function.update s.consumer c pc }

/-- Caller `c` leaves `cv`. -/
def rouse (s : State Q) (c : Nat) : State Q := { s with cv := s.cv.erase c }.setConsumer c .woken

end State

/-- Where a consumer goes when its pop returns null. -/
def Which.null : Which → Bool → ConsPc
  | .first, late => if late then .out else .lock
  | _, _ => .out

def producerStep (U : Queue Q Nat) (s : State Q) (g : Nat) (c : Option Nat) : Option (State Q) :=
  match s.producer g with
  | .idle => none
  | .store t => some ({ s with pool := U.push s.pool t }.setProducer g .loadWaiters)
  | .loadWaiters => some (s.setProducer g (if 0 < s.waiters then .lockWm else .idle))
  | .lockWm => if s.wm = none then some ({ s with wm := some (.inl g) }.setProducer g .notify) else none
  | .notify =>
    match c with
    | some c => if c ∈ s.cv then some ((s.rouse c).setProducer g .unlockWm) else none
    | none => if s.cv = [] then some (s.setProducer g .unlockWm) else none
  | .unlockWm => some ({ s with wm := none }.setProducer g .idle)

def consumerStep (U : Queue Q Nat) (pinned : Nat → Nat → Bool) (s : State Q) (c : Nat) (b : Bool) :
    Option (State Q) :=
  match s.consumer c with
  | .out | .asleep => none
  | .pop k =>
    match U.pop s.pool with
    | none => some (s.setConsumer c (k.null b))
    | some (t, q) =>
      some ({ s with pool := q }.setConsumer c (if pinned c t then .putBack k t else .out))
  | .putBack k t => some ({ s with pool := U.push s.pool t }.setConsumer c (.popNext k))
  | .popNext k =>
    match U.pop s.pool with
    | none => some (s.setConsumer c (k.null b))
    | some (t, q) =>
      some ({ s with pool := q }.setConsumer c (if pinned c t then .putBackNext k t else .out))
  | .putBackNext k t => some ({ s with pool := U.push s.pool t }.setConsumer c (k.null b))
  | .lock => if s.wm = none then some ({ s with wm := some (.inr c) }.setConsumer c .incr) else none
  | .incr => some ({ s with waiters := s.waiters + 1 }.setConsumer c .sleep)
  | .sleep => some ({ s with wm := none, cv := c :: s.cv }.setConsumer c .asleep)
  | .woken => if s.wm = none then some ({ s with wm := some (.inr c) }.setConsumer c .decr) else none
  | .decr => some ({ s with waiters := s.waiters - 1 }.setConsumer c .unlock)
  | .unlock => some ({ s with wm := none }.setConsumer c (.pop .second))

def step (U : Queue Q Nat) (pinned : Nat → Nat → Bool) (s : State Q) : Act → Option (State Q)
  | .push g t => if s.producer g = .idle then some (s.setProducer g (.store t)) else none
  | .producer g c => producerStep U s g c
  | .pop c => if s.consumer c = .out then some (s.setConsumer c (.pop .plain)) else none
  | .popTimedwait c => if s.consumer c = .out then some (s.setConsumer c (.pop .first)) else none
  | .consumer c b => consumerStep U pinned s c b
  | .wake c => if c ∈ s.cv then some (s.rouse c) else none

def system (U : Queue Q Nat) (pinned : Nat → Nat → Bool) : System (State Q) Act where
  init s := s = initial U
  step := step U pinned

/-! ### The invariant -/

namespace ProdPc

/-- Has stored its unit and is still to notify a caller. -/
def tok : ProdPc → Bool
  | .loadWaiters | .lockWm | .notify => true
  | _ => false

def holds : ProdPc → Bool
  | .notify | .unlockWm => true
  | _ => false

end ProdPc

namespace ConsPc

def holds : ConsPc → Bool
  | .incr | .sleep | .decr | .unlock => true
  | _ => false

/-- Counted in `waiters`. -/
def waits : ConsPc → Bool
  | .sleep | .asleep | .woken | .decr => true
  | _ => false

/-- Asleep, or about to. -/
def sleeps : ConsPc → Bool
  | .sleep | .asleep => true
  | _ => false

theorem sleeps_iff {pc : ConsPc} : pc.sleeps = true ↔ pc = .sleep ∨ pc = .asleep := by
  cases pc <;> simp [sleeps]

/-- Has left the wait and will pop again. -/
def awake : ConsPc → Bool
  | .woken | .decr | .unlock | .pop .second => true
  | _ => false

/-- Has a unit that it puts back, or has done so. -/
def puts : ConsPc → Bool
  | .putBack .. | .popNext _ | .putBackNext .. => true
  | _ => false

end ConsPc

/-- No pop meets a unit that is pinned elsewhere, and when a caller adds itself to `waiters` the pool
holds at most as many units as there are pushes that have yet to load `waiters` and callers that have
left the wait and have yet to pop. -/
structure Careful (U : Queue Q Nat) (pinned : Nat → Nat → Bool) (s : State Q) (a : Act) : Prop where
  takes : ∀ c ∈ a.moved, ∀ k t q, s.consumer c = .pop k → U.pop s.pool = some (t, q) →
    pinned c t = false
  joins : ∀ c ∈ a.moved, s.consumer c = .incr → ∀ n m,
    Counts n (fun g => s.producer g = .loadWaiters) →
    Counts m (fun c => (s.consumer c).awake = true) → ((U.units s.pool).length : Int) ≤ n + m

structure Inv (U : Queue Q Nat) (s : State Q) : Prop where
  locks : Owned ProdPc.holds ConsPc.holds s.producer s.consumer s.wm
  mem : ∀ c, c ∈ s.cv ↔ s.consumer c = .asleep
  nodup : s.cv.Nodup
  waiters : Counts s.waiters fun c => (s.consumer c).waits = true
  kept : ∀ c, (s.consumer c).puts = false
  covered : Covered false ((U.units s.pool).length : Int) False
    (fun g => (s.producer g).tok = true) (fun c => (s.consumer c).awake = true) (fun _ => False)
    fun c => (s.consumer c).sleeps = true

theorem initial_inv (U : Queue Q Nat) : Inv U (initial U) := by
  have hzero : Covered false ((U.units U.empty).length : Int) False
      (fun _ : Nat => ProdPc.idle.tok = true) (fun _ : Nat => ConsPc.out.awake = true)
      (fun _ => False) fun _ => ConsPc.out.sleeps = true := by
    refine ⟨by simp, 0, 0, 0, .zero (by simp [ProdPc.tok]), .zero (by simp [ConsPc.awake]),
      .zero (by simp), ?_, by simp⟩
    rintro ⟨c, hc⟩
    cases hc
  refine ⟨⟨?_, ?_⟩, by simp [initial], by simp [initial], .zero ?_, by simp [initial, ConsPc.puts],
    hzero⟩
  · intro g hg
    cases hg
  · intro c hc
    cases hc
  · intro c hc
    cases hc

section

variable {U : Queue Q Nat} {pinned : Nat → Nat → Bool} {s s' : State Q} {c g : Nat} {pc : ConsPc}
  {qc : ProdPc}

/-- A consumer moves; the counter and the list follow its flags. -/
theorem Inv.consumer (h : Inv U s) (hk : s'.consumer = Function.update s.consumer c pc)
    (hl : Owned ProdPc.holds ConsPc.holds s'.producer (Function.update s.consumer c pc) s'.wm)
    (hw : s'.waiters = s.waiters + pc.waits.toInt - (s.consumer c).waits.toInt)
    (hmem : ∀ x, x ∈ s'.cv ↔ x = c ∧ pc = .asleep ∨ x ≠ c ∧ x ∈ s.cv) (hnd : s'.cv.Nodup)
    (hputs : pc.puts = false)
    (hcov : Covered false ((U.units s'.pool).length : Int) False
      (fun g => (s'.producer g).tok = true)
      (fun x => (Function.update s.consumer c pc x).awake = true) (fun _ => False)
      fun x => (Function.update s.consumer c pc x).sleeps = true) : Inv U s' := by
  refine ⟨?_, fun x => ?_, hnd, ?_, fun x => ?_, ?_⟩
  · rw [hk]
    exact hl
  · rw [hmem, hk]
    by_cases hx : x = c
    · subst hx
      simp
    · simp [hx, h.mem x]
  · rw [hk, hw]
    exact h.waiters.update (f := ConsPc.waits) c pc
  · rw [hk]
    by_cases hx : x = c
    · subst hx
      simpa using hputs
    · rw [Function.update_of_ne hx]
      exact h.kept x
  · rw [hk]
    exact hcov

/-- A consumer moves that neither was on `cv` nor is now. -/
theorem Inv.plain (h : Inv U s) {old : ConsPc} (hpc : s.consumer c = old)
    (hk : s'.consumer = Function.update s.consumer c pc)
    (hl : Owned ProdPc.holds ConsPc.holds s'.producer (Function.update s.consumer c pc) s'.wm)
    (hw : s'.waiters = s.waiters + pc.waits.toInt - old.waits.toInt) (hcv : s'.cv = s.cv)
    (hold : old ≠ .asleep) (hne : pc ≠ .asleep) (hputs : pc.puts = false)
    (hcov : Covered false ((U.units s'.pool).length : Int) False
      (fun g => (s'.producer g).tok = true)
      (fun x => (Function.update s.consumer c pc x).awake = true) (fun _ => False)
      fun x => (Function.update s.consumer c pc x).sleeps = true) : Inv U s' := by
  subst hpc
  refine h.consumer hk hl hw (fun x => ?_) ?_ hputs hcov
  · rw [hcv]
    by_cases hx : x = c
    · subst hx
      simp [hne, h.mem x, hold]
    · simp [hx]
  · rw [hcv]
    exact h.nodup

/-- A consumer that stays awake or stays asleep leaves the units covered. -/
theorem Inv.covered_keep (h : Inv U s) {old : ConsPc} (hpc : s.consumer c = old)
    (ha : pc.awake = old.awake) (hs : pc.sleeps = old.sleeps) :
    Covered false ((U.units s.pool).length : Int) False (fun g => (s.producer g).tok = true)
      (fun x => (Function.update s.consumer c pc x).awake = true) (fun _ => False)
      fun x => (Function.update s.consumer c pc x).sleeps = true := by
  subst hpc
  exact h.covered.congr id (fun _ => Iff.rfl) (flag_kept ha) (fun _ => Iff.rfl) (flag_kept hs)

/-- The caller `c` of `cv` is woken. -/
theorem mem_rouse (h : Inv U s) (x : Nat) :
    x ∈ s.cv.erase c ↔ x = c ∧ ConsPc.woken = .asleep ∨ x ≠ c ∧ x ∈ s.cv := by
  rw [h.nodup.mem_erase_iff]
  simp

/-- A producer moves; the consumers stay. -/
theorem Inv.producer (h : Inv U s)
    (hp : s'.producer = Function.update s.producer g qc ∧ s'.consumer = s.consumer)
    (hsame : s'.waiters = s.waiters ∧ s'.cv = s.cv)
    (hl : Owned ProdPc.holds ConsPc.holds (Function.update s.producer g qc) s.consumer s'.wm)
    (hcov : Covered false ((U.units s'.pool).length : Int) False
      (fun x => (Function.update s.producer g qc x).tok = true)
      (fun x => (s.consumer x).awake = true) (fun _ => False)
      fun x => (s.consumer x).sleeps = true) : Inv U s' := by
  obtain ⟨hp, hk⟩ := hp
  obtain ⟨hw, hcv⟩ := hsame
  refine ⟨?_, ?_, ?_, ?_, ?_, ?_⟩
  · rw [hp, hk]
    exact hl
  · rw [hcv, hk]
    exact h.mem
  · rw [hcv]
    exact h.nodup
  · rw [hw, hk]
    exact h.waiters
  · rw [hk]
    exact h.kept
  · rw [hp, hk]
    exact hcov

/-- Whoever sleeps is counted. -/
theorem Inv.sleeps_pos (h : Inv U s) (hc : (s.consumer c).sleeps = true) : 0 < s.waiters := by
  refine h.waiters.pos (a := c) ?_
  obtain hk | hk := ConsPc.sleeps_iff.mp hc
  · rw [hk]
    rfl
  · rw [hk]
    rfl

/-- Seen by the owner of `wm`, whoever sleeps is on `cv`. -/
theorem Inv.sleeps_mem (h : Inv U s) (hg : (s.producer g).holds = true)
    (hc : (s.consumer c).sleeps = true) : c ∈ s.cv := by
  obtain hk | hk := ConsPc.sleeps_iff.mp hc
  · exact (h.locks.apart hg (b := c) (by rw [hk]; rfl)).elim
  · exact (h.mem c).mpr hk

/-- A producer is done with its token: nobody sleeps. -/
theorem Inv.spends (h : Inv U s) (hs : ∀ c, (s.consumer c).sleeps ≠ true) (hq : qc.tok = false) :
    Covered false ((U.units s.pool).length : Int) False
      (fun x => (Function.update s.producer g qc x).tok = true)
      (fun x => (s.consumer x).awake = true) (fun _ => False)
      fun x => (s.consumer x).sleeps = true := by
  refine h.covered.spend hs fun x hx => ?_
  obtain ⟨-, hx⟩ | ⟨-, hx⟩ := (flag_update (f := ProdPc.tok) x).mp hx
  · rw [hq] at hx
    cases hx
  · exact hx

theorem producerStep_inv {o : Option Nat} (h : Inv U s) (hs : producerStep U s g o = some s') :
    Inv U s' := by
  simp only [producerStep] at hs
  generalize hg : s.producer g = pc at hs
  cases pc with
  | idle =>
    cases hs
  | store t =>
    cases hs
    refine h.producer ⟨rfl, rfl⟩ ⟨rfl, rfl⟩ (h.locks.keep_left (by rw [hg]; rfl)) ?_
    have hlen : ((U.units (U.push s.pool t)).length : Int) = (U.units s.pool).length + 1 := by
      rw [(U.push_perm s.pool t).length_eq]
      simp
    show Covered false ((U.units (U.push s.pool t)).length : Int) _ _ _ _ _
    rw [hlen]
    refine h.covered.reveal (g := g) (by simp [hg, ProdPc.tok]) fun x => ?_
    rw [flag_update (f := ProdPc.tok)]
    by_cases hx : x = g
    · simp [hx, ProdPc.tok]
    · simp [hx]
  | loadWaiters =>
    cases hs
    by_cases hw : 0 < s.waiters
    · rw [if_pos hw]
      exact h.producer ⟨rfl, rfl⟩ ⟨rfl, rfl⟩ (h.locks.keep_left (by rw [hg]; rfl))
        (h.covered.congr id (flag_kept (by rw [hg]; rfl)) (fun _ => Iff.rfl) (fun _ => Iff.rfl)
          fun _ => Iff.rfl)
    · rw [if_neg hw]
      refine h.producer ⟨rfl, rfl⟩ ⟨rfl, rfl⟩ (h.locks.keep_left (by rw [hg]; rfl)) ?_
      exact h.spends (fun c hc => hw (h.sleeps_pos hc)) rfl
  | lockWm =>
    simp only [Option.ite_none_right_eq_some] at hs
    obtain ⟨hwm, hs⟩ := hs
    cases hs
    have hl := h.locks
    rw [hwm] at hl
    exact h.producer ⟨rfl, rfl⟩ ⟨rfl, rfl⟩ hl.acquire_left
      (h.covered.congr id (flag_kept (by rw [hg]; rfl)) (fun _ => Iff.rfl) (fun _ => Iff.rfl)
        fun _ => Iff.rfl)
  | notify =>
    have hholds : (s.producer g).holds = true := by rw [hg]; rfl
    cases o with
    | none =>
      simp only [Option.ite_none_right_eq_some] at hs
      obtain ⟨hcv, hs⟩ := hs
      cases hs
      refine h.producer ⟨rfl, rfl⟩ ⟨rfl, rfl⟩ (h.locks.keep_left (by rw [hg]; rfl)) ?_
      refine h.spends (fun c hc => ?_) rfl
      have hm := h.sleeps_mem hholds hc
      rw [hcv] at hm
      cases hm
    | some c =>
      simp only [Option.ite_none_right_eq_some] at hs
      obtain ⟨hcv, hs⟩ := hs
      cases hs
      have hc := (h.mem c).mp hcv
      refine h.consumer (c := c) rfl ?_ ?_ (mem_rouse h) (h.nodup.erase c) rfl ?_
      · exact (h.locks.keep_right (by rw [hc]; rfl)).keep_left (by rw [hg]; rfl)
      · show s.waiters = s.waiters + 1 - (s.consumer c).waits.toInt
        rw [hc]
        simp [ConsPc.waits]
      · refine h.covered.notify (g := g) (c := c) (by rw [hg]; rfl) (by rw [hc]; rfl)
          (by rw [hc]; simp [ConsPc.awake]) (fun x => ?_) (fun x => ?_) (fun x => ?_) (by simp)
        · rw [State.setProducer, flag_update (f := ProdPc.tok)]
          by_cases hx : x = g <;> simp [hx, ProdPc.tok, State.rouse, State.setConsumer]
        · rw [flag_update (f := ConsPc.awake)]
          by_cases hx : x = c <;> simp [hx, ConsPc.awake]
        · rw [flag_update (f := ConsPc.sleeps)]
          by_cases hx : x = c <;> simp [hx, ConsPc.sleeps]
  | unlockWm =>
    cases hs
    exact h.producer ⟨rfl, rfl⟩ ⟨rfl, rfl⟩ (h.locks.release_left (by rw [hg]; rfl) rfl)
      (h.covered.congr id (flag_kept (by rw [hg]; rfl)) (fun _ => Iff.rfl) (fun _ => Iff.rfl)
        fun _ => Iff.rfl)

/-- A consumer that is not awake any more after it took a unit. -/
theorem Inv.takes (h : Inv U s) {t : Nat} {q : Q} (hq : U.pop s.pool = some (t, q))
    (ha : pc.awake = false) (hs : pc.sleeps = (s.consumer c).sleeps) :
    Covered false ((U.units q).length : Int) False (fun g => (s.producer g).tok = true)
      (fun x => (Function.update s.consumer c pc x).awake = true) (fun _ => False)
      fun x => (Function.update s.consumer c pc x).sleeps = true := by
  have hlen : ((U.units q).length : Int) = (U.units s.pool).length - 1 := by
    have := (U.pop_perm s.pool t q hq).length_eq
    rw [List.length_cons] at this
    omega
  rw [hlen]
  refine (h.covered.remove (c := c) (by simp) fun x => ?_).congr id (fun _ => Iff.rfl)
    (fun _ => Iff.rfl) (fun _ => Iff.rfl) (flag_kept hs)
  rw [flag_update (f := ConsPc.awake)]
  simp [ha]

/-- A pop that finds the pool empty. -/
theorem Inv.misses (h : Inv U s) (hq : U.pop s.pool = none) (ha : pc.awake = false)
    (hs : pc.sleeps = (s.consumer c).sleeps) :
    Covered false ((U.units s.pool).length : Int) False (fun g => (s.producer g).tok = true)
      (fun x => (Function.update s.consumer c pc x).awake = true) (fun _ => False)
      fun x => (Function.update s.consumer c pc x).sleeps = true := by
  have hnil : U.units s.pool = [] := (U.pop_none s.pool).mp hq
  have hnone : ∃ d, Counts d (fun _ : Nat => False) ∧ ((U.units s.pool).length : Int) ≤ d :=
    ⟨0, .zero (by simp), by simp [hnil]⟩
  refine (h.covered.miss (c := c) (by simp) (fun x => ?_) (.inr hnone)).congr id
    (fun _ => Iff.rfl) (fun _ => Iff.rfl) (fun _ => Iff.rfl) (flag_kept hs)
  rw [flag_update (f := ConsPc.awake)]
  simp [ha]

/-- A caller adds itself to `waiters`. -/
theorem Inv.joins (h : Inv U s) (hc : s.consumer c = .incr)
    (hle : ∀ n m, Counts n (fun g => s.producer g = .loadWaiters) →
      Counts m (fun c => (s.consumer c).awake = true) → ((U.units s.pool).length : Int) ≤ n + m) :
    Covered false ((U.units s.pool).length : Int) False (fun g => (s.producer g).tok = true)
      (fun x => (Function.update s.consumer c .sleep x).awake = true) (fun _ => False)
      fun x => (Function.update s.consumer c .sleep x).sleeps = true := by
  refine (h.covered.join fun t k ct ck => ?_).congr id (fun _ => Iff.rfl)
    (flag_kept (by rw [hc]; rfl)) (fun _ => Iff.rfl) (fun _ => Iff.rfl)
  obtain ⟨n, hn, cn⟩ := ct.subset (Q := fun g => s.producer g = .loadWaiters) fun g hg => by
    rw [hg]
    rfl
  have := hle n k cn ck
  omega

theorem null_flags (k : Which) (b : Bool) :
    (k.null b).awake = false ∧ (k.null b).sleeps = false ∧ (k.null b).waits = false ∧
      (k.null b).holds = false ∧ (k.null b).puts = false ∧ k.null b ≠ .asleep := by
  cases k <;> cases b <;> decide

theorem consumerStep_inv {b : Bool} (h : Inv U s) (hcare : Careful U pinned s (.consumer c b))
    (hs : consumerStep U pinned s c b = some s') : Inv U s' := by
  simp only [consumerStep] at hs
  generalize hc : s.consumer c = pc at hs
  cases pc with
  | out =>
    cases hs
  | asleep =>
    cases hs
  | pop k =>
    have hsl : (s.consumer c).sleeps = false := by rw [hc]; rfl
    cases hq : U.pop s.pool with
    | none =>
      rw [hq] at hs
      cases hs
      obtain ⟨ha, hsleep, hw, hh, hputs, hne⟩ := null_flags k b
      refine h.plain hc rfl (h.locks.keep_right ?_) ?_ rfl (by simp) hne hputs
        (h.misses hq ha (hsleep.trans hsl.symm))
      · rw [hh, hc]
        rfl
      · rw [hw]
        simp [State.setConsumer, ConsPc.waits]
    | some r =>
      obtain ⟨t, q⟩ := r
      have hp := hcare.takes c rfl k t q hc hq
      rw [hq] at hs
      simp only [hp] at hs
      cases hs
      refine h.plain hc rfl (h.locks.keep_right ?_) ?_ rfl (by simp) (by simp) rfl
        (h.takes hq rfl hsl.symm)
      · rw [hc]
        rfl
      · simp [State.setConsumer, ConsPc.waits]
  | putBack k t => simpa [hc, ConsPc.puts] using h.kept c
  | popNext k => simpa [hc, ConsPc.puts] using h.kept c
  | putBackNext k t => simpa [hc, ConsPc.puts] using h.kept c
  | lock =>
    simp only [Option.ite_none_right_eq_some] at hs
    obtain ⟨hwm, hs⟩ := hs
    cases hs
    have hl := h.locks
    rw [hwm] at hl
    exact h.plain hc rfl hl.acquire_right (by simp [State.setConsumer, ConsPc.waits]) rfl (by simp)
      (by simp) rfl (h.covered_keep hc rfl rfl)
  | incr =>
    cases hs
    exact h.plain hc rfl (h.locks.keep_right (by rw [hc]; rfl))
      (by simp [State.setConsumer, ConsPc.waits]) rfl (by simp) (by simp) rfl
      (h.joins hc (hcare.joins c rfl hc))
  | sleep =>
    cases hs
    have hout : c ∉ s.cv := by
      rw [h.mem, hc]
      simp
    refine h.consumer (c := c) rfl (h.locks.release_right (by rw [hc]; rfl) rfl) ?_
      (fun x => ?_) (List.nodup_cons.mpr ⟨hout, h.nodup⟩) rfl (h.covered_keep hc rfl rfl)
    · rw [hc]
      simp [State.setConsumer, ConsPc.waits]
    · simp only [State.setConsumer, List.mem_cons, and_true]
      by_cases hx : x = c <;> simp [hx]
  | woken =>
    simp only [Option.ite_none_right_eq_some] at hs
    obtain ⟨hwm, hs⟩ := hs
    cases hs
    have hl := h.locks
    rw [hwm] at hl
    exact h.plain hc rfl hl.acquire_right (by simp [State.setConsumer, ConsPc.waits]) rfl (by simp)
      (by simp) rfl (h.covered_keep hc rfl rfl)
  | decr =>
    cases hs
    exact h.plain hc rfl (h.locks.keep_right (by rw [hc]; rfl))
      (by simp [State.setConsumer, ConsPc.waits]) rfl (by simp) (by simp) rfl
      (h.covered_keep hc rfl rfl)
  | unlock =>
    cases hs
    exact h.plain hc rfl (h.locks.release_right (by rw [hc]; rfl) rfl)
      (by simp [State.setConsumer, ConsPc.waits]) rfl (by simp) (by simp) rfl
      (h.covered_keep hc rfl rfl)

/-- A caller begins a pop. -/
theorem Inv.begins (h : Inv U s) {k : Which} (hc : s.consumer c = .out) (hk : k ≠ .second) :
    Inv U (s.setConsumer c (.pop k)) := by
  have ha : (ConsPc.pop k).awake = ConsPc.out.awake := by
    cases k with
    | plain => rfl
    | first => rfl
    | second => exact absurd rfl hk
  exact h.plain hc rfl (h.locks.keep_right (by rw [hc]; rfl))
    (by simp [State.setConsumer, ConsPc.waits]) rfl (by simp) (by simp) rfl (h.covered_keep hc ha rfl)

theorem step_inv {a : Act} (h : Inv U s) (hcare : Careful U pinned s a)
    (hs : step U pinned s a = some s') : Inv U s' := by
  cases a with
  | push g t =>
    simp only [step, Option.ite_none_right_eq_some] at hs
    obtain ⟨hg, hs⟩ := hs
    cases hs
    exact h.producer ⟨rfl, rfl⟩ ⟨rfl, rfl⟩ (h.locks.keep_left (by rw [hg]; rfl))
      (h.covered.congr id (flag_kept (by rw [hg]; rfl)) (fun _ => Iff.rfl) (fun _ => Iff.rfl)
        fun _ => Iff.rfl)
  | producer g o => exact producerStep_inv h hs
  | pop c =>
    simp only [step, Option.ite_none_right_eq_some] at hs
    obtain ⟨hc, hs⟩ := hs
    cases hs
    exact h.begins hc (by simp)
  | popTimedwait c =>
    simp only [step, Option.ite_none_right_eq_some] at hs
    obtain ⟨hc, hs⟩ := hs
    cases hs
    exact h.begins hc (by simp)
  | consumer c b => exact consumerStep_inv h hcare hs
  | wake c =>
    simp only [step, Option.ite_none_right_eq_some] at hs
    obtain ⟨hcv, hs⟩ := hs
    cases hs
    have hc := (h.mem c).mp hcv
    refine h.consumer (c := c) rfl (h.locks.keep_right (by rw [hc]; rfl)) ?_
      (mem_rouse h) (h.nodup.erase c) rfl ?_
    · rw [hc]
      simp [State.rouse, State.setConsumer, ConsPc.waits]
    · refine h.covered.wake (c := c) (fun x => ?_) fun x hx => ?_
      · rw [flag_update (f := ConsPc.awake)]
        by_cases hx : x = c <;> simp [hx, ConsPc.awake]
      · obtain ⟨-, hx⟩ | ⟨-, hx⟩ := (flag_update (f := ConsPc.sleeps) x).mp hx
        · cases hx
        · exact hx

theorem reach_inv (h : Reach (system U pinned) (Careful U pinned) s) : Inv U s := by
  refine h.invariant (I := Inv U) ?_ fun _ _ _ _ hi hg hs => step_inv hi hg hs
  intro s hs
  cases hs
  exact initial_inv U

/-- While a caller is asleep, the pool holds at most as many units as there are pushes that are still
to notify and callers that have left the wait and will pop again; so a unit in the pool means that one
of them is there. -/
theorem user_wait_covered (h : Reach (system U pinned) (Careful U pinned) s)
    (hc : s.consumer c = .asleep) :
    (∃ n m, Counts n (fun g => (s.producer g).tok = true) ∧
      Counts m (fun c => (s.consumer c).awake = true) ∧ ((U.units s.pool).length : Int) ≤ n + m) ∧
    (U.units s.pool ≠ [] →
      (∃ g, (s.producer g).tok = true) ∨ ∃ c', (s.consumer c').awake = true) := by
  obtain ⟨-, n, m, -, cn, cm, -, hle, -⟩ := (reach_inv h).covered
  have hle : ((U.units s.pool).length : Int) ≤ n + m := by
    obtain hle | ⟨hx, -⟩ := hle ⟨c, by rw [hc]; rfl⟩
    · exact hle
    · cases hx
  refine ⟨⟨n, m, cn, cm, hle⟩, fun hne => ?_⟩
  have hpos := List.length_pos_of_ne_nil hne
  obtain hn | hm : 0 < n ∨ 0 < m := by omega
  · exact .inl (cn.exists_of_pos hn)
  · exact .inr (cm.exists_of_pos hm)

/-- Callers add themselves to `waiters` only while the pool is empty. -/
def OnEmpty (U : Queue Q Nat) (s : State Q) (a : Act) : Prop :=
  ∀ c ∈ a.moved, s.consumer c = .incr → U.units s.pool = []

instance (U : Queue Q Nat) (s : State Q) (a : Act) : Decidable (OnEmpty U s a) :=
  inferInstanceAs (Decidable (∀ c ∈ a.moved, s.consumer c = .incr → U.units s.pool = []))

theorem OnEmpty.careful {a : Act} (h : OnEmpty U s a) : Careful U (fun _ _ => false) s a := by
  refine ⟨fun _ _ _ _ _ _ _ => rfl, fun c hc hpc n m cn cm => ?_⟩
  rw [h c hc hpc]
  have := cn.nonneg
  have := cm.nonneg
  simp only [List.length_nil]
  omega

end

/-- Caller `c` goes to sleep, if its first pop finds nothing. -/
def fallAsleep (c : Nat) : List Act :=
  [.popTimedwait c, .consumer c false, .consumer c false, .consumer c false, .consumer c false]

/-- Two callers are asleep when a unit is pushed and one of them is woken. -/
theorem user_wait_covered_two :
    ∃ s, (Reach (system (Queue.fifo Nat) fun _ _ => false)
        (Careful (Queue.fifo Nat) fun _ _ => false) s ∧ s.consumer 1 = .asleep ∧ s.pool = [7]) ∧
      ((∃ g, (s.producer g).tok = true) ∨ ∃ c, (s.consumer c).awake = true) := by
  obtain ⟨s, hr, hc, hp⟩ := (Reach.start (M := system (Queue.fifo Nat) fun _ _ => false)
    (G := OnEmpty (Queue.fifo Nat)) (s := initial _) rfl).exists_run
    (fun s => s.consumer 1 = .asleep ∧ s.pool = [7])
    (fallAsleep 0 ++ fallAsleep 1 ++ [Act.push 0 7, .producer 0 none, .producer 0 none,
      .producer 0 none, .producer 0 (some 0)]) (by decide)
  have hr := hr.mono fun _ _ => OnEmpty.careful
  refine ⟨s, ⟨hr, hc, hp⟩, (user_wait_covered hr hc).2 ?_⟩
  show s.pool ≠ []
  rw [hp]
  simp

/-- Unit 7 is pushed between the failed pop of caller 0 and its `waiters.fetch_add`: the push is
complete, nobody is awake, and the caller sleeps. -/
theorem user_wait_lost :
    ∃ s, Reach (system (Queue.fifo Nat) fun _ _ => false) Free s ∧ s.consumer 0 = .asleep ∧
      s.pool = [7] ∧ (∀ g, s.producer g = .idle) ∧ ∀ c, (s.consumer c).awake = false := by
  obtain ⟨s, hrun, h⟩ : ∃ s,
      runWhen (system (Queue.fifo Nat) fun _ _ => false) Free (initial (Queue.fifo Nat))
        [.popTimedwait 0, .consumer 0 false, .push 0 7, .producer 0 none, .producer 0 none,
          .consumer 0 false, .consumer 0 false, .consumer 0 false] = some s ∧
        s.consumer 0 = .asleep ∧ s.pool = [7] ∧ (∀ g, s.producer g = .idle) ∧
        ∀ c, (s.consumer c).awake = false := by
    refine ⟨_, rfl, rfl, rfl, fun g => ?_, fun c => ?_⟩
    · match g with
      | 0 => rfl
      | g + 1 => rfl
    · match c with
      | 0 => rfl
      | c + 1 => rfl
  exact ⟨s, Reach.runWhen (.start rfl) hrun, h⟩

end UserWait
end AbtReconverse
