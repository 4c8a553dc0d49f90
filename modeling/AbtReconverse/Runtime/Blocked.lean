import AbtReconverse.Runtime.Counters

/-!
# AbtReconverse.Runtime.Blocked

Whom `num_blocked` counts. A ULT may be given another pool while it is blocked, by
`ABT_thread_set_associated_pool` at once or by a migration when it is woken, and the wake may come
from anywhere; the count is kept in the pool that the ULT had when it entered `ABTI_thread_block`.

The machine is that of `Runtime.Machine` with two additions. `last` is history: the pool of a ULT's
last `ABTI_thread_block`. `runner` are the ULTs that run user-defined schedulers
(`ABTI_THREAD_SCHED`): they have a pool without being members of it, `ABTI_thread_block` returns to
`CthSuspendBlocked` before it counts them, and `runner_awaken_fn` has its own copy of the code that
takes a ULT off the count.

* `Logged`: how the fields of a descriptor go with the history.
* `blocked_accounting`: whenever nobody is inside `ABTI_thread_block` or an awaken function, every
  pool counts exactly the blocked ULTs that blocked in it.
-/

namespace AbtReconverse
namespace Runtime

open Lts

/-- The descriptor of a runner. -/
structure Runner where
  state : UnitState
  pool : Option Nat
  blockedPool : Option Nat
  blockedCounted : Bool
  deriving DecidableEq, Repr

structure Whole where
  rt : State
  runner : Nat → Runner
  last : Nat → Option Nat

inductive WholeAct where
  | unit (a : Act)
  | runnerWrap (i : Nat) (p : Option Nat)
  | runnerBlock (i : Nat)
  | runnerAwaken (i : Nat)
  | runnerAssociate (i p : Nat)
  | runnerEnd (i : Nat)
  deriving DecidableEq, Repr

/-- `ABTI_thread_block` reads `self->pool`. -/
def lastBlock (s : State) (a : Act) (last : Nat → Option Nat) : Nat → Option Nat :=
  match a with
  | .blockAdd r =>
    match s.pe r with
    | .running u => Function.update last u (some (s.thr u).pool)
    | _ => last
  | _ => last

/-- `runner_awaken_fn`, up to the push to the PE's own queue. -/
def runnerAwaken (s : State) (x : Runner) : State :=
  match x.blockedCounted, x.blockedPool with
  | true, some q => { s with numBlocked := Function.update s.numBlocked q (s.numBlocked q - 1) }
  | _, _ => s

namespace Whole

def initial (c : Config) (p : Nat) : Whole where
  rt := Runtime.initial c p
  runner := fun _ => ⟨.unborn, none, none, false⟩
  last := fun _ => none

def setRunner (x : Whole) (i : Nat) (r : Runner) : Whole :=
  { x with runner := Function.update x.runner i r }

def step (c : Config) (x : Whole) : WholeAct → Option Whole
  | .unit a => (Runtime.step c x.rt a).map fun s => { x with rt := s, last := lastBlock x.rt a x.last }
  | .runnerWrap i p =>
    if (x.runner i).state = .unborn then some (x.setRunner i ⟨.running, p, none, false⟩) else none
  | .runnerBlock i =>
    -- not a pool member: `CthSuspendBlocked` and nothing else
    if (x.runner i).state = .running then
      some (x.setRunner i { x.runner i with state := .blocked })
    else none
  | .runnerAwaken i =>
    if (x.runner i).state = .blocked then
      some ({ x with rt := runnerAwaken x.rt (x.runner i) }.setRunner i
        { x.runner i with state := .running, blockedCounted := false })
    else none
  | .runnerAssociate i p =>
    if (x.runner i).state ≠ .unborn then some (x.setRunner i { x.runner i with pool := some p })
    else none
  | .runnerEnd i =>
    if (x.runner i).state = .running then
      some (x.setRunner i { x.runner i with state := .terminated })
    else none

end Whole

def whole (c : Config) (p : Nat) : System Whole WholeAct where
  init x := x = Whole.initial c p
  step := Whole.step c

/-- ULT `u` is blocked, and its pool was `q` when it blocked. -/
def Blocks (x : Whole) (q u : Nat) : Prop := (x.rt.thr u).state = .blocked ∧ x.last u = some q

/-- Nobody is inside `ABTI_thread_block` or an awaken function. -/
structure Quiet (x : Whole) : Prop where
  block : ∀ u, (x.rt.thr u).state = .running → (x.rt.thr u).blk = .out
  awaken : ∀ w, x.rt.wake w = .idle

structure Accounting (c : Config) (x : Whole) : Prop where
  count : Quiet x → ∀ q, Counts (x.rt.numBlocked q) (Blocks x q)
  nonneg : ∀ q, 0 ≤ x.rt.numBlocked q
  /-- Re-association and migration change neither side. -/
  relocate : ∀ t p x', Whole.step c x (.unit (.associate t p)) = some x' ∨
    Whole.step c x (.unit (.migrateToPool t p)) = some x' →
      x'.rt.numBlocked = x.rt.numBlocked ∧ ∀ q u, Blocks x' q u ↔ Blocks x q u
  /-- A blocked ULT is marked as counted in the pool it blocked in. -/
  marked : ∀ q u, Blocks x q u →
    (x.rt.thr u).blockedCounted = true ∧ (x.rt.thr u).blockedPool = some q
  /-- A wake that finds the mark takes the ULT off that pool. -/
  wake : ∀ w u x', x.rt.wake w = .sub u → Whole.step c x (.unit (.wakeSub w)) = some x' →
    ∃ q, x.last u = some q ∧
      x'.rt.numBlocked = Function.update x.rt.numBlocked q (x.rt.numBlocked q - 1)

/-! ## The history -/

/-- How the fields of a descriptor go with the pool `o` of its last `ABTI_thread_block`. A ULT that is
BLOCKED outside of `ABTI_thread_block` has not started yet. -/
structure Logged (x : Thread) (o : Option Nat) : Prop where
  added : ∀ q, x.blk = .added q ∨ x.blk = .pooled q → o = some q
  flagged : x.blk = .flagged → ∃ q, x.blockedPool = some q ∧ o = some q
  unborn : x.state = .unborn → o = none
  start : x.blk = .out → x.state = .blocked → o = none

namespace Logged

variable {x y : Thread} {o : Option Nat}

/-- A step that does not touch `blk` and `blocked_pool`. -/
theorem keep (h : Logged x o) (hb : y.blk = x.blk) (hp : y.blockedPool = x.blockedPool)
    (hs : y.state = x.state ∨ (y.state ≠ .unborn ∧ (y.state = .blocked → x.blk ≠ .out))) :
    Logged y o := by
  refine ⟨by rw [hb]; exact h.added, by rw [hb, hp]; exact h.flagged, fun hu => ?_, fun ho hk => ?_⟩
  · obtain hs | ⟨hn, _⟩ := hs
    · exact h.unborn (hs ▸ hu)
    · exact absurd hu hn
  · obtain hs | ⟨_, hn⟩ := hs
    · exact h.start (hb ▸ ho) (hs ▸ hk)
    · exact absurd (hb ▸ ho) (hn hk)

/-- A unit that runs, or has been created ready, is outside of `ABTI_thread_block`. -/
theorem outside (hb : y.blk = .out) (hs : y.state = .unborn ∨ y.state = .blocked → o = none) :
    Logged y o :=
  ⟨by rw [hb]; simp, by rw [hb]; simp, fun h => hs (.inl h), fun _ h => hs (.inr h)⟩

end Logged

/-- What one step does to one descriptor. -/
theorem Logged.update {f : Nat → Thread} {g : Nat → Thread} {last : Nat → Option Nat} {t : Nat}
    {x : Thread} (h : ∀ u, Logged (f u) (last u)) (hg : g = Function.update f t x)
    (hx : Logged x (last t)) (u : Nat) : Logged (g u) (last u) := by
  rw [hg]
  by_cases hu : u = t
  · subst hu; rw [Function.update_self]; exact hx
  · rw [Function.update_of_ne hu]; exact h u

section Steps

variable {c : Config} {s s' : State} {a : Act} {last : Nat → Option Nat}

theorem step_logged (hs : Settled s) (hb : BlockedInv false s)
    (h : ∀ u, Logged (s.thr u) (last u)) (hst : step c s a = some s') :
    ∀ u, Logged (s'.thr u) (lastBlock s a last u) := by
  cases step_cases hst with
  | createUlt hg | createTask hg =>
    exact Logged.update h rfl (.outside rfl fun _ => (h _).unborn hg.1)
  | awakenIfBlocked | taskExit | postYield | postExit =>
    exact Logged.update h rfl ((h _).keep rfl rfl (.inr ⟨by simp, by simp⟩))
  | wakeCounted | wakeMigrate | pushEnter | migrateToPool | associate | pollPop | choosePop =>
    exact Logged.update h rfl ((h _).keep rfl rfl (.inl rfl))
  | @blockAdd r t hpe =>
    intro u
    simp only [lastBlock, hpe, Function.update_apply]
    split
    · refine ⟨?_, by simp, fun hu => ?_, by simp⟩
      · rintro q (hq | hq) <;> cases hq
        rfl
      · cases (hs.blocking hpe).1.symm.trans hu
    · exact h u
  | @blockPool r t p hpe hblk =>
    have ho := (h t).added p (.inl hblk)
    refine Logged.update h rfl ⟨?_, by simp, (h t).unborn, by simp⟩
    rintro q (hq | hq) <;> cases hq
    exact ho
  | @blockFlag r t p hpe hblk =>
    have ho := (h t).added p (.inr hblk)
    exact Logged.update h rfl ⟨by simp, fun _ => ⟨p, ((hb.unit t).pooled p hblk).2.2, ho⟩,
      (h t).unborn, by simp⟩
  | @postBlock r t next hpe =>
    have hf := ((hb.unit t).susp r .block (by rw [hpe]; rfl)).1 rfl
    exact Logged.update h rfl ((h t).keep rfl rfl (.inr ⟨by simp, fun _ => by rw [hf]; simp⟩))
  | runPopped | chooseDirect => exact Logged.update h rfl (.outside rfl (by simp))
  | _ => exact h

end Steps

/-! ## The runners -/

structure WholeInv (c : Config) (p : Nat) (x : Whole) : Prop where
  runtime : Reach (system c p) Free x.rt
  logged : ∀ u, Logged (x.rt.thr u) (x.last u)
  /-- A runner is never counted. -/
  runner : ∀ i, (x.runner i).blockedCounted = false

namespace WholeInv

variable {c : Config} {p : Nat} {x x' : Whole}

theorem settled (h : WholeInv c p x) : Settled x.rt := by
  obtain ⟨loc, hi⟩ := Runtime.reach_inv h.runtime
  exact hi.settled

theorem blocked (h : WholeInv c p x) : BlockedInv false x.rt :=
  reach_blocked false (fun _ _ _ hs => Bool.noConfusion hs) h.runtime

theorem setRunner (h : WholeInv c p x) {i : Nat} {r : Runner} (hr : r.blockedCounted = false) :
    WholeInv c p (x.setRunner i r) := by
  refine ⟨h.runtime, h.logged, fun j => ?_⟩
  simp only [Whole.setRunner, Function.update_apply]
  split
  · exact hr
  · exact h.runner j

theorem initial : WholeInv c p (Whole.initial c p) := by
  refine ⟨.start rfl, fun u => .outside ?_ fun _ => rfl, fun _ => rfl⟩
  by_cases hu : u = 0 <;> simp [Whole.initial, Runtime.initial, hu, Thread.fresh]

theorem step (h : WholeInv c p x) {a : WholeAct} (hst : Whole.step c x a = some x') :
    WholeInv c p x' := by
  cases a with
  | unit a =>
    obtain ⟨s', hs', rfl⟩ := Option.map_eq_some_iff.mp hst
    exact ⟨.next h.runtime trivial hs', step_logged h.settled h.blocked h.logged hs', h.runner⟩
  | runnerWrap i q =>
    simp only [Whole.step] at hst
    split at hst <;> cases hst
    exact h.setRunner rfl
  | runnerAwaken i =>
    simp only [Whole.step] at hst
    split at hst <;> cases hst
    -- the exchange of `blocked_counted` finds 0
    have hrt : runnerAwaken x.rt (x.runner i) = x.rt := by
      unfold runnerAwaken
      rw [h.runner i]
    rw [hrt]
    exact h.setRunner rfl
  | runnerBlock i | runnerAssociate i q | runnerEnd i =>
    simp only [Whole.step] at hst
    split at hst <;> cases hst
    exact h.setRunner (h.runner i)

end WholeInv

theorem reach_whole {c : Config} {p : Nat} {x : Whole} (h : Reach (whole c p) Free x) :
    WholeInv c p x := by
  refine h.invariant ?_ ?_
  · rintro x rfl; exact .initial
  · intro x a x' _ hi _ hst; exact hi.step hst

/-! ## Accounting -/

section

variable {c : Config} {p : Nat} {x : Whole}

/-- A ULT that is counted blocked in the pool it is counted in. -/
theorem WholeInv.last_of_holds (h : WholeInv c p x) {q u : Nat} (hq : HoldsBlocked x.rt q u) :
    x.last u = some q := by
  obtain hq | hq | ⟨hc, hq⟩ := hq
  · exact (h.logged u).added q (.inl hq)
  · exact (h.logged u).added q (.inr hq)
  · have hf : (x.rt.thr u).blk = .flagged := by
      obtain hc | ⟨w, hw⟩ := hc
      · exact ((h.blocked.unit u).counted hc).1
      · exact ((h.blocked.unit u).sub w hw).1
    obtain ⟨q', hp, ho⟩ := (h.logged u).flagged hf
    rw [ho, ← hp, hq]

/-- A blocked ULT that has run before is in `ABTI_thread_block` and marked. -/
theorem WholeInv.marked (h : WholeInv c p x) {q u : Nat} (hb : Blocks x q u) :
    (x.rt.thr u).blockedCounted = true ∧ (x.rt.thr u).blockedPool = some q := by
  obtain ⟨hs, ho⟩ := hb
  have hu := h.blocked.unit u
  have hf : (x.rt.thr u).blk = .flagged := by
    cases hk : (x.rt.thr u).blk with
    | flagged => rfl
    | out => rw [(h.logged u).start hk hs] at ho; cases ho
    | added q => cases hs.symm.trans (hu.added q hk).1
    | pooled q => cases hs.symm.trans (hu.pooled q hk).1
  obtain ⟨q', hp, ho'⟩ := (h.logged u).flagged hf
  refine ⟨hu.flagged hf (.inr hs), ?_⟩
  rw [hp, ← ho', ho]

theorem WholeInv.holds_iff (h : WholeInv c p x) (hq : Quiet x) (q u : Nat) :
    Blocks x q u ↔ HoldsBlocked x.rt q u := by
  constructor
  · intro hb
    obtain ⟨hc, hp⟩ := h.marked hb
    exact .inr (.inr ⟨.inl hc, hp⟩)
  · intro hh
    refine ⟨?_, h.last_of_holds hh⟩
    have hrun : (x.rt.thr u).blk ≠ .out → (x.rt.thr u).state ≠ .running :=
      fun hne hs => hne (hq.block u hs)
    have hu := h.blocked.unit u
    obtain hh | hh | ⟨hc | ⟨w, hw⟩, _⟩ := hh
    · exact absurd (hu.added q hh).1 (hrun (by rw [hh]; simp))
    · exact absurd (hu.pooled q hh).1 (hrun (by rw [hh]; simp))
    · obtain ⟨hf, _, hs | hs | ⟨w, hw⟩⟩ := hu.counted hc
      · exact absurd hs (hrun (by rw [hf]; simp))
      · exact hs
      · rw [hq.awaken w] at hw; cases hw
    · rw [hq.awaken w] at hw; cases hw

end

/-- In every run of blocking, waking, yielding, migrating, re-associating and ending ULTs, over any
pools. -/
theorem blocked_accounting {c : Config} {p : Nat} {x : Whole} (h : Reach (whole c p) Free x) :
    Accounting c x := by
  have hi := reach_whole h
  refine ⟨fun hq q => (hi.blocked.blocked q).congr (hi.holds_iff hq q),
    fun q => (hi.blocked.blocked q).nonneg, fun t p x' hst => ?_, fun q u => hi.marked,
    fun w u x' hw hst => ?_⟩
  · have hthr : ∀ s' a, (a = .associate t p ∨ a = .migrateToPool t p) →
        step c x.rt a = some s' → s'.numBlocked = x.rt.numBlocked ∧
          ∀ u, (s'.thr u).state = (x.rt.thr u).state := by
      rintro s' a ha hs'
      obtain rfl | rfl := ha <;> cases step_cases hs'
      all_goals
        refine ⟨rfl, fun u => ?_⟩
        simp only [Function.update_apply]
        split
        · rename_i hu; rw [hu]
        · rfl
    obtain hst | hst := hst
    all_goals
      obtain ⟨s', hs', rfl⟩ := Option.map_eq_some_iff.mp hst
      obtain ⟨hn, hst'⟩ := hthr s' _ (by simp) hs'
      refine ⟨hn, fun q u => ?_⟩
      simp only [Blocks, hst']
      rfl
  · obtain ⟨s', hs', rfl⟩ := Option.map_eq_some_iff.mp hst
    obtain ⟨q, hp, _⟩ := ((hi.blocked.unit u).sub w hw).2
    refine ⟨q, hi.last_of_holds (.inr (.inr ⟨.inr ⟨w, hw⟩, hp⟩)), ?_⟩
    simp only [step, awaken, hw, hp, Option.ite_none_left_eq_some, Option.some.injEq] at hs'
    obtain ⟨_, rfl⟩ := hs'
    rfl

/-- ULT 1 blocks in pool 5 and is associated with pool 6 while it sleeps; a runner of pool 5 is
blocked too. Pool 5 counts the ULT, and the wake takes it off pool 5. -/
theorem blocked_accounting_associated : ∃ x, Reach (whole .builtin 0) Free x ∧
    Blocks x 5 1 ∧ (x.rt.thr 1).pool = 6 ∧ x.rt.numBlocked 5 = 1 ∧ x.rt.numBlocked 6 = 0 ∧
    (x.rt.thr 1).blockedPool = some 5 := by
  obtain ⟨x, hr, hb, hp, h5, h6⟩ := (Reach.start rfl : Reach (whole .builtin 0) Free
    (Whole.initial .builtin 0)).exists_run
    (fun x => ((x.rt.thr 1).state = .blocked ∧ x.last 1 = some 5) ∧ (x.rt.thr 1).pool = 6 ∧
      x.rt.numBlocked 5 = 1 ∧ x.rt.numBlocked 6 = 0)
    (blockUlt.map WholeAct.unit ++
      [WholeAct.unit (.associate 1 6), .runnerWrap 0 (some 5), .runnerBlock 0]) (by decide)
  exact ⟨x, hr, hb, hp, h5, h6, ((blocked_accounting hr).marked 5 1 hb).2⟩

end Runtime
end AbtReconverse
