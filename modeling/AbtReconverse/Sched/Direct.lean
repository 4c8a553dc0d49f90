import AbtReconverse.Lib.Lts
import AbtReconverse.Lib.Queue

/-!
# AbtReconverse.Sched.Direct

One PE under a predefined scheduler other than RANDWS: `ABTI_poll_sched`, `ABTI_sched_pop_by_policy`
and the direct switch of `ABTI_choose_fn` with burst limit `K` (`direct_burst`; 0 turns it off).

A state is a PE on which unit `cur` has just been dispatched. The unit acts (`act`: it creates
units, wakes blocked ones, asks for a migration) until it suspends (`suspend`). A suspending ULT
runs `chooseFn` on its own stack; what its suspension leaves to be done (push it back, wake its
joiners) is done after the switch (`leave`), on the stack of the unit that `chooseFn` switched to,
or before the scheduler polls again. Either way `suspend` ends with the next dispatch, or is `none`
when no unit is left to dispatch.

The pools are `Queue`s: a built-in pool is a FIFO, a user-defined one (`ABT_pool_def`) has a policy
of its own. A parent ULT (`ABT_self_schedule`, stacked schedulers), a finishing xstream and an exit
request, under which `ABTI_choose_fn` makes no direct switch, are not part of the model.
-/

namespace AbtReconverse
namespace Direct

open Lts

/-- The pools of the scheduler, by their identity, in poll order; every pool of the process. -/
structure Sched (Q : Type) where
  pools : List Nat
  ops : Nat → Queue Q Nat

/-- A scheduler of built-in pools. -/
def builtin (pools : List Nat) : Sched (List Nat) where
  pools := pools
  ops := fun _ => Queue.fifo Nat

/-- A tasklet has no stack (`cth == NULL`); the primary ULT is the PE's main thread. -/
inductive Kind where
  | ult
  | tasklet
  | primary
  deriving DecidableEq, Repr

inductive Life where
  | ready
  | running
  | blocked
  | done
  deriving DecidableEq, Repr

structure State (Q : Type) where
  q : Nat → Q
  life : Nat → Life
  kind : Nat → Kind
  pool : Nat → Nat
  /-- `migrate_to`. -/
  migrate : Nat → Option Nat
  joiners : Nat → List Nat
  /-- Suspended inside `ABT_thread_yield`. -/
  inYield : Nat → Bool
  /-- The next unit to be created. -/
  next : Nat
  /-- `ABTI_held`. -/
  held : Option Nat
  /-- `ABTI_direct_count`. -/
  direct : Nat
  /-- `ABTI_yielding`. -/
  yielding : Bool
  cur : Nat
  /-- The units dispatched so far. -/
  log : List Nat

/-- What a running unit does besides suspending. -/
inductive Do where
  | create (task : Bool) (p : Nat)
  | wake (u : Nat)
  | migrate (u p : Nat)
  deriving DecidableEq, Repr

/-- How a unit suspends: `timedYield` is the `CthYield` of a timed wait, `block` a wait list. -/
inductive Stop where
  | yield
  | timedYield
  | block
  | join (u : Nat)
  | exit
  deriving DecidableEq, Repr

variable {Q : Type}

/-- Unit 0 runs, of pool `p`; the pools are empty. -/
def initial (c : Sched Q) (k : Kind) (p : Nat) : State Q where
  q := fun i => (c.ops i).empty
  life := fun u => if u = 0 then .running else .done
  kind := fun u => if u = 0 then k else .ult
  pool := fun _ => p
  migrate := fun _ => none
  joiners := fun _ => []
  inYield := fun _ => false
  next := 1
  held := none
  direct := 0
  yielding := false
  cur := 0
  log := [0]

namespace State

/-- The pool a unit is pushed to when it is made ready. -/
def target (s : State Q) (u : Nat) : Nat := (s.migrate u).getD (s.pool u)

/-- `ABTI_thread_awaken_fn`. -/
def awaken (c : Sched Q) (s : State Q) (u : Nat) : State Q :=
  { s with
    life := Function.update s.life u .ready
    pool := Function.update s.pool u (s.target u)
    migrate := Function.update s.migrate u none
    q := Function.update s.q (s.target u) ((c.ops (s.target u)).push (s.q (s.target u)) u) }

/-- `CthAwakenIfBlocked`. -/
def awakenIfBlocked (c : Sched Q) (s : State Q) (u : Nat) : State Q :=
  if s.life u = .blocked then s.awaken c u else s

/-- A new descriptor, not yet in its pool. -/
def born (s : State Q) (k : Kind) (p : Nat) : State Q :=
  { s with
    life := Function.update s.life s.next .blocked
    kind := Function.update s.kind s.next k
    pool := Function.update s.pool s.next p
    migrate := Function.update s.migrate s.next none
    joiners := Function.update s.joiners s.next []
    inYield := Function.update s.inYield s.next false
    next := s.next + 1 }

/-- Unit `t` gets the PE. A ULT that comes back from `ABT_thread_yield` clears the flag. -/
def dispatch (s : State Q) (t : Nat) : State Q :=
  { s with
    life := Function.update s.life t .running
    inYield := Function.update s.inYield t false
    yielding := if s.inYield t then false else s.yielding
    cur := t
    log := s.log ++ [t] }

def setHeld (s : State Q) (h : Option Nat) : State Q := { s with held := h }

/-- `ABTI_choose_fn` after a pop: the pools and the length of the chain. -/
def setPopped (s : State Q) (q : Nat → Q) (n : Nat) : State Q := { s with q := q, direct := n }

/-- Before the switch: `ABT_thread_yield` sets the flag. -/
def flag (s : State Q) : Stop → State Q
  | .yield => { s with yielding := true, inYield := Function.update s.inYield s.cur true }
  | _ => s

end State

def act (c : Sched Q) (s : State Q) : Do → State Q
  | .create task p => (s.born (if task then .tasklet else .ult) p).awaken c s.next
  | .wake u => s.awakenIfBlocked c u
  | .migrate u p => { s with migrate := Function.update s.migrate u (some p) }

/-- After the switch; for `exit`, `ABTI_thread_terminated`. -/
def leave (c : Sched Q) (s : State Q) (u : Nat) : Stop → State Q
  | .yield | .timedYield => s.awaken c u
  | .block => { s with life := Function.update s.life u .blocked }
  | .join v =>
    { s with
      life := Function.update s.life u .blocked
      joiners := Function.update s.joiners v (s.joiners v ++ [u]) }
  | .exit =>
    (s.joiners u).foldl (State.awakenIfBlocked c)
      { s with life := Function.update s.life u .done, joiners := Function.update s.joiners u [] }

/-- `ABTI_poll_sched`: a parked unit runs unless a pool before its own has a unit. -/
def pollSched (c : Sched Q) (s : State Q) : Option (State Q) :=
  match s.held with
  | some h =>
    match popFirst c.ops s.q (c.pools.take (c.pools.idxOf (s.pool h))) with
    | some (t, q) => some ({ s with q := q }.dispatch t)
    | none => some ((s.setHeld none).dispatch h)
  | none =>
    match popFirst c.ops s.q c.pools with
    | some (t, q) => some ({ s with q := q }.dispatch t)
    | none => none

/-- The popped unit `t` cannot be switched to: it is of a later pool than a yielding `u`, the
primary ULT or a tasklet. -/
def parks (c : Sched Q) (s : State Q) (u t : Nat) : Bool :=
  (s.yielding && s.pool t ≠ s.pool u &&
    c.pools.idxOf (s.pool u) < c.pools.idxOf (s.pool t)) || s.kind t ≠ .ult

/-- `ABTI_choose_fn` on the stack of `u`; `none`: to the scheduling thread. -/
def chooseFn (c : Sched Q) (K : Nat) (s : State Q) (u : Nat) : State Q × Option Nat :=
  if K ≠ 0 ∧ s.held = none ∧ s.direct < K then
    match popFirst c.ops s.q c.pools with
    | some (t, q) =>
      if parks c s u t then ((s.setPopped q 0).setHeld (some t), none)
      else (s.setPopped q (s.direct + 1), some t)
    | none => (s.setPopped s.q 0, none)
  else (s.setPopped s.q 0, none)

/-- The running unit can suspend this way. A tasklet only ends, and a join of a unit that has
terminated returns at once. -/
def suspends (s : State Q) : Stop → Bool
  | .exit => s.kind s.cur ≠ .primary
  | .join v => s.kind s.cur ≠ .tasklet && s.life v ≠ .done && v ≠ s.cur
  | _ => s.kind s.cur ≠ .tasklet

/-- The primary ULT has no choose function and a tasklet runs on the scheduler's stack, so they go
back to `ABTI_poll_sched`. -/
def suspend (c : Sched Q) (K : Nat) (s : State Q) (k : Stop) : Option (State Q) :=
  if suspends s k then
    if s.kind s.cur = .ult then
      match chooseFn c K (s.flag k) s.cur with
      | (s', some t) => some ((leave c s' s.cur k).dispatch t)
      | (s', none) => pollSched c (leave c s' s.cur k)
    else pollSched c (leave c (s.flag k) s.cur k)
  else none

end Direct
end AbtReconverse
