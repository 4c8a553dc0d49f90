import Mathlib.Logic.Function.Basic
import AbtReconverse.Basic
import AbtReconverse.Lib.Lts

/-!
# AbtReconverse.Runtime.Machine

The life of a work unit, over any number of PEs, pools and wakers.

A ULT is created BLOCKED and made ready by `ABTI_thread_awaken_fn`, which takes it off
`num_blocked`, applies a pending migration and pushes it to its pool; a PE pops it, runs it, and
when it suspends the choose function may pop the next unit on its behalf, switch to it or park it
in `ABTI_held`. What the suspended unit asked for (push it back, block it, end it) happens after
the switch. Every read-modify-write of the source is one action here, so a run is an arbitrary
interleaving of:

* wakers (`wake w`), each somewhere in `ABTI_thread_awaken_fn` / `ABTI_pool::push`;
* PEs (`pe r`), each polling, popping, running a unit, or in `ABTI_choose_fn`;
* running units, each somewhere in `ABTI_thread_block` (`blk`).

Of Reconverse the machine takes: `CthAwakenIfBlocked` claims a BLOCKED thread atomically and calls
its awaken function once; `CthYield` calls it once after the switch; `CthSuspendBlocked` makes the
thread BLOCKED after the switch; `CthClaimReady` succeeds exactly on READY threads.

A built-in pool is the list of its linked units in queue order; which one a pop takes is `popTakes`.
A user-defined pool stores what `p_push` gives it and its `p_pop` may take any of it.
-/

namespace AbtReconverse
namespace Runtime

open Lts

/-- How far the running unit is in `ABTI_thread_block`. -/
inductive BlockPc where
  | out
  | added (p : Nat)
  | pooled (p : Nat)
  | flagged
  deriving DecidableEq, Repr

/-- The fields of `ABTI_thread` that the life of a unit reads and writes. -/
structure Thread where
  type : ThreadType
  isTask : Bool
  state : UnitState
  pool : Nat
  migrateTo : Option Nat
  blockedPool : Option Nat
  blockedCounted : Bool
  inPool : Bool
  blk : BlockPc
  deriving DecidableEq, Repr

/-- A descriptor that has not been allocated. -/
def Thread.fresh : Thread :=
  ⟨.named, false, .unborn, 0, none, none, false, false, .out⟩

/-- Why a ULT gives up its PE. -/
inductive Susp where
  | yield
  | block
  | exit
  deriving DecidableEq, Repr

/-- Who called `pop`: the PE's scheduler, or the choose function of a suspending ULT. -/
inductive Caller where
  | poll
  | choose (u : Nat) (k : Susp)
  deriving DecidableEq, Repr

/-- What a PE is doing. `leaving u k next`: `u` is about to be switched away from; its post-switch
action `k` is pending and the PE continues with `next`, or with its scheduler. -/
inductive PePc where
  | sched
  | unlinked (t p : Nat) (by_ : Caller)
  | popped (t p : Nat) (by_ : Caller)
  | running (u : Nat)
  | choosing (u : Nat) (k : Susp)
  | leaving (u : Nat) (k : Susp) (next : Option Nat)
  deriving DecidableEq, Repr

/-- Where a waker is in `ABTI_thread_awaken_fn` and `ABTI_pool::push`. -/
inductive WakePc where
  | idle
  | enter (t : Nat)
  | sub (t : Nat)
  | migrate (t : Nat)
  | push (t p : Nat)
  | link (t p : Nat)
  | count (t p : Nat)
  deriving DecidableEq, Repr

/-- What does not change during a run: which pools are user-defined, their access mode, and the
home PE of the primary ULT. -/
structure Config where
  user : Nat → Bool
  access : Nat → PoolAccess
  home : Nat

/-- Built-in MPMC pools only, and the primary ULT at home on PE 0. -/
def Config.builtin : Config := ⟨fun _ => false, fun _ => .mpmc, 0⟩

structure State where
  thr : Nat → Thread
  queue : Nat → List Nat
  count : Nat → Int
  numBlocked : Nat → Int
  pe : Nat → PePc
  held : Nat → Option Nat
  wake : Nat → WakePc
  /-- `CmiAbort` was called. -/
  aborted : Bool

/-- Just after `ABT_init`: the primary ULT (descriptor 0) runs on its home PE. -/
def initial (c : Config) (p : Nat) : State where
  thr := Function.update (fun _ => Thread.fresh) 0
    { Thread.fresh with type := .primary, state := .running, pool := p }
  queue := fun _ => []
  count := fun _ => 0
  numBlocked := fun _ => 0
  pe := Function.update (fun _ => .sched) c.home (.running 0)
  held := fun _ => none
  wake := fun _ => .idle
  aborted := false

/-- `pinned_elsewhere`. -/
def pinnedElsewhere (c : Config) (s : State) (t r : Nat) : Bool :=
  (s.thr t).type = .primary && c.home != r

/-- Whether `pop` on PE `r` takes the unit at index `i` of the queue. `pop_mpsc` takes the oldest,
`pop_list` the oldest one except that it steps over a primary ULT homed elsewhere; a user pool
decides itself. -/
def popTakes (c : Config) (s : State) (r p i : Nat) : Bool :=
  if c.user p then true
  else if (c.access p).singleConsumer then i == 0
  else match s.queue p with
    | t :: _ => i == if pinnedElsewhere c s t r then 1 else 0
    | [] => false

inductive Act where
  | createUlt (t p : Nat) (ty : ThreadType)
  | createTask (w t p : Nat) (ty : ThreadType)
  | awakenIfBlocked (w t : Nat)
  | wakeExchange (w : Nat)
  | wakeSub (w : Nat)
  | wakeMigrate (w : Nat)
  | pushEnter (w : Nat)
  | pushLink (w : Nat)
  | pushCount (w : Nat)
  | migrateToPool (t p : Nat)
  | associate (t p : Nat)
  | blockAdd (r : Nat)
  | blockPool (r : Nat)
  | blockFlag (r : Nat)
  | pollPop (r p i : Nat)
  | popCount (r : Nat)
  | putBack (r w : Nat)
  | takeHeld (r : Nat)
  | runPopped (r : Nat)
  | taskExit (r : Nat)
  | suspend (r : Nat) (k : Susp)
  | choosePop (r p i : Nat)
  | chooseNone (r : Nat)
  | choosePark (r : Nat)
  | chooseDirect (r : Nat)
  | postYield (r w : Nat)
  | postBlock (r : Nat)
  | postExit (r : Nat)
  deriving DecidableEq, Repr

namespace State

/-- `count.fetch_add`; a user-defined pool keeps no count. -/
def addCount (c : Config) (count : Nat → Int) (p : Nat) (d : Int) : Nat → Int :=
  if c.user p then count else Function.update count p (count p + d)

/-- `pop` unlinks the unit at index `i` and clears its `in_pool`; the count follows later. -/
def unlink (c : Config) (s : State) (r p i t : Nat) (b : Caller) : State :=
  { s with
    queue := Function.update s.queue p ((s.queue p).eraseIdx i)
    thr := Function.update s.thr t
      { s.thr t with inPool := (s.thr t).inPool && c.user p }
    pe := Function.update s.pe r (.unlinked t p b) }

/-- Where the PE goes on after the post-switch action: the next unit, or the scheduler. -/
def resume (next : Option Nat) : PePc :=
  match next with
  | some t => .running t
  | none => .sched

end State

/-- Creation: `thread_create_impl` up to `CthAwakenIfBlocked`, and `task_create_impl`. -/
def create (s : State) : Act → Option State
  | .createUlt t p ty =>
    if (s.thr t).state = .unborn ∧ ty ≠ .primary ∧ ty ≠ .sched then
      some { s with
        thr := Function.update s.thr t
          { Thread.fresh with type := ty, state := .blocked, pool := p } }
    else none
  | .createTask w t p ty =>
    if (s.thr t).state = .unborn ∧ ty ≠ .primary ∧ ty ≠ .sched ∧ s.wake w = .idle then
      some { s with
        thr := Function.update s.thr t
          { Thread.fresh with type := ty, isTask := true, state := .ready, pool := p }
        wake := Function.update s.wake w (.push t p) }
    else none
  | _ => none

/-- `CthAwakenIfBlocked`, `ABTI_thread_awaken_fn` and `ABTI_pool::push`, one shared access a step. -/
def awaken (c : Config) (s : State) : Act → Option State
  | .awakenIfBlocked w t =>
    if (s.thr t).state = .blocked ∧ s.wake w = .idle then
      some { s with
        thr := Function.update s.thr t { s.thr t with state := .ready }
        wake := Function.update s.wake w (.enter t) }
    else none
  | .wakeExchange w =>
    match s.wake w with
    | .enter t =>
      if (s.thr t).blockedCounted then
        some { s with
          thr := Function.update s.thr t { s.thr t with blockedCounted := false }
          wake := Function.update s.wake w (.sub t) }
      else some { s with wake := Function.update s.wake w (.migrate t) }
    | _ => none
  | .wakeSub w =>
    match s.wake w with
    | .sub t =>
      match (s.thr t).blockedPool with
      | some p =>
        some { s with
          numBlocked := Function.update s.numBlocked p (s.numBlocked p - 1)
          wake := Function.update s.wake w (.migrate t) }
      | none => none
    | _ => none
  | .wakeMigrate w =>
    match s.wake w with
    | .migrate t =>
      let p := ((s.thr t).migrateTo).getD (s.thr t).pool
      some { s with
        thr := Function.update s.thr t { s.thr t with pool := p, migrateTo := none }
        wake := Function.update s.wake w (.push t p) }
    | _ => none
  | .pushEnter w =>
    match s.wake w with
    | .push t p =>
      if c.user p then some { s with wake := Function.update s.wake w (.link t p) }
      else if (s.thr t).inPool then some { s with aborted := true }
      else some { s with
        thr := Function.update s.thr t { s.thr t with inPool := true }
        wake := Function.update s.wake w (.link t p) }
    | _ => none
  | .pushLink w =>
    match s.wake w with
    | .link t p =>
      some { s with
        queue := Function.update s.queue p (s.queue p ++ [t])
        wake := Function.update s.wake w (.count t p) }
    | _ => none
  | .pushCount w =>
    match s.wake w with
    | .count _ p =>
      some { s with
        count := State.addCount c s.count p 1
        wake := Function.update s.wake w .idle }
    | _ => none
  | _ => none

/-- Calls that only change which pool a unit belongs to: `ABT_thread_migrate_to_pool` and
`ABT_thread_set_associated_pool`. -/
def relocate (s : State) : Act → Option State
  | .migrateToPool t p =>
    if (s.thr t).state ≠ .unborn then
      some { s with thr := Function.update s.thr t { s.thr t with migrateTo := some p } }
    else none
  | .associate t p =>
    if (s.thr t).state ≠ .unborn then
      some { s with thr := Function.update s.thr t { s.thr t with pool := p } }
    else none
  | _ => none

/-- `ABTI_thread_block` up to `CthSuspendBlocked`, on PE `r`. -/
def block (s : State) : Act → Option State
  | .blockAdd r =>
    match s.pe r with
    | .running u =>
      if (s.thr u).isTask = false ∧ (s.thr u).blk = .out then
        some { s with
          numBlocked := Function.update s.numBlocked (s.thr u).pool (s.numBlocked (s.thr u).pool + 1)
          thr := Function.update s.thr u { s.thr u with blk := .added (s.thr u).pool } }
      else none
    | _ => none
  | .blockPool r =>
    match s.pe r with
    | .running u =>
      match (s.thr u).blk with
      | .added p =>
        some { s with
          thr := Function.update s.thr u { s.thr u with blockedPool := some p, blk := .pooled p } }
      | _ => none
    | _ => none
  | .blockFlag r =>
    match s.pe r with
    | .running u =>
      match (s.thr u).blk with
      | .pooled _ =>
        some { s with
          thr := Function.update s.thr u { s.thr u with blockedCounted := true, blk := .flagged } }
      | _ => none
    | _ => none
  | _ => none

/-- The PE's scheduler: pop a unit (or take the parked one) and run it. -/
def poll (c : Config) (s : State) : Act → Option State
  | .pollPop r p i =>
    match s.pe r, (s.queue p)[i]? with
    | .sched, some t => if popTakes c s r p i then some (s.unlink c r p i t .poll) else none
    | _, _ => none
  | .popCount r =>
    match s.pe r with
    | .unlinked t p b =>
      some { s with
        count := State.addCount c s.count p (-1)
        pe := Function.update s.pe r (.popped t p b) }
    | _ => none
  | .putBack r w =>
    match s.pe r with
    | .popped t p b =>
      if pinnedElsewhere c s t r ∧ s.wake w = .idle then
        some { s with
          wake := Function.update s.wake w (.push t p)
          pe := Function.update s.pe r (match b with
            | .poll => .sched
            | .choose u k => .choosing u k) }
      else none
    | _ => none
  | .takeHeld r =>
    match s.pe r, s.held r with
    | .sched, some t =>
      some { s with
        held := Function.update s.held r none
        pe := Function.update s.pe r (.popped t (s.thr t).pool .poll) }
    | _, _ => none
  | .runPopped r =>
    match s.pe r with
    | .popped t _ .poll =>
      if (s.thr t).state = .ready ∧ pinnedElsewhere c s t r = false then
        -- a ULT that blocked comes back from `CthSuspendBlocked`: `ABTI_thread_block` returns
        some { s with
          thr := Function.update s.thr t { s.thr t with state := .running, blk := .out }
          pe := Function.update s.pe r (.running t) }
      else none
    | _ => none
  | .taskExit r =>
    match s.pe r with
    | .running u =>
      if (s.thr u).isTask then
        some { s with
          thr := Function.update s.thr u { s.thr u with state := .terminated }
          pe := Function.update s.pe r .sched }
      else none
    | _ => none
  | _ => none

/-- A ULT suspends: `ABTI_choose_fn` on its stack, then the post-switch action. The primary ULT has
no choose function; it always goes to the scheduler. -/
def choose (c : Config) (s : State) : Act → Option State
  | .suspend r k =>
    match s.pe r with
    | .running u =>
      if (s.thr u).isTask = false ∧ ((k = .block ∧ (s.thr u).blk = .flagged) ∨
          (k ≠ .block ∧ (s.thr u).blk = .out ∧ (k = .exit → (s.thr u).type ≠ .primary))) then
        some { s with
          pe := Function.update s.pe r
            (if (s.thr u).type = .primary then .leaving u k none else .choosing u k) }
      else none
    | _ => none
  | .choosePop r p i =>
    match s.pe r, (s.queue p)[i]? with
    | .choosing u k, some t =>
      if popTakes c s r p i ∧ s.held r = none then some (s.unlink c r p i t (.choose u k)) else none
    | _, _ => none
  | .chooseNone r =>
    match s.pe r with
    | .choosing u k => some { s with pe := Function.update s.pe r (.leaving u k none) }
    | _ => none
  | .choosePark r =>
    match s.pe r with
    | .popped t _ (.choose u k) =>
      if s.held r = none ∧ pinnedElsewhere c s t r = false then
        some { s with
          held := Function.update s.held r (some t)
          pe := Function.update s.pe r (.leaving u k none) }
      else none
    | _ => none
  | .chooseDirect r =>
    match s.pe r with
    | .popped t _ (.choose u k) =>
      if (s.thr t).isTask = false ∧ (s.thr t).type ≠ .primary then
        if (s.thr t).state = .ready then
          some { s with
            thr := Function.update s.thr t { s.thr t with state := .running, blk := .out }
            pe := Function.update s.pe r (.leaving u k (some t)) }
        else some { s with aborted := true }
      else none
    | _ => none
  | .postYield r w =>
    match s.pe r with
    | .leaving u .yield next =>
      if s.wake w = .idle then
        some { s with
          thr := Function.update s.thr u { s.thr u with state := .ready }
          wake := Function.update s.wake w (.enter u)
          pe := Function.update s.pe r (State.resume next) }
      else none
    | _ => none
  | .postBlock r =>
    match s.pe r with
    | .leaving u .block next =>
      some { s with
        thr := Function.update s.thr u { s.thr u with state := .blocked }
        pe := Function.update s.pe r (State.resume next) }
    | _ => none
  | .postExit r =>
    match s.pe r with
    | .leaving u .exit next =>
      some { s with
        thr := Function.update s.thr u { s.thr u with state := .terminated }
        pe := Function.update s.pe r (State.resume next) }
    | _ => none
  | _ => none

/-- One step of the runtime. After `CmiAbort` there is none. -/
def step (c : Config) (s : State) (a : Act) : Option State :=
  if s.aborted then none
  else match a with
    | .createUlt .. | .createTask .. => create s a
    | .awakenIfBlocked .. | .wakeExchange _ | .wakeSub _ | .wakeMigrate _ | .pushEnter _
    | .pushLink _ | .pushCount _ => awaken c s a
    | .migrateToPool .. | .associate .. => relocate s a
    | .blockAdd _ | .blockPool _ | .blockFlag _ => block s a
    | .pollPop .. | .popCount _ | .putBack .. | .takeHeld _ | .runPopped _ | .taskExit _ =>
      poll c s a
    | .suspend .. | .choosePop .. | .chooseNone _ | .choosePark _ | .chooseDirect _
    | .postYield .. | .postBlock _ | .postExit _ => choose c s a

/-- The runtime with primary pool `p`. -/
def system (c : Config) (p : Nat) : System State Act where
  init s := s = initial c p
  step := step c

/-- ULT 1 is created in pool 5, runs on PE 1 and blocks there. -/
def blockUlt : List Act :=
  [.createUlt 1 5 .named, .awakenIfBlocked 0 1, .wakeExchange 0, .wakeMigrate 0, .pushEnter 0,
   .pushLink 0, .pushCount 0, .pollPop 1 5 0, .popCount 1, .runPopped 1, .blockAdd 1, .blockPool 1,
   .blockFlag 1, .suspend 1 .block, .chooseNone 1, .postBlock 1]

theorem start_builtin (G : State → Act → Prop) :
    Reach (system .builtin 0) G (initial .builtin 0) := .start rfl

end Runtime
end AbtReconverse
