import Mathlib.Logic.Function.Basic
import AbtReconverse.Lib.Lts

/-!
# AbtReconverse.Objects.Machine

The object graph of the library: pools, schedulers, execution streams and thread descriptors, the
pointers between them, and the calls that create and destroy them. Objects are numbered in the
order of their creation and never reused, so a pointer to a destroyed object stays recognisable.

Each API call is one step, taken once it does not block any more: `xstreamFree` after the join,
`threadFree` after the thread has terminated. The runtime's own steps are `pop` and `run`, `wake`,
the two halves of giving a lease back (`idle` or `runnerEnd`, then `release`, the release handler)
and the runner ULT of a user-defined scheduler. A unit may be popped from any pool and run wherever
an xstream runs (`run (some x)`: `ABTI_tls_xstream` is `x`) or on a PE without a lease (`run none`):
main schedulers, stacked schedulers, `ABT_self_schedule` and the user's own `ABT_pool_pop` all come
down to this. A call is given live handles; a call that returns an error changes nothing and is
left out.
-/

namespace AbtReconverse
namespace Objects

open Lts

structure Pool where
  live : Bool
  automatic : Bool
  /-- `num_scheds`. -/
  numScheds : Int
  /-- `num_blocked`. -/
  numBlocked : Int
  units : List Nat
  deriving DecidableEq, Repr

/-- One pool in `ABTI_sched_destroy`: an automatic pool goes with its last scheduler, if nothing is
left in it. -/
def Pool.unhold (o : Pool) : Pool :=
  if o.numScheds - 1 = 0 ∧ o.automatic ∧ o.units = [] ∧ o.numBlocked = 0 then
    { o with numScheds := o.numScheds - 1, live := false }
  else { o with numScheds := o.numScheds - 1 }

structure Sched where
  live : Bool
  pools : List Nat
  automatic : Bool
  userDef : Bool
  usedBy : Option Nat
  deriving DecidableEq, Repr

structure Xstream where
  live : Bool
  rank : Nat
  mainSched : Nat
  primary : Bool
  finishing : Bool
  /-- `ABTI_xstream_release` has been called. -/
  released : Bool
  finished : Bool
  deriving DecidableEq, Repr

inductive Kind where
  | primary
  | named
  | detached
  /-- The ULT that runs a user-defined scheduler; not a member of its pool. -/
  | runner
  deriving DecidableEq, Repr

/-- `dead`: not created or released. -/
inductive Life where
  | dead
  | ready
  | running
  | blocked
  | terminated
  deriving DecidableEq, Repr

structure Thread where
  life : Life
  kind : Kind
  pool : Option Nat
  lastXstream : Option Nat
  migrateTo : Option Nat
  blockedPool : Option Nat
  deriving DecidableEq, Repr

/-- The pool a thread is pushed to when it is made ready. -/
def Thread.target (o : Thread) : Option Nat :=
  match o.migrateTo with
  | some p => some p
  | none => o.pool

structure State where
  pool : Nat → Pool
  sched : Nat → Sched
  xstream : Nat → Xstream
  thread : Nat → Thread
  nextPool : Nat
  nextSched : Nat
  nextXstream : Nat
  nextThread : Nat

def noPool : Pool := ⟨false, false, 0, 0, []⟩
def noSched : Sched := ⟨false, [], false, false, none⟩
def noXstream : Xstream := ⟨false, 0, 0, false, false, false, false⟩
def noThread : Thread := ⟨.dead, .named, none, none, none, none⟩

/-- After `ABT_init`: the primary xstream, its scheduler and pool, and the primary ULT. -/
def initial : State where
  pool := Function.update (fun _ => noPool) 0 ⟨true, true, 1, 0, []⟩
  sched := Function.update (fun _ => noSched) 0 ⟨true, [0], true, false, some 0⟩
  xstream := Function.update (fun _ => noXstream) 0 ⟨true, 0, 0, true, false, false, false⟩
  thread := Function.update (fun _ => noThread) 0 ⟨.running, .primary, some 0, none, none, none⟩
  nextPool := 1
  nextSched := 1
  nextXstream := 1
  nextThread := 1

inductive Act where
  | poolCreate (automatic : Bool)
  | poolFree (p : Nat)
  | schedCreate (pools : List (Option Nat)) (automatic userDef : Bool)
  | schedFree (s : Nat)
  | xstreamCreate (s rank : Nat)
  | xstreamJoin (x : Nat)
  | idle (x : Nat)
  | runnerStart (x : Option Nat) (s : Nat)
  | runnerEnd (x : Nat)
  | release (x : Nat)
  | xstreamFree (x : Nat)
  | setMainSched (x s : Nat) (self : Option Nat)
  | threadCreate (p : Nat) (kind : Kind)
  | threadCreateOnXstream (x : Nat) (kind : Kind)
  | pop (p t : Nat)
  | push (p t : Nat)
  | run (x : Option Nat) (t : Nat)
  | yield (t : Nat)
  | block (t : Nat)
  | wake (t : Nat)
  | exit (t : Nat)
  | threadFree (t : Nat)
  | migrateToPool (t p : Nat)
  | migrateToXstream (t x : Nat)
  | setAssociatedPool (t p : Nat)
  | finalize
  deriving DecidableEq, Repr

namespace State

def setPool (s : State) (p : Nat) (o : Pool) : State :=
  { s with pool := Function.update s.pool p o }

def setSched (s : State) (i : Nat) (o : Sched) : State :=
  { s with sched := Function.update s.sched i o }

def setXstream (s : State) (x : Nat) (o : Xstream) : State :=
  { s with xstream := Function.update s.xstream x o }

def setThread (s : State) (t : Nat) (o : Thread) : State :=
  { s with thread := Function.update s.thread t o }

def newPool (s : State) (automatic : Bool) : State :=
  { s with
    pool := Function.update s.pool s.nextPool ⟨true, automatic, 0, 0, []⟩
    nextPool := s.nextPool + 1 }

/-- `p->num_scheds.fetch_add(1)`. -/
def hold (s : State) (p : Nat) : State :=
  s.setPool p { s.pool p with numScheds := (s.pool p).numScheds + 1 }

def drop (s : State) (p : Nat) : State := s.setPool p (s.pool p).unhold

/-- `ABTI_sched_destroy`. -/
def destroySched (s : State) (i : Nat) : State :=
  ((s.sched i).pools.foldl drop s).setSched i { s.sched i with live := false }

/-- The pools of a new scheduler: a null handle stands for a new automatic pool. -/
def pools : State → List (Option Nat) → State × List Nat
  | s, [] => (s, [])
  | s, some p :: l => let r := pools s l; (r.1, p :: r.2)
  | s, none :: l => let r := pools (s.newPool true) l; (r.1, s.nextPool :: r.2)

/-- A scheduler that holds the pools `l`. -/
def addSched (s : State) (l : List Nat) (automatic userDef : Bool) : State :=
  { l.foldl hold s with
    sched := Function.update (l.foldl hold s).sched s.nextSched ⟨true, l, automatic, userDef, none⟩
    nextSched := s.nextSched + 1 }

/-- `ABTI_sched_create_predef`; `ABT_sched_create` then makes it user-defined. -/
def newSched (s : State) (l : List (Option Nat)) (automatic userDef : Bool) : State :=
  (s.pools l).1.addSched (s.pools l).2 automatic userDef

/-- `ABTI_xstream_lease`. -/
def newXstream (s : State) (i r : Nat) : State :=
  { s with
    xstream := Function.update s.xstream s.nextXstream ⟨true, r, i, false, false, false, false⟩
    sched := Function.update s.sched i { s.sched i with usedBy := some s.nextXstream }
    nextXstream := s.nextXstream + 1 }

/-- `ABTI_thread_wrap_runner`. -/
def newRunner (s : State) (x : Option Nat) (i : Nat) : State :=
  { s with
    thread := Function.update s.thread s.nextThread
      ⟨.running, .runner, (s.sched i).pools.head?, x, none, none⟩
    nextThread := s.nextThread + 1 }

def giveBack (s : State) (x : Nat) : State :=
  s.setXstream x { s.xstream x with released := true }

/-- `release_handler`. -/
def finish (s : State) (x : Nat) : State :=
  (s.setXstream x { s.xstream x with finished := true }).setSched (s.xstream x).mainSched
    { s.sched (s.xstream x).mainSched with usedBy := none }

/-- `ABTI_pool_associate` of a new descriptor and the push that makes it ready. -/
def newThread (s : State) (p : Nat) (k : Kind) : State :=
  let s' := s.setPool p { s.pool p with units := (s.pool p).units ++ [s.nextThread] }
  { s' with
    thread := Function.update s'.thread s.nextThread ⟨.ready, k, some p, none, none, none⟩
    nextThread := s.nextThread + 1 }

/-- A blocked ULT stops counting as blocked. -/
def unblock (s : State) (t : Nat) : State :=
  match (s.thread t).life, (s.thread t).blockedPool with
  | .blocked, some b => s.setPool b { s.pool b with numBlocked := (s.pool b).numBlocked - 1 }
  | _, _ => s

def push (s : State) (t : Nat) : Option Nat → State
  | some p => s.setPool p { s.pool p with units := (s.pool p).units ++ [t] }
  | none => s

/-- The unit has been popped. -/
def unqueued (s : State) (t : Nat) : Bool :=
  (List.range s.nextPool).all fun p => t ∉ (s.pool p).units

/-- `ABTI_thread_awaken_fn`: the blocked count, the deferred migration, the push. A runner goes
back to its PE instead (`runner_awaken_fn`). -/
def awaken (s : State) (t : Nat) : State :=
  if (s.thread t).kind = .runner then s.setThread t { s.thread t with life := .running }
  else ((s.unblock t).push t (s.thread t).target).setThread t
    { s.thread t with life := .ready, pool := (s.thread t).target, migrateTo := none }

/-- `pools_drained` of the scheduler of an xstream, on which no unit runs. -/
def drained (s : State) (x : Nat) : Bool :=
  ((s.sched (s.xstream x).mainSched).pools.all fun p =>
    (s.pool p).units = [] && (1 < (s.pool p).numScheds || (s.pool p).numBlocked = 0)) &&
  (List.range s.nextThread).all fun t =>
    !((s.thread t).life = .running && (s.thread t).lastXstream = some x)

/-- The caller of `ABT_xstream_set_main_sched` moves to the first of the new pools when its own is
one of the old ones. -/
def moveSelf (s : State) (old new : List Nat) : Option Nat → State
  | some t =>
    match (s.thread t).pool, new with
    | some q, p :: _ =>
      if q ∈ old then s.setThread t { s.thread t with pool := some p } else s
    | _, _ => s
  | none => s

/-- `ABT_xstream_set_main_sched` up to the destruction of the old scheduler. -/
def replaceSched (s : State) (x i : Nat) (self : Option Nat) : State :=
  let old := (s.xstream x).mainSched
  let s₁ := s.setXstream x { s.xstream x with mainSched := i }
  let s₂ := s₁.setSched i { s₁.sched i with usedBy := some x }
  let s₃ := s₂.setSched old { s₂.sched old with usedBy := none }
  s₃.moveSelf (s.sched old).pools (s.sched i).pools self

end State

def step (s : State) : Act → Option State
  | .poolCreate a => some (s.newPool a)
  | .poolFree p =>
    if (s.pool p).live then some (s.setPool p { s.pool p with live := false }) else none
  | .schedCreate l a u =>
    if ∀ o ∈ l, ∀ p ∈ o, (s.pool p).live then some (s.newSched l a u) else none
  | .schedFree i =>
    if (s.sched i).live ∧ (s.sched i).usedBy = none then some (s.destroySched i) else none
  | .xstreamCreate i r =>
    if (s.sched i).live ∧ (s.sched i).usedBy = none ∧ 0 < r ∧
        (∀ x < s.nextXstream, (s.xstream x).live → (s.xstream x).rank ≠ r) then
      some (s.newXstream i r)
    else none
  | .xstreamJoin x =>
    if (s.xstream x).live ∧ ¬ (s.xstream x).primary then
      some (s.setXstream x { s.xstream x with finishing := true })
    else none
  | .idle x =>
    if (s.xstream x).live ∧ ¬ (s.sched (s.xstream x).mainSched).userDef ∧
        (s.xstream x).finishing ∧ s.drained x then
      some (s.giveBack x)
    else none
  | .runnerStart x i =>
    if (s.sched i).live ∧ ∀ y ∈ x, (s.xstream y).live then some (s.newRunner x i) else none
  | .runnerEnd x =>
    if (s.xstream x).live ∧ (s.sched (s.xstream x).mainSched).userDef then some (s.giveBack x)
    else none
  | .release x =>
    if (s.xstream x).live ∧ (s.xstream x).released then some (s.finish x) else none
  | .xstreamFree x =>
    if (s.xstream x).live ∧ (s.xstream x).finished then
      let i := (s.xstream x).mainSched
      let s₁ := if (s.sched i).automatic then s.destroySched i else s
      some (s₁.setXstream x { s.xstream x with live := false })
    else none
  | .setMainSched x i self =>
    let old := (s.xstream x).mainSched
    if (s.xstream x).live ∧ (s.sched i).live ∧ i ≠ old ∧
        ((s.sched i).usedBy = none ∨ (s.sched i).usedBy = some x) ∧
        (∀ t ∈ self, (s.thread t).life = .running) then
      let s₁ := s.replaceSched x i self
      some (if (s.sched old).automatic then s₁.destroySched old else s₁)
    else none
  | .threadCreate p k =>
    if (s.pool p).live ∧ (k = .named ∨ k = .detached) then some (s.newThread p k) else none
  | .threadCreateOnXstream x k =>
    if (s.xstream x).live ∧ (k = .named ∨ k = .detached) then
      match (s.sched (s.xstream x).mainSched).pools with
      | p :: _ => some (s.newThread p k)
      | [] => none
    else none
  | .pop p t =>
    if t ∈ (s.pool p).units then
      some (s.setPool p { s.pool p with units := (s.pool p).units.erase t })
    else none
  | .push p t =>
    if (s.pool p).live ∧ (s.thread t).life = .ready ∧ s.unqueued t then
      some ((s.push t (some p)).setThread t { s.thread t with pool := some p })
    else none
  | .run x t =>
    if (∀ y ∈ x, (s.xstream y).live ∧ ¬ (s.xstream y).finished) ∧ (s.thread t).life = .ready ∧
        s.unqueued t then
      some (s.setThread t { s.thread t with life := .running, lastXstream := x })
    else none
  | .yield t => if (s.thread t).life = .running then some (s.awaken t) else none
  | .block t =>
    if (s.thread t).life = .running then
      match (s.thread t).kind, (s.thread t).pool with
      | .runner, _ => some (s.setThread t { s.thread t with life := .blocked })
      | _, some q =>
        some ((s.setPool q { s.pool q with numBlocked := (s.pool q).numBlocked + 1 }).setThread t
          { s.thread t with life := .blocked, blockedPool := some q })
      | _, none => none
    else none
  | .wake t => if (s.thread t).life = .blocked then some (s.awaken t) else none
  | .exit t =>
    if (s.thread t).life = .running then
      match (s.thread t).kind with
      | .primary => none
      | .named => some (s.setThread t { s.thread t with life := .terminated })
      | .detached | .runner => some (s.setThread t { s.thread t with life := .dead, pool := none })
    else none
  | .threadFree t =>
    if (s.thread t).life = .terminated ∧ (s.thread t).kind = .named then
      some (s.setThread t { s.thread t with life := .dead, pool := none })
    else none
  | .migrateToPool t p =>
    if (s.thread t).life ≠ .dead ∧ (s.pool p).live then
      some (s.setThread t { s.thread t with migrateTo := some p })
    else none
  | .migrateToXstream t x =>
    if (s.thread t).life ≠ .dead ∧ (s.xstream x).live then
      match (s.sched (s.xstream x).mainSched).pools with
      | p :: _ => some (s.setThread t { s.thread t with migrateTo := some p })
      | [] => none
    else none
  | .setAssociatedPool t p =>
    if (s.thread t).life ≠ .dead ∧ (s.pool p).live then
      some (s.setThread t { s.thread t with pool := some p })
    else none
  | .finalize =>
    if (s.xstream 0).live ∧ (s.thread 0).life = .running ∧
        (∀ x < s.nextXstream, x ≠ 0 → (s.xstream x).live = false) ∧
        (∀ p ∈ (s.sched (s.xstream 0).mainSched).pools, (s.pool p).units = []) then
      let s₁ := s.setThread 0 { s.thread 0 with life := .dead, pool := none }
      let s₂ := s₁.destroySched (s.xstream 0).mainSched
      some (s₂.setXstream 0 { s.xstream 0 with live := false })
    else none

def system : System State Act where
  init s := s = initial
  step := step

end Objects
end AbtReconverse
