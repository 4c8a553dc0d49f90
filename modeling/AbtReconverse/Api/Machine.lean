import AbtReconverse.Basic
import AbtReconverse.Objects.Machine

/-!
# AbtReconverse.Api.Machine

The calls that create, replace, reuse and destroy schedulers and xstreams, with every error path, on
the objects of `Objects.Machine`. A call is a function from the state to its return code and the
state after it; a null handle, a null array and a null output pointer are arguments like any other.

Calls are executed one after another. `ABT_xstream_join` returns once the PE has given the lease
back, so the release handler is part of it. Besides the calls there are the end of a stacked
scheduler, the end of a user-defined scheduler's `run` (its runner gives the lease back without a
join, also that of an xstream that was joined before it got the scheduler), and whatever the work
units do to the contents of a pool.
-/

namespace AbtReconverse
namespace Api

open Lts

/-- Return codes; `callback r` is what the user's `init` returned. -/
inductive Code where
  | success
  | uninitialized
  | invArg
  | invPool
  | invSched
  | invSchedPredef
  | invXstream
  | invXstreamRank
  | callback (r : Int)
  deriving DecidableEq, Repr

structure State where
  objects : Objects.State
  /-- `in_pool` of a scheduler: it runs as a work unit of a pool. -/
  inPool : Nat → Bool
  /-- How often `ABTI_sched_destroy` was applied to a scheduler. -/
  destroyed : Nat → Nat
  /-- The runner of an xstream's user-defined main scheduler has been started and has not returned. -/
  runner : Nat → Bool
  /-- `ABTI_g->xstreams`. -/
  table : Nat → Option Nat
  numPes : Nat
  initialized : Bool

def initial (n : Nat) : State where
  objects := Objects.initial
  inPool := fun _ => false
  destroyed := fun _ => 0
  runner := fun _ => false
  table := Function.update (fun _ => none) 0 (some 0)
  numPes := n
  initialized := true

/-- `num_pools` and `pools`: a null array, or one whose entries may be null handles. -/
structure PoolArgs where
  num : Int
  pools : Option (List (Option Nat))
  deriving DecidableEq, Repr

/-- What `ABT_sched_create` reads of an `ABT_sched_def`: whether there is a `run`, and what `init`
returns, if there is one. -/
structure SchedDef where
  run : Bool
  init : Option Int
  deriving DecidableEq, Repr

/-- The pools of a new scheduler, a null handle for each one to be created. -/
def poolList (predef : SchedPredef) (args : PoolArgs) : List (Option Nat) :=
  match args.pools with
  | none => List.replicate (if predef = .prio then 3 else 1) none
  | some l => l.take args.num.toNat

namespace State

/-- `ABTI_sched_create_predef`; `predef` is `none` when it is out of range. The scheduler gets the
number `nextSched`; `automatic` and `user_def` are set as the caller does right after. -/
def schedCreatePredef (s : State) (predef : Option SchedPredef) (args : PoolArgs)
    (automatic userDef : Bool) : Except Code State :=
  match predef with
  | none => .error .invSchedPredef
  | some d =>
    if args.num < 0 then .error .invArg
    else .ok { s with objects := s.objects.newSched (poolList d args) automatic userDef }

/-- `ABTI_sched_destroy`. -/
def schedDestroy (s : State) (i : Nat) : State :=
  { s with
    objects := s.objects.destroySched i
    destroyed := Function.update s.destroyed i (s.destroyed i + 1) }

/-- `ABT_sched_create_basic`; `automatic` is the value of that key of the configuration. -/
def schedCreateBasic (s : State) (predef : Option SchedPredef) (args : PoolArgs)
    (automatic : Option Bool) (newsched : Bool) : Code × State :=
  if !s.initialized then (.uninitialized, s)
  else if !newsched then (.invArg, s)
  else
    match s.schedCreatePredef predef args (automatic.getD true) false with
    | .error e => (e, s)
    | .ok s' => (.success, s')

/-- `ABT_sched_create`. -/
def schedCreate (s : State) (sdef : Option SchedDef) (args : PoolArgs) (newsched : Bool) :
    Code × State :=
  if !s.initialized then (.uninitialized, s)
  else
    match sdef with
    | none => (.invSched, s)
    | some d =>
      if !newsched then (.invArg, s)
      else if !d.run then (.invSched, s)
      else
        match s.schedCreatePredef (some .basic) args false true with
        | .error e => (e, s)
        | .ok s' =>
          match d.init with
          | none => (.success, s')
          | some r =>
            if r = 0 then (.success, s') else (.callback r, s'.schedDestroy s.objects.nextSched)

/-- `ABT_sched_free`. -/
def schedFree (s : State) (sched : Option Nat) : Code × State :=
  if !s.initialized then (.uninitialized, s)
  else
    match sched with
    | none => (.invSched, s)
    | some i =>
      if (s.objects.sched i).usedBy.isSome || s.inPool i then (.invSched, s)
      else (.success, s.schedDestroy i)

/-- The first of `n` ranks without an xstream; rank 0 is the primary's. -/
def freeRank (n : Nat) (table : Nat → Option Nat) : Option Nat :=
  ((List.range n).drop 1).find? fun r => (table r).isNone

/-- `ABTI_xstream_lease`: the rank, if the wanted one (any, if negative) can be had. -/
def leaseRank (n : Nat) (table : Nat → Option Nat) (want : Int) : Option Nat :=
  if want < 0 then freeRank n table
  else if 0 < want ∧ want < n ∧ table want.toNat = none then some want.toNat
  else none

def xstreamLease (s : State) (i : Nat) (want : Int) : Code × State :=
  match leaseRank s.numPes s.table want with
  | none => (.invXstreamRank, s)
  | some r =>
    (.success, { s with
      objects := s.objects.newXstream i r
      runner := Function.update s.runner s.objects.nextXstream (s.objects.sched i).userDef
      table := Function.update s.table r (some s.objects.nextXstream) })

/-- The common part of `ABT_xstream_create` and `ABT_xstream_create_with_rank`: a null handle stands
for a new default scheduler. -/
def createOn (s : State) (sched : Option Nat) (want : Int) : Code × State :=
  match sched with
  | none =>
    match s.schedCreatePredef (some .default) ⟨0, none⟩ true false with
    | .error e => (e, s)
    | .ok s' => s'.xstreamLease s.objects.nextSched want
  | some i =>
    if (s.objects.sched i).usedBy.isSome then (.invSched, s) else s.xstreamLease i want

/-- `ABT_xstream_create`. -/
def xstreamCreate (s : State) (sched : Option Nat) (newxstream : Bool) : Code × State :=
  if !s.initialized then (.uninitialized, s)
  else if !newxstream then (.invArg, s)
  else s.createOn sched (-1)

/-- `ABT_xstream_create_with_rank`, which does not test its output pointer. -/
def xstreamCreateWithRank (s : State) (sched : Option Nat) (rank : Int) : Code × State :=
  if !s.initialized then (.uninitialized, s) else s.createOn sched rank

/-- `ABT_xstream_create_basic`. -/
def xstreamCreateBasic (s : State) (predef : Option SchedPredef) (args : PoolArgs)
    (newxstream : Bool) : Code × State :=
  if !s.initialized then (.uninitialized, s)
  else
    match s.schedCreatePredef predef args true false with
    | .error e => (e, s)
    | .ok s' => s'.xstreamCreate (some s.objects.nextSched) newxstream

/-- `ABT_xstream_set_main_sched`; `self` is the calling thread. -/
def setMainSched (s : State) (xstream sched self : Option Nat) : Code × State :=
  if !s.initialized then (.uninitialized, s)
  else
    match xstream, sched with
    | none, _ => (.invXstream, s)
    | some _, none => (.invSched, s)
    | some x, some i =>
      let old := (s.objects.xstream x).mainSched
      if (s.objects.sched i).usedBy ≠ none ∧ (s.objects.sched i).usedBy ≠ some x then (.invSched, s)
      else if old = i then (.success, s)
      else
        let s' := { s with
          objects := s.objects.replaceSched x i self
          runner := Function.update s.runner x (s.objects.sched i).userDef }
        (.success, if (s.objects.sched old).automatic then s'.schedDestroy old else s')

/-- `ABT_xstream_set_main_sched_basic`. -/
def setMainSchedBasic (s : State) (xstream : Option Nat) (predef : Option SchedPredef)
    (args : PoolArgs) (self : Option Nat) : Code × State :=
  match s.schedCreatePredef predef args true false with
  | .error e => (e, s)
  | .ok s' => s'.setMainSched xstream (some s.objects.nextSched) self

/-- `ABT_pool_add_sched`: the scheduler becomes a ULT of the pool. -/
def poolAddSched (s : State) (pool sched : Option Nat) : Code × State :=
  match pool, sched with
  | none, _ => (.invPool, s)
  | some _, none => (.invSched, s)
  | some p, some i =>
    if s.inPool i || (s.objects.sched i).usedBy.isSome then (.invSched, s)
    else if !s.initialized then (.uninitialized, s)
    else (.success, { s with
      objects := s.objects.newThread p .detached
      inPool := Function.update s.inPool i true })

/-- The PE gives the lease of `x` back and its release handler runs. -/
def release (s : State) (x : Nat) : State :=
  { s with
    objects := (s.objects.giveBack x).finish x
    runner := Function.update s.runner x false }

/-- `join_impl`, called on xstream `caller`. -/
def joinImpl (s : State) (x : Nat) (caller : Option Nat) : Code × State :=
  if (s.objects.xstream x).primary then (.invXstream, s)
  else if caller = some x then (.invXstream, s)
  else if (s.objects.xstream x).finished then (.success, s)
  else
    let o := s.objects.setXstream x { s.objects.xstream x with finishing := true }
    (.success, { s with objects := o }.release x)

/-- `ABT_xstream_join`. -/
def xstreamJoin (s : State) (xstream caller : Option Nat) : Code × State :=
  if !s.initialized then (.uninitialized, s)
  else
    match xstream with
    | none => (.invXstream, s)
    | some x => s.joinImpl x caller

/-- The end of `ABT_xstream_free`, after the join. -/
def dispose (s : State) (x : Nat) : State :=
  let i := (s.objects.xstream x).mainSched
  let s' := if (s.objects.sched i).automatic then s.schedDestroy i else s
  { s' with
    objects := s'.objects.setXstream x { s'.objects.xstream x with live := false }
    table := Function.update s'.table (s.objects.xstream x).rank none }

/-- `ABT_xstream_free`. -/
def xstreamFree (s : State) (xstream caller : Option Nat) : Code × State :=
  if !s.initialized then (.uninitialized, s)
  else
    match xstream with
    | none => (.invXstream, s)
    | some x =>
      let r := s.joinImpl x caller
      if r.1 = .success then (.success, r.2.dispose x) else r

/-- The user-defined main scheduler of `x` has returned from `run` (`sched_runner`). -/
def runnerEnd (s : State) (x : Nat) : State :=
  if (s.objects.xstream x).live ∧ s.runner x then s.release x else s

end State

inductive Call where
  | poolCreate (automatic : Bool)
  | schedCreate (sdef : Option SchedDef) (args : PoolArgs) (newsched : Bool)
  | schedCreateBasic (predef : Option SchedPredef) (args : PoolArgs) (automatic : Option Bool)
      (newsched : Bool)
  | schedFree (sched : Option Nat)
  | xstreamCreate (sched : Option Nat) (newxstream : Bool)
  | xstreamCreateWithRank (sched : Option Nat) (rank : Int)
  | xstreamCreateBasic (predef : Option SchedPredef) (args : PoolArgs) (newxstream : Bool)
  | setMainSched (xstream sched self : Option Nat)
  | setMainSchedBasic (xstream : Option Nat) (predef : Option SchedPredef) (args : PoolArgs)
      (self : Option Nat)
  | poolAddSched (pool sched : Option Nat)
  | xstreamJoin (xstream caller : Option Nat)
  | xstreamFree (xstream caller : Option Nat)
  /-- The end of `stacked_sched_main`. -/
  | stackedEnd (sched : Nat)
  | runnerEnd (xstream : Nat)
  /-- The work units of the program change what a pool holds. -/
  | work (pool : Nat) (units : List Nat) (blocked : Int)
  deriving DecidableEq, Repr

def call (s : State) : Call → Code × State
  | .poolCreate a => (.success, { s with objects := s.objects.newPool a })
  | .schedCreate d args o => s.schedCreate d args o
  | .schedCreateBasic d args a o => s.schedCreateBasic d args a o
  | .schedFree i => s.schedFree i
  | .xstreamCreate i o => s.xstreamCreate i o
  | .xstreamCreateWithRank i r => s.xstreamCreateWithRank i r
  | .xstreamCreateBasic d args o => s.xstreamCreateBasic d args o
  | .setMainSched x i t => s.setMainSched x i t
  | .setMainSchedBasic x d args t => s.setMainSchedBasic x d args t
  | .poolAddSched p i => s.poolAddSched p i
  | .xstreamJoin x y => s.xstreamJoin x y
  | .xstreamFree x y => s.xstreamFree x y
  | .stackedEnd i => (.success, { s with inPool := Function.update s.inPool i false })
  | .runnerEnd x => (.success, s.runnerEnd x)
  | .work p l b => (.success, { s with
      objects := s.objects.setPool p { s.objects.pool p with units := l, numBlocked := b } })

def system : System State Call where
  init := fun s => ∃ n, s = initial n
  step := fun s c => some (call s c).2

end Api
end AbtReconverse
