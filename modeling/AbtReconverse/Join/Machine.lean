import AbtReconverse.Lib.Lts
import AbtReconverse.Lib.Update

/-!
# AbtReconverse.Join.Machine

Joining threads and execution streams. `ABTI_thread_join_impl` against `ABTI_thread_terminated` and
`join_impl` against `release_handler` are one protocol over a flag (`terminated`, `finished`), a
mutex `jm` and a list of joiners. They differ in what a join tests before it: a thread's join loads
the flag and then asks whether the caller is the thread itself; an xstream's join refuses the primary
xstream and the caller's own, loads the flag, and asks the scheduler to finish.

There are any number of threads and xstreams, callers, and ends: a thread ends once, but the message
that starts `release_handler` may be sent again, so an object has a run of its end for every number.
Every access to the flag, the mutex and the list is a step. What the ends do outside the protocol
(the scheduler's `used_by`, the state of the xstream, the release of a detached descriptor) is in
`Xstream.Release` and `Thread.Machine`.
-/

namespace AbtReconverse
namespace JoinProtocol

open Lts

/-- What is joined. -/
inductive Kind where
  /-- The caller `self` is the thread itself. -/
  | thread (self : Nat)
  | xstream (primary : Bool)
  deriving DecidableEq, Repr

structure Config where
  kind : Nat → Kind
  /-- `ABTI_can_block`: the caller is a ULT. -/
  canBlock : Nat → Bool

/-- Who has `jm`. `callback`: `unlock_mutex` of a suspended joiner. -/
inductive Hold where
  | caller (j : Nat)
  | callback (j : Nat)
  | exit (k : Nat)
  deriving DecidableEq, Repr

structure Obj where
  /-- `terminated` of a thread, `finished` of an xstream. -/
  flag : Bool
  jm : Option Hold
  joiners : List Nat
  /-- Of an xstream. -/
  finishing : Bool
  /-- `ABTI_SCHED_REQ_FINISH` of an xstream's scheduler. -/
  request : Bool
  deriving DecidableEq, Repr

inductive Code where
  | success
  | invThread
  | invXstream
  deriving DecidableEq, Repr

/-- Where a caller is in the join of object `o`. -/
inductive Pc where
  | idle
  | check (o : Nat) (here : Bool)
  | load (o : Nat)
  | self (o : Nat)
  | finish (o : Nat)
  | request (o : Nat)
  | lock (o : Nat)
  | locked (o : Nat)
  | unlock (o : Nat)
  | push (o : Nat)
  | suspend (o : Nat)
  | blocked (o : Nat)
  | spin (o : Nat)
  deriving DecidableEq, Repr

/-- Where a run of `ABTI_thread_terminated` or `release_handler` is. -/
inductive ExitPc where
  | ready
  | lock
  | store
  | swap
  | unlock (joiners : List Nat)
  | wake (joiners : List Nat)
  | done
  deriving DecidableEq, Repr

structure State where
  obj : Nat → Obj
  pc : Nat → Pc
  exit : Nat → Nat → ExitPc
  /-- `CTH_STATE_BLOCKED`. -/
  blk : Nat → Bool
  /-- The last join that returned, and its code. -/
  ret : Nat → Option (Nat × Code)
  /-- History: how often a caller entered the list of an object. -/
  entered : Nat → Nat → Nat
  /-- History: how often a caller was passed to `CthAwakenIfBlocked` by an end of an object. -/
  awakened : Nat → Nat → Nat

def initial : State where
  obj := fun _ => ⟨false, none, [], false, false⟩
  pc := fun _ => .idle
  exit := fun _ _ => .ready
  blk := fun _ => false
  ret := fun _ => none
  entered := fun _ _ => 0
  awakened := fun _ _ => 0

namespace State

def setObj (s : State) (o : Nat) (x : Obj) : State := { s with obj := Function.update s.obj o x }

def setPc (s : State) (j : Nat) (p : Pc) : State := { s with pc := Function.update s.pc j p }

def setExit (s : State) (o k : Nat) (p : ExitPc) : State :=
  { s with exit := Function.update s.exit o (Function.update (s.exit o) k p) }

/-- The join of `o` returns. -/
def back (s : State) (j o : Nat) (code : Code) : State :=
  { s.setPc j .idle with ret := Function.update s.ret j (some (o, code)) }

end State

/-- The first statement of the join. -/
def Kind.start (o : Nat) (here : Bool) : Kind → Pc
  | .thread _ => .load o
  | .xstream _ => .check o here

/-- After a load of the flag that found it 0. -/
def Kind.unset (o : Nat) : Kind → Pc
  | .thread _ => .self o
  | .xstream _ => .finish o

/-- `if (ABTI_can_block(self))`. -/
def Config.wait (c : Config) (j o : Nat) : Pc := if c.canBlock j then .lock o else .spin o

def joinStep (c : Config) (s : State) (j : Nat) : Option State :=
  match s.pc j with
  | .idle => none
  | .check o here =>
    if c.kind o = .xstream true ∨ here then some (s.back j o .invXstream)
    else some (s.setPc j (.load o))
  | .load o =>
    if (s.obj o).flag then some (s.back j o .success) else some (s.setPc j ((c.kind o).unset o))
  | .self o =>
    if c.kind o = .thread j then some (s.back j o .invThread) else some (s.setPc j (c.wait j o))
  | .finish o => some ((s.setObj o { s.obj o with finishing := true }).setPc j (.request o))
  | .request o => some ((s.setObj o { s.obj o with request := true }).setPc j (c.wait j o))
  | .lock o =>
    if (s.obj o).jm = none then
      some ((s.setObj o { s.obj o with jm := some (.caller j) }).setPc j (.locked o))
    else none
  | .locked o => some (s.setPc j (if (s.obj o).flag then .unlock o else .push o))
  | .unlock o => some ((s.setObj o { s.obj o with jm := none }).back j o .success)
  | .push o =>
    some ({ s.setObj o { s.obj o with joiners := (s.obj o).joiners ++ [j] } with
      entered := bump s.entered o j }.setPc j (.suspend o))
  | .suspend o =>
    -- `CthSuspendBlocked`: from here on the callback may run
    some ({ s.setObj o { s.obj o with jm := some (.callback j) } with
      blk := Function.update s.blk j true }.setPc j (.blocked o))
  | .blocked o => if s.blk j then none else some (s.back j o .success)
  | .spin o => if (s.obj o).flag then some (s.back j o .success) else none

/-- The loop over the joiners. -/
def ExitPc.wakeRest : List Nat → ExitPc
  | [] => .done
  | j :: js => .wake (j :: js)

def exitStep (s : State) (o k : Nat) : Option State :=
  match s.exit o k with
  | .ready => some (s.setExit o k .lock)
  | .lock =>
    if (s.obj o).jm = none then
      some ((s.setObj o { s.obj o with jm := some (.exit k) }).setExit o k .store)
    else none
  | .store => some ((s.setObj o { s.obj o with flag := true }).setExit o k .swap)
  | .swap =>
    some ((s.setObj o { s.obj o with joiners := [] }).setExit o k (.unlock (s.obj o).joiners))
  | .unlock js => some ((s.setObj o { s.obj o with jm := none }).setExit o k (.wakeRest js))
  | .wake [] => none
  | .wake (j :: js) =>
    -- `CthAwakenIfBlocked`
    some ({ s with
      blk := Function.update s.blk j false
      awakened := bump s.awakened o j }.setExit o k (.wakeRest js))
  | .done => none

inductive Act where
  /-- A join of `o`; `here`: the caller runs on the xstream. -/
  | call (j o : Nat) (here : Bool)
  | join (j : Nat)
  | callback (o : Nat)
  | exit (o k : Nat)
  deriving DecidableEq, Repr

def step (c : Config) (s : State) : Act → Option State
  | .call j o here =>
    if s.pc j = .idle then
      some ({ s with ret := Function.update s.ret j none }.setPc j ((c.kind o).start o here))
    else none
  | .join j => joinStep c s j
  | .callback o =>
    match (s.obj o).jm with
    | some (.callback _) => some (s.setObj o { s.obj o with jm := none })
    | _ => none
  | .exit o k => exitStep s o k

def system (c : Config) : System State Act where
  init s := s = initial
  step := step c

end JoinProtocol
end AbtReconverse
