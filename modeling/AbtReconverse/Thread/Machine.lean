import AbtReconverse.Basic
import AbtReconverse.Join.Protocol

/-!
# AbtReconverse.Thread.Machine

The end of a thread: `ABTI_thread_terminated`, `ABT_thread_join` and `ABT_thread_free` over any
number of threads and callers, with the descriptor memory they share. What joins and ends do to
`terminated`, `jm` and `joiners` is the protocol of `Join.Machine`, so a state here is a state of that
protocol together with what surrounds it: the type test and the release at the end of
`ABTI_thread_terminated`, what `ABT_thread_free` does after its join, and the descriptors.

A descriptor is a piece of memory that is recycled through the per-OS-thread cache of
`ABTI_thread_alloc` and `ABTI_thread_release`. A unit keeps its number for good (`id`), a handle is
the address of its descriptor, and `mem` records, as history, which unit lives at an address. The
objects of the protocol are the units; a step that uses the descriptor of a unit when another one, or
none, lives there shows in `mem`, and the type test reads the type at the address, whoever lives
there. Which units are tasks is fixed beforehand (`task`).
-/

namespace AbtReconverse
namespace Join

open Lts

/-- Who calls: a work unit, or an external thread. -/
inductive Caller where
  | unit (u : Nat)
  | ext (n : Nat)
  deriving DecidableEq, Repr

/-- The caller's number in the protocol. -/
def Caller.num : Caller → Nat
  | .unit u => 2 * u
  | .ext n => 2 * n + 1

/-- An OS thread. -/
inductive Os where
  | pe (r : Nat)
  | ext (n : Nat)
  deriving DecidableEq, Repr

/-- The OS thread of a caller; a unit runs on some PE `r`. -/
def Caller.os (r : Nat) : Caller → Os
  | .unit _ => .pe r
  | .ext n => .ext n

/-- Where a new unit is allocated: `thread_create_impl` forwards a call from outside the PEs to PE 1
(there are at least two), `ABT_task_create` does not. -/
def Caller.creates (r : Nat) (isTask : Bool) : Caller → Os
  | .unit _ => .pe r
  | .ext n => if isTask then .ext n else .pe 1

/-- A unit is joined as a thread; a ULT can block, a task and an external thread cannot. -/
def protocol (task : Nat → Bool) : JoinProtocol.Config where
  kind u := .thread (Caller.unit u).num
  canBlock m := m % 2 == 0 && !task (m / 2)

/-- History: what a descriptor's memory is used for. -/
inductive Mem where
  | raw
  | cached
  | unit (u : Nat)
  deriving DecidableEq, Repr

/-- Where a unit is; `ending`: in `ABTI_thread_terminated`, up to the test of `type`. -/
inductive ExitPc where
  | running
  | ending
  | release
  | done
  deriving DecidableEq, Repr

/-- Where a caller is in `ABT_thread_free`. -/
inductive FreePc where
  | out
  | joining (u : Nat)
  | destroy (u : Nat)
  deriving DecidableEq, Repr

structure State where
  join : JoinProtocol.State
  /-- `type` of the descriptor at an address. -/
  type : Nat → ThreadType
  /-- `ABTI_thread_cache` of each OS thread, last entry first. -/
  cache : Os → List Nat
  /-- `next_id`. -/
  nextId : Nat
  /-- The descriptor of a unit: what its handle points to. -/
  addr : Nat → Nat
  exit : Nat → ExitPc
  free : Caller → FreePc
  /-- History. -/
  mem : Nat → Mem
  /-- History: the type a unit was created with. -/
  kind : Nat → ThreadType
  /-- History: `ABT_thread_free` was called for the unit. -/
  freeing : Nat → Bool

def initial : State where
  join := JoinProtocol.initial
  type := fun _ => .named
  cache := fun _ => []
  nextId := 0
  addr := fun _ => 0
  exit := fun _ => .running
  free := fun _ => .out
  mem := fun _ => .raw
  kind := fun _ => .named
  freeing := fun _ => false

inductive Act where
  /-- `r` is the PE of the caller, here and below. -/
  | create (j : Caller) (r a : Nat) (type : ThreadType)
  /-- `ABT_thread_join`, or `ABT_thread_free` if `free`. -/
  | call (j : Caller) (u : Nat) (free : Bool)
  | join (j : Caller)
  | callback (u : Nat)
  | free (j : Caller) (r : Nat)
  | exit (u : Nat)
  | terminated (u r : Nat)
  deriving DecidableEq, Repr

namespace State

def setExit (s : State) (u : Nat) (pc : ExitPc) : State :=
  { s with exit := Function.update s.exit u pc }

def setFree (s : State) (j : Caller) (pc : FreePc) : State :=
  { s with free := Function.update s.free j pc }

/-- `ABTI_thread_alloc`: the last cached descriptor, or new memory (any that is not in use). -/
def alloc (s : State) (os : Os) (a : Nat) : Option State :=
  match s.cache os with
  | m :: rest => if a = m then some { s with cache := Function.update s.cache os rest } else none
  | [] => if s.mem a = .raw then some s else none

/-- `ABTI_thread_release`. -/
def release (s : State) (os : Os) (a : Nat) : State :=
  if (s.cache os).length < 256 then
    { s with
      cache := Function.update s.cache os (a :: s.cache os)
      mem := Function.update s.mem a .cached }
  else { s with mem := Function.update s.mem a .raw }

/-- `ABT_thread_create` or `ABT_task_create`, up to the state that exit and join see. -/
def create (s : State) (a : Nat) (type : ThreadType) : State :=
  { s with
    type := Function.update s.type a type
    nextId := s.nextId + 1
    addr := Function.update s.addr s.nextId a
    mem := Function.update s.mem a (.unit s.nextId)
    kind := Function.update s.kind s.nextId type }

/-- A caller that can make calls: a unit that has not ended, or an external thread. -/
def active (s : State) : Caller → Bool
  | .unit v => v < s.nextId ∧ s.exit v = .running
  | .ext _ => true

end State

/-- `ABT_thread_join`, `ABT_thread_free`: the checks before the join; a call that fails them returns
and changes nothing. The handle is valid, and it is passed to `ABT_thread_free` once. -/
def call (task : Nat → Bool) (s : State) (j : Caller) (u : Nat) (free : Bool) : Option State :=
  if s.free j = .out ∧ s.active j ∧ s.mem (s.addr u) = .unit u ∧ ¬ (free ∧ s.freeing u) then
    if s.type (s.addr u) ≠ .named ∨ free ∧ j = .unit u then some s
    else
      (JoinProtocol.step (protocol task) s.join (.call j.num u false)).map fun J =>
        { s with
          join := J
          free := Function.update s.free j (if free then .joining u else .out)
          freeing := Function.update s.freeing u (s.freeing u || free) }
  else none

/-- `ABT_thread_free` after its join: `ABTI_thread_destroy`. -/
def freeStep (s : State) (j : Caller) (r : Nat) : Option State :=
  match s.free j with
  | .out => none
  | .joining u =>
    if s.join.pc j.num = .idle then
      some (s.setFree j (if s.join.ret j.num = some (u, .success) then .destroy u else .out))
    else none
  | .destroy u => some ((s.setFree j .out).release (j.os r) (s.addr u))

def exitStep (s : State) (u r : Nat) : Option State :=
  match s.exit u with
  | .running | .done => none
  | .ending =>
    if s.join.exit u 0 = .done then
      some (s.setExit u (if s.type (s.addr u) = .detached then .release else .done))
    else (JoinProtocol.exitStep s.join u 0).map fun J => { s with join := J }
  | .release => some ((s.setExit u .done).release (.pe r) (s.addr u))

def step (task : Nat → Bool) (s : State) : Act → Option State
  | .create j r a type => (s.alloc (j.creates r (task s.nextId)) a).map fun s => s.create a type
  | .call j u free => call task s j u free
  | .join j =>
    (JoinProtocol.step (protocol task) s.join (.join j.num)).map fun J => { s with join := J }
  | .callback u =>
    (JoinProtocol.step (protocol task) s.join (.callback u)).map fun J => { s with join := J }
  | .free j r => freeStep s j r
  | .exit u =>
    if u < s.nextId ∧ s.exit u = .running ∧ s.free (.unit u) = .out ∧
        s.join.pc (Caller.unit u).num = .idle then
      some (s.setExit u .ending)
    else none
  | .terminated u r => exitStep s u r

def system (task : Nat → Bool) : System State Act where
  init s := s = initial
  step := step task

end Join
end AbtReconverse
