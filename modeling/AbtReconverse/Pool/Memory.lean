import Mathlib.Logic.Function.Basic
import AbtReconverse.Basic

/-!
# AbtReconverse.Pool.Memory

The storage of the built-in pools, pointer by pointer, one operation at a time: `ABTI_pool::push`,
`pop`, `size` and `remove_unit` on both representations, and what `ABT_pool_push`,
`ABT_pool_remove` and the end of a thread do to it.

* A pool of access PRIV, SPSC or MPSC is Vyukov's queue: the nodes of its units, linked by `next`
  from `head` to `tail`, and a stub. `remove_unit` only marks a unit; a later pop discards it.
* A pool of access SPMC or MPMC is a doubly linked list of its units, from `lhead` to `ltail`.

All pools share the descriptors: a unit has one `qn`, one pair of list links, one `in_pool`. Which
units are pinned to another PE (`pinned_elsewhere`) is a parameter of a pop. `CmiAbort` and the null
owner of a stub are faults; the loop of `pop_mpsc` has fuel, and running out of it is a fault too.
The interleavings of producers and consumers are in `Pool.Mpsc`.
-/

namespace AbtReconverse
namespace Storage

/-- `ABTI_qnode`: the stub of a pool, or the `qn` of a unit. -/
inductive Node where
  | stub (p : Nat)
  | unit (t : Nat)
  deriving DecidableEq, Repr

structure Config where
  access : Nat → PoolAccess

/-- `single_consumer`. -/
def Config.single (c : Config) (p : Nat) : Bool := (c.access p).singleConsumer

structure State where
  next : Node → Option Node
  head : Nat → Node
  tail : Nat → Node
  lhead : Nat → Option Nat
  ltail : Nat → Option Nat
  count : Nat → Int
  lprev : Nat → Option Nat
  lnext : Nat → Option Nat
  inPool : Nat → Bool
  removed : Nat → Bool
  /-- `t->pool`. -/
  pool : Nat → Option Nat

def initial : State where
  next := fun _ => none
  head := .stub
  tail := .stub
  lhead := fun _ => none
  ltail := fun _ => none
  count := fun _ => 0
  lprev := fun _ => none
  lnext := fun _ => none
  inPool := fun _ => false
  removed := fun _ => false
  pool := fun _ => none

inductive Fault where
  /-- `CmiAbort`: a unit was pushed into a pool it is already queued in. -/
  | abort
  | nullOwner
  | spin
  deriving DecidableEq, Repr

namespace State

/-- `count.fetch_add`. -/
def addCount (s : State) (p : Nat) (d : Int) : State :=
  { s with count := Function.update s.count p (s.count p + d) }

def setInPool (s : State) (t : Nat) (b : Bool) : State :=
  { s with inPool := Function.update s.inPool t b }

def setRemoved (s : State) (t : Nat) (b : Bool) : State :=
  { s with removed := Function.update s.removed t b }

/-- Exchange the tail and link. -/
def pushMpsc (s : State) (p : Nat) (n : Node) : State :=
  { s with
    next := Function.update (Function.update s.next n none) (s.tail p) (some n)
    tail := Function.update s.tail p n }

def pushList (s : State) (p t : Nat) : State :=
  { s with
    lprev := Function.update s.lprev t (s.ltail p)
    lnext := match s.ltail p with
      | some z => Function.update (Function.update s.lnext t none) z (some t)
      | none => Function.update s.lnext t none
    lhead := match s.ltail p with
      | some _ => s.lhead
      | none => Function.update s.lhead p (some t)
    ltail := Function.update s.ltail p (some t) }

def listUnlink (s : State) (p t : Nat) : State :=
  let s₁ := match s.lprev t with
    | some u => { s with lnext := Function.update s.lnext u (s.lnext t) }
    | none => { s with lhead := Function.update s.lhead p (s.lnext t) }
  let s₂ := match s₁.lnext t with
    | some v => { s₁ with lprev := Function.update s₁.lprev v (s₁.lprev t) }
    | none => { s₁ with ltail := Function.update s₁.ltail p (s₁.lprev t) }
  { s₂ with
    lprev := Function.update s₂.lprev t none
    lnext := Function.update s₂.lnext t none }

end State

/-- `ABTI_pool::push`, up to the wake-up of idle PEs. -/
def push (c : Config) (s : State) (p t : Nat) : Except Fault State :=
  if s.inPool t then .error .abort
  else
    let s := s.setInPool t true
    let s := if c.single p then s.pushMpsc p (.unit t) else s.pushList p t
    .ok (s.addCount p 1)

/-- `pop_list`: the first unit, or the second if the first is pinned elsewhere. -/
def popList (pinned : Nat → Bool) (s : State) (p : Nat) : State × Option Nat :=
  let first := match s.lhead p with
    | some t => if pinned t then s.lnext t else some t
    | none => none
  match first with
  | some t => (((s.listUnlink p t).setInPool t false).addCount p (-1), some t)
  | none => (s, none)

/-- `pop_mpsc`: the node at the head, past the stub. -/
def firstNode (s : State) (p : Nat) : State × Option Node :=
  if s.head p = .stub p then
    match s.next (.stub p) with
    | none => (s, none)
    | some v => ({ s with head := Function.update s.head p v }, some v)
  else (s, some (s.head p))

/-- `pop_mpsc`: the node behind `h`; if `h` is the last one, the stub is put behind it. -/
def successor (s : State) (p : Nat) (h : Node) : State × Option Node :=
  match s.next h with
  | some v => (s, some v)
  | none =>
    if h ≠ s.tail p then (s, none)
    else (s.pushMpsc p (.stub p), (s.pushMpsc p (.stub p)).next h)

/-- `pop_mpsc`, one turn of the loop for every unit of fuel. -/
def popMpsc (c : Config) (pinned : Nat → Bool) : Nat → State → Nat →
    Except Fault (State × Option Nat)
  | 0, _, _ => .error .spin
  | n + 1, s, p =>
    match firstNode s p with
    | (s, none) => .ok (s, none)
    | (s, some h) =>
      match successor s p h with
      | (s, none) => .ok (s, none)
      | (s, some v) =>
        match h with
        | .stub _ => .error .nullOwner
        | .unit t =>
          let s := { s with head := Function.update s.head p v }.setInPool t false
          -- `ABT_pool_remove`: count already adjusted
          if s.removed t then popMpsc c pinned n (s.setRemoved t false) p
          else if pinned t then (push c (s.addCount p (-1)) p t).map fun s => (s, none)
          else .ok (s.addCount p (-1), some t)

/-- `ABTI_pool::pop` of a built-in pool. -/
def pop (c : Config) (pinned : Nat → Bool) (fuel : Nat) (s : State) (p : Nat) :
    Except Fault (State × Option Nat) :=
  if c.single p then popMpsc c pinned fuel s p else .ok (popList pinned s p)

/-- `ABTI_pool::size`. -/
def size (s : State) (p : Nat) : Nat := if 0 < s.count p then (s.count p).toNat else 0

def removeUnit (c : Config) (s : State) (p t : Nat) : State × Bool :=
  if s.inPool t ∧ s.pool t = some p then
    if c.single p then
      if s.removed t then (s, false) else ((s.setRemoved t true).addCount p (-1), true)
    else (((s.listUnlink p t).setInPool t false).addCount p (-1), true)
  else (s, false)

/-- `ABT_pool_push`: the unit is associated with the pool and pushed. -/
def poolPush (c : Config) (s : State) (p t : Nat) : Except Fault State :=
  push c { s with pool := Function.update s.pool t (some p) } p t

/-- `ABTI_thread_destroy`; the memory is ready for the next descriptor (`ABTI_thread_alloc` runs the
constructor). -/
def free (s : State) (t : Nat) : State :=
  { s with
    next := Function.update s.next (.unit t) none
    lprev := Function.update s.lprev t none
    lnext := Function.update s.lnext t none
    inPool := Function.update s.inPool t false
    removed := Function.update s.removed t false
    pool := Function.update s.pool t none }

inductive Op where
  | push (p t : Nat)
  | pop (p : Nat)
  | remove (p t : Nat)
  | size (p : Nat)
  | free (t : Nat)
  deriving DecidableEq, Repr

/-- What an operation gives back. -/
inductive Out where
  | done
  | popped (t : Option Nat)
  | size (n : Nat)
  deriving DecidableEq, Repr

/-- One operation; no unit is pinned. -/
def step (c : Config) (fuel : Nat) (s : State) : Op → Except Fault (State × Out)
  | .push p t => (poolPush c s p t).map fun s => (s, .done)
  | .pop p => (pop c (fun _ => false) fuel s p).map fun r => (r.1, .popped r.2)
  | .remove p t => .ok ((removeUnit c s p t).1, .done)
  | .size p => .ok (s, .size (size s p))
  | .free t => .ok (free s t, .done)

/-- The operations in order; what they give back, or the first fault. -/
def run (c : Config) (fuel : Nat) : State → List Op → Except Fault (List Out)
  | _, [] => .ok []
  | s, o :: os => do
    let r ← step c fuel s o
    let outs ← run c fuel r.1 os
    return r.2 :: outs

end Storage
end AbtReconverse
