import Mathlib.Logic.Function.Basic
import AbtReconverse.Lib.Lts

/-!
# AbtReconverse.Pool.Mpsc

The lock-free path of a built-in pool (access PRIV, SPSC, MPSC): `ABTI_pool::push`, `pop_mpsc`,
`remove_unit` and `size`, for any number of producers and consumers.

The queue is Vyukov's: a stub node and the nodes of the units, `tail` swung by producers, `head`
moved by whoever has the spinlock `lk`. Each access to a shared variable is a step of its own, in
the order of the source. A pool of units that do not include the primary ULT, so a pop never puts
its unit back.

A push is followed up to its link under the name of its unit, which no other push can have before
that. Once linked the unit may be popped and pushed again before `count.fetch_add`; of the pushes
that are there, only the number matters (`linked`).

The fields from `num` on are history and are read by no step: a push is a unit and the number of
its push (`Push`), `pushed` lists the pushes in the order of their tail exchanges, `out` those a pop
took off with the consumer that returns them (`none`: discarded), `hits` those that `remove_unit`
marked.
-/

namespace AbtReconverse
namespace Mpsc

open Lts

/-- `ABTI_qnode`; the stub has no owner. -/
inductive Node where
  | stub
  | unit (t : Nat)
  deriving DecidableEq, Repr

/-- Push number `num` of unit `unit`. -/
structure Push where
  unit : Nat
  num : Nat
  deriving DecidableEq, Repr

/-- Where the push of a unit is, after its exchange of `in_pool` and up to its link. -/
inductive PushPc where
  | idle
  | clear
  | exchange
  | link (prev : Node)
  deriving DecidableEq, Repr

/-- Where a consumer is: in `pop_mpsc` or in `remove_unit`. From `popHead` to `popUnlock` and from
`remTest` to `remUnlock` it has `lk`. -/
inductive ConsPc where
  | idle
  | popLock
  | popHead
  | popSecond (h : Node)
  | popTest (h : Node) (next : Option Node)
  | popStub (h : Node)
  | popSwap (h : Node)
  | popLink (h prev : Node)
  | popReload (h : Node)
  | popTake (h next : Node)
  | popClear (p : Push)
  | popFlag (p : Push)
  | popUnlock (p : Option Push)
  | popCount (p : Push)
  | remLock (t : Nat)
  | remTest (t : Nat)
  | remMark (t : Nat)
  | remUnlock (hit : Bool)
  | remCount
  deriving DecidableEq, Repr

/-- What a consumer's last call returned. -/
inductive Result where
  | popped (p : Option Push)
  | removed (hit : Bool)
  deriving DecidableEq, Repr

structure State where
  next : Node → Option Node
  head : Node
  tail : Node
  inPool : Nat → Bool
  removed : Nat → Bool
  /-- `t->pool == this`. -/
  mine : Nat → Bool
  count : Int
  lk : Option Nat
  push : Nat → PushPc
  /-- The pushes between their link and their `count.fetch_add`. -/
  linked : Nat
  cons : Nat → ConsPc
  result : Nat → Option Result
  /-- `CmiAbort` in `push`: the unit is already queued. -/
  aborted : Bool
  /-- A consumer has dereferenced the owner of the stub. -/
  crashed : Bool
  num : Nat → Nat
  pushed : List Push
  out : List (Push × Option Nat)
  hits : List Push

def initial (mine : Nat → Bool) : State where
  next := fun _ => none
  head := .stub
  tail := .stub
  inPool := fun _ => false
  removed := fun _ => false
  mine := mine
  count := 0
  lk := none
  push := fun _ => .idle
  linked := 0
  cons := fun _ => .idle
  result := fun _ => none
  aborted := false
  crashed := false
  num := fun _ => 0
  pushed := []
  out := []
  hits := []

inductive Act where
  | enter (t : Nat)
  | push (t : Nat)
  /-- `count.fetch_add` of a push. -/
  | count
  | pop (c : Nat)
  | remove (c t : Nat)
  | cons (c : Nat)
  deriving DecidableEq, Repr

namespace State

def setPush (s : State) (t : Nat) (pc : PushPc) : State :=
  { s with push := Function.update s.push t pc }

def setCons (s : State) (c : Nat) (pc : ConsPc) : State :=
  { s with cons := Function.update s.cons c pc }

def setNext (s : State) (n : Node) (v : Option Node) : State :=
  { s with next := Function.update s.next n v }

/-- The last push of a unit. -/
def cur (s : State) (t : Nat) : Push := ⟨t, s.num t⟩

/-- A consumer's call returns. -/
def back (s : State) (c : Nat) (r : Result) : State :=
  { s with
    cons := Function.update s.cons c .idle
    result := Function.update s.result c (some r) }

/-- `ABTI_pool::size`. -/
def size (s : State) : Nat := if 0 < s.count then s.count.toNat else 0

/-- The pushes whose exchange is done and which no pop has taken. -/
def queue (s : State) : List Push := s.pushed.drop s.out.length

/-- The queued pushes that `remove_unit` has not marked. -/
def ready (s : State) : List Push := s.queue.filter fun p => !s.removed p.unit

end State

/-- The exchange of `in_pool`. -/
def enter (s : State) (t : Nat) : State :=
  if s.inPool t then { s with aborted := true }
  else
    { s with
      inPool := Function.update s.inPool t true
      num := Function.update s.num t (s.num t + 1) }.setPush t .clear

def pushStep (s : State) (t : Nat) : Option State :=
  match s.push t with
  | .idle => none
  | .clear => some ((s.setNext (.unit t) none).setPush t .exchange)
  | .exchange =>
    some ({ s with
      tail := .unit t
      pushed := s.pushed ++ [s.cur t] }.setPush t (.link s.tail))
  | .link prev =>
    some ({ s.setNext prev (some (.unit t)) with linked := s.linked + 1 }.setPush t .idle)

def countStep (s : State) : Option State :=
  if 0 < s.linked then some { s with count := s.count + 1, linked := s.linked - 1 } else none

def popStep (s : State) (c : Nat) : ConsPc → Option State
  | .popLock =>
    if s.lk = none then some ({ s with lk := some c }.setCons c .popHead) else none
  | .popHead =>
    if s.head = .stub then
      match s.next .stub with
      | none => some (s.setCons c (.popUnlock none))
      | some v => some ({ s with head := v }.setCons c (.popSecond v))
    else some (s.setCons c (.popTest s.head (s.next s.head)))
  | .popSecond h => some (s.setCons c (.popTest h (s.next h)))
  | .popTest h (some v) => some (s.setCons c (.popTake h v))
  | .popTest h none =>
    if h ≠ s.tail then some (s.setCons c (.popUnlock none)) else some (s.setCons c (.popStub h))
  | .popStub h => some ((s.setNext .stub none).setCons c (.popSwap h))
  | .popSwap h => some ({ s with tail := .stub }.setCons c (.popLink h s.tail))
  | .popLink h prev => some ((s.setNext prev (some .stub)).setCons c (.popReload h))
  | .popReload h =>
    match s.next h with
    | none => some (s.setCons c (.popUnlock none))
    | some v => some (s.setCons c (.popTake h v))
  | .popTake .stub v => some ({ s with head := v, crashed := true }.setCons c .idle)
  | .popTake (.unit t) v =>
    some ({ s with
      head := v
      out := s.out ++ [(s.cur t, if s.removed t then none else some c)] }.setCons c
        (.popClear (s.cur t)))
  | .popClear p =>
    some ({ s with inPool := Function.update s.inPool p.unit false }.setCons c (.popFlag p))
  | .popFlag p =>
    if s.removed p.unit then
      some ({ s with removed := Function.update s.removed p.unit false }.setCons c .popHead)
    else some (s.setCons c (.popUnlock (some p)))
  | .popUnlock none => some ({ s with lk := none }.back c (.popped none))
  | .popUnlock (some p) => some ({ s with lk := none }.setCons c (.popCount p))
  | .popCount p => some ({ s with count := s.count - 1 }.back c (.popped (some p)))
  | _ => none

def removeStep (s : State) (c : Nat) : ConsPc → Option State
  | .remLock t =>
    if s.lk = none then some ({ s with lk := some c }.setCons c (.remTest t)) else none
  | .remTest t =>
    if s.inPool t ∧ s.mine t then some (s.setCons c (.remMark t))
    else some (s.setCons c (.remUnlock false))
  | .remMark t =>
    if s.removed t then some (s.setCons c (.remUnlock false))
    else
      some ({ s with
        removed := Function.update s.removed t true
        hits := s.hits ++ [s.cur t] }.setCons c (.remUnlock true))
  | .remUnlock true => some ({ s with lk := none }.setCons c .remCount)
  | .remUnlock false => some ({ s with lk := none }.back c (.removed false))
  | .remCount => some ({ s with count := s.count - 1 }.back c (.removed true))
  | _ => none

def consStep (s : State) (c : Nat) : Option State :=
  match s.cons c with
  | .remLock _ | .remTest _ | .remMark _ | .remUnlock _ | .remCount => removeStep s c (s.cons c)
  | pc => popStep s c pc

/-- After `CmiAbort`, or a crash, nothing runs. -/
def step (s : State) (a : Act) : Option State :=
  if s.aborted ∨ s.crashed then none
  else match a with
    | .enter t => some (enter s t)
    | .push t => pushStep s t
    | .count => countStep s
    | .pop c => if s.cons c = .idle then some (s.setCons c .popLock) else none
    | .remove c t => if s.cons c = .idle then some (s.setCons c (.remLock t)) else none
    | .cons c => consStep s c

def system (mine : Nat → Bool) : System State Act where
  init s := s = initial mine
  step := step

/-- A removed unit is not pushed again before a pop has discarded it. -/
def NotWhileRemoved (s : State) : Act → Prop
  | .enter t => s.removed t = false
  | _ => True

instance (s : State) (a : Act) : Decidable (NotWhileRemoved s a) := by
  unfold NotWhileRemoved; split <;> infer_instance

end Mpsc
end AbtReconverse
