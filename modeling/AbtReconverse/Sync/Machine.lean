import AbtReconverse.Lib.Lts
import AbtReconverse.Lib.Update
import AbtReconverse.Sync.WaitList

/-!
# AbtReconverse.Sync.Machine

Mutexes, condition variables and eventuals at the level of `sync.cpp`: any number of callers, ULTs
and others, over any number of objects.

A waiter record lives on the stack of the waiting call, so a caller reuses the same two addresses:
one for the record of `mutex_lock` (slot `lock`) and one for that of `cond_wait_impl` or an
eventual wait (slot `wait`); in a condition wait the first is nested in the second. A section under
an object's spinlock is one action. Everything a waker does after it has released the lock is a step
of its own: reading `next`, reading `thread`, storing `signaled`, and `CthAwakenIfBlocked`.

* `advance`: the next step of a caller, by its program counter;
* `timeout`: the deadline branch of `wait_on_timed`;
* `callback`: `spin_release_cb`, run once a suspended ULT is BLOCKED.

The fields marked as history record what happened and are read by no step: the place of a record's
current use, the number of operations a caller has begun, the outcome of its last timed wait.
-/

namespace AbtReconverse
namespace Sync

open Lts

/-- The two waiter records of a caller. -/
inductive Slot where
  | lock
  | wait
  deriving DecidableEq, Repr

/-- Address of a waiter record. -/
structure Rec where
  owner : Nat
  slot : Slot
  deriving DecidableEq, Repr

inductive Obj where
  | mutex (m : Nat)
  | cond (c : Nat)
  | eventual (e : Nat)
  deriving DecidableEq, Repr

/-- Which record of a caller goes on the wait list of an object. -/
def Obj.slot : Obj → Slot
  | .mutex _ => .lock
  | .cond _ | .eventual _ => .wait

/-- What became of a record since it was initialized: not pushed or removed by its owner, on the
list of an object, or taken off by operation number `n` of caller `x`. -/
inductive Place where
  | off
  | listed (o : Obj)
  | taken (x n : Nat)
  deriving DecidableEq, Repr

/-- `ABTI_waiter` without `next`; `timed` and `place` are history. -/
structure Waiter where
  thread : Option Nat
  signaled : Bool
  timed : Bool
  place : Place
  deriving DecidableEq, Repr

/-- Who has a spinlock: a caller, or the release callback of a suspended ULT. -/
inductive Hold where
  | caller (t : Nat)
  | callback (t : Nat)
  deriving DecidableEq, Repr

/-- `ABTI_mutex` without the spinlock and the wait list. -/
structure Mutex where
  locked : Bool
  /-- An `int`; its overflow, after 2^31 nested acquisitions, is not modelled. -/
  nesting : Nat
  owner : Option Nat
  deriving DecidableEq, Repr

/-- Return codes. -/
inductive Code where
  | success
  | invMutex
  | condTimedout
  | mutexLocked
  | eventual
  | invEventual
  deriving DecidableEq, Repr

/-- Where `mutex_lock` returns to: the user, or `cond_wait_impl` with its `signaled`. -/
inductive LockRet where
  | user
  | cond (signaled : Bool)
  deriving DecidableEq, Repr

/-- Where `ABT_mutex_unlock` (or another waking call) returns to: the user, or `cond_wait_impl`
on cond `c` with mutex `m`, which still has the spinlock of `c`. -/
inductive UnlockRet where
  | user
  | cond (c m : Nat) (timed : Bool)
  deriving DecidableEq, Repr

/-- Where a wait returns to. -/
inductive WaitRet where
  | lock (m : Nat) (k : LockRet)
  | cond (m : Nat)
  | eventual (e : Nat)
  deriving DecidableEq, Repr

/-- Where a caller is. `hold o k timed`: its record is pushed and it has the spinlock of `o`;
`blocked`, `spin`: in `wait_on`; `timed`: in the loop of `wait_on_timed`; `wakeNext` to
`wakeAwaken`: waking the records it took off a list, `rest` being the remaining ones. -/
inductive Pc where
  | idle
  | lock (m : Nat) (k : LockRet)
  | spinlock (m : Nat)
  | trylock (m : Nat)
  | unlock (m : Nat) (k : UnlockRet)
  | condEnter (c m : Nat) (timed : Bool)
  | signal (c : Nat)
  | broadcast (c : Nat)
  | eventualEnter (e : Nat) (timed : Bool)
  | eventualTest (e : Nat)
  | eventualSet (e n : Nat) (v : Option (List UInt8))
  | eventualReset (e : Nat)
  | hold (o : Obj) (k : WaitRet) (timed : Bool)
  | blocked (o : Obj) (k : WaitRet)
  | spin (o : Obj) (k : WaitRet)
  | timed (o : Obj) (k : WaitRet)
  | wakeNext (w : Rec) (k : UnlockRet)
  | wakeThread (w : Rec) (rest : Option Rec) (k : UnlockRet)
  | wakeStore (w : Rec) (th : Option Nat) (rest : Option Rec) (k : UnlockRet)
  | wakeAwaken (th : Nat) (w : Rec) (timed : Bool) (rest : Option Rec) (k : UnlockRet)
  deriving DecidableEq, Repr

/-- Result of `wait_on_timed`; on a timeout, whether `wl_remove` found the record, and where the
record was. -/
inductive Outcome where
  | signaled
  | timedOut (removed : Bool) (place : Place)
  deriving DecidableEq, Repr

/-- Which callers are ULTs that can block, which mutexes are recursive, and the sizes of the
eventuals. -/
structure Config where
  ult : Nat → Bool
  recursive : Nat → Bool
  nbytes : Nat → Nat

structure State where
  next : Rec → Option Rec
  waiter : Rec → Waiter
  wl : Obj → WaitList Rec
  slock : Obj → Option Hold
  mutex : Nat → Mutex
  condMutex : Nat → Option Nat
  ready : Nat → Bool
  value : Nat → List UInt8
  pc : Nat → Pc
  /-- `CTH_STATE_BLOCKED`. -/
  blk : Nat → Bool
  /-- Return code and out-parameter (the eventual whose buffer it points to) of the last call. -/
  ret : Nat → Option (Code × Option Nat)
  /-- `is_ready` of the last `ABT_eventual_test`. -/
  isReady : Nat → Bool
  /-- History: operations begun. -/
  op : Nat → Nat
  /-- History: result of the last `wait_on_timed`. -/
  outcome : Nat → Option Outcome

/-- All-zero objects, every caller in user code. -/
def initial (c : Config) : State where
  next := fun _ => none
  waiter := fun _ => ⟨none, false, false, .off⟩
  wl := fun _ => ⟨none, none⟩
  slock := fun _ => none
  mutex := fun _ => ⟨false, 0, none⟩
  condMutex := fun _ => none
  ready := fun _ => false
  value := fun e => List.replicate (c.nbytes e) 0
  pc := fun _ => .idle
  blk := fun _ => false
  ret := fun _ => none
  isReady := fun _ => false
  op := fun _ => 0
  outcome := fun _ => none

/-- The calls a user can make. -/
inductive Op where
  | lock (m : Nat)
  | spinlock (m : Nat)
  | trylock (m : Nat)
  | unlock (m : Nat)
  | condWait (c m : Nat) (timed : Bool)
  | signal (c : Nat)
  | broadcast (c : Nat)
  | eventualWait (e : Nat) (timed : Bool)
  | eventualTest (e : Nat)
  | eventualSet (e n : Nat) (v : Option (List UInt8))
  | eventualReset (e : Nat)
  deriving DecidableEq, Repr

def Op.start : Op → Pc
  | .lock m => .lock m .user
  | .spinlock m => .spinlock m
  | .trylock m => .trylock m
  | .unlock m => .unlock m .user
  | .condWait c m timed => .condEnter c m timed
  | .signal c => .signal c
  | .broadcast c => .broadcast c
  | .eventualWait e timed => .eventualEnter e timed
  | .eventualTest e => .eventualTest e
  | .eventualSet e n v => .eventualSet e n v
  | .eventualReset e => .eventualReset e

/-- Where a caller goes next, and what its call returns if it goes back to the user. -/
structure Exit where
  pc : Pc
  ret : Option (Code × Option Nat)

def Exit.to (pc : Pc) : Exit := ⟨pc, none⟩

def Exit.user (code : Code) (out : Option Nat) : Exit := ⟨.idle, some (code, out)⟩

/-- `mutex_lock` has the mutex. -/
def LockRet.exit : LockRet → Exit
  | .user | .cond true => .user .success none
  | .cond false => .user .condTimedout none

/-- An unlock, or the waking of a list, is finished. -/
def UnlockRet.exit : UnlockRet → Exit
  | .user => .user .success none
  | .cond c m timed => .to (.hold (.cond c) (.cond m) timed)

/-- The remaining records of a detached list. -/
def UnlockRet.wakeRest (k : UnlockRet) : Option Rec → Exit
  | some w => .to (.wakeNext w k)
  | none => k.exit

/-- After the store to `signaled`: `CthAwakenIfBlocked`, if the record is a ULT's. -/
def UnlockRet.awaken (k : UnlockRet) (w : Rec) (timed : Bool) (rest : Option Rec) :
    Option Nat → Exit
  | some u => .to (.wakeAwaken u w timed rest k)
  | none => k.wakeRest rest

/-- `wait_on` or `wait_on_timed` has returned; `signaled` is the result of the latter. -/
def WaitRet.exit (c : Config) (signaled : Bool) : WaitRet → Exit
  | .lock m k => .to (.lock m k)
  | .cond m => .to (.lock m (.cond signaled))
  | .eventual e =>
    if signaled then .user .success (if 0 < c.nbytes e then some e else none)
    else .user .condTimedout none

inductive Act where
  | call (t : Nat) (op : Op)
  | go (t : Nat)
  | timeout (t fuel : Nat)
  | callback (o : Obj)
  deriving DecidableEq, Repr

namespace State

def leave (s : State) (t : Nat) (e : Exit) : State :=
  { s with
    pc := Function.update s.pc t e.pc
    ret := match e.ret with
      | none => s.ret
      | some r => Function.update s.ret t (some r) }

def setMutex (s : State) (m : Nat) (x : Mutex) : State :=
  { s with mutex := Function.update s.mutex m x }

/-- Initialize the caller's record for `o` and `wl_push` it; the spinlock stays with the caller. -/
def push (c : Config) (s : State) (t : Nat) (o : Obj) (timed : Bool) : State :=
  { s with
    next := (wlPush s.next (s.wl o) ⟨t, o.slot⟩).1
    wl := Function.update s.wl o (wlPush s.next (s.wl o) ⟨t, o.slot⟩).2
    waiter := Function.update s.waiter ⟨t, o.slot⟩
      ⟨if c.ult t then some t else none, false, timed, .listed o⟩
    slock := Function.update s.slock o (some (.caller t)) }

/-- `wl_pop`; the record, if there is one, is woken afterwards. -/
def pop (s : State) (t : Nat) (o : Obj) (k : UnlockRet) : State :=
  match wlPop s.next (s.wl o) with
  | (none, _) => s.leave t k.exit
  | (some w, wl) =>
    ({ s with
      wl := Function.update s.wl o wl
      waiter := Function.update s.waiter w
        { s.waiter w with place := .taken t (s.op t) } } : State).leave t
      (.to (.wakeThread w none k))

/-- Detach the whole list (`head = tail = nullptr`); its records are woken afterwards. -/
def detach (s : State) (t : Nat) (o : Obj) (k : UnlockRet) : State :=
  ({ s with
    wl := Function.update s.wl o ⟨none, none⟩
    waiter := fun w =>
      if (s.waiter w).place = .listed o then { s.waiter w with place := .taken t (s.op t) }
      else s.waiter w } : State).leave t (k.wakeRest (s.wl o).head)

end State

@[simp] theorem leave_pc (s : State) (t : Nat) (e : Exit) :
    (s.leave t e).pc = Function.update s.pc t e.pc := rfl

theorem leave_self (s : State) (t : Nat) (e : Exit) : (s.leave t e).pc t = e.pc :=
  Function.update_self ..

/-- `mutex_lock`, `ABT_mutex_trylock` and `ABT_mutex_unlock`. -/
def mutexStep (c : Config) (s : State) (t : Nat) : Pc → Option State
  | .lock m k =>
    if s.slock (.mutex m) = none then
      if (s.mutex m).locked = false then
        some ((s.setMutex m ⟨true, 0, some t⟩).leave t k.exit)
      else if c.recursive m ∧ (s.mutex m).owner = some t then
        some ((s.setMutex m ⟨true, (s.mutex m).nesting + 1, some t⟩).leave t k.exit)
      else
        some ((s.push c t (.mutex m) false).leave t (.to (.hold (.mutex m) (.lock m k) false)))
    else none
  | .spinlock m =>
    if s.slock (.mutex m) = none then
      if (s.mutex m).locked = false then
        some ((s.setMutex m ⟨true, 0, some t⟩).leave t (.user .success none))
      else if c.recursive m ∧ (s.mutex m).owner = some t then
        some ((s.setMutex m ⟨true, (s.mutex m).nesting + 1, some t⟩).leave t (.user .success none))
      else some (s.leave t (.to (.spinlock m)))
    else none
  | .trylock m =>
    if s.slock (.mutex m) = none then
      if (s.mutex m).locked = false then
        some ((s.setMutex m ⟨true, 0, some t⟩).leave t (.user .success none))
      else if c.recursive m ∧ (s.mutex m).owner = some t then
        some ((s.setMutex m ⟨true, (s.mutex m).nesting + 1, some t⟩).leave t (.user .success none))
      else some (s.leave t (.user .mutexLocked none))
    else none
  | .unlock m k =>
    if s.slock (.mutex m) = none then
      if 0 < (s.mutex m).nesting then
        some ((s.setMutex m { s.mutex m with nesting := (s.mutex m).nesting - 1 }).leave t k.exit)
      else
        some ((s.setMutex m { s.mutex m with locked := false, owner := none }).pop t (.mutex m) k)
    else none
  | _ => none

/-- `cond_wait_impl` up to the unlock of the mutex, `ABT_cond_signal`, `ABT_cond_broadcast`. -/
def condStep (cf : Config) (s : State) (t : Nat) : Pc → Option State
  | .condEnter c m timed =>
    if s.slock (.cond c) = none then
      if s.condMutex c = none ∨ s.condMutex c = some m then
        some (({ s with condMutex := Function.update s.condMutex c (some m) } : State).push cf t
          (.cond c) timed |>.leave t (.to (.unlock m (.cond c m timed))))
      else some (s.leave t (.user .invMutex none))
    else none
  | .signal c => if s.slock (.cond c) = none then some (s.pop t (.cond c) .user) else none
  | .broadcast c => if s.slock (.cond c) = none then some (s.detach t (.cond c) .user) else none
  | _ => none

/-- `ABT_eventual_wait`, `ABT_eventual_timedwait`, `ABT_eventual_test`, `ABT_eventual_set`,
`ABT_eventual_reset`. -/
def eventualStep (c : Config) (s : State) (t : Nat) : Pc → Option State
  | .eventualEnter e timed =>
    if s.slock (.eventual e) = none then
      if s.ready e then some (s.leave t ((WaitRet.eventual e).exit c true))
      else some ((s.push c t (.eventual e) timed).leave t
        (.to (.hold (.eventual e) (.eventual e) timed)))
    else none
  | .eventualTest e =>
    if s.slock (.eventual e) = none then
      some (({ s with isReady := Function.update s.isReady t (s.ready e) } : State).leave t
        (.user .success (if s.ready e ∧ 0 < c.nbytes e then some e else none)))
    else none
  | .eventualSet e n v =>
    if s.slock (.eventual e) = none then
      if s.ready e then some (s.leave t (.user .eventual none))
      else if c.nbytes e < n then some (s.leave t (.user .invEventual none))
      else
        some (({ s with
          ready := Function.update s.ready e true
          value := match v with
            | some b => Function.update s.value e (b.take n ++ (s.value e).drop n)
            | none => s.value } : State).detach t (.eventual e) .user)
    else none
  | .eventualReset e =>
    if s.slock (.eventual e) = none then
      some (({ s with ready := Function.update s.ready e false } : State).leave t
        (.user .success none))
    else none
  | _ => none

/-- `wait_on` and the signaled branch of `wait_on_timed`. -/
def waitStep (c : Config) (s : State) (t : Nat) : Pc → Option State
  | .hold o k timed =>
    if timed then
      some (({ s with slock := Function.update s.slock o none } : State).leave t (.to (.timed o k)))
    else if c.ult t then
      -- `CthSuspendBlocked`: the callback releases the spinlock once the ULT is BLOCKED
      some (({ s with
        slock := Function.update s.slock o (some (.callback t))
        blk := Function.update s.blk t true } : State).leave t (.to (.blocked o k)))
    else
      some (({ s with slock := Function.update s.slock o none } : State).leave t (.to (.spin o k)))
  | .blocked _ k => if s.blk t then none else some (s.leave t (k.exit c true))
  | .spin o k =>
    if (s.waiter ⟨t, o.slot⟩).signaled then some (s.leave t (k.exit c true)) else none
  | .timed o k =>
    if (s.waiter ⟨t, o.slot⟩).signaled then
      some (({ s with outcome := Function.update s.outcome t (some .signaled) } : State).leave t
        (k.exit c true))
    else none
  | _ => none

/-- `wake`, and the loop over a detached list around it. -/
def wakeStep (s : State) (t : Nat) : Pc → Option State
  | .wakeNext w k => some (s.leave t (.to (.wakeThread w (s.next w) k)))
  | .wakeThread w rest k => some (s.leave t (.to (.wakeStore w (s.waiter w).thread rest k)))
  | .wakeStore w th rest k =>
    some (({ s with
      waiter := Function.update s.waiter w { s.waiter w with signaled := true } } : State).leave t
      (k.awaken w (s.waiter w).timed rest th))
  | .wakeAwaken u _ _ rest k =>
    some (({ s with blk := Function.update s.blk u false } : State).leave t (k.wakeRest rest))
  | _ => none

def advance (c : Config) (s : State) (t : Nat) : Option State :=
  match s.pc t with
  | .idle => none
  | .lock .. | .spinlock _ | .trylock _ | .unlock .. => mutexStep c s t (s.pc t)
  | .condEnter .. | .signal _ | .broadcast _ => condStep c s t (s.pc t)
  | .eventualEnter .. | .eventualTest _ | .eventualSet .. | .eventualReset _ =>
    eventualStep c s t (s.pc t)
  | .hold .. | .blocked .. | .spin .. | .timed .. => waitStep c s t (s.pc t)
  | .wakeNext .. | .wakeThread .. | .wakeStore .. | .wakeAwaken .. => wakeStep s t (s.pc t)

/-- The deadline branch of `wait_on_timed`: the result of `wl_remove` is not looked at. -/
def timeout (c : Config) (s : State) (t fuel : Nat) : Option State :=
  match s.pc t with
  | .timed o k =>
    if s.slock o = none then
      if (s.waiter ⟨t, o.slot⟩).signaled then
        some (({ s with outcome := Function.update s.outcome t (some .signaled) } : State).leave t
          (k.exit c true))
      else
        match wlRemove s.next (s.wl o) ⟨t, o.slot⟩ fuel with
        | none => none
        | some (removed, next, wl) =>
          some (({ s with
            next := next
            wl := Function.update s.wl o wl
            waiter := if removed then Function.update s.waiter ⟨t, o.slot⟩
                { s.waiter ⟨t, o.slot⟩ with place := .off }
              else s.waiter
            outcome := Function.update s.outcome t
              (some (.timedOut removed (s.waiter ⟨t, o.slot⟩).place)) } : State).leave t
            (k.exit c false))
    else none
  | _ => none

def step (c : Config) (s : State) : Act → Option State
  | .call t op =>
    if s.pc t = .idle then
      some (({ s with op := Function.update s.op t (s.op t + 1) } : State).leave t (.to op.start))
    else none
  | .go t => advance c s t
  | .timeout t fuel => timeout c s t fuel
  | .callback o =>
    match s.slock o with
    | some (.callback _) => some { s with slock := Function.update s.slock o none }
    | _ => none

def system (c : Config) : System State Act where
  init s := s = initial c
  step := step c

end Sync
end AbtReconverse
