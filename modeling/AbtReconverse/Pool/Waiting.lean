import AbtReconverse.Lib.Lts
import AbtReconverse.Lib.Tokens

/-!
# AbtReconverse.Pool.Waiting

Waiting for a built-in pool: `wake_after_push` against `pop_timedwait`, the idle hook of a
basic_wait scheduler and `stacked_sched_main`.

The storage of the pool is a parameter (`Store`): its steps, which are those of `push`, `pop` and
`remove_unit` up to and including the change of `count`, and what the waiting sees of them (`View`).
The push of a unit is late from the step that puts the unit into the pool until others can reach it
there; then the unit may be popped and pushed again, and of the pushes that are still to do their
`count.fetch_add` only the number is kept (`linked`). A call owes between the step that takes a unit
and `count.fetch_sub`; a pop is gone once it can only return null. With `holes` a pop can also miss a
unit behind one that is late. Both storage paths are such a store (`Pool.ListPath`, `Pool.MpscPath`).

A producer goes on, after its `count.fetch_add`, to load `waiters`, to notify under `wm`, to load
`nsleepers` and the four words of `smask` and to notify each PE of a word. A thread in
`pop_timedwait` and a PE that parks are consumers; PE `r` is consumer `r`.
A caller asleep in `wait_for` may wake at any time without a notification, and `CsdIdleWait` may
return; a `CsdIdleNotify` is kept until the next `CsdIdleWait` (`notified`).
-/

namespace AbtReconverse
namespace Waiting

open Lts

/-! ### The storage -/

inductive PushPhase where
  | idle
  | early
  | late
  deriving DecidableEq, Repr

inductive CallPhase where
  | idle
  | popping
  | gone
  | owes
  | removing
  deriving DecidableEq, Repr

structure View where
  /-- The push of a unit. -/
  push : Nat → PushPhase
  /-- The call of a consumer. -/
  call : Nat → CallPhase
  linked : Nat
  count : Int

namespace View

def setPush (v : View) (t : Nat) (p : PushPhase) : View := { v with push := Function.update v.push t p }

def setCall (v : View) (c : Nat) (p : CallPhase) : View := { v with call := Function.update v.call c p }

def empty : View := ⟨fun _ => .idle, fun _ => .idle, 0, 0⟩

/-- Some push is in the pool and not yet in `count`. -/
def Late (v : View) : Prop := (∃ t, v.push t = .late) ∨ 0 < v.linked

def Owes (v : View) (c : Nat) : Prop := v.call c = .owes

end View

inductive StoreAct where
  | enter (t : Nat)
  | push (t : Nat)
  | count
  | pop (c : Nat)
  | remove (c t : Nat)
  | call (c : Nat)
  deriving DecidableEq, Repr

/-- What a step of the storage can do. A pop misses only when every visible unit is taken, or when a
late one hides the rest. -/
inductive Moves (holes : Bool) (v : View) : StoreAct → View → Prop where
  | enter {t : Nat} : v.push t = .idle → Moves holes v (.enter t) (v.setPush t .early)
  | pushing {t : Nat} : v.push t ≠ .idle → Moves holes v (.push t) v
  | arrive {t : Nat} (call : Nat → CallPhase) : v.push t = .early →
    (∀ c, call c = v.call c ∨ holes = true ∧ v.call c = .popping ∧ call c = .gone) →
    Moves holes v (.push t) ({ v with call := call }.setPush t .late)
  | link {t : Nat} : v.push t = .late →
    Moves holes v (.push t) ({ v with linked := v.linked + 1 }.setPush t .idle)
  | reveal : 0 < v.linked →
    Moves holes v .count { v with linked := v.linked - 1, count := v.count + 1 }
  | pop {c : Nat} : v.call c = .idle → Moves holes v (.pop c) (v.setCall c .popping)
  | remove {c t : Nat} : v.call c = .idle → Moves holes v (.remove c t) (v.setCall c .removing)
  | calling {c : Nat} : v.call c ≠ .idle → Moves holes v (.call c) v
  | take {c : Nat} : v.call c = .popping ∨ v.call c = .removing →
    Moves holes v (.call c) (v.setCall c .owes)
  | miss {c : Nat} : v.call c = .popping →
    (holes = true ∧ v.Late ∨ ∃ d, Counts d v.Owes ∧ v.count ≤ d) →
    Moves holes v (.call c) (v.setCall c .gone)
  | pay {c : Nat} : v.call c = .owes →
    Moves holes v (.call c) ({ v with count := v.count - 1 }.setCall c .idle)
  | back {c : Nat} : v.call c = .gone → Moves holes v (.call c) (v.setCall c .idle)
  | absent {c : Nat} : v.call c = .removing → Moves holes v (.call c) (v.setCall c .idle)

/-- A storage path, with an invariant that the steps it allows keep and under which they are
moves. -/
structure Store (σ : Type) where
  holes : Bool
  start : σ
  step : σ → StoreAct → Option σ
  view : σ → View
  Allowed : σ → StoreAct → Prop
  Ok : σ → Prop
  ok_start : Ok start
  view_start : view start = View.empty
  ok_step : ∀ {s a s'}, Ok s → Allowed s a → step s a = some s' → Ok s'
  moves : ∀ {s a s'}, Ok s → Allowed s a → step s a = some s' → Moves holes (view s) a (view s')

/-! ### The machine -/

/-- Where a producer is in `push`, from `loadWaiters` on in `wake_after_push`. -/
inductive ProdPc where
  | idle
  | storing (t : Nat)
  | count
  | loadWaiters
  | lockWm
  | notify
  | unlockWm
  | loadSleepers
  | loadMask (w : Nat)
  | bits (w : Nat) (m : List Nat)
  deriving DecidableEq, Repr

/-- Who parks a PE: the idle hook checks the pool by a pop, a stacked scheduler by `size`. -/
inductive Parker where
  | hook
  | stacked
  deriving DecidableEq, Repr

/-- Where a consumer is: in a plain `pop` or `remove_unit` (`call`), in `pop_timedwait` (from `pop1`
to `pop2`), or between `add_sleeper` and `remove_sleeper` (from `setBit` to `sub`). -/
inductive ConsPc where
  | out
  | call
  | pop1
  | lock
  | incr
  | test
  | pred
  | sleep
  | asleep
  | woken
  | decr
  | unlock
  | again
  | pop2
  | setBit (k : Parker)
  | add (k : Parker)
  | check (k : Parker)
  | hookPop
  | wait (k : Parker)
  | hookAgain
  | hookPop2
  | clearBit
  | sub
  deriving DecidableEq, Repr

structure State (σ : Type) where
  store : σ
  producer : Nat → ProdPc
  consumer : Nat → ConsPc
  waiters : Int
  /-- Who has `wm`, a producer or a consumer. -/
  wm : Option (Nat ⊕ Nat)
  /-- The callers asleep on `cv`. -/
  cv : List Nat
  nsleepers : Int
  smask : Nat → Bool
  /-- `CsdIdleNotify` has been called for the PE. -/
  notified : Nat → Bool

inductive Act where
  | push (g t : Nat)
  /-- The next step of a producer; `c` is the sleeper that `notify_one` wakes, if it finds one. -/
  | producer (g : Nat) (c : Option Nat)
  | pop (c : Nat)
  | remove (c t : Nat)
  | popTimedwait (c : Nat)
  | park (c : Nat) (k : Parker)
  /-- The next step of a consumer; `b`: its deadline has passed, `CsdIdleWait` returns by itself or
  another pool of the stacked scheduler has a unit. -/
  | consumer (c : Nat) (b : Bool)
  /-- A caller asleep in `wait_for` wakes without a notification. -/
  | wake (c : Nat)
  deriving DecidableEq, Repr

/-- The consumer whose next step it is. -/
def Act.moved : Act → Option Nat
  | .consumer c _ => some c
  | _ => none

variable {σ : Type}

def initial (M : Store σ) : State σ where
  store := M.start
  producer := fun _ => .idle
  consumer := fun _ => .out
  waiters := 0
  wm := none
  cv := []
  nsleepers := 0
  smask := fun _ => false
  notified := fun _ => false

namespace State

def setProducer (s : State σ) (g : Nat) (pc : ProdPc) : State σ :=
  { s with producer := Function.update s.producer g pc }

def setConsumer (s : State σ) (c : Nat) (pc : ConsPc) : State σ :=
  { s with consumer := Function.update s.consumer c pc }

/-- Caller `c` leaves `cv`. -/
def rouse (s : State σ) (c : Nat) : State σ := { s with cv := s.cv.erase c }.setConsumer c .woken

/-- The PEs of word `w` of `smask`, in the order of `__builtin_ctzll`. -/
def mask (s : State σ) (w : Nat) : List Nat :=
  ((List.range 64).map (64 * w + ·)).filter s.smask

/-- Consumer `c` starts a call of the storage and goes to `pc`. -/
def begin (M : Store σ) (s : State σ) (c : Nat) (a : StoreAct) (pc : ConsPc) : Option (State σ) :=
  (M.step s.store a).map fun st => { s with store := st }.setConsumer c pc

/-- The next step of the call of `c`. When it returns, `c` goes to `pc` of whether it returns
null. -/
def call (M : Store σ) (s : State σ) (c : Nat) (pc : Bool → ConsPc) : Option (State σ) :=
  (M.step s.store (.call c)).map fun st =>
    let s' := { s with store := st }
    if (M.view st).call c = .idle then
      s'.setConsumer c (pc ((M.view s.store).call c = .gone))
    else s'

end State

def producerStep (M : Store σ) (s : State σ) (g : Nat) (c : Option Nat) : Option (State σ) :=
  match s.producer g with
  | .idle => none
  | .storing t =>
    (M.step s.store (.push t)).map fun st =>
      let s' := { s with store := st }
      if (M.view st).push t = .idle then s'.setProducer g .count else s'
  | .count => (M.step s.store .count).map fun st => { s with store := st }.setProducer g .loadWaiters
  | .loadWaiters =>
    some (s.setProducer g (if 0 < s.waiters then .lockWm else .loadSleepers))
  | .lockWm => if s.wm = none then some ({ s with wm := some (.inl g) }.setProducer g .notify) else none
  | .notify =>
    match c with
    | some c => if c ∈ s.cv then some ((s.rouse c).setProducer g .unlockWm) else none
    | none => if s.cv = [] then some (s.setProducer g .unlockWm) else none
  | .unlockWm => some ({ s with wm := none }.setProducer g .loadSleepers)
  | .loadSleepers => some (s.setProducer g (if 0 < s.nsleepers then .loadMask 0 else .idle))
  | .loadMask w => some (s.setProducer g (if w < 4 then .bits w (s.mask w) else .idle))
  | .bits w [] => some (s.setProducer g (.loadMask (w + 1)))
  | .bits w (r :: m) =>
    some ({ s with notified := Function.update s.notified r true }.setProducer g (.bits w m))

def consumerStep (M : Store σ) (s : State σ) (c : Nat) (b : Bool) : Option (State σ) :=
  match s.consumer c with
  | .out | .asleep => none
  | .call => s.call M c fun _ => .out
  | .pop1 => s.call M c fun null => if null && !b then .lock else .out
  | .lock => if s.wm = none then some ({ s with wm := some (.inr c) }.setConsumer c .incr) else none
  | .incr => some ({ s with waiters := s.waiters + 1 }.setConsumer c .test)
  | .test => some (s.setConsumer c (if (M.view s.store).count = 0 then .pred else .decr))
  | .pred => some (s.setConsumer c (if 0 < (M.view s.store).count then .decr else .sleep))
  | .sleep => some ({ s with wm := none, cv := c :: s.cv }.setConsumer c .asleep)
  | .woken =>
    if s.wm = none then
      some ({ s with wm := some (.inr c) }.setConsumer c (if b then .decr else .pred))
    else none
  | .decr => some ({ s with waiters := s.waiters - 1 }.setConsumer c .unlock)
  | .unlock => some ({ s with wm := none }.setConsumer c .again)
  | .again => s.begin M c (.pop c) .pop2
  | .pop2 => s.call M c fun _ => .out
  | .setBit k =>
    -- `smask` has four words; a rank from 256 on has no bit
    if c < 256 then
      some ({ s with smask := Function.update s.smask c true }.setConsumer c (.add k))
    else none
  | .add k => some ({ s with nsleepers := s.nsleepers + 1 }.setConsumer c (.check k))
  | .check .hook => s.begin M c (.pop c) .hookPop
  | .check .stacked =>
    some (s.setConsumer c
      (if 0 < (M.view s.store).count ∨ b then .clearBit else .wait .stacked))
  | .hookPop => s.call M c fun null => if null then .wait .hook else .clearBit
  | .wait k =>
    if s.notified c ∨ b then
      some ({ s with notified := Function.update s.notified c false }.setConsumer c
        (if k = Parker.hook then .hookAgain else .clearBit))
    else none
  | .hookAgain => s.begin M c (.pop c) .hookPop2
  | .hookPop2 => s.call M c fun _ => .clearBit
  | .clearBit => some ({ s with smask := Function.update s.smask c false }.setConsumer c .sub)
  | .sub => some ({ s with nsleepers := s.nsleepers - 1 }.setConsumer c .out)

def step (M : Store σ) (s : State σ) : Act → Option (State σ)
  | .push g t =>
    if s.producer g = .idle then
      (M.step s.store (.enter t)).map fun st => { s with store := st }.setProducer g (.storing t)
    else none
  | .producer g c => producerStep M s g c
  | .pop c => if s.consumer c = .out then s.begin M c (.pop c) .call else none
  | .remove c t => if s.consumer c = .out then s.begin M c (.remove c t) .call else none
  | .popTimedwait c => if s.consumer c = .out then s.begin M c (.pop c) .pop1 else none
  | .park c k => if s.consumer c = .out then some (s.setConsumer c (.setBit k)) else none
  | .consumer c b => consumerStep M s c b
  | .wake c => if c ∈ s.cv then some (s.rouse c) else none

def system (M : Store σ) : System (State σ) Act where
  init s := s = initial M
  step := step M

/-- The action of the storage that a step takes. -/
def State.storeAct (s : State σ) : Act → Option StoreAct
  | .push _ t => some (.enter t)
  | .producer g _ =>
    match s.producer g with
    | .storing t => some (.push t)
    | .count => some .count
    | _ => none
  | .pop c | .popTimedwait c => some (.pop c)
  | .remove c t => some (.remove c t)
  | .consumer c _ =>
    match s.consumer c with
    | .call | .pop1 | .pop2 | .hookPop | .hookPop2 => some (.call c)
    | .again | .check .hook | .hookAgain => some (.pop c)
    | _ => none
  | .park _ _ | .wake _ => none

/-- The storage allows the step, and under a storage with holes a caller of `pop_timedwait` adds
itself to `waiters` only while at most one is counted there. -/
def Careful (M : Store σ) (s : State σ) (a : Act) : Prop :=
  (∀ x ∈ s.storeAct a, M.Allowed s.store x) ∧
    ∀ c ∈ a.moved, M.holes = true → s.consumer c = .incr → s.waiters ≤ 1

instance (M : Store σ) [∀ s a, Decidable (M.Allowed s a)] (s : State σ) (a : Act) :
    Decidable (Careful M s a) :=
  inferInstanceAs (Decidable (_ ∧ _))

end Waiting
end AbtReconverse
