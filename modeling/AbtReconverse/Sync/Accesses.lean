import AbtReconverse.Sync.Machine

/-!
# AbtReconverse.Sync.Accesses

One eventual with every access to memory a step of its own: taking and releasing `slock`, reading
and writing `ready`, `value`, `wl.head` and `wl.tail`, and the fields of waiter records. In
`Sync.Machine` a section under the spinlock is one step; here callers can be anywhere in it.

The untimed calls of the eventual are there: wait, test, set and reset. After its wait a caller
still reads `e->value`, and so does a test that found the eventual ready. The assignments
`e->wl.head = e->wl.tail = nullptr` are two steps, the one to `tail` first.

History: `place` of a record's current use (a set takes the records when it releases the lock),
the number of a caller's call, and which set a wait or a test was served by. A set is named by its
caller and the number of the call.
-/

namespace AbtReconverse
namespace Access

open Lts Sync

inductive Call where
  | wait
  | test
  | set (n : Nat) (v : Option (List UInt8))
  | reset
  deriving DecidableEq, Repr

/-- Where a caller is; its next step is the access that the name tells. -/
inductive Pc where
  | idle
  | lock (c : Call)
  | waitReady
  | waitInit
  | pushNext
  | pushLast
  | pushLink (last : Option Rec)
  | pushTail (last : Option Rec)
  | waitUnlock
  | hold
  | blocked
  | spin
  | waitValue
  | testReady
  | testUnlock (r : Bool)
  | testValue (r : Bool)
  | setReady (n : Nat) (v : Option (List UInt8))
  | setSize (n : Nat) (v : Option (List UInt8))
  | setCopy (n : Nat) (v : Option (List UInt8))
  | setFlag (n : Nat) (v : Option (List UInt8))
  | setHead (n : Nat) (v : Option (List UInt8))
  | setCutTail (n : Nat) (v : Option (List UInt8)) (list : Option Rec)
  | setCutHead (n : Nat) (v : Option (List UInt8)) (list : Option Rec)
  | setUnlock (n : Nat) (v : Option (List UInt8)) (list : Option Rec)
  | setFail (n : Nat) (v : Option (List UInt8)) (code : Code)
  | wakeNext (w : Rec)
  | wakeThread (w : Rec) (rest : Option Rec)
  | wakeStore (w : Rec) (th : Option Nat) (rest : Option Rec)
  | wakeAwaken (th : Nat) (w : Rec) (rest : Option Rec)
  | resetFlag
  | resetUnlock
  deriving DecidableEq, Repr

/-- The memory that the calls share, apart from `slock`. -/
structure Mem where
  next : Rec → Option Rec
  waiter : Rec → Waiter
  wl : WaitList Rec
  ready : Bool
  value : List UInt8

structure State where
  mem : Mem
  slock : Option Hold
  pc : Nat → Pc
  /-- `CTH_STATE_BLOCKED`. -/
  blk : Nat → Bool
  /-- Return code, and whether the out-parameter points to the buffer. -/
  ret : Nat → Option (Code × Bool)
  /-- `is_ready` of the last test. -/
  isReady : Nat → Bool
  /-- History: calls begun. -/
  op : Nat → Nat
  /-- History: the set that wrote `ready` last. -/
  setter : Option (Nat × Nat)
  /-- History: the set that the caller's present wait or test is served by. -/
  source : Nat → Option (Nat × Nat)
  /-- History: a wait has returned, or a test has reported ready, served by this set. -/
  served : Nat → Nat → Bool

namespace Mem

/-- `ABTI_waiter w{...}` on the caller's stack. -/
def init (cf : Config) (t : Nat) (m : Mem) : Mem :=
  { m with
    waiter := Function.update m.waiter ⟨t, .wait⟩ ⟨if cf.ult t then some t else none, false, false, .off⟩
    next := Function.update m.next ⟨t, .wait⟩ none }

/-- `w->next = nullptr;` -/
def clearNext (t : Nat) (m : Mem) : Mem :=
  { m with next := Function.update m.next ⟨t, .wait⟩ none }

/-- `if (wl.tail) wl.tail->next = w; else wl.head = w;` -/
def link (t : Nat) (last : Option Rec) (m : Mem) : Mem :=
  match last with
  | some z => { m with next := Function.update m.next z (some ⟨t, .wait⟩) }
  | none => { m with wl := { m.wl with head := some ⟨t, .wait⟩ } }

/-- `wl.tail = w;` -/
def setTail (t : Nat) (m : Mem) : Mem :=
  { m with
    wl := { m.wl with tail := some ⟨t, .wait⟩ }
    waiter := Function.update m.waiter ⟨t, .wait⟩
      { m.waiter ⟨t, .wait⟩ with place := .listed (.eventual 0) } }

/-- `if (nbytes > 0 && value) memcpy(e->value, value, nbytes);` -/
def copy (n : Nat) (v : Option (List UInt8)) (m : Mem) : Mem :=
  match v with
  | some b => { m with value := b.take n ++ m.value.drop n }
  | none => m

def flag (b : Bool) (m : Mem) : Mem := { m with ready := b }

def cutTail (m : Mem) : Mem := { m with wl := { m.wl with tail := none } }

def cutHead (m : Mem) : Mem := { m with wl := { m.wl with head := none } }

/-- History: the listed records are taken by the call `n` of `t`. -/
def take (t n : Nat) (m : Mem) : Mem :=
  { m with waiter := fun w =>
      if (m.waiter w).place = .listed (.eventual 0) then { m.waiter w with place := .taken t n }
      else m.waiter w }

/-- `w->signaled.store(1);` -/
def signal (w : Rec) (m : Mem) : Mem :=
  { m with waiter := Function.update m.waiter w { m.waiter w with signaled := true } }

end Mem

/-- The first access after the lock. -/
def Call.first : Call → Pc
  | .wait => .waitReady
  | .test => .testReady
  | .set n v => .setReady n v
  | .reset => .resetFlag

/-- The rest of a detached list. -/
def wakeRest : Option Rec → Pc
  | some w => .wakeNext w
  | none => .idle

def awaken (w : Rec) (rest : Option Rec) : Option Nat → Pc
  | some u => .wakeAwaken u w rest
  | none => wakeRest rest

/-- The set that took the record. -/
def takenBy : Place → Option (Nat × Nat)
  | .taken x n => some (x, n)
  | _ => none

namespace State

def goto (s : State) (t : Nat) (p : Pc) : State := { s with pc := Function.update s.pc t p }

/-- Write to memory and go on. -/
def write (s : State) (t : Nat) (m : Mem) (p : Pc) : State := { s.goto t p with mem := m }

/-- Release the spinlock and go on. -/
def unlock (s : State) (t : Nat) (p : Pc) : State := { s.goto t p with slock := none }

/-- The caller goes on, served by a set. -/
def serve (s : State) (t : Nat) (set : Option (Nat × Nat)) (p : Pc) : State :=
  { s.goto t p with source := Function.update s.source t set }

def finish (s : State) (t : Nat) (code : Code) (out : Bool) : State :=
  { s.goto t .idle with ret := Function.update s.ret t (some (code, out)) }

/-- The caller goes on to the next record of a detached list, or the set is over. -/
def wakes (s : State) (t : Nat) (p : Pc) : State :=
  if p = .idle then s.finish t .success false else s.goto t p

/-- The return of a wait, or of a test that found the eventual ready. -/
def report (s : State) (t : Nat) : State :=
  match s.source t with
  | some (x, n) =>
    { s with served := Function.update s.served x (Function.update (s.served x) n true) }
  | none => s

end State

/-- The next access of a caller. -/
def advance (cf : Config) (s : State) (t : Nat) : Option State :=
  match s.pc t with
  | .idle => none
  | .lock c =>
    if s.slock = none then some { s.goto t c.first with slock := some (.caller t) } else none
  | .waitReady =>
    if s.mem.ready then some (s.serve t s.setter .waitUnlock) else some (s.goto t .waitInit)
  | .waitInit => some (s.write t (s.mem.init cf t) .pushNext)
  | .pushNext => some (s.write t (s.mem.clearNext t) .pushLast)
  | .pushLast => some (s.goto t (.pushLink s.mem.wl.tail))
  | .pushLink last => some (s.write t (s.mem.link t last) (.pushTail last))
  | .pushTail _ => some (s.write t (s.mem.setTail t) .hold)
  | .waitUnlock => some (s.unlock t .waitValue)
  | .hold =>
    if cf.ult t then
      -- `CthSuspendBlocked`: the callback releases the spinlock once the ULT is BLOCKED
      some { s.goto t .blocked with
        slock := some (.callback t), blk := Function.update s.blk t true }
    else some (s.unlock t .spin)
  | .blocked =>
    if s.blk t then none
    else some (s.serve t (takenBy (s.mem.waiter ⟨t, .wait⟩).place) .waitValue)
  | .spin =>
    if (s.mem.waiter ⟨t, .wait⟩).signaled then
      some (s.serve t (takenBy (s.mem.waiter ⟨t, .wait⟩).place) .waitValue)
    else none
  | .waitValue => some ((s.report t).finish t .success (decide (0 < cf.nbytes 0)))
  | .testReady => some (s.serve t (if s.mem.ready then s.setter else none) (.testUnlock s.mem.ready))
  | .testUnlock r => some (s.unlock t (.testValue r))
  | .testValue r =>
    some ({ s.report t with isReady := Function.update s.isReady t r }.finish t .success
      (r && decide (0 < cf.nbytes 0)))
  | .setReady n v =>
    some (s.goto t (if s.mem.ready then .setFail n v .eventual else .setSize n v))
  | .setSize n v =>
    some (s.goto t (if cf.nbytes 0 < n then .setFail n v .invEventual else .setCopy n v))
  | .setCopy n v => some (s.write t (s.mem.copy n v) (.setFlag n v))
  | .setFlag n v => some { s.write t (s.mem.flag true) (.setHead n v) with setter := some (t, s.op t) }
  | .setHead n v => some (s.goto t (.setCutTail n v s.mem.wl.head))
  | .setCutTail n v list => some (s.write t s.mem.cutTail (.setCutHead n v list))
  | .setCutHead n v list => some (s.write t s.mem.cutHead (.setUnlock n v list))
  | .setUnlock _ _ list =>
    some ({ s with slock := none, mem := s.mem.take t (s.op t) }.wakes t (wakeRest list))
  | .setFail _ _ code => some ({ s with slock := none }.finish t code false)
  | .wakeNext w => some (s.goto t (.wakeThread w (s.mem.next w)))
  | .wakeThread w rest => some (s.goto t (.wakeStore w (s.mem.waiter w).thread rest))
  | .wakeStore w th rest => some ({ s with mem := s.mem.signal w }.wakes t (awaken w rest th))
  | .wakeAwaken u _ rest =>
    some ({ s with blk := Function.update s.blk u false }.wakes t (wakeRest rest))
  | .resetFlag => some (s.write t (s.mem.flag false) .resetUnlock)
  | .resetUnlock => some ({ s with slock := none }.finish t .success false)

inductive Act where
  | call (t : Nat) (c : Call)
  | go (t : Nat)
  | callback
  deriving DecidableEq, Repr

def step (cf : Config) (s : State) : Act → Option State
  | .call t c =>
    if s.pc t = .idle then
      some { s.goto t (.lock c) with
        op := Function.update s.op t (s.op t + 1), source := Function.update s.source t none }
    else none
  | .go t => advance cf s t
  | .callback =>
    match s.slock with
    | some (.callback _) => some { s with slock := none }
    | _ => none

def initial (cf : Config) : State where
  mem :=
    { next := fun _ => none
      waiter := fun _ => ⟨none, false, false, .off⟩
      wl := ⟨none, none⟩
      ready := false
      value := List.replicate (cf.nbytes 0) 0 }
  slock := none
  pc := fun _ => .idle
  blk := fun _ => false
  ret := fun _ => none
  isReady := fun _ => false
  op := fun _ => 0
  setter := none
  source := fun _ => none
  served := fun _ _ => false

/-- The callers and the size of the eventual are those of `cf`. -/
def system (cf : Config) : System State Act where
  init s := s = initial cf
  step := step cf

/-- The caller's next step reads or writes the eventual: `slock`, `ready`, `value`, `wl`, or the
size. A caller that spins or is blocked looks at its own record or at nothing. -/
def Pc.touches : Pc → Prop
  | .idle | .waitInit | .pushNext | .blocked | .spin => False
  | .wakeNext _ | .wakeThread .. | .wakeStore .. | .wakeAwaken .. => False
  | _ => True

/-- The record of another caller that the next step of a waker reads or writes. -/
def Pc.record : Pc → Option Rec
  | .wakeNext w | .wakeThread w _ | .wakeStore w _ _ => some w
  | _ => none

/-- The caller is in `wait_on`, past the release of the spinlock. -/
def Pc.sleeps : Pc → Prop
  | .blocked | .spin => True
  | _ => False

end Access
end AbtReconverse
