import AbtReconverse.Lib.Monitor
import AbtReconverse.Sync.Cond

/-!
# AbtReconverse.Sync.Guarded

Objects made of a mutex, condition variables and data that only the holder of the mutex reads or
writes: the reader-writer lock, the barrier and the future of `sync.cpp`. Their calls all have one
form: lock the mutex; look at the data and either wait on a condition variable, to look again
afterwards, or change the data, signal and broadcast, and unlock.

`State` puts such an object on top of the machine of mutexes and condition variables: every
`ABT_mutex_lock`, `ABT_cond_wait`, `ABT_cond_signal`, `ABT_cond_broadcast` and `ABT_mutex_unlock` is
a call on that machine, step by step, and the code between two of them is one step (`run`), given by
`Monitor.Prog`. The mutex is number 0 of the machine.

The object behaves as a monitor, in which a section happens in one step. The relation `Sim` to the
monitor says what the holder of the mutex has still to do to the wait lists; `advance_section` is
what a step of the machine below can do to the mutex and to these lists.
-/

namespace AbtReconverse
namespace Guarded

open Lts Sync

/-- What a caller is doing: nothing, locking the mutex, waiting on condition variable `c` to go on
at `l`, waking others on its way out, or unlocking the mutex. -/
inductive Phase (L R : Type) where
  | out
  | locking (l : L)
  | waiting (c : Nat) (l : L)
  | leaving (ws : List (Monitor.Wake Nat)) (r : R)
  | unlocking (r : R)
  deriving DecidableEq

structure State (V L R : Type) where
  sync : Sync.State
  data : V
  phase : Nat → Phase L R
  /-- What the last call returned. -/
  result : Nat → Option R

inductive Act (L : Type) where
  | call (t : Nat) (l : L)
  | run (t : Nat)
  | go (t : Nat)
  | callback (o : Obj)

/-- `ABT_cond_signal` or `ABT_cond_broadcast`. -/
def wakeOp : Monitor.Wake Nat → Op
  | .one c => .signal c
  | .all c => .broadcast c

section

variable {V L R : Type}

/-- Call an operation on the machine below and go to the phase `p`. -/
def State.enter (cf : Config) (s : State V L R) (t : Nat) (op : Op) (v : V) (p : Phase L R) :
    Option (State V L R) :=
  (Sync.step cf s.sync (.call t op)).map fun x =>
    { sync := x, data := v, phase := Function.update s.phase t p, result := s.result }

/-- The code between two calls on the machine below. -/
def run (cf : Config) (P : Monitor.Prog V L Nat R) (s : State V L R) (t : Nat) :
    Option (State V L R) :=
  match s.phase t with
  | .out => none
  | .locking l | .waiting _ l =>
    match P t l s.data with
    | (v, .wait c l') => s.enter cf t (.condWait c 0 false) v (.waiting c l')
    | (v, .done ws r) =>
      some { s with data := v, phase := Function.update s.phase t (.leaving ws r) }
  | .leaving (w :: ws) r => s.enter cf t (wakeOp w) s.data (.leaving ws r)
  | .leaving [] r => s.enter cf t (.unlock 0) s.data (.unlocking r)
  | .unlocking r =>
    some { s with
      phase := Function.update s.phase t .out
      result := Function.update s.result t (some r) }

def step (cf : Config) (P : Monitor.Prog V L Nat R) (s : State V L R) :
    Act L → Option (State V L R)
  | .call t l =>
    match s.phase t with
    | .out => s.enter cf t (.lock 0) s.data (.locking l)
    | _ => none
  | .run t => if s.sync.pc t = .idle then run cf P s t else none
  | .go t => (Sync.step cf s.sync (.go t)).map fun x => { s with sync := x }
  | .callback o => (Sync.step cf s.sync (.callback o)).map fun x => { s with sync := x }

/-- `ABT_mutex_create` gives a mutex that is not recursive. -/
def config (ult : Nat → Bool) : Config := ⟨ult, fun _ => false, fun _ => 0⟩

/-- The object with the data `v₀`; `ult` tells which callers are ULTs that can block. -/
def system (ult : Nat → Bool) (P : Monitor.Prog V L Nat R) (v₀ : V) :
    System (State V L R) (Act L) where
  init s := s = ⟨initial (config ult), v₀, fun _ => .out, fun _ => none⟩
  step := step (config ult) P

/-- Calls are begun as `E` allows. -/
def Calls (E : V → Nat → L → Prop) (s : State V L R) : Act L → Prop
  | .call t l => E s.data t l
  | _ => True

instance (E : V → Nat → L → Prop) [∀ v t l, Decidable (E v t l)] (s : State V L R) (a : Act L) :
    Decidable (Calls E s a) := by
  cases a <;> (unfold Calls; infer_instance)

/-! ## The relation to the monitor -/

/-- Which operation a caller in this phase has called. -/
def Phase.calls (op : Op) : Phase L R → Prop
  | .out => False
  | .locking _ => op = .lock 0
  | .waiting c _ => op = .condWait c 0 false
  | .leaving _ _ => ∃ w, op = wakeOp w
  | .unlocking _ => op = .unlock 0

/-- Where a caller in this phase is in the monitor, whose queues are `q`. -/
def Phase.pos (q : Nat → List Nat) (t : Nat) : Phase L R → Monitor.Pos L Nat R
  | .out => .out
  | .locking l => .ready none l
  | .waiting c l => if t ∈ q c then .waiting c l else .ready (some c) l
  | .leaving _ r | .unlocking r => .finished r

/-- The wake-ups a caller has still to make. -/
def Phase.left : Phase L R → List (Monitor.Wake Nat)
  | .leaving ws _ => ws
  | _ => []

/-- The caller is at a section of a condition variable or at an unlock. -/
def acts : Pc → Prop
  | .unlock .. | .condEnter .. | .signal _ | .broadcast _ => True
  | _ => False

/-- The caller has the mutex. -/
def Phase.inside (pc : Pc) : Phase L R → Prop
  | .out => False
  | .locking _ => pc = .idle
  | .waiting _ _ => pc = .idle ∨ acts pc
  | .leaving _ _ => True
  | .unlocking _ => acts pc

/-- The queues after the section the caller is at. -/
def after (q : Nat → List Nat) (t : Nat) : Pc → Nat → List Nat
  | .condEnter c _ _ => Function.update q c (q c ++ [t])
  | .signal c => (Monitor.Wake.one c).apply q
  | .broadcast c => (Monitor.Wake.all c).apply q
  | _ => q

/-- The callers on the lists of the condition variables. -/
def waiters (q : Obj → List Rec) (c : Nat) : List Nat := (q (.cond c)).map Rec.owner

/-- The queues once the owner of the mutex has done what it has still to do to them. -/
def queues (s : State V L R) (q : Obj → List Rec) : Nat → List Nat :=
  match (s.sync.mutex 0).owner with
  | none => waiters q
  | some t => Monitor.wakeAll (after (waiters q) t (s.sync.pc t)) (s.phase t).left

structure Sim (cf : Config) (s : State V L R) (q : Obj → List Rec) (ch : Nat → List Rec)
    (m : Monitor.State V L Nat R) : Prop where
  plain : Plain cf s.sync q ch
  calls : ∀ t, s.sync.pc t = .idle ∨ ∃ op, (s.phase t).calls op ∧ (s.sync.pc t).within op
  outside : ∀ t, s.phase t = .out → s.sync.pc t = .idle
  owner : ∀ t, (s.sync.mutex 0).owner = some t ↔ (s.phase t).inside (s.sync.pc t)
  locked : (s.sync.mutex 0).locked = (s.sync.mutex 0).owner.isSome
  nesting : (s.sync.mutex 0).nesting = 0
  conds : ∀ c, s.sync.condMutex c = none ∨ s.sync.condMutex c = some 0
  data : m.data = s.data
  queue : m.queue = queues s q
  pos : ∀ t, m.pos t = (s.phase t).pos m.queue t
  result : m.result = s.result

end

/-! ## Sections -/

section

variable {cf : Config} {x x' : Sync.State} {t : Nat} {op : Op} {q : Obj → List Rec}

/-- The operations an object calls. With `b`, the operation may be over when nobody is left to
wake; without, it ends with the mutex. -/
def Uses (b : Bool) : Op → Prop
  | .lock m => m = 0 ∧ b = false
  | .condWait _ m tm => m = 0 ∧ tm = false ∧ b = false
  | .signal _ | .broadcast _ => b = true
  | .unlock m => m = 0 ∧ b = true
  | _ => False

/-- A step of a caller in one of these operations: it gets the mutex, gives it up, goes on a list,
takes others off a list, or does nothing to the mutex and the lists. -/
inductive Section (x x' : Sync.State) (t : Nat) (wakes : Bool) (q q' : Obj → List Rec) : Prop where
  | acquire (k : LockRet) (hpc : x.pc t = .lock 0 k) (hpc' : x'.pc t = .idle)
      (hfree : (x.mutex 0).locked = false) (hm : x'.mutex 0 = ⟨true, 0, some t⟩)
      (hc : x'.condMutex = x.condMutex) (hq : waiters q' = waiters q)
  | release (k : UnlockRet) (hpc : x.pc t = .unlock 0 k) (hpc' : ¬ acts (x'.pc t))
      (hidle : x'.pc t = .idle → wakes = true)
      (hm : x'.mutex 0 = ⟨false, 0, none⟩)
      (hc : x'.condMutex = x.condMutex) (hq : waiters q' = waiters q)
  | enqueue (c : Nat) (hpc : x.pc t = .condEnter c 0 false) (hpc' : x'.pc t = .unlock 0 (.cond c 0 false))
      (hm : x'.mutex 0 = x.mutex 0) (hc : x'.condMutex = Function.update x.condMutex c (some 0))
      (hq : waiters q' = after (waiters q) t (x.pc t))
  | wake (w : Monitor.Wake Nat) (hpc : x.pc t = (wakeOp w).start) (hpc' : ¬ acts (x'.pc t))
      (hm : x'.mutex 0 = x.mutex 0) (hc : x'.condMutex = x.condMutex)
      (hq : waiters q' = after (waiters q) t (x.pc t))
  | quiet (hpc : ¬ acts (x.pc t)) (hpc' : ¬ acts (x'.pc t)) (hidle : x'.pc t = .idle → wakes = true)
      (hm : x'.mutex 0 = x.mutex 0) (hc : x'.condMutex = x.condMutex) (hq : waiters q' = waiters q)

theorem not_acts_exit (k : UnlockRet) : ¬ acts k.exit.pc := by cases k <;> exact id

theorem not_acts_wakeRest (k : UnlockRet) (r : Option Rec) : ¬ acts (k.wakeRest r).pc := by
  cases r with
  | none => exact not_acts_exit k
  | some w => exact id

theorem not_acts_awaken (k : UnlockRet) (w : Rec) (tm : Bool) (r : Option Rec) (th : Option Nat) :
    ¬ acts (k.awaken w tm r th).pc := by
  cases th with
  | none => exact not_acts_wakeRest k r
  | some u => exact id

theorem not_acts_waitExit (b : Bool) (k : WaitRet) : ¬ acts (k.exit cf b).pc := by
  cases k <;> cases b <;> exact id

theorem not_acts_pop (x : Sync.State) (t : Nat) (o : Obj) (k : UnlockRet) :
    ¬ acts ((x.pop t o k).pc t) := by
  unfold Sync.State.pop
  split
  · rw [leave_self]; exact not_acts_exit k
  · rw [leave_self]; exact id

variable {b : Bool}

theorem Uses.lock_within {m : Nat} {k : LockRet} (hu : Uses b op) (h : k.within op m) :
    m = 0 ∧ b = false := by
  cases k with
  | user =>
    obtain rfl : op = .lock m := h
    exact hu
  | cond r =>
    obtain ⟨c, tm, rfl⟩ := h
    exact ⟨hu.1, hu.2.2⟩

theorem Uses.unlock_within {m : Nat} {k : UnlockRet} (hu : Uses b op)
    (h : (Pc.unlock m k).within op) : m = 0 := by
  cases k with
  | user => obtain rfl : op = .unlock m := h; exact hu.1
  | cond c m' tm => obtain ⟨rfl, rfl⟩ := h; exact hu.1

/-- An unlock or a waking loop that ends in user code was not that of a wait. -/
theorem Uses.exit_idle {k : UnlockRet} (hu : Uses b op) (hk : k.within op)
    (hidle : k.exit.pc = .idle) : b = true := by
  cases k with
  | cond c m tm => cases hidle
  | user =>
    cases op with
    | unlock m => exact hu.2
    | signal c | broadcast c => exact hu
    | eventualSet e n v => exact absurd hu id
    | _ => exact absurd hk id

theorem Uses.wakeRest_idle {k : UnlockRet} (hu : Uses b op) (hk : k.within op) (r : Option Rec)
    (hidle : (k.wakeRest r).pc = .idle) : b = true := by
  cases r with
  | none => exact hu.exit_idle hk hidle
  | some w => cases hidle

theorem Uses.awaken_idle {k : UnlockRet} (hu : Uses b op) (hk : k.within op) (w : Rec) (tm : Bool)
    (r : Option Rec) (th : Option Nat) (hidle : (k.awaken w tm r th).pc = .idle) : b = true := by
  cases th with
  | none => exact hu.wakeRest_idle hk r hidle
  | some u => cases hidle

theorem Uses.pop_idle {k : UnlockRet} (hu : Uses b op) (hk : k.within op) (o : Obj)
    (hidle : (x.pop t o k).pc t = .idle) : b = true := by
  unfold Sync.State.pop at hidle
  split at hidle
  · rw [leave_self] at hidle; exact hu.exit_idle hk hidle
  · rw [leave_self] at hidle; cases hidle

/-- A wait is over with a lock of the mutex still to come. -/
theorem Uses.waitExit_idle {k : WaitRet} {o : Obj} (hu : Uses b op) (hk : k.within op o) (r : Bool) :
    (k.exit cf r).pc ≠ .idle := by
  cases k with
  | lock m k => simp [WaitRet.exit, Exit.to]
  | cond m => simp [WaitRet.exit, Exit.to]
  | eventual e =>
    obtain ⟨_, tm, rfl⟩ := hk
    exact absurd hu id

theorem waiters_update_mutex (q : Obj → List Rec) (m : Nat) (l : List Rec) :
    waiters (Function.update q (.mutex m) l) = waiters q := by
  funext c; simp [waiters]

theorem waiters_update_cond (q : Obj → List Rec) (c : Nat) (l : List Rec) :
    waiters (Function.update q (.cond c) l) = Function.update (waiters q) c (l.map Rec.owner) := by
  funext c'
  by_cases hc : c' = c
  · subst hc; simp [waiters]
  · simp [waiters, hc]

theorem pop_condMutex (x : Sync.State) (t : Nat) (o : Obj) (k : UnlockRet) :
    (x.pop t o k).condMutex = x.condMutex := by
  unfold Sync.State.pop; split <;> rfl

/-- A step outside the sections of the monitor. -/
theorem Section.leave {x₁ : Sync.State} {e : Exit} {q' : Obj → List Rec} (hpc : ¬ acts (x.pc t))
    (hpc' : ¬ acts e.pc) (hidle : e.pc = .idle → b = true) (hm : x₁.mutex 0 = x.mutex 0)
    (hc : x₁.condMutex = x.condMutex) (hq : waiters q' = waiters q) :
    Section x (x₁.leave t e) t b q q' := by
  refine .quiet hpc ?_ ?_ hm hc hq
  · rw [leave_self]; exact hpc'
  · rw [leave_self]; exact hidle

theorem advance_section (hu : Uses b op) (hin : (x.pc t).within op) (hn : (x.mutex 0).nesting = 0)
    (hrec : cf.recursive 0 = false) (hc : ∀ c, x.condMutex c = none ∨ x.condMutex c = some 0)
    (hst : advance cf x t = some x') : Section x x' t b q (queueAfter cf x t q) := by
  cases advance_cases hst with
  | @lockFree m k hpc _ hl =>
    rw [hpc] at hin
    obtain ⟨rfl, rfl⟩ := hu.lock_within hin
    refine .acquire k hpc ?_ hl ?_ rfl ?_
    · rw [leave_self, lockExit_pc]
    · simp [Sync.State.setMutex]
    · simp only [queueAfter, hpc, if_pos hl]
  | @lockAgain m k hpc _ _ hr =>
    rw [hpc] at hin
    obtain ⟨rfl, rfl⟩ := hu.lock_within hin
    cases hrec.symm.trans hr.1
  | @lockWait m k hpc _ hl hr =>
    refine .leave (by rw [hpc]; exact id) id (by simp [Exit.to]) rfl rfl ?_
    simp only [queueAfter, hpc, if_neg hl, if_neg hr]
    exact waiters_update_mutex ..
  | unlockNested hpc _ hn' =>
    rw [hpc] at hin
    obtain rfl := hu.unlock_within hin
    rw [hn] at hn'
    exact absurd hn' (Nat.lt_irrefl 0)
  | @unlockLast m k hpc =>
    rw [hpc] at hin
    obtain rfl := hu.unlock_within hin
    refine .release k hpc (not_acts_pop _ _ _ _) (hu.pop_idle (unlock_within hin) _) ?_ ?_ ?_
    · rw [pop_mutex]; simp [Sync.State.setMutex, hn]
    · exact pop_condMutex ..
    · simp only [queueAfter, hpc, hn, Nat.lt_irrefl, if_false]
      exact waiters_update_mutex ..
  | @condEnter co m tm hpc =>
    rw [hpc] at hin
    obtain rfl : op = .condWait co m tm := hin
    obtain ⟨rfl, rfl, rfl⟩ := hu
    refine .enqueue co hpc ?_ rfl rfl ?_
    · rw [leave_self]; rfl
    · simp only [queueAfter, hpc, if_pos (hc co), enqueue, waiters_update_cond, after]
      simp [waiters]
  | @condRefuse co m tm hpc _ hm =>
    rw [hpc] at hin
    obtain rfl : op = .condWait co m tm := hin
    obtain ⟨rfl, rfl, rfl⟩ := hu
    exact absurd (hc co) hm
  | @signal co hpc =>
    refine .wake (.one co) hpc (not_acts_pop _ _ _ _) (by rw [pop_mutex]) (pop_condMutex ..) ?_
    simp only [queueAfter, hpc, waiters_update_cond, after, Monitor.Wake.apply]
    simp [waiters]
  | @broadcast co hpc =>
    refine .wake (.all co) hpc ?_ rfl rfl ?_
    · rw [detach_pc, Function.update_self]; exact not_acts_wakeRest _ _
    · simp only [queueAfter, hpc, waiters_update_cond, after, Monitor.Wake.apply]
      rfl
  | holdTimed hpc | holdBlock hpc | holdSpin hpc | wakeNext hpc | wakeThread hpc =>
    exact .leave (by rw [hpc]; exact id) id (by simp [Exit.to]) rfl rfl
      (by simp only [queueAfter, hpc])
  | blocked hpc | spin hpc | timed hpc =>
    rw [hpc] at hin
    exact .leave (by rw [hpc]; exact id) (not_acts_waitExit _ _)
      (fun h => absurd h (hu.waitExit_idle hin true)) rfl rfl (by simp only [queueAfter, hpc])
  | wakeStore hpc =>
    rw [hpc] at hin
    exact .leave (by rw [hpc]; exact id) (not_acts_awaken _ _ _ _ _) (hu.awaken_idle hin _ _ _ _) rfl rfl
      (by simp only [queueAfter, hpc])
  | wakeAwaken hpc =>
    rw [hpc] at hin
    exact .leave (by rw [hpc]; exact id) (not_acts_wakeRest _ _) (hu.wakeRest_idle hin _) rfl rfl
      (by simp only [queueAfter, hpc])
  | spinFree hpc | spinAgain hpc | spinWait hpc | tryFree hpc | tryAgain hpc | tryFail hpc
  | eventualPass hpc | eventualEnter hpc | eventualTest hpc | eventualAgain hpc | eventualLong hpc
  | eventualSet hpc | eventualReset hpc =>
    rw [hpc] at hin
    obtain rfl := hin
    exact absurd hu id

end

end Guarded
end AbtReconverse
