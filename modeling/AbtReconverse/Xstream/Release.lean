import AbtReconverse.Join.Protocol

/-!
# AbtReconverse.Xstream.Release

The end of an execution stream: `release_handler` against `ABT_xstream_join` and
`ABT_xstream_free`. From the lock of `jm` on the handler and the joins are the protocol of
`Join.Machine`, so a state here is a state of that protocol together with what surrounds it: the
first two statements of the handler (clear `used_by`, store the state), what `ABT_xstream_free` does
after its join (destroy an automatic scheduler, clear the slot of the rank, delete), and which
objects still exist. Xstreams are numbered in the order of their creation; a number is not used
again, so a step that touches a deleted xstream shows.

`finished` becomes visible while the handler holds `jm`. A join that loads it on the fast path, or
while it spins, does not take `jm`, so it can return, and `ABT_xstream_free` can delete the xstream,
before the handler has swapped the joiners and unlocked (`deleted_in_window`). The blocking path
tests the flag under `jm`, and its joiners are woken after the unlock. So the condition is on the
loads without `jm` alone (`LoadsOutside`): `release_free_separation` says that in every run that
meets it join and release are separated, and that the first step that does not is a join that
returns too early.
-/

namespace AbtReconverse
namespace Release

open Lts

/-- What does not change: which xstream is the primary one, which callers can block, and whether the
main scheduler of an xstream is automatic. -/
structure Config where
  primary : Nat → Bool
  canBlock : Nat → Bool
  automatic : Nat → Bool

def Config.join (c : Config) : JoinProtocol.Config :=
  ⟨fun x => .xstream (c.primary x), c.canBlock⟩

/-- How far `release_handler` of an xstream is; from `joining` on it is the end of the protocol. -/
inductive HandlerPc where
  | unborn
  | leased
  | usedBy
  | state
  | joining
  deriving DecidableEq, Repr

/-- Where a caller is in `ABT_xstream_free`. -/
inductive FreePc where
  | out
  | joining (x : Nat)
  | destroy (x : Nat)
  | table (x : Nat)
  | delete (x : Nat)
  deriving DecidableEq, Repr

structure State where
  join : JoinProtocol.State
  handler : Nat → HandlerPc
  free : Nat → FreePc
  /-- `main_sched->used_by == x`. -/
  usedBy : Nat → Bool
  /-- `ABT_XSTREAM_STATE_TERMINATED`. -/
  terminated : Nat → Bool
  /-- `ABTI_g->xstreams[x->rank] == x`. -/
  table : Nat → Bool
  schedLive : Nat → Bool
  live : Nat → Bool
  /-- History: the handle was passed to `ABT_xstream_free`. -/
  freed : Nat → Bool

def initial : State where
  join := JoinProtocol.initial
  handler := fun _ => .unborn
  free := fun _ => .out
  usedBy := fun _ => false
  terminated := fun _ => false
  table := fun _ => false
  schedLive := fun _ => false
  live := fun _ => false
  freed := fun _ => false

namespace State

def setHandler (s : State) (x : Nat) (pc : HandlerPc) : State :=
  { s with handler := Function.update s.handler x pc }

def setFree (s : State) (j : Nat) (pc : FreePc) : State :=
  { s with free := Function.update s.free j pc }

/-- `ABTI_xstream_lease`. -/
def create (s : State) (x : Nat) : State :=
  { s with
    handler := Function.update s.handler x .leased
    usedBy := Function.update s.usedBy x true
    table := Function.update s.table x true
    schedLive := Function.update s.schedLive x true
    live := Function.update s.live x true }

end State

inductive Act where
  | create (x : Nat)
  /-- `ABT_xstream_join`, or `ABT_xstream_free` if `free`; `here`: the caller runs on the xstream. -/
  | call (j x : Nat) (here free : Bool)
  | join (j : Nat)
  | callback (x : Nat)
  | free (j : Nat)
  /-- The release message of the xstream is delivered. -/
  | release (x : Nat)
  | handler (x : Nat)
  deriving DecidableEq, Repr

/-- The handle is valid, and it is passed to `ABT_xstream_free` once. -/
def call (c : Config) (s : State) (j x : Nat) (here free : Bool) : Option State :=
  if s.free j = .out ∧ s.live x ∧ ¬ (free ∧ s.freed x) then
    (JoinProtocol.step c.join s.join (.call j x here)).map fun J =>
      { s with
        join := J
        free := Function.update s.free j (if free then .joining x else .out)
        freed := Function.update s.freed x (s.freed x || free) }
  else none

def freeStep (c : Config) (s : State) (j : Nat) : Option State :=
  match s.free j with
  | .out => none
  | .joining x =>
    if s.join.pc j = .idle then
      if s.join.ret j = some (x, .success) then some (s.setFree j (.destroy x))
      else some (s.setFree j .out)
    else none
  | .destroy x =>
    if c.automatic x then
      some ({ s with schedLive := Function.update s.schedLive x false }.setFree j (.table x))
    else some (s.setFree j (.table x))
  | .table x => some ({ s with table := Function.update s.table x false }.setFree j (.delete x))
  | .delete x => some ({ s with live := Function.update s.live x false }.setFree j .out)

def handlerStep (s : State) (x : Nat) : Option State :=
  match s.handler x with
  | .unborn | .leased => none
  | .usedBy => some ({ s with usedBy := Function.update s.usedBy x false }.setHandler x .state)
  | .state =>
    some ({ s with terminated := Function.update s.terminated x true }.setHandler x .joining)
  | .joining => (JoinProtocol.exitStep s.join x 0).map fun J => { s with join := J }

def step (c : Config) (s : State) : Act → Option State
  | .create x => if s.handler x = .unborn then some (s.create x) else none
  | .call j x here free => call c s j x here free
  | .join j => (JoinProtocol.step c.join s.join (.join j)).map fun J => { s with join := J }
  | .callback x => (JoinProtocol.step c.join s.join (.callback x)).map fun J => { s with join := J }
  | .free j => freeStep c s j
  | .release x => if s.handler x = .leased then some (s.setHandler x .usedBy) else none
  | .handler x => handlerStep s x

def system (c : Config) : System State Act where
  init s := s = initial
  step := step c

/-! ## Separation -/

/-- `release_handler` of the xstream still has to access it, or its scheduler. -/
def State.accesses (s : State) (x : Nat) : Bool :=
  match s.handler x, s.join.exit x 0 with
  | .unborn, _ => false
  | .joining, .wake _ | .joining, .done => false
  | _, _ => true

def State.accessesSched (s : State) (x : Nat) : Bool :=
  match s.handler x with
  | .leased | .usedBy => true
  | _ => false

/-- The xstream whose `finished` a join loads without `jm`: on the fast path, or spinning. -/
def loads : JoinProtocol.Pc → Option Nat
  | .load x | .spin x => some x
  | _ => none

/-- No join finds `finished` set, without `jm`, while `release_handler` has `jm`. -/
def LoadsOutside (s : State) : Act → Prop
  | .join j => ∀ x ∈ loads (s.join.pc j), (s.join.obj x).flag = true →
    (s.join.obj x).jm ≠ some (.exit 0)
  | _ => True

instance (s : State) : (a : Act) → Decidable (LoadsOutside s a)
  | .join j => inferInstanceAs (Decidable (∀ x ∈ loads (s.join.pc j), _))
  | .create _ | .call .. | .callback _ | .free _ | .release _ | .handler _ =>
    inferInstanceAs (Decidable True)

/-- The steps of `j` in `ABT_xstream_join`, or in `ABT_xstream_free` up to the end of its join. -/
def InJoin (j : Nat) (s : State) (a : Act) : Prop :=
  LoadsOutside s a ∧ match a with
    | .call i _ _ _ | .join i => i = j
    | _ => False

instance (j : Nat) (s : State) : (a : Act) → Decidable (InJoin j s a)
  | .call i _ _ _ | .join i => inferInstanceAs (Decidable (_ ∧ i = j))
  | .create _ | .callback _ | .free _ | .release _ | .handler _ =>
    inferInstanceAs (Decidable (_ ∧ False))

/-- Some caller can return, or has returned, `ABT_SUCCESS` from a join of `x`, with nobody else
making a step. -/
def CanJoinReturn (c : Config) (s : State) (x : Nat) : Prop :=
  ∃ j as s', runWhen (system c) (InJoin j) s as = some s' ∧ s'.join.ret j = some (x, .success)

/-- Once a join of `x` can return, `release_handler` is done with it and with its scheduler. -/
def Separated (c : Config) (s : State) (x : Nat) : Prop :=
  CanJoinReturn c s x → s.accesses x = false ∧ s.accessesSched x = false

/-! ## The invariant -/

/-- `ABT_xstream_free` of this xstream has joined it. -/
def FreePc.joined : FreePc → Option Nat
  | .destroy x | .table x | .delete x => some x
  | .out | .joining _ => none

/-- What holds in every run: what the joins and the handlers do to each other is the join protocol,
there is one handler, which enters it after its first two statements, and `ABT_xstream_free` goes on
only after the store of `finished`. -/
structure Joined (c : Config) (s : State) : Prop where
  protocol : Reach (JoinProtocol.system c.join) Free s.join
  ready : ∀ x k, k ≠ 0 ∨ s.handler x ≠ .joining → s.join.exit x k = .ready
  joined : ∀ j x, (s.free j).joined = some x → (s.join.exit x 0).past = true

/-- The handler has unlocked `jm`. -/
def left : JoinProtocol.ExitPc → Bool
  | .wake _ | .done => true
  | _ => false

/-- The join of caller `i` has returned, or will return without looking at the flag again. -/
def Knows (J : JoinProtocol.State) (i x : Nat) : Prop :=
  J.pc i = .unlock x ∨ (J.pc i = .blocked x ∧ J.blk i = false) ∨ J.ret i = some (x, .success)

/-- The handlers access what exists. -/
structure Safe (s : State) : Prop where
  live : ∀ x, s.accesses x = true → s.live x = true
  sched : ∀ x, s.accessesSched x = true → s.schedLive x = true

/-- What holds if the loads without `jm` find the flag after the handler's unlock only. -/
structure Inv (c : Config) (s : State) : Prop extends Joined c s, Safe s where
  knows : ∀ i x, Knows s.join i x ∨ (s.free i).joined = some x → left (s.join.exit x 0) = true

section

variable {c : Config} {s s' : State} {j x : Nat}

/-- The flag is set by the handler. -/
theorem Joined.past (h : Joined c s) (hf : (s.join.obj x).flag = true) :
    (s.join.exit x 0).past = true := by
  obtain ⟨k, hk⟩ := JoinProtocol.flag_past h.protocol hf
  by_cases h0 : k = 0
  · rw [← h0]; exact hk
  · rw [h.ready x k (.inl h0)] at hk; cases hk

theorem Joined.flag (h : Joined c s) (hp : (s.join.exit x 0).past = true) :
    (s.join.obj x).flag = true := by
  obtain ⟨W, hi⟩ := JoinProtocol.reach_inv h.protocol
  exact (hi.object x).past 0 hp

theorem Joined.success (h : Joined c s) (hr : s.join.ret j = some (x, .success)) :
    (s.join.exit x 0).past = true := by
  obtain ⟨W, hi⟩ := JoinProtocol.reach_inv h.protocol
  exact h.past ((hi.caller j).ret x hr)

theorem Joined.joining (h : Joined c s) (hp : (s.join.exit x 0).past = true) :
    s.handler x = .joining := by
  cases hh : s.handler x with
  | joining => rfl
  | _ => rw [h.ready x 0 (.inr (by simp [hh]))] at hp; cases hp

/-- A step of a join: no handler moves. -/
theorem Joined.joinStep (h : Joined c s) {J : JoinProtocol.State}
    (hJ : ∃ a, JoinProtocol.step c.join s.join a = some J) (hexit : J.exit = s.join.exit)
    (hjoin : s'.join = J) (hh : s'.handler = s.handler)
    (hfree : ∀ i y, (s'.free i).joined = some y → (s.free i).joined = some y) : Joined c s' := by
  obtain ⟨a, ha⟩ := hJ
  refine ⟨?_, fun y k hk => ?_, fun i y hi => ?_⟩
  · rw [hjoin]; exact .next h.protocol trivial ha
  · rw [hjoin, hexit]; rw [hh] at hk; exact h.ready y k hk
  · rw [hjoin, hexit]; exact h.joined i y (hfree i y hi)

/-- A step of `ABT_xstream_free`. -/
theorem Joined.setFree (h : Joined c s) {pc : FreePc} (hjoin : s'.join = s.join)
    (hh : s'.handler = s.handler) (hfree : s'.free = Function.update s.free j pc)
    (hpc : ∀ y, pc.joined = some y → (s.join.exit y 0).past = true) : Joined c s' := by
  refine ⟨by rw [hjoin]; exact h.protocol, fun y k hk => ?_, fun i y hi => ?_⟩
  · rw [hjoin]; rw [hh] at hk; exact h.ready y k hk
  · rw [hjoin]
    rw [hfree, Function.update_apply] at hi
    split at hi
    · exact hpc y hi
    · exact h.joined i y hi

/-- A statement of the handler before the lock of `jm`. -/
theorem Joined.setHandler (h : Joined c s) {pc : HandlerPc} (hjoin : s'.join = s.join)
    (hh : s'.handler = Function.update s.handler x pc) (hfree : s'.free = s.free)
    (hx : s.handler x ≠ .joining) : Joined c s' := by
  refine ⟨by rw [hjoin]; exact h.protocol, fun y k hk => ?_, fun i y hi => ?_⟩
  · rw [hjoin]
    rw [hh, Function.update_apply] at hk
    by_cases hy : y = x
    · subst hy; exact h.ready y k (.inr hx)
    · rw [if_neg hy] at hk; exact h.ready y k hk
  · rw [hjoin]; rw [hfree] at hi; exact h.joined i y hi

/-- The handler in the protocol. -/
theorem Joined.exitStep (h : Joined c s) {J : JoinProtocol.State} (hpc : s.handler x = .joining)
    (hJ : JoinProtocol.exitStep s.join x 0 = some J) : Joined c { s with join := J } := by
  obtain ⟨hother, hpast, _⟩ := JoinProtocol.exitStep_frame hJ
  refine ⟨.next h.protocol (a := .exit x 0) trivial hJ, fun y k hk => ?_, fun i y hi => ?_⟩
  · rw [hother y k fun he => hk.elim (fun h0 => h0 he.2) fun h0 => h0 (he.1 ▸ hpc)]
    exact h.ready y k hk
  · by_cases hyx : y = x
    · subst hyx; exact hpast (h.joined i y hi)
    · rw [hother y 0 fun he => hyx he.1]; exact h.joined i y hi

/-! ### Steps -/

/-- What a step of `ABT_xstream_free` does. -/
inductive FreeStep (c : Config) (s : State) (j : Nat) : State → Prop where
  | joined {x : Nat} (hpc : s.free j = .joining x) (hr : s.join.ret j = some (x, .success)) :
    FreeStep c s j (s.setFree j (.destroy x))
  | failed {x : Nat} (hpc : s.free j = .joining x) : FreeStep c s j (s.setFree j .out)
  | destroys {x : Nat} (hpc : s.free j = .destroy x) (ha : c.automatic x = true) :
    FreeStep c s j ({ s with schedLive := Function.update s.schedLive x false }.setFree j (.table x))
  | keeps {x : Nat} (hpc : s.free j = .destroy x) : FreeStep c s j (s.setFree j (.table x))
  | clears {x : Nat} (hpc : s.free j = .table x) :
    FreeStep c s j ({ s with table := Function.update s.table x false }.setFree j (.delete x))
  | deletes {x : Nat} (hpc : s.free j = .delete x) :
    FreeStep c s j ({ s with live := Function.update s.live x false }.setFree j .out)

theorem freeStep_cases (hst : freeStep c s j = some s') : FreeStep c s j s' := by
  cases hpc : s.free j with
  | out => simp [Release.freeStep, hpc] at hst
  | joining x =>
    simp only [Release.freeStep, hpc] at hst
    split at hst
    · split at hst <;> cases hst
      · rename_i hr
        exact .joined hpc hr
      · exact .failed hpc
    · cases hst
  | destroy x =>
    simp only [Release.freeStep, hpc] at hst
    split at hst <;> cases hst
    · rename_i ha
      exact .destroys hpc ha
    · exact .keeps hpc
  | table x =>
    simp only [Release.freeStep, hpc] at hst
    cases hst
    exact .clears hpc
  | delete x =>
    simp only [Release.freeStep, hpc] at hst
    cases hst
    exact .deletes hpc

theorem Joined.freeStep (h : Joined c s) (hst : FreeStep c s j s') : Joined c s' := by
  cases hst with
  | joined _ hr => exact h.setFree rfl rfl rfl fun y hy => by cases hy; exact h.success hr
  | failed _ => exact h.setFree rfl rfl rfl fun y hy => by cases hy
  | destroys hpc _ | keeps hpc | clears hpc =>
    exact h.setFree rfl rfl rfl fun y hy => by cases hy; exact h.joined j _ (by rw [hpc]; rfl)
  | deletes _ => exact h.setFree rfl rfl rfl fun y hy => by cases hy

/-- What a step of the handler does. -/
inductive HandlerStep (s : State) (x : Nat) : State → Prop where
  | usedBy (hpc : s.handler x = .usedBy) : HandlerStep s x
      ({ s with usedBy := Function.update s.usedBy x false }.setHandler x .state)
  | state (hpc : s.handler x = .state) : HandlerStep s x
      ({ s with terminated := Function.update s.terminated x true }.setHandler x .joining)
  | joining {J : JoinProtocol.State} (hpc : s.handler x = .joining)
    (hJ : JoinProtocol.exitStep s.join x 0 = some J) : HandlerStep s x { s with join := J }

theorem handlerStep_cases (hst : handlerStep s x = some s') : HandlerStep s x s' := by
  cases hpc : s.handler x with
  | unborn | leased => simp [Release.handlerStep, hpc] at hst
  | usedBy =>
    simp only [Release.handlerStep, hpc] at hst
    cases hst
    exact .usedBy hpc
  | state =>
    simp only [Release.handlerStep, hpc] at hst
    cases hst
    exact .state hpc
  | joining =>
    simp only [Release.handlerStep, hpc] at hst
    obtain ⟨J, hJ, rfl⟩ := Option.map_eq_some_iff.mp hst
    exact .joining hpc hJ

/-- What a step does. -/
inductive Step (c : Config) (s : State) : Act → State → Prop where
  | create {x : Nat} (hx : s.handler x = .unborn) : Step c s (.create x) (s.create x)
  | call {j x : Nat} {here free : Bool} {J : JoinProtocol.State}
    (hJ : JoinProtocol.step c.join s.join (.call j x here) = some J)
    (hsame : J.exit = s.join.exit ∧ ∀ i, i ≠ j → J.pc i = s.join.pc i)
    (hg : s.free j = .out ∧ s.live x = true ∧ ¬ (free = true ∧ s.freed x = true)) :
    Step c s (.call j x here free)
      { s with
        join := J
        free := Function.update s.free j (if free then .joining x else .out)
        freed := Function.update s.freed x (s.freed x || free) }
  | join {j : Nat} {J : JoinProtocol.State} (hJ : JoinProtocol.step c.join s.join (.join j) = some J)
    (hsame : J.exit = s.join.exit ∧ ∀ i, i ≠ j → J.pc i = s.join.pc i) :
    Step c s (.join j) { s with join := J }
  | callback {x : Nat} {J : JoinProtocol.State}
    (hJ : JoinProtocol.step c.join s.join (.callback x) = some J)
    (hsame : J.exit = s.join.exit ∧ J.pc = s.join.pc) : Step c s (.callback x) { s with join := J }
  | free {j : Nat} {s' : State} (hst : FreeStep c s j s') : Step c s (.free j) s'
  | release {x : Nat} (hx : s.handler x = .leased) :
    Step c s (.release x) (s.setHandler x .usedBy)
  | handler {x : Nat} {s' : State} (hst : HandlerStep s x s') : Step c s (.handler x) s'

theorem step_cases {a : Act} (hst : step c s a = some s') : Step c s a s' := by
  cases a with
  | create x =>
    simp only [step, Option.ite_none_right_eq_some] at hst
    obtain ⟨hx, hst⟩ := hst
    cases hst
    exact .create hx
  | call j x here free =>
    simp only [step, Release.call, Option.ite_none_right_eq_some] at hst
    obtain ⟨hg, hst⟩ := hst
    obtain ⟨J, hJ, rfl⟩ := Option.map_eq_some_iff.mp hst
    refine .call hJ ?_ hg
    simp only [JoinProtocol.step, Option.ite_none_right_eq_some] at hJ
    obtain ⟨-, hJ⟩ := hJ
    cases hJ
    exact ⟨rfl, fun i hi => Function.update_of_ne hi _ _⟩
  | join j =>
    obtain ⟨J, hJ, rfl⟩ := Option.map_eq_some_iff.mp hst
    obtain ⟨hexit, -, hpc⟩ := JoinProtocol.joinStep_frame hJ
    exact .join hJ ⟨hexit, fun i hi => (hpc i hi).1⟩
  | callback x =>
    obtain ⟨J, hJ, rfl⟩ := Option.map_eq_some_iff.mp hst
    refine .callback hJ ?_
    simp only [JoinProtocol.step] at hJ
    split at hJ <;> cases hJ
    exact ⟨rfl, rfl⟩
  | free j => exact .free (freeStep_cases hst)
  | release x =>
    simp only [step, Option.ite_none_right_eq_some] at hst
    obtain ⟨hx, hst⟩ := hst
    cases hst
    exact .release hx
  | handler x => exact .handler (handlerStep_cases hst)

theorem Joined.handlerStep (h : Joined c s) (hst : HandlerStep s x s') : Joined c s' := by
  cases hst with
  | usedBy hpc => exact h.setHandler rfl rfl rfl (by simp [hpc])
  | state hpc => exact h.setHandler rfl rfl rfl (by simp [hpc])
  | joining hpc hJ => exact h.exitStep hpc hJ

theorem Joined.initial : Joined c initial := by
  refine ⟨.start rfl, fun _ _ _ => rfl, fun _ _ h => ?_⟩
  cases h

theorem Joined.step (h : Joined c s) {a : Act} (hst : step c s a = some s') : Joined c s' := by
  cases step_cases hst with
  | @create x hx => exact h.setHandler (x := x) rfl rfl rfl (by simp [hx])
  | call hJ hsame _ =>
    refine h.joinStep ⟨_, hJ⟩ hsame.1 rfl rfl fun i y hi => ?_
    simp only [Function.update_apply] at hi
    split at hi
    · split at hi <;> cases hi
    · exact hi
  | join hJ hsame => exact h.joinStep ⟨_, hJ⟩ hsame.1 rfl rfl fun _ _ hi => hi
  | callback hJ hsame => exact h.joinStep ⟨_, hJ⟩ hsame.1 rfl rfl fun _ _ hi => hi
  | free hst => exact h.freeStep hst
  | @release x hx => exact h.setHandler (x := x) rfl rfl rfl (by simp [hx])
  | handler hst => exact h.handlerStep hst

/-! ### Who knows of the end -/

theorem Knows.plain {J J' : JoinProtocol.State} {i : Nat} {q : JoinProtocol.Pc} (hk : Knows J' i x)
    (hpc : J'.pc i = q) (hq : ∀ o, q ≠ .unlock o ∧ q ≠ .blocked o) (hret : J'.ret i = J.ret i) :
    Knows J i x := by
  obtain hk | ⟨hk, -⟩ | hk := hk
  · exact absurd (hpc.symm.trans hk) (hq x).1
  · exact absurd (hpc.symm.trans hk) (hq x).2
  · exact .inr (.inr (hret ▸ hk))

theorem Knows.back {J : JoinProtocol.State} {i o : Nat} {code : JoinProtocol.Code}
    (hk : Knows (J.back i o code) i x) : o = x ∧ code = .success := by
  simpa [Knows, JoinProtocol.State.back, JoinProtocol.State.setPc] using hk

/-- A caller learns of the end by a load of the flag. -/
theorem knows_joinStep {J J' : JoinProtocol.State} {C : JoinProtocol.Config} {i : Nat}
    (hst : JoinProtocol.joinStep C J j = some J') (hk : Knows J' i x) :
    Knows J i x ∨ (J.obj x).flag = true ∧ (x ∈ loads (J.pc j) ∨ J.pc j = .locked x) := by
  have hother : i ≠ j → J'.blk i = J.blk i := by
    intro hi
    unfold JoinProtocol.joinStep at hst
    repeat' split at hst
    all_goals cases hst
    all_goals first | rfl | exact Function.update_of_ne hi ..
  by_cases hi : i = j
  · subst hi
    have hself : ∀ q, Function.update J.pc i q i = q := fun q => Function.update_self ..
    cases hpc : J.pc i <;> simp only [JoinProtocol.joinStep, hpc] at hst
    case idle => cases hst
    case check o here =>
      split at hst <;> cases hst
      · cases hk.back.2
      · exact .inl (hk.plain (hself _) (fun _ => by simp) rfl)
    case load o =>
      split at hst <;> rename_i hf <;> cases hst
      · obtain ⟨rfl, -⟩ := hk.back
        exact .inr ⟨hf, .inl rfl⟩
      · refine .inl (hk.plain (hself _) (fun _ => ?_) rfl)
        cases C.kind o <;> simp [JoinProtocol.Kind.unset]
    case self o =>
      split at hst <;> cases hst
      · cases hk.back.2
      · refine .inl (hk.plain (hself _) (fun _ => ?_) rfl)
        unfold JoinProtocol.Config.wait
        split <;> simp
    case request o =>
      cases hst
      refine .inl (hk.plain (hself _) (fun _ => ?_) rfl)
      unfold JoinProtocol.Config.wait
      split <;> simp
    case finish o | push o =>
      cases hst
      exact .inl (hk.plain (hself _) (fun _ => by simp) rfl)
    case lock o =>
      split at hst <;> cases hst
      exact .inl (hk.plain (hself _) (fun _ => by simp) rfl)
    case locked o =>
      cases hst
      by_cases hf : (J.obj o).flag = true
      · simp only [if_pos hf] at hk
        obtain hk | ⟨hk, -⟩ | hk := hk
        · cases (hself _).symm.trans hk
          exact .inr ⟨hf, .inr rfl⟩
        · cases (hself _).symm.trans hk
        · exact .inl (.inr (.inr hk))
      · simp only [if_neg hf] at hk
        exact .inl (hk.plain (hself _) (fun _ => by simp) rfl)
    case unlock o =>
      cases hst
      obtain ⟨rfl, -⟩ := hk.back
      exact .inl (.inl hpc)
    case suspend o =>
      cases hst
      obtain hk | ⟨-, hk⟩ | hk := hk
      · cases (hself _).symm.trans hk
      · cases (Function.update_self (f := J.blk) ..).symm.trans hk
      · exact .inl (.inr (.inr hk))
    case blocked o =>
      split at hst <;> rename_i hb <;> cases hst
      obtain ⟨rfl, -⟩ := hk.back
      exact .inl (.inr (.inl ⟨hpc, by simpa using hb⟩))
    case spin o =>
      split at hst <;> rename_i hf <;> cases hst
      obtain ⟨rfl, -⟩ := hk.back
      exact .inr ⟨hf, .inl rfl⟩
  · obtain ⟨-, -, hsame⟩ := JoinProtocol.joinStep_frame hst
    obtain ⟨hpc, hret⟩ := hsame i hi
    unfold Knows at hk ⊢
    rw [hpc, hret, hother hi] at hk
    exact .inl hk

/-- Or it is on the list of the end that wakes it. -/
theorem knows_exitStep {J J' : JoinProtocol.State} {W : Nat → List Nat} {i y k : Nat}
    (hi : JoinProtocol.Inv J W) (hst : JoinProtocol.exitStep J x k = some J')
    (hk : Knows J' i y) : Knows J i y ∨ y = x ∧ left (J'.exit x k) = true := by
  obtain ⟨-, -, -, hpc, hret⟩ := JoinProtocol.exitStep_frame hst
  unfold Knows at hk ⊢
  rw [hpc, hret] at hk
  cases he : J.exit x k with
  | wake l =>
    cases l with
    | nil => simp [JoinProtocol.exitStep, he] at hst
    | cons j l =>
      simp only [JoinProtocol.exitStep, he, Option.some.injEq] at hst
      subst hst
      by_cases hij : i = j
      · subst hij
        obtain hk | ⟨hb, -⟩ | hk := hk
        · exact .inl (.inl hk)
        · have hw := (hi.walked (j := i) (o := x) (k := k) (by rw [he]; exact List.mem_cons_self)).1
          rw [hw] at hb
          cases hb
          refine .inr ⟨rfl, ?_⟩
          rw [JoinProtocol.setExit_exit, if_pos ⟨rfl, rfl⟩]
          cases l <;> rfl
        · exact .inl (.inr (.inr hk))
      · simp only [JoinProtocol.State.setExit, Function.update_of_ne hij] at hk
        exact .inl hk
  | lock =>
    simp only [JoinProtocol.exitStep, he, Option.ite_none_right_eq_some] at hst
    obtain ⟨-, hst⟩ := hst
    cases hst
    exact .inl hk
  | ready | store | swap | unlock | done =>
    simp only [JoinProtocol.exitStep, he] at hst
    cases hst
    try exact .inl hk

theorem left_exitStep {J J' : JoinProtocol.State} {k : Nat}
    (hst : JoinProtocol.exitStep J x k = some J') (hl : left (J.exit x k) = true) :
    left (J'.exit x k) = true := by
  cases he : J.exit x k with
  | wake l =>
    cases l with
    | nil => simp [JoinProtocol.exitStep, he] at hst
    | cons j l =>
      simp only [JoinProtocol.exitStep, he, Option.some.injEq] at hst
      subst hst
      rw [JoinProtocol.setExit_exit, if_pos ⟨rfl, rfl⟩]
      cases l <;> rfl
  | done => simp [JoinProtocol.exitStep, he] at hst
  | _ => rw [he] at hl; cases hl

/-- Past the store and without `jm` the handler has unlocked it. -/
theorem Joined.left_of_flag (h : Joined c s) (hf : (s.join.obj x).flag = true)
    (hjm : (s.join.obj x).jm ≠ some (.exit 0)) : left (s.join.exit x 0) = true := by
  obtain ⟨W, hi⟩ := JoinProtocol.reach_inv h.protocol
  have hp := h.past hf
  have hin := mt ((hi.object x).exit 0).mp hjm
  cases he : s.join.exit x 0 with
  | wake | done => rfl
  | swap | unlock => rw [he] at hin; exact absurd rfl hin
  | ready | lock | store => rw [he] at hp; cases hp

theorem Joined.accesses_eq (h : Joined c s) (hp : (s.join.exit x 0).past = true) :
    s.accesses x = !left (s.join.exit x 0) := by
  unfold State.accesses
  rw [h.joining hp]
  cases he : s.join.exit x 0 <;> rfl

theorem past_of_left {e : JoinProtocol.ExitPc} (h : left e = true) : e.past = true := by
  cases e with
  | wake | done => rfl
  | _ => cases h

theorem Inv.initial : Inv c initial where
  toJoined := .initial
  live _ h := by cases h
  sched _ h := by cases h
  knows _ _ h := by obtain (h | ⟨h, -⟩ | h) | h := h <;> cases h

/-- `ABT_xstream_free` goes on with what its join has told it. -/
theorem knows_free (hst : FreeStep c s j s') {i y : Nat}
    (hk : Knows s'.join i y ∨ (s'.free i).joined = some y) :
    Knows s.join i y ∨ (s.free i).joined = some y := by
  obtain hk | hk := hk
  · refine .inl ?_
    cases hst <;> exact hk
  · by_cases hi : i = j
    · subst hi
      cases hst with
      | joined hpc hr =>
        rw [show (s.setFree i _).free i = _ from Function.update_self ..] at hk
        cases hk
        exact .inl (.inr (.inr hr))
      | failed | deletes =>
        rw [show (State.setFree _ i _).free i = _ from Function.update_self ..] at hk
        cases hk
      | destroys hpc | keeps hpc | clears hpc =>
        rw [show (State.setFree _ i _).free i = _ from Function.update_self ..] at hk
        rw [hpc]
        exact .inr hk
    · refine .inr ?_
      cases hst <;> rwa [show (State.setFree _ j _).free i = _ from Function.update_of_ne hi ..] at hk

theorem Inv.knows_step (h : Inv c s) {a : Act} (hg : LoadsOutside s a)
    (hst : step c s a = some s') {i y : Nat}
    (hk : Knows s'.join i y ∨ (s'.free i).joined = some y) :
    left (s'.join.exit y 0) = true := by
  obtain ⟨W, hi⟩ := JoinProtocol.reach_inv h.protocol
  cases step_cases hst with
  | create _ | release _ => exact h.knows i y hk
  | @call j x _ free J hJ hsame _ =>
    rw [show J.exit = _ from hsame.1]
    refine h.knows i y ?_
    simp only [JoinProtocol.step, Option.ite_none_right_eq_some] at hJ
    obtain ⟨-, hJ⟩ := hJ
    cases hJ
    by_cases hij : i = j
    · subst hij
      obtain hk | hk := hk
      · obtain hk | ⟨hk, -⟩ | hk := hk <;> cases (Function.update_self ..).symm.trans hk
      · cases free <;> simp [FreePc.joined] at hk
    · simpa [Knows, JoinProtocol.State.setPc, hij] using hk
  | @join j J hJ hsame =>
    show left (J.exit y 0) = true
    rw [hsame.1]
    obtain hk | hk := hk
    · obtain hk | ⟨hf, hl | hl⟩ := knows_joinStep hJ hk
      · exact h.knows i y (.inl hk)
      · exact h.left_of_flag hf (hg y hl hf)
      · refine h.left_of_flag hf ?_
        rw [(hi.caller j).inside y (by rw [hl]; rfl)]
        simp
    · exact h.knows i y (.inr hk)
  | callback hJ hsame =>
    simp only [JoinProtocol.step] at hJ
    split at hJ <;> cases hJ
    exact h.knows i y hk
  | free hst =>
    have he : s'.join.exit = s.join.exit := by cases hst <;> rfl
    rw [he]
    exact h.knows i y (knows_free hst hk)
  | @handler x _ hst =>
    cases hst with
    | usedBy _ | state _ => exact h.knows i y hk
    | @joining J hpc hJ =>
      have hkeep : left (s.join.exit y 0) = true → left (J.exit y 0) = true := by
        intro hl
        by_cases hyx : y = x
        · subst hyx; exact left_exitStep hJ hl
        · rwa [(JoinProtocol.exitStep_frame hJ).1 y 0 fun he => hyx he.1]
      obtain hk | hk := hk
      · obtain hk | ⟨rfl, hl⟩ := knows_exitStep hi hJ hk
        · exact hkeep (h.knows i y (.inl hk))
        · exact hl
      · exact hkeep (h.knows i y (.inr hk))

/-- A step after which the same accesses are to be made, to objects that still exist. -/
theorem Safe.keeps (h : Safe s) (hh : s'.handler = s.handler) (hexit : s'.join.exit = s.join.exit)
    (hlive : ∀ y, s.accesses y = true → s'.live y = s.live y)
    (hsched : ∀ y, s.accessesSched y = true → s'.schedLive y = s.schedLive y) : Safe s' := by
  have hacc : ∀ y, s'.accesses y = s.accesses y := fun y => by
    unfold State.accesses; rw [hh, hexit]
  have hacs : ∀ y, s'.accessesSched y = s.accessesSched y := fun y => by
    unfold State.accessesSched; rw [hh]
  refine ⟨fun y hy => ?_, fun y hy => ?_⟩
  · rw [hacc] at hy; rw [hlive y hy]; exact h.live y hy
  · rw [hacs] at hy; rw [hsched y hy]; exact h.sched y hy

theorem Inv.freeStep (h : Inv c s) (hst : FreeStep c s j s') : Safe s' := by
  cases hst with
  | joined _ _ | failed _ | keeps _ | clears _ =>
    exact h.keeps rfl rfl (fun _ _ => rfl) fun _ _ => rfl
  | @destroys x hpc _ =>
    refine h.keeps rfl rfl (fun _ _ => rfl) fun y hy => ?_
    -- the handler is past its access to the scheduler
    refine Function.update_of_ne (fun he => ?_) _ _
    rw [he] at hy
    unfold State.accessesSched at hy
    rw [h.joining (h.joined j x (by rw [hpc]; rfl))] at hy
    cases hy
  | @deletes x hpc =>
    refine h.keeps rfl rfl (fun y hy => ?_) fun _ _ => rfl
    refine Function.update_of_ne (fun he => ?_) _ _
    have hj : (s.free j).joined = some x := by rw [hpc]; rfl
    rw [he, h.accesses_eq (h.joined j x hj), h.knows j x (.inr hj)] at hy
    cases hy

/-- A statement of the handler before the lock of `jm`. -/
theorem Safe.setHandler (h : Safe s) {pc : HandlerPc} (hjoin : s'.join = s.join)
    (hh : s'.handler = Function.update s.handler x pc)
    (hlive : ∀ y, s.live y = true → s'.live y = true)
    (hsched : ∀ y, s.schedLive y = true → s'.schedLive y = true)
    (hxlive : s.accesses x = true ∨ s'.live x = true)
    (hxsched : pc = .leased ∨ pc = .usedBy → s'.schedLive x = true) : Safe s' := by
  refine ⟨fun y hy => ?_, fun y hy => ?_⟩
  · by_cases hyx : y = x
    · subst hyx
      exact hxlive.elim (fun ha => hlive y (h.live y ha)) id
    · refine hlive y (h.live y ?_)
      unfold State.accesses at hy ⊢
      rwa [hjoin, hh, Function.update_of_ne hyx] at hy
  · unfold State.accessesSched at hy
    rw [hh] at hy
    by_cases hyx : y = x
    · subst hyx
      rw [Function.update_self] at hy
      cases pc with
      | leased => exact hxsched (.inl rfl)
      | usedBy => exact hxsched (.inr rfl)
      | unborn | state | joining => cases hy
    · rw [Function.update_of_ne hyx] at hy
      exact hsched y (h.sched y hy)

theorem Inv.handlerStep (h : Inv c s) (hst : HandlerStep s x s') : Safe s' := by
  have hacc : s.handler x ≠ .unborn → s.handler x ≠ .joining → s.accesses x = true := by
    intro h1 h2
    unfold State.accesses
    rw [h.ready x 0 (.inr h2)]
    cases hh : s.handler x <;> simp_all
  cases hst with
  | usedBy hpc =>
    exact h.toSafe.setHandler rfl rfl (fun _ hy => hy) (fun _ hy => hy)
      (.inl (hacc (by simp [hpc]) (by simp [hpc]))) (by simp)
  | state hpc =>
    exact h.toSafe.setHandler rfl rfl (fun _ hy => hy) (fun _ hy => hy)
      (.inl (hacc (by simp [hpc]) (by simp [hpc]))) (by simp)
  | joining hpc hJ =>
    obtain ⟨hother, -, -⟩ := JoinProtocol.exitStep_frame hJ
    refine ⟨fun y hy => h.live y ?_, h.sched⟩
    by_cases hyx : y = x
    · subst hyx
      -- only a handler that is not yet done can make a step
      unfold State.accesses at hy ⊢
      simp only [hpc] at hy ⊢
      cases he : s.join.exit y 0 with
      | wake l =>
        cases l with
        | nil => simp [JoinProtocol.exitStep, he] at hJ
        | cons i l =>
          simp only [JoinProtocol.exitStep, he, Option.some.injEq] at hJ
          subst hJ
          simp only [JoinProtocol.setExit_exit, and_self, if_true] at hy
          cases l <;> simp [JoinProtocol.ExitPc.wakeRest] at hy
      | done => simp [JoinProtocol.exitStep, he] at hJ
      | _ => rfl
    · unfold State.accesses at hy ⊢
      rwa [hother y 0 fun he => hyx he.1] at hy

theorem Inv.safe_step (h : Inv c s) {a : Act} (hst : step c s a = some s') : Safe s' := by
  cases step_cases hst with
  | @create x hx =>
    have hkeeps : ∀ (f : Nat → Bool) (y : Nat), f y = true → Function.update f x true y = true := by
      intro f y hy
      rw [Function.update_apply]
      split
      · rfl
      · exact hy
    exact h.toSafe.setHandler (x := x) rfl rfl (hkeeps s.live) (hkeeps s.schedLive)
      (.inr (Function.update_self ..)) fun _ => Function.update_self ..
  | call _ hsame _ => exact h.keeps rfl hsame.1 (fun _ _ => rfl) fun _ _ => rfl
  | join _ hsame => exact h.keeps rfl hsame.1 (fun _ _ => rfl) fun _ _ => rfl
  | callback _ hsame => exact h.keeps rfl hsame.1 (fun _ _ => rfl) fun _ _ => rfl
  | free hst => exact h.freeStep hst
  | @release x hx =>
    refine h.toSafe.setHandler (x := x) rfl rfl (fun _ hy => hy) (fun _ hy => hy)
      (.inl ?_) fun _ => h.sched x (by unfold State.accessesSched; rw [hx])
    unfold State.accesses
    rw [hx, h.ready x 0 (.inr (by simp [hx]))]
  | handler hst => exact h.handlerStep hst

theorem reach_inv (h : Reach (system c) LoadsOutside s) : Inv c s := by
  refine Reach.invariant ?_ ?_ h
  · rintro _ rfl; exact .initial
  · intro s a s' _ hi hg hst
    exact ⟨hi.toJoined.step hst, hi.safe_step hst, fun _ _ => hi.knows_step hg hst⟩

/-- The steps of a join move no handler. -/
theorem inJoin_exit {a : Act} (hg : InJoin j s a) (hst : step c s a = some s') :
    LoadsOutside s a ∧ s'.join.exit = s.join.exit := by
  refine ⟨hg.1, ?_⟩
  cases step_cases hst with
  | call _ hsame _ => exact hsame.1
  | join _ hsame => exact hsame.1
  | create | callback | free | release | handler => exact hg.2.elim

/-- No join returns before the handler has unlocked `jm`. -/
theorem CanJoinReturn.left (h : Reach (system c) LoadsOutside s) (hc : CanJoinReturn c s x) :
    left (s.join.exit x 0) = true := by
  obtain ⟨j, as, s', hr, hj⟩ := hc
  obtain ⟨h', he⟩ := h.runWhen_keeps (f := fun s => s.join.exit) (fun _ _ _ => inJoin_exit) hr
  have hl := (reach_inv h').knows j x (.inl (.inr (.inr hj)))
  rwa [he] at hl

/-- A load without `jm` that finds the flag while the handler has `jm`. -/
theorem Inv.early (h : Inv c s) {a : Act} (hst : Release.step c s a = some s')
    (hg : ¬ LoadsOutside s a) :
    ∃ j x, a = .join j ∧ s'.join.ret j = some (x, .success) ∧ s'.accesses x = true := by
  cases step_cases hst with
  | @join j J hJ hsame =>
    simp only [LoadsOutside, not_forall, not_not] at hg
    obtain ⟨x, hx, hf, hjm⟩ := hg
    have hin := JoinProtocol.jm_inside h.protocol hjm
    refine ⟨j, x, rfl, ?_, ?_⟩
    · cases hpc : s.join.pc j with
      | load o | spin o =>
        rw [hpc] at hx
        cases hx
        simp only [JoinProtocol.step, JoinProtocol.joinStep, hpc, if_pos hf] at hJ
        cases hJ
        exact Function.update_self ..
      | _ => rw [hpc] at hx; cases hx
    · have hp := h.past hf
      have hacc : s.accesses x = true := by
        rw [h.accesses_eq hp]
        cases he : s.join.exit x 0 <;> rw [he] at hin <;> first | rfl | cases hin
      unfold State.accesses at hacc ⊢
      rw [hsame.1]
      exact hacc
  | create | call | callback | free | release | handler => exact absurd trivial hg

end

/-- In every run in which no join finds `finished` set on the fast path, or spinning, while
`release_handler` has `jm`, the handler accesses only xstreams and schedulers that exist, and join
and release are separated. A step that breaks the condition returns success from a join of an
xstream that its handler has still to access. -/
theorem release_free_separation {c : Config} {s : State} (h : Reach (system c) LoadsOutside s) :
    (∀ x, s.accesses x = true → s.live x = true) ∧
    (∀ x, s.accessesSched x = true → s.schedLive x = true) ∧
    (∀ x, Separated c s x) ∧
    ∀ a s', step c s a = some s' → ¬ LoadsOutside s a →
      ∃ j x, a = .join j ∧ s'.join.ret j = some (x, .success) ∧ s'.accesses x = true := by
  have hi := reach_inv h
  refine ⟨hi.live, hi.sched, fun x hret => ?_, fun a s' hst hg => hi.early hst hg⟩
  have hl := hret.left h
  have hp := past_of_left hl
  refine ⟨by rw [hi.accesses_eq hp, hl]; rfl, ?_⟩
  unfold State.accessesSched
  rw [hi.joining hp]

/-- Xstream 0 is the primary one, xstream 1 has an automatic scheduler; caller 3 is a ULT, the others
are external threads. -/
def oneSecondary : Config := ⟨fun x => x == 0, fun j => j == 3, fun _ => true⟩

/-- Xstream 1 up to the store of `finished` in its handler. -/
def finish : List Act :=
  [.release 1, .handler 1, .handler 1, .handler 1, .handler 1, .handler 1]

/-- Caller 3 joins xstream 1 and blocks. -/
def joinBlocked : List Act :=
  .call 3 1 false false :: List.replicate 8 (.join 3) ++ [.callback 1]

/-- Caller 7 frees xstream 1, on the fast path. -/
def freeFast : List Act :=
  [.call 7 1 false true, .join 7, .join 7, .free 7, .free 7, .free 7, .free 7]

/-- The joiner that is woken and the one on the fast path both come after the unlock. -/
theorem release_free_separation_joined : ∃ s, Reach (system oneSecondary) LoadsOutside s ∧
    s.join.ret 3 = some (1, .success) ∧ s.live 1 = false ∧ Separated oneSecondary s 1 := by
  have h0 : Reach (system oneSecondary) LoadsOutside initial := .start rfl
  obtain ⟨s, hr, h3, hl⟩ := h0.exists_run
    (fun s => s.join.ret 3 = some (1, .success) ∧ s.live 1 = false)
    ([.create 1] ++ joinBlocked ++ finish ++ [.handler 1, .handler 1, .handler 1, .join 3] ++ freeFast)
    (by decide)
  exact ⟨s, hr, h3, hl, (release_free_separation hr).2.2.1 1⟩

/-- An external thread frees xstream 1 between the store of `finished` and the swap of the joiners.
The handler then swaps the list of the deleted xstream and unlocks its mutex. -/
theorem deleted_in_window : ∃ s s', Reach (system oneSecondary) Free s ∧
    ¬ Separated oneSecondary s 1 ∧ s.live 1 = false ∧ s.join.exit 1 0 = .swap ∧
    runWhen (system oneSecondary) Free s [.handler 1, .handler 1] = some s' ∧
    (s'.join.obj 1).jm = none ∧ (s.join.obj 1).jm = some (.exit 0) := by
  have h0 : Reach (system oneSecondary) Free initial := .start rfl
  obtain ⟨s, hr, hj, hl, he, hjm, hacc, hrun⟩ := h0.exists_run
    (fun s => s.join.ret 7 = some (1, .success) ∧ s.live 1 = false ∧ s.join.exit 1 0 = .swap ∧
      (s.join.obj 1).jm = some (.exit 0) ∧ s.accesses 1 = true ∧
      (runWhen (system oneSecondary) Free s [.handler 1, .handler 1]).any
        (fun s' => (s'.join.obj 1).jm = none) = true)
    ([.create 1] ++ finish ++ freeFast) (by decide)
  obtain ⟨s', hs', hp⟩ := (Option.any_eq_true _ _).mp hrun
  refine ⟨s, s', hr, fun hsep => ?_, hl, he, hs', of_decide_eq_true hp, hjm⟩
  have := (hsep ⟨7, [], s, rfl, hj⟩).1
  rw [hacc] at this; cases this

end Release
end AbtReconverse
