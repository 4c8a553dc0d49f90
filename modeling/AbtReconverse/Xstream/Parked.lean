import AbtReconverse.Basic
import AbtReconverse.Lib.Lts
import AbtReconverse.Sched.Direct

/-!
# AbtReconverse.Xstream.Parked

The slot `ABTI_held` of each PE and all code that fills or empties it, or replaces what empties it:
the three stages of `ABTI_choose_fn` (the tests, the pop, the decision), `ABTI_poll_sched`, the idle
hook, `ABT_xstream_set_main_sched`, the lease, its release and the runners of user-defined
schedulers. A call on one PE may fall between two stages of `ABTI_choose_fn` on another.

What a pop returns is up to the pools, which every PE shares: `got i` is the answer of the `i`-th
pool of the scheduler, any unit or none, and `random` the value of `random()`. Schedulers and units
do not change here except for the pool a unit is associated with. There is one xstream to a PE, of
the PE's number; it is not freed.

`parked_unit_kept`: as long as no xstream is given a user-defined scheduler while its PE has a
parked unit or is inside `ABTI_choose_fn`, a parked unit stays in the slot until the PE's loop runs
it, and the loop goes on to poll a predefined scheduler. `ABT_xstream_set_main_sched` does not look
at the slot (`parked_unit_stranded`).
-/

namespace AbtReconverse
namespace Parked

open Lts
open Direct (Kind)

structure Sched where
  userDef : Bool
  predef : SchedPredef
  pools : List Nat

structure Config where
  sched : Nat → Sched
  kind : Nat → Kind
  /-- A user pool with a timed pop of its own. -/
  timed : Nat → Bool
  /-- `direct_burst`. -/
  K : Nat
  numPes : Nat
  /-- `ABT_init` gives the primary xstream a predefined scheduler. -/
  primary : (sched 0).userDef = false

structure Xstream where
  main : Nat
  finishing : Bool

inductive Msg where
  | lease
  | install (table : Option Nat)
  | release

/-- Where the PE is in `ABTI_choose_fn` of unit `me`, if it is: before the pop, or with what the pop
returned. -/
inductive Pc where
  | loop
  | pop (me : Nat) (yielding : Bool)
  | place (me : Nat) (yielding : Bool) (t : Option Nat)
  deriving DecidableEq

structure Pe where
  /-- `ABTI_tls_xstream` is set. -/
  tls : Bool
  /-- The scheduler of the `ABTI_poll_sched` entry of the installed table. -/
  table : Option Nat
  /-- `ABTI_held`. -/
  held : Option Nat
  /-- `ABTI_direct_count`. -/
  direct : Nat
  pc : Pc
  runners : List Nat
  queue : List Msg

structure State where
  pe : Nat → Pe
  /-- `ABTI_g->xstreams`. -/
  xstream : Nat → Option Xstream
  usedBy : Nat → Option Nat
  /-- `ABTI_SCHED_REQ_EXIT`. -/
  exit : Nat → Bool
  /-- The pool of a unit. -/
  pool : Nat → Nat

def freshPe : Pe := ⟨false, none, none, 0, .loop, [], []⟩

/-- After `ABT_init`. -/
def initial : State where
  pe := Function.update (fun _ => freshPe) 0 { freshPe with tls := true, queue := [.install (some 0)] }
  xstream := Function.update (fun _ => none) 0 (some ⟨0, false⟩)
  usedBy := Function.update (fun _ => none) 0 (some 0)
  exit := fun _ => false
  pool := fun _ => 0

/-! ### The functions of a scheduler -/

namespace Sched

/-- `ABTI_pool_index`. -/
def poolIndex (s : Sched) (p : Nat) : Nat := s.pools.idxOf p

/-- The first unit of the first `n` pools. -/
def popFirst (got : Nat → Option Nat) (n : Nat) : Option Nat := (List.range n).findSome? got

/-- `ABTI_sched_pop_by_policy`. -/
def popByPolicy (s : Sched) (random : Nat) (got : Nat → Option Nat) : Option Nat :=
  let n := s.pools.length
  if s.predef = .randws ∧ 1 < n then
    match got 0 with
    | some t => some t
    | none => got (1 + random % (n - 1))
  else popFirst got n

/-- `ABTI_poll_sched`: the unit it runs and the slot afterwards. -/
def poll (s : Sched) (pool : Nat → Nat) (held : Option Nat) (random : Nat) (got : Nat → Option Nat) :
    Option Nat × Option Nat :=
  match held with
  | some h =>
    match popFirst got (s.poolIndex (pool h)) with
    | some t => (some t, some h)
    | none => (some h, none)
  | none => (s.popByPolicy random got, none)

/-- The popped unit `t` cannot be switched to. -/
def parks (s : Sched) (c : Config) (pool : Nat → Nat) (yielding : Bool) (me t : Nat) : Bool :=
  (yielding && pool t ≠ pool me && s.poolIndex (pool me) < s.poolIndex (pool t)) || c.kind t ≠ .ult

/-- The idle hook once there is nothing to release: what it runs and the slot afterwards. `got` is
what it pops from the first pool. -/
def idle (s : Sched) (c : Config) (held got : Option Nat) : Option Nat × Option Nat :=
  match s.predef, s.pools with
  | .basicWait, p :: _ =>
    if c.timed p then (got, held)
    else
      match held with
      | some h => (some h, none)
      | none => (got, none)
  | _, _ => (none, held)

end Sched

/-- `pools_drained`; `quiet`: the pools have no unit and none is blocked that counts. -/
def poolsDrained (held : Option Nat) (quiet : Bool) : Bool := held.isNone && quiet

/-- The entry of the table of a scheduler: a user-defined one has none. -/
def Config.tableOf (c : Config) (i : Nat) : Option Nat :=
  if (c.sched i).userDef then none else some i

namespace Pe

def send (e : Pe) (l : List Msg) : Pe := { e with queue := e.queue ++ l }

/-- `ABTI_xstream_release`. -/
def release (e : Pe) : Pe := { e with tls := false }.send [.install none, .release]

/-- `ABTI_choose_fn` returns the scheduling thread. -/
def toSched (e : Pe) : Pe := { e with direct := 0, pc := .loop }

end Pe

/-- The handlers of a PE, and the table swap. -/
def handle (c : Config) (x : Xstream) (e : Pe) : Msg → Pe
  | .lease =>
    if (c.sched x.main).userDef then { e with tls := true, runners := x.main :: e.runners }
    else { e with tls := true }
  | .install t => { e with table := t }
  | .release => e

/-- What `ABT_xstream_set_main_sched` does to the PE; `here`: the caller runs on it. -/
def replaced (c : Config) (e : Pe) (i : Nat) (here : Bool) : Pe :=
  if (c.sched i).userDef then
    if here then { e.send [.install none] with runners := i :: e.runners }
    else e.send [.install none, .lease]
  else e.send [.install (some i)]

namespace State

def setPe (s : State) (r : Nat) (e : Pe) : State := { s with pe := Function.update s.pe r e }

def setXstream (s : State) (r : Nat) (x : Xstream) : State :=
  { s with xstream := Function.update s.xstream r (some x) }

/-- The caller of `ABT_xstream_set_main_sched` moves to the first of the new pools when its own is
one of the old ones. -/
def moveSelf (s : State) (old new : List Nat) : Option Nat → State
  | some t =>
    match new with
    | p :: _ => if s.pool t ∈ old then { s with pool := Function.update s.pool t p } else s
    | [] => s
  | none => s

end State

inductive Act where
  | xstreamCreate (r i : Nat)
  | setMainSched (r i : Nat) (self : Option Nat) (here : Bool)
  /-- `ABT_xstream_join` up to the wait. -/
  | xstreamJoin (r : Nat)
  | schedExit (i : Nat)
  /-- `ABTI_pool_associate`. -/
  | associate (t p : Nat)
  /-- A unit suspends and `ABTI_choose_fn` makes its tests; `parent`: another ULT has resumed it. -/
  | suspend (r : Nat) (me : Option Nat) (parent yielding : Bool)
  | pop (r random : Nat) (got : Nat → Option Nat)
  | place (r : Nat)
  | poll (r random : Nat) (got : Nat → Option Nat)
  | idle (r : Nat) (quiet : Bool) (got : Option Nat)
  | deliver (r : Nat)
  /-- The end of `sched_runner`. -/
  | runnerEnd (r i : Nat)

/-- `ABT_xstream_set_main_sched` of the xstream `x` of PE `r`. -/
def setMainSched (c : Config) (s : State) (r i : Nat) (x : Xstream) (self : Option Nat)
    (here : Bool) : State :=
  let s₁ := (s.setXstream r { x with main := i }).setPe r (replaced c (s.pe r) i here)
  let s₂ := { s₁ with
    usedBy := Function.update (Function.update s.usedBy i (some r)) x.main none
    exit := if (c.sched x.main).userDef then Function.update s.exit x.main true else s.exit }
  s₂.moveSelf (c.sched x.main).pools (c.sched i).pools self

/-- The tests of `ABTI_choose_fn` for a direct switch. -/
def mayPop (c : Config) (s : State) (r : Nat) : Bool :=
  match s.xstream r with
  | some x =>
    c.K ≠ 0 && (s.pe r).tls && !(c.sched x.main).userDef && (s.pe r).held.isNone &&
      (s.pe r).direct < c.K && !x.finishing && !s.exit x.main
  | none => false

/-- `ABTI_choose_fn` before the pop: the PE goes on to it, to the parent or to its loop. -/
def suspend (c : Config) (s : State) (r : Nat) (me : Option Nat) (parent yielding : Bool) : Pe :=
  match me with
  | some t =>
    if parent then s.pe r
    else if mayPop c s r then { s.pe r with pc := .pop t yielding }
    else (s.pe r).toSched
  | none => (s.pe r).toSched

/-- `ABTI_choose_fn` after the pop. -/
def place (c : Config) (s : State) (r : Nat) (x : Xstream) (me : Nat) (yielding : Bool) :
    Option Nat → Pe
  | some t =>
    if (c.sched x.main).parks c s.pool yielding me t then
      { (s.pe r).toSched with held := some t }
    else { s.pe r with direct := (s.pe r).direct + 1, pc := .loop }
  | none => (s.pe r).toSched

/-- `ABTI_xstream_idle_hook`. -/
def idleHook (c : Config) (s : State) (r : Nat) (quiet : Bool) (got : Option Nat) : Pe :=
  match s.xstream r with
  | some x =>
    if (s.pe r).tls ∧ ¬ (c.sched x.main).userDef then
      if x.finishing ∧ poolsDrained (s.pe r).held quiet then (s.pe r).release
      else { s.pe r with held := ((c.sched x.main).idle c (s.pe r).held got).2 }
    else s.pe r
  | none => s.pe r

/-- The PE takes message `m` off its queue. -/
def deliver (c : Config) (s : State) (r : Nat) (x : Xstream) (m : Msg) (q : List Msg) : State :=
  { s.setPe r (handle c x { s.pe r with queue := q } m) with
    usedBy := match m with
      | .release => Function.update s.usedBy x.main none
      | _ => s.usedBy }

/-- The end of `sched_runner`: the lease is released unless the scheduler was replaced. -/
def runnerEnd (s : State) (r i : Nat) : Pe :=
  let e := { s.pe r with runners := (s.pe r).runners.erase i }
  match s.xstream r with
  | some x => if e.tls ∧ x.main = i then e.release else e
  | none => e

def step (c : Config) (s : State) : Act → Option State
  | .xstreamCreate r i =>
    if 0 < r ∧ r < c.numPes ∧ s.xstream r = none ∧ s.usedBy i = none then
      some { (s.setXstream r ⟨i, false⟩).setPe r ((s.pe r).send [.lease, .install (c.tableOf i)]) with
        usedBy := Function.update s.usedBy i (some r) }
    else none
  | .setMainSched r i self here =>
    match s.xstream r with
    | some x =>
      if (s.usedBy i = none ∨ s.usedBy i = some r) ∧ i ≠ x.main ∧ (here → (s.pe r).pc = .loop) then
        some (setMainSched c s r i x self here)
      else none
    | none => none
  | .xstreamJoin r =>
    match s.xstream r with
    | some x => if r ≠ 0 then some (s.setXstream r { x with finishing := true }) else none
    | none => none
  | .schedExit i => some { s with exit := Function.update s.exit i true }
  | .associate t p => some { s with pool := Function.update s.pool t p }
  | .suspend r me parent yielding =>
    if (s.pe r).pc = .loop then some (s.setPe r (suspend c s r me parent yielding)) else none
  | .pop r random got =>
    match s.xstream r, (s.pe r).pc with
    | some x, .pop me y =>
      some (s.setPe r
        { s.pe r with pc := .place me y ((c.sched x.main).popByPolicy random got) })
    | _, _ => none
  | .place r =>
    match s.xstream r, (s.pe r).pc with
    | some x, .place me y t => some (s.setPe r (place c s r x me y t))
    | _, _ => none
  | .poll r random got =>
    match (s.pe r).pc, (s.pe r).table with
    | .loop, some i =>
      some (s.setPe r
        { s.pe r with held := ((c.sched i).poll s.pool (s.pe r).held random got).2 })
    | _, _ => none
  | .idle r quiet got =>
    if (s.pe r).pc = .loop then some (s.setPe r (idleHook c s r quiet got)) else none
  | .deliver r =>
    match s.xstream r, (s.pe r).pc, (s.pe r).queue with
    | some x, .loop, m :: q => some (deliver c s r x m q)
    | _, _, _ => none
  | .runnerEnd r i =>
    if (s.pe r).pc = .loop ∧ i ∈ (s.pe r).runners then some (s.setPe r (runnerEnd s r i)) else none

def system (c : Config) : System State Act where
  init s := s = initial
  step := step c

/-! ### One PE -/

/-- The table a message leaves. -/
def swap (t : Option Nat) : Msg → Option Nat
  | .install t' => t'
  | _ => t

/-- The table of the PE once its queue is empty. -/
def Pe.lastTable (e : Pe) : Option Nat := e.queue.foldl swap e.table

/-- PE `e` with its xstream. A PE that has a parked unit, or is about to park one, has the lease of
an xstream with a predefined scheduler, and the last table it is sent polls that scheduler. -/
structure Safe (c : Config) (x : Option Xstream) (e : Pe) : Prop where
  busy : e.held ≠ none ∨ e.pc ≠ .loop → e.tls = true ∧ ∃ y, x = some y ∧
    (c.sched y.main).userDef = false ∧ e.lastTable = some y.main
  table : ∀ y, x = some y → y.finishing = false → e.lastTable = c.tableOf y.main
  runner : ∀ i ∈ e.runners, (c.sched i).userDef = true
  clean : e.pc ≠ .loop → e.held = none

section

variable {c : Config} {x : Option Xstream} {y : Xstream} {e e' : Pe} {i : Nat}

@[simp] theorem lastTable_send (l : List Msg) : (e.send l).lastTable = l.foldl swap e.lastTable := by
  simp [Pe.send, Pe.lastTable]

theorem tableOf_predef (h : (c.sched i).userDef = false) : c.tableOf i = some i := by
  simp [Config.tableOf, h]

theorem tableOf_userDef (h : (c.sched i).userDef = true) : c.tableOf i = none := by
  simp [Config.tableOf, h]

namespace Safe

/-- The PE is in its loop with an empty slot. -/
theorem of_empty (hh : e.held = none) (hpc : e.pc = .loop)
    (ht : ∀ y, x = some y → y.finishing = false → e.lastTable = c.tableOf y.main)
    (hr : ∀ i ∈ e.runners, (c.sched i).userDef = true) : Safe c x e := by
  refine ⟨fun hb => ?_, ht, hr, fun hb => absurd hpc hb⟩
  obtain hb | hb := hb
  · exact absurd hh hb
  · exact absurd hpc hb

/-- A step of the PE that leaves lease, tables and runners alone. -/
theorem frame (h : Safe c x e) (htls : e'.tls = e.tls) (ht : e'.lastTable = e.lastTable)
    (hr : e'.runners = e.runners)
    (hb : e'.held ≠ none ∨ e'.pc ≠ .loop → e.held ≠ none ∨ e.pc ≠ .loop)
    (hc : e'.pc ≠ .loop → e'.held = none) : Safe c x e' := by
  refine ⟨fun hbusy => ?_, ?_, ?_, hc⟩
  · rw [htls, ht]
    exact h.busy (hb hbusy)
  · rw [ht]
    exact h.table
  · rw [hr]
    exact h.runner

/-- The slot is emptied, or stays as it is. -/
theorem held (h : Safe c x e) {o : Option Nat} (ho : o = none ∨ o = e.held) :
    Safe c x { e with held := o } := by
  refine h.frame rfl rfl rfl (fun hb => ?_) (fun hpc => ?_)
  · obtain hb | hb := hb
    · obtain rfl | rfl := ho
      · exact absurd rfl hb
      · exact .inl hb
    · exact .inr hb
  · obtain rfl | rfl := ho
    · rfl
    · exact h.clean hpc

theorem toSched (h : Safe c x e) : Safe c x e.toSched := by
  refine h.frame rfl rfl rfl (fun hb => .inl ?_) (fun hpc => absurd rfl hpc)
  obtain hb | hb := hb
  · exact hb
  · exact absurd rfl hb

/-- `ABTI_choose_fn` goes on to its pop. -/
theorem pop (h : Safe c (some y) e) (htls : e.tls = true) (hu : (c.sched y.main).userDef = false)
    (hh : e.held = none) (hf : y.finishing = false) (me : Nat) (yielding : Bool) :
    Safe c (some y) { e with pc := .pop me yielding } := by
  have ht := (h.table y rfl hf).trans (tableOf_predef hu)
  exact ⟨fun _ => ⟨htls, y, rfl, hu, ht⟩, h.table, h.runner, fun _ => hh⟩

/-- `ABTI_xstream_release` with an empty slot. -/
theorem release (h : Safe c (some y) e) (hh : e.held = none) (hpc : e.pc = .loop)
    (hy : y.finishing = true ∨ (c.sched y.main).userDef = true) : Safe c (some y) e.release := by
  refine of_empty hh hpc (fun z hz hf => ?_) h.runner
  cases hz
  obtain hy | hy := hy
  · simp [hy] at hf
  · rw [tableOf_userDef hy]
    simp [Pe.release, swap]

theorem handle (h : Safe c (some y) e) {m : Msg} {q : List Msg} (hq : e.queue = m :: q)
    (hpc : e.pc = .loop) : Safe c (some y) (handle c y { e with queue := q } m) := by
  have hlast : ∀ e' : Pe, e'.queue = q → e'.table = swap e.table m → e'.lastTable = e.lastTable := by
    intro e' hq' ht'
    simp [Pe.lastTable, hq, hq', ht']
  cases m with
  | lease =>
    have htls : ∀ rs, (∀ i ∈ rs, (c.sched i).userDef = true) →
        Safe c (some y) { e with queue := q, tls := true, runners := rs } := by
      intro rs hrs
      have hl := hlast { e with queue := q, tls := true, runners := rs } rfl rfl
      refine ⟨fun hb => ?_, by rw [hl]; exact h.table, hrs, fun hb => absurd hpc hb⟩
      rw [hl]
      exact ⟨rfl, (h.busy hb).2⟩
    unfold Parked.handle
    dsimp only
    split
    · rename_i hu
      exact htls _ (List.forall_mem_cons.mpr ⟨hu, h.runner⟩)
    · exact htls _ h.runner
  | install t => exact h.frame rfl (hlast _ rfl rfl) rfl id fun hb => absurd hpc hb
  | release => exact h.frame rfl (hlast _ rfl rfl) rfl id fun hb => absurd hpc hb

/-- `ABT_xstream_set_main_sched`: a user-defined scheduler comes only while nothing is parked. -/
theorem replaced (h : Safe c (some y) e) {here : Bool}
    (hi : (c.sched i).userDef = true → e.held = none ∧ e.pc = .loop) :
    Safe c (some { y with main := i }) (replaced c e i here) := by
  unfold Parked.replaced
  by_cases hu : (c.sched i).userDef = true
  · obtain ⟨hh, hpc⟩ := hi hu
    have ht := tableOf_userDef hu
    rw [if_pos hu]
    split
    · refine of_empty hh hpc (fun z hz _ => ?_) (List.forall_mem_cons.mpr ⟨hu, h.runner⟩)
      cases hz
      exact (lastTable_send (e := e) [.install none]).trans ht.symm
    · refine of_empty hh hpc (fun z hz _ => ?_) h.runner
      cases hz
      exact (lastTable_send (e := e) [.install none, .lease]).trans ht.symm
  · rw [if_neg hu]
    have hu : (c.sched i).userDef = false := Bool.eq_false_iff.mpr hu
    have hlast : (e.send [.install (some i)]).lastTable = some i := by simp [swap]
    refine ⟨fun hb => ⟨(h.busy hb).1, _, rfl, hu, hlast⟩, fun z hz _ => ?_, h.runner, h.clean⟩
    cases hz
    exact hlast.trans (tableOf_predef hu).symm

theorem runnerEnd (h : Safe c (some y) e) (hi : i ∈ e.runners) (hpc : e.pc = .loop)
    (hm : y.main = i) : Safe c (some y) { e with runners := e.runners.erase i }.release := by
  subst hm
  have hu := h.runner _ hi
  have hh : e.held = none := by
    by_contra hne
    obtain ⟨-, z, hz, hz', -⟩ := h.busy (.inl hne)
    cases hz
    simp [hu] at hz'
  have h' : Safe c (some y) { e with runners := e.runners.erase y.main } :=
    of_empty hh hpc h.table fun j hj => h.runner j (List.mem_of_mem_erase hj)
  exact h'.release hh hpc (.inr hu)

end Safe
end

/-! ### Every run -/

section

variable {c : Config} {s s' : State} {r t : Nat}

def Inv (c : Config) (s : State) : Prop := ∀ r, Safe c (s.xstream r) (s.pe r)

/-- One PE and its xstream change. -/
theorem Inv.update (h : Inv c s) {x : Option Xstream} {e : Pe}
    (hpe : s'.pe = Function.update s.pe r e) (hx : s'.xstream = Function.update s.xstream r x)
    (hsafe : Safe c x e) : Inv c s' := by
  intro q
  rw [hpe, hx]
  by_cases hq : q = r
  · subst hq
    rw [Function.update_self, Function.update_self]
    exact hsafe
  · rw [Function.update_of_ne hq, Function.update_of_ne hq]
    exact h q

theorem Inv.setPe (h : Inv c s) {e : Pe} (hsafe : Safe c (s.xstream r) e) : Inv c (s.setPe r e) :=
  h.update rfl (Function.update_eq_self r s.xstream).symm hsafe

/-- An xstream changes and its PE does not. -/
theorem Inv.setXstream (h : Inv c s) {x : Xstream} (hsafe : Safe c (some x) (s.pe r)) :
    Inv c (s.setXstream r x) :=
  h.update (Function.update_eq_self r s.pe).symm rfl hsafe

theorem mayPop_spec {y : Xstream} (hx : s.xstream r = some y) (h : mayPop c s r = true) :
    (s.pe r).tls = true ∧ (c.sched y.main).userDef = false ∧ (s.pe r).held = none ∧
      y.finishing = false := by
  simp only [mayPop, hx, Bool.and_eq_true, Bool.not_eq_eq_eq_not, Bool.not_true,
    Option.isNone_iff_eq_none] at h
  obtain ⟨⟨⟨⟨⟨⟨-, h₁⟩, h₂⟩, h₃⟩, -⟩, h₄⟩, -⟩ := h
  exact ⟨h₁, h₂, h₃, h₄⟩

theorem suspend_safe (h : Safe c (s.xstream r) (s.pe r)) (me : Option Nat) (parent yielding : Bool) :
    Safe c (s.xstream r) (suspend c s r me parent yielding) := by
  unfold suspend
  cases me with
  | none => exact h.toSched
  | some t =>
    dsimp only
    split
    · exact h
    · split
      · rename_i hp
        cases hx : s.xstream r with
        | none => simp [mayPop, hx] at hp
        | some y =>
          rw [hx] at h
          obtain ⟨h₁, h₂, h₃, h₄⟩ := mayPop_spec hx hp
          exact h.pop h₁ h₂ h₃ h₄ t yielding
      · exact h.toSched

theorem place_safe {y : Xstream} {o : Option Nat} {me : Nat} {yielding : Bool}
    (h : Safe c (some y) (s.pe r)) (hpc : (s.pe r).pc = .place me yielding o) :
    Safe c (some y) (place c s r y me yielding o) := by
  have hbusy : (s.pe r).held ≠ none ∨ (s.pe r).pc ≠ .loop := .inr (by rw [hpc]; simp)
  unfold place
  cases o with
  | none => exact h.toSched
  | some t =>
    dsimp only
    split
    · exact h.frame rfl rfl rfl (fun _ => hbusy) fun hb => absurd rfl hb
    · exact h.frame rfl rfl rfl (fun _ => hbusy) fun hb => absurd rfl hb

/-- What `ABTI_poll_sched` does with a parked unit. -/
theorem Sched.poll_parked (d : Sched) (pool : Nat → Nat) (random : Nat) (got : Nat → Option Nat) :
    (∃ i < d.poolIndex (pool t), ∃ u, got i = some u ∧
      d.poll pool (some t) random got = (some u, some t)) ∨
    d.poll pool (some t) random got = (some t, none) := by
  unfold Sched.poll
  cases hg : Sched.popFirst got (d.poolIndex (pool t)) with
  | none => simp only [hg]; exact .inr trivial
  | some u =>
    obtain ⟨i, hi, hu⟩ := List.exists_of_findSome?_eq_some hg
    simp only [hg]
    exact .inl ⟨i, List.mem_range.mp hi, u, hu, rfl⟩

theorem Sched.poll_held (d : Sched) (pool : Nat → Nat) (held : Option Nat) (random : Nat)
    (got : Nat → Option Nat) :
    (d.poll pool held random got).2 = none ∨ (d.poll pool held random got).2 = held := by
  cases held with
  | none => exact .inl rfl
  | some t =>
    obtain ⟨i, -, u, -, hp⟩ | hp := d.poll_parked (t := t) pool random got
    · exact .inr (by rw [hp])
    · exact .inl (by rw [hp])

/-- The idle hook leaves a parked unit alone or runs it. -/
theorem Sched.idle_parked (d : Sched) (got : Option Nat) :
    (d.idle c (some t) got).2 = some t ∨ d.idle c (some t) got = (some t, none) := by
  unfold Sched.idle
  split
  · split
    · exact .inl rfl
    · exact .inr rfl
  · exact .inl rfl

theorem Sched.idle_held (d : Sched) (held got : Option Nat) :
    (d.idle c held got).2 = none ∨ (d.idle c held got).2 = held := by
  cases held with
  | none =>
    unfold Sched.idle
    split
    · split <;> exact .inl rfl
    · exact .inl rfl
  | some t =>
    obtain hi | hi := d.idle_parked (c := c) (t := t) got
    · exact .inr hi
    · exact .inl (by rw [hi])

theorem idleHook_safe (h : Safe c (s.xstream r) (s.pe r)) (hpc : (s.pe r).pc = .loop) (quiet : Bool)
    (got : Option Nat) : Safe c (s.xstream r) (idleHook c s r quiet got) := by
  unfold idleHook
  cases hx : s.xstream r with
  | none => rw [hx] at h; exact h
  | some y =>
    rw [hx] at h
    dsimp only
    split
    · split
      · rename_i hd
        have hh : (s.pe r).held = none := by
          have hd := hd.2
          simp only [poolsDrained, Bool.and_eq_true, Option.isNone_iff_eq_none] at hd
          exact hd.1
        exact h.release hh hpc (.inl hd.1)
      · exact h.held ((c.sched y.main).idle_held _ got)
    · exact h

theorem runnerEnd_safe {i : Nat} (h : Safe c (s.xstream r) (s.pe r)) (hpc : (s.pe r).pc = .loop)
    (hi : i ∈ (s.pe r).runners) : Safe c (s.xstream r) (runnerEnd s r i) := by
  have herase : Safe c (s.xstream r) { s.pe r with runners := (s.pe r).runners.erase i } :=
    ⟨h.busy, h.table, fun j hj => h.runner j (List.mem_of_mem_erase hj), h.clean⟩
  unfold runnerEnd
  cases hx : s.xstream r with
  | none => rw [hx] at herase; exact herase
  | some y =>
    rw [hx] at h herase
    dsimp only
    split
    · rename_i hm
      exact h.runnerEnd hi hpc hm.2
    · exact herase

/-- `ABT_xstream_set_main_sched` writes one PE and its xstream. -/
theorem setMainSched_frame (c : Config) (s : State) (r i : Nat) (y : Xstream) (self : Option Nat)
    (here : Bool) : (setMainSched c s r i y self here).pe =
      Function.update s.pe r (replaced c (s.pe r) i here) ∧
    (setMainSched c s r i y self here).xstream =
      Function.update s.xstream r (some { y with main := i }) := by
  unfold setMainSched State.moveSelf
  dsimp only
  split
  · split
    · split <;> exact ⟨rfl, rfl⟩
    · exact ⟨rfl, rfl⟩
  · exact ⟨rfl, rfl⟩

/-- A user-defined scheduler comes only to a PE with no parked unit that is not about to park one. -/
def NothingParked (c : Config) (s : State) : Act → Prop
  | .setMainSched r i _ _ =>
    (c.sched i).userDef = true → (s.pe r).held = none ∧ (s.pe r).pc = .loop
  | _ => True

instance (c : Config) (s : State) (a : Act) : Decidable (NothingParked c s a) :=
  match a with
  | .setMainSched r i _ _ => inferInstanceAs
      (Decidable ((c.sched i).userDef = true → (s.pe r).held = none ∧ (s.pe r).pc = .loop))
  | .xstreamCreate _ _ | .xstreamJoin _ | .schedExit _ | .associate _ _ | .suspend _ _ _ _
  | .pop _ _ _ | .place _ | .poll _ _ _ | .idle _ _ _ | .deliver _ | .runnerEnd _ _ => isTrue trivial

theorem step_inv {a : Act} (h : Inv c s) (hg : NothingParked c s a) (hs : step c s a = some s') :
    Inv c s' := by
  cases a with
  | xstreamCreate r i =>
    simp only [step] at hs
    split at hs
    · rename_i hc
      cases hs
      have hsafe := h r
      rw [hc.2.2.1] at hsafe
      refine h.update rfl rfl (Safe.of_empty ?_ ?_ (fun y hy _ => ?_) hsafe.runner)
      · by_contra hb
        obtain ⟨-, y, hy, -⟩ := hsafe.busy (.inl hb)
        cases hy
      · by_contra hb
        obtain ⟨-, y, hy, -⟩ := hsafe.busy (.inr hb)
        cases hy
      · cases hy
        rw [lastTable_send]
        rfl
    · cases hs
  | setMainSched r i self here =>
    simp only [step] at hs
    split at hs
    · rename_i y hx
      split at hs
      · cases hs
        obtain ⟨hpe, hxs⟩ := setMainSched_frame c s r i y self here
        have hsafe := h r
        rw [hx] at hsafe
        exact h.update hpe hxs (hsafe.replaced hg)
      · cases hs
    · cases hs
  | xstreamJoin r =>
    simp only [step] at hs
    split at hs
    · rename_i y hx
      split at hs
      · cases hs
        have hsafe := h r
        rw [hx] at hsafe
        refine h.setXstream ⟨fun hb => ?_, fun z hz hf => ?_, hsafe.runner, hsafe.clean⟩
        · obtain ⟨htls, z, hz, hu, ht⟩ := hsafe.busy hb
          cases hz
          exact ⟨htls, _, rfl, hu, ht⟩
        · cases hz
          cases hf
      · cases hs
    · cases hs
  | schedExit i => cases hs; exact h
  | associate t p => cases hs; exact h
  | suspend r me parent yielding =>
    simp only [step] at hs
    split at hs
    · cases hs
      exact h.setPe (suspend_safe (h r) me parent yielding)
    · cases hs
  | pop r random got =>
    simp only [step] at hs
    split at hs
    · rename_i y me yielding hx hpc
      cases hs
      have hbusy : (s.pe r).pc ≠ .loop := by rw [hpc]; simp
      exact h.setPe ((h r).frame rfl rfl rfl (fun _ => .inr hbusy) fun _ => (h r).clean hbusy)
    · cases hs
  | place r =>
    simp only [step] at hs
    split at hs
    · rename_i y me yielding o hx hpc
      cases hs
      refine h.setPe ?_
      have hsafe := h r
      rw [hx] at hsafe ⊢
      exact place_safe hsafe hpc
    · cases hs
  | poll r random got =>
    simp only [step] at hs
    split at hs
    · cases hs
      exact h.setPe ((h r).held (Sched.poll_held ..))
    · cases hs
  | idle r quiet got =>
    simp only [step] at hs
    split at hs
    · rename_i hpc
      cases hs
      exact h.setPe (idleHook_safe (h r) hpc quiet got)
    · cases hs
  | deliver r =>
    simp only [step] at hs
    split at hs
    · rename_i y m q hx hpc hq
      cases hs
      have hsafe := h r
      rw [hx] at hsafe
      refine h.update rfl (Function.update_eq_self r s.xstream).symm ?_
      rw [hx]
      exact hsafe.handle hq hpc
    · cases hs
  | runnerEnd r i =>
    simp only [step] at hs
    split at hs
    · rename_i hc
      cases hs
      exact h.setPe (runnerEnd_safe (h r) hc.1 hc.2)
    · cases hs

theorem reach_inv (h : Reach (system c) (NothingParked c) s) : Inv c s := by
  refine Reach.invariant (I := Inv c) ?_ (fun s a s' _ hi hg hs => step_inv hi hg hs) h
  rintro s rfl r
  by_cases hr : r = 0
  · subst hr
    refine Safe.of_empty rfl rfl (fun y hy _ => ?_) fun i hi => by simp [initial, freshPe] at hi
    have hy : y = ⟨0, false⟩ := by simpa [initial] using hy.symm
    subst hy
    exact (tableOf_predef c.primary).symm
  · have hpe : initial.pe r = freshPe := by simp [initial, hr]
    have hx : initial.xstream r = none := by simp [initial, hr]
    rw [hpe, hx]
    exact Safe.of_empty rfl rfl (fun y hy => by cases hy) fun i hi => by simp [freshPe] at hi

/-- The loop of PE `r` runs unit `t` in the step. -/
def Runs (c : Config) (s : State) (r t : Nat) : Act → Prop
  | .poll q random got => q = r ∧ ∃ i, (s.pe r).table = some i ∧
      ((c.sched i).poll s.pool (s.pe r).held random got).1 = some t
  | .idle q _ got => q = r ∧ ∃ x, s.xstream r = some x ∧
      ((c.sched x.main).idle c (s.pe r).held got).1 = some t
  | _ => False

/-- A PE that changes in other things has the same slot. -/
theorem held_update {q : Nat} {e : Pe} (hpe : s'.pe = Function.update s.pe q e)
    (he : e.held = (s.pe q).held) : (s'.pe r).held = (s.pe r).held := by
  rw [hpe]
  by_cases hr : r = q
  · subst hr
    rw [Function.update_self, he]
  · rw [Function.update_of_ne hr]

theorem suspend_held (c : Config) (s : State) (r : Nat) (me : Option Nat) (parent yielding : Bool) :
    (suspend c s r me parent yielding).held = (s.pe r).held := by
  unfold suspend
  split
  · split
    · rfl
    · split <;> rfl
  · rfl

theorem handle_held (c : Config) (x : Xstream) (e : Pe) (m : Msg) : (handle c x e m).held = e.held := by
  cases m with
  | lease => unfold handle; dsimp only; split <;> rfl
  | install t => rfl
  | release => rfl

theorem replaced_held (c : Config) (e : Pe) (i : Nat) (here : Bool) :
    (replaced c e i here).held = e.held := by
  unfold replaced
  split
  · split <;> rfl
  · rfl

theorem runnerEnd_held (s : State) (r i : Nat) : (runnerEnd s r i).held = (s.pe r).held := by
  unfold runnerEnd
  dsimp only
  split
  · split <;> rfl
  · rfl

/-- The idle hook runs a parked unit or leaves it. -/
theorem idleHook_held (ht : (s.pe r).held = some t) (quiet : Bool) (got : Option Nat) :
    (idleHook c s r quiet got).held = some t ∨
      (idleHook c s r quiet got).held = none ∧ Runs c s r t (.idle r quiet got) := by
  unfold idleHook
  split
  · rename_i x hx
    split
    · split
      · exact .inl ht
      · obtain hi | hi := (c.sched x.main).idle_parked (c := c) (t := t) got
        · exact .inl (by rw [ht]; exact hi)
        · exact .inr ⟨by rw [ht, hi], rfl, x, hx, by rw [ht, hi]⟩
    · exact .inl ht
  · exact .inl ht

/-- No step overwrites the slot: only the step that runs the parked unit empties it. -/
theorem held_step {a : Act} (h : Inv c s) (ht : (s.pe r).held = some t)
    (hs : step c s a = some s') :
    (s'.pe r).held = some t ∨ (s'.pe r).held = none ∧ Runs c s r t a := by
  cases a with
  | xstreamCreate q i =>
    simp only [step] at hs
    split at hs
    · cases hs
      refine .inl ((held_update (q := q) rfl ?_).trans ht)
      rfl
    · cases hs
  | setMainSched q i self here =>
    simp only [step] at hs
    split at hs
    · rename_i y hx
      split at hs
      · cases hs
        have hpe := (setMainSched_frame c s q i y self here).1
        exact .inl ((held_update hpe (replaced_held c _ i here)).trans ht)
      · cases hs
    · cases hs
  | xstreamJoin q =>
    simp only [step] at hs
    split at hs
    · split at hs
      · cases hs; exact .inl ht
      · cases hs
    · cases hs
  | schedExit i => cases hs; exact .inl ht
  | associate u p => cases hs; exact .inl ht
  | suspend q me parent yielding =>
    simp only [step] at hs
    split at hs
    · cases hs
      exact .inl ((held_update rfl (suspend_held c s q me parent yielding)).trans ht)
    · cases hs
  | pop q random got =>
    simp only [step] at hs
    split at hs
    · cases hs
      refine .inl ((held_update (q := q) rfl ?_).trans ht)
      rfl
    · cases hs
  | place q =>
    simp only [step] at hs
    split at hs
    · rename_i y me yielding o hx hpc
      cases hs
      -- the PE is inside `ABTI_choose_fn`, so its slot is empty
      have hq : r ≠ q := by
        rintro rfl
        have hnone := (h r).clean (by rw [hpc]; simp)
        rw [ht] at hnone
        cases hnone
      exact .inl ((congrArg Pe.held (Function.update_of_ne hq ..)).trans ht)
    · cases hs
  | poll q random got =>
    simp only [step] at hs
    split at hs
    · rename_i i hpc htab
      cases hs
      by_cases hq : r = q
      · subst hq
        simp only [State.setPe, Function.update_self]
        obtain ⟨j, -, u, -, hp⟩ | hp := (c.sched i).poll_parked (t := t) s.pool random got
        · exact .inl (by rw [ht, hp])
        · exact .inr ⟨by rw [ht, hp], rfl, i, htab, by rw [ht, hp]⟩
      · exact .inl ((congrArg Pe.held (Function.update_of_ne hq ..)).trans ht)
    · cases hs
  | idle q quiet got =>
    simp only [step] at hs
    split at hs
    · cases hs
      by_cases hq : r = q
      · subst hq
        simp only [State.setPe, Function.update_self]
        exact idleHook_held ht quiet got
      · exact .inl ((congrArg Pe.held (Function.update_of_ne hq ..)).trans ht)
    · cases hs
  | deliver q =>
    simp only [step] at hs
    split at hs
    · cases hs
      refine .inl ((held_update (q := q) rfl ?_).trans ht)
      exact handle_held ..
    · cases hs
  | runnerEnd q i =>
    simp only [step] at hs
    split at hs
    · cases hs
      exact .inl ((held_update rfl (runnerEnd_held s q i)).trans ht)
    · cases hs

end

/-- A PE with a parked unit has the lease of an xstream with a predefined scheduler, and its last
table polls that one. A poll, of this scheduler or of any that the table still lists, runs a unit of
an earlier pool or the parked one. The slot keeps the unit until the PE's loop runs it. -/
theorem parked_unit_kept {c : Config} {s : State} (h : Reach (system c) (NothingParked c) s) (r t : Nat)
    (ht : (s.pe r).held = some t) :
    (∃ x, (s.pe r).tls = true ∧ s.xstream r = some x ∧ (c.sched x.main).userDef = false ∧
      (s.pe r).lastTable = some x.main) ∧
    (∀ j random got, (∃ i < (c.sched j).poolIndex (s.pool t), ∃ u, got i = some u ∧
        (c.sched j).poll s.pool (some t) random got = (some u, some t)) ∨
      (c.sched j).poll s.pool (some t) random got = (some t, none)) ∧
    ∀ a s', step c s a = some s' →
      (s'.pe r).held = some t ∨ (s'.pe r).held = none ∧ Runs c s r t a := by
  have hi := reach_inv h
  obtain ⟨htls, x, hx, hu, hlast⟩ := (hi r).busy (.inl (by simp [ht]))
  exact ⟨⟨x, htls, hx, hu, hlast⟩, fun j random got => (c.sched j).poll_parked s.pool random got,
    fun a s' hs => held_step hi ht hs⟩

/-- Scheduler 1 polls pools 1 and 2; scheduler 2 is user-defined. -/
def twoPools : Config where
  sched := fun i => if i = 2 then ⟨true, .default, [3]⟩
    else if i = 1 then ⟨false, .basic, [1, 2]⟩ else ⟨false, .default, [0]⟩
  kind := fun _ => .ult
  timed := fun _ => false
  K := 16
  numPes := 2
  primary := rfl

/-- On PE 1 unit 7 of pool 1 yields and unit 8 of pool 2 is parked; the next poll runs unit 9 of
pool 1. -/
def parkedRun : List Act :=
  [.associate 7 1, .associate 8 2, .associate 9 1, .xstreamCreate 1 1, .deliver 1, .deliver 1,
    .poll 1 0 (fun i => if i = 0 then some 7 else none), .suspend 1 (some 7) false true,
    .pop 1 0 (fun i => if i = 1 then some 8 else none), .place 1,
    .poll 1 0 (fun i => if i = 0 then some 9 else none)]

theorem parked_unit_kept_yield : ∃ s : State, (s.pe 1).held = some 8 ∧
    ∃ x, (s.pe 1).tls = true ∧ s.xstream 1 = some x ∧ (twoPools.sched x.main).userDef = false ∧
      (s.pe 1).lastTable = some x.main := by
  obtain ⟨s, hr, ht⟩ :=
    (Reach.start (M := system twoPools) (G := NothingParked twoPools) rfl).exists_run
      (fun s => (s.pe 1).held = some 8) parkedRun (by decide)
  exact ⟨s, ht, (parked_unit_kept hr 1 8 ht).1⟩

/-- Unit 9 gives its xstream the user-defined scheduler. The runner returns, the lease is released,
and unit 8 is still in the slot of a PE that polls nothing. -/
theorem parked_unit_stranded : ∃ s, Reach (system twoPools) Free s ∧ (s.pe 1).held = some 8 ∧
    (s.pe 1).tls = false ∧ (s.pe 1).lastTable = none :=
  (Reach.start (M := system twoPools) (G := Free) rfl).exists_run
    (fun s => (s.pe 1).held = some 8 ∧ (s.pe 1).tls = false ∧ (s.pe 1).lastTable = none)
    (parkedRun ++ [Act.setMainSched 1 2 (some 9) true, .deliver 1, .runnerEnd 1 2]) (by decide)

end Parked
end AbtReconverse
