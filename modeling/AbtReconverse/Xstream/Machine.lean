import AbtReconverse.Objects.Machine

/-!
# AbtReconverse.Xstream.Machine

Execution streams as leases of PEs. Over the objects of `Objects.Machine` each PE has its
`ABTI_tls_xstream`, the poll table it runs, a parked unit, the runner ULTs started on it, and one
FIFO queue through which table installs and messages travel. What a call writes at once
(`main_sched`, `used_by`, the destruction of a scheduler) is in the object part of the step; what it
sends takes effect when the PE delivers it (`deliver`). Between two deliveries the PE may run the
entry of the table it has.

A table with no scheduler entry (the default table, or the built-in one under a user-defined
scheduler) is `none`.
-/

namespace AbtReconverse
namespace Lease

open Lts Objects

/-- What travels through a PE's queue. -/
inductive Msg where
  | lease (x : Nat)
  | install (table : Option Nat)
  | release (x : Nat)
  deriving DecidableEq, Repr

structure Pe where
  /-- `ABTI_tls_xstream`. -/
  tls : Option Nat
  /-- The scheduler of the `ABTI_poll_sched` entry of the installed table. -/
  table : Option Nat
  /-- `ABTI_held`. -/
  held : Option Nat
  /-- The user-defined schedulers whose runner has been started here and has not returned. -/
  runners : List Nat
  queue : List Msg
  deriving DecidableEq, Repr

namespace Pe

def send (e : Pe) (l : List Msg) : Pe := { e with queue := e.queue ++ l }

def startRunner (e : Pe) (i : Nat) : Pe := { e with runners := i :: e.runners }

/-- `ABTI_xstream_release`: the lease ends at once, the table and the completion are sent. -/
def giveBack (e : Pe) (x : Nat) : Pe := { e with tls := none }.send [.install none, .release x]

end Pe

structure State where
  obj : Objects.State
  pe : Nat → Pe
  numPes : Nat

def freshPe : Pe := ⟨none, none, none, [], []⟩

/-- After `ABT_init`: PE 0 knows its xstream and is sent its table; the others sleep. -/
def initial (n : Nat) : State where
  obj := Objects.initial
  pe := Function.update (fun _ => freshPe) 0 ⟨some 0, none, none, [], [.install (some 0)]⟩
  numPes := n

/-- The table of a scheduler: a user-defined one gets the built-in entries only. -/
def tableOf (o : Objects.State) (i : Nat) : Option Nat :=
  if (o.sched i).userDef then none else some i

namespace State

def setPe (s : State) (r : Nat) (e : Pe) : State := { s with pe := Function.update s.pe r e }

def setObj (s : State) (o : Objects.State) : State := { s with obj := o }

end State

/-- Calls and runtime steps that write objects only. -/
def isLocal : Objects.Act → Bool
  | .xstreamCreate _ _ | .setMainSched _ _ _ | .idle _ | .runnerEnd _ | .release _ | .finalize =>
    false
  | _ => true

inductive Act where
  /-- Anything that sends nothing. -/
  | obj (a : Objects.Act)
  | xstreamCreate (i r : Nat)
  /-- `here`: the caller runs on the PE of the xstream. -/
  | setMainSched (x i : Nat) (self : Option Nat) (here : Bool)
  | deliver (r : Nat)
  | idle (r : Nat)
  | runnerEnd (r i : Nat)
  /-- `ABTI_choose_fn` parks a unit it cannot switch to. -/
  | park (r p t : Nat)
  /-- The parked unit runs. -/
  | unpark (r : Nat)
  /-- `ABTI_poll_sched` of the installed entry takes a unit of a pool. -/
  | poll (r p t : Nat)
  deriving DecidableEq, Repr

/-- The handlers of a PE, and the table swap. -/
def handle (s : State) (r : Nat) (e : Pe) : Msg → State
  | .lease x =>
    let i := (s.obj.xstream x).mainSched
    s.setPe r (if (s.obj.sched i).userDef then { e with tls := some x }.startRunner i
      else { e with tls := some x })
  | .install t => s.setPe r { e with table := t }
  | .release x =>
    -- the source has no such test: a second completion of an xstream that is gone uses freed memory
    -- there, and changes no other object here
    if (s.obj.xstream x).live then (s.setObj (s.obj.finish x)).setPe r e else s.setPe r e

/-- What `ABT_xstream_set_main_sched` sends. -/
def replaced (o : Objects.State) (e : Pe) (x i : Nat) (here : Bool) : Pe :=
  if (o.sched i).userDef then
    if here then (e.send [.install none]).startRunner i else e.send [.install none, .lease x]
  else e.send [.install (some i)]

def step (s : State) : Act → Option State
  | .obj a => if isLocal a then (Objects.step s.obj a).map s.setObj else none
  | .xstreamCreate i r =>
    if r < s.numPes then
      (Objects.step s.obj (.xstreamCreate i r)).map fun o =>
        (s.setObj o).setPe r
          ((s.pe r).send [.lease s.obj.nextXstream, .install (tableOf s.obj i)])
    else none
  | .setMainSched x i self here =>
    let r := (s.obj.xstream x).rank
    (Objects.step s.obj (.setMainSched x i self)).map fun o =>
      (s.setObj o).setPe r (replaced s.obj (s.pe r) x i here)
  | .deliver r =>
    match (s.pe r).queue with
    | m :: q => some (handle s r { s.pe r with queue := q } m)
    | [] => none
  | .idle r =>
    match (s.pe r).tls with
    | some x =>
      if (s.pe r).held = none then
        (Objects.step s.obj (.idle x)).map fun o => (s.setObj o).setPe r ((s.pe r).giveBack x)
      else none
    | none => none
  | .runnerEnd r i =>
    if i ∈ (s.pe r).runners then
      let e := { s.pe r with runners := (s.pe r).runners.erase i }
      match (s.pe r).tls with
      | some x =>
        if (s.obj.xstream x).live ∧ (s.obj.xstream x).mainSched = i then
          some ((s.setObj (s.obj.giveBack x)).setPe r (e.giveBack x))
        else some (s.setPe r e)
      | none => some (s.setPe r e)
    else none
  | .park r p t =>
    match (s.pe r).tls with
    | some x =>
      if (s.pe r).held = none ∧ (s.obj.xstream x).live ∧ ¬ (s.obj.xstream x).finishing ∧
          ¬ (s.obj.sched (s.obj.xstream x).mainSched).userDef ∧
          p ∈ (s.obj.sched (s.obj.xstream x).mainSched).pools then
        (Objects.step s.obj (.pop p t)).map fun o =>
          (s.setObj o).setPe r { s.pe r with held := some t }
      else none
    | none => none
  | .unpark r =>
    if (s.pe r).held = none then none else some (s.setPe r { s.pe r with held := none })
  | .poll r p t =>
    match (s.pe r).table with
    | some i =>
      if p ∈ (s.obj.sched i).pools then (Objects.step s.obj (.pop p t)).map s.setObj else none
    | none => none

def system : System State Act where
  init s := ∃ n, 2 ≤ n ∧ s = initial n
  step := step

end Lease
end AbtReconverse
