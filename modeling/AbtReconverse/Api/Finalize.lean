import AbtReconverse.Api.Ownership
import AbtReconverse.Objects.Effect

/-!
# AbtReconverse.Api.Finalize

`ABT_init` and `ABT_finalize`, on the state of `Api.Machine`. The last `ABT_finalize` tests that the
secondary xstreams are gone and then runs what is still queued in the pools of the primary: it adds
up the sizes of the pools, one after the other, and yields until the sum is 0. What the units and
other threads do meanwhile is any call of `Api.Machine`. Whoever runs on PE 0 does it while the loop
yields, another PE while it is leased, and a thread outside at any time.

`g_init_mutex` is held from the entry of `ABT_finalize` to its return, so another `ABT_init` or
`ABT_finalize` waits (one made by a unit that the loop runs waits for ever). What follows the loop is
one step. The branch of `ABT_init` for a forked child is left out.
-/

namespace AbtReconverse
namespace Finalize

open Lts

/-- Return codes. -/
inductive Code where
  | success
  | uninitialized
  | invXstream
  | invThread
  deriving DecidableEq, Repr

/-- Where `ABT_finalize` is: about to read `ABTI_held`, at the sum with the pools still to be added,
or in `CthYield`. -/
inductive Pc where
  | out
  | held
  | sizes (l : List Nat) (queued : Nat)
  | yield
  deriving DecidableEq, Repr

structure State where
  api : Api.State
  /-- `g_init_refs`, an `int`; its overflow, after 2^31 calls of `ABT_init`, is not modelled. -/
  refs : Int
  primaryXstream : Option Nat
  primaryThread : Option Nat
  /-- `ABTI_held` of PE 0. -/
  held : Option Nat
  pc : Pc
  /-- The calls of `ABT_init` and `ABT_finalize` that have succeeded. -/
  inits : Nat
  finals : Nat

/-- Before the first `ABT_init`. -/
def initial (n : Nat) : State where
  api :=
    { objects := Ownership.initial
      inPool := fun _ => false
      destroyed := fun _ => 0
      runner := fun _ => false
      table := fun _ => none
      numPes := n
      initialized := false }
  refs := 0
  primaryXstream := none
  primaryThread := none
  held := none
  pc := .out
  inits := 0
  finals := 0

/-- What `ABT_finalize` reads of its caller: whether it is on a PE, `ABTI_tls_xstream` and
`ABTI_self_thread()`. -/
structure Caller where
  onPe : Bool
  tls : Option Nat
  self : Option Nat
  deriving DecidableEq, Repr

/-- Who makes a call. -/
inductive Actor where
  | pe (r : Nat)
  | outside
  deriving DecidableEq, Repr

namespace State

/-- `xs->main_sched->pools` of the primary xstream. -/
def mainPools (s : State) : List Nat :=
  match s.primaryXstream with
  | some x => (s.api.objects.sched (s.api.objects.xstream x).mainSched).pools
  | none => []

/-- `p->size()`. -/
def size (s : State) (p : Nat) : Nat := (s.api.objects.pool p).units.length

/-- The new primary xstream, its scheduler and the descriptor of the primary ULT. -/
def newPrimary (o : Objects.State) : Objects.State :=
  let o₁ := o.newSched (Api.poolList .default ⟨0, none⟩) true false
  let o₂ := o₁.setXstream o.nextXstream ⟨true, 0, o.nextSched, true, false, false, false⟩
  let o₃ := o₂.setSched o.nextSched { o₂.sched o.nextSched with usedBy := some o.nextXstream }
  let o₄ := o₃.setThread o.nextThread
    ⟨.running, .primary, (o₃.sched o.nextSched).pools.head?, none, none, none⟩
  { o₄ with
    nextXstream := o.nextXstream + 1
    nextThread := o.nextThread + 1 }

/-- `ABT_initialized`. -/
def abtInitialized (s : State) : Code := if s.api.initialized then .success else .uninitialized

/-- `ABT_init`. -/
def abtInit (s : State) : State :=
  if s.api.initialized then { s with refs := s.refs + 1, inits := s.inits + 1 }
  else
    { s with
      api :=
        { s.api with
          objects := newPrimary s.api.objects
          table := Function.update s.api.table 0 (some s.api.objects.nextXstream)
          initialized := true }
      primaryXstream := some s.api.objects.nextXstream
      primaryThread := some s.api.objects.nextThread
      refs := 1
      inits := s.inits + 1 }

/-- Some secondary xstream has not been freed. -/
def secondary (s : State) : Bool :=
  ((List.range s.api.numPes).drop 1).any fun r => (s.api.table r).isSome

/-- `ABT_finalize`, up to the loop; no code while it goes on with the loop. -/
def abtFinalize (s : State) (k : Caller) : Option Code × State :=
  if !s.api.initialized then (some .uninitialized, s)
  else if 1 < s.refs then (some .success, { s with refs := s.refs - 1, finals := s.finals + 1 })
  else if !k.onPe || k.tls ≠ s.primaryXstream then (some .invXstream, s)
  else if k.self ≠ s.primaryThread then (some .invThread, s)
  else if s.secondary then (some .invXstream, s)
  else (none, { s with refs := 0, pc := .held })

/-- What `ABT_finalize` does to the objects after the loop. -/
def dropPrimary (s : Api.State) (x t : Nat) : Api.State :=
  let i := (s.objects.xstream x).mainSched
  let o := s.objects.setThread t { s.objects.thread t with life := .dead, pool := none }
  let s' := { s with objects := o.setSched i { o.sched i with usedBy := none } }.schedDestroy i
  { s' with
    objects := s'.objects.setXstream x { s'.objects.xstream x with live := false }
    table := Function.update s'.table 0 none
    initialized := false }

/-- The rest of `ABT_finalize`. -/
def complete (s : State) : State :=
  { s with
    api :=
      match s.primaryXstream, s.primaryThread with
      | some x, some t => dropPrimary s.api x t
      | _, _ => s.api
    primaryXstream := none
    primaryThread := none
    pc := .out
    finals := s.finals + 1 }

/-- The loop, one step. -/
def drainStep (s : State) : Option State :=
  match s.pc with
  | .out => none
  | .held => some { s with pc := .sizes s.mainPools (if s.held.isSome then 1 else 0) }
  | .sizes (p :: l) n => some { s with pc := .sizes l (n + s.size p) }
  | .sizes [] n => some (if n = 0 then s.complete else { s with pc := .yield })
  | .yield => some { s with pc := .held }

/-- Who may run: PE 0 is in `ABT_finalize` unless the loop yields, another PE needs a lease. -/
def runs (s : State) : Actor → Bool
  | .pe 0 => s.pc = .out || s.pc = .yield
  | .pe (r + 1) => r + 1 < s.api.numPes && (s.api.table (r + 1)).isSome
  | .outside => true

end State

inductive Act where
  | init
  | finalize (k : Caller)
  /-- The next step of the loop of `ABT_finalize`. -/
  | drain
  | call (who : Actor) (c : Api.Call)
  /-- A unit of PE 0 is parked in `ABTI_held`, or taken from it. -/
  | hold (u : Option Nat)
  deriving DecidableEq, Repr

def step (s : State) : Act → Option State
  | .init => if s.pc = .out then some s.abtInit else none
  | .finalize k => if s.pc = .out then some (s.abtFinalize k).2 else none
  | .drain => s.drainStep
  | .call who c =>
    if s.api.initialized ∧ s.runs who then some { s with api := (Api.call s.api c).2 } else none
  | .hold u => if s.api.initialized ∧ s.runs (.pe 0) then some { s with held := u } else none

def system : System State Act where
  init s := ∃ n, s = initial n
  step := step

/-- `ABT_finalize` is looking at the pools. -/
def Pc.looks : Pc → Bool
  | .held | .sizes .. => true
  | _ => false

/-- While `ABT_finalize` is in its loop, no call leases a rank; and while it looks at the pools, no
thread outside puts a unit into an empty pool of the primary's scheduler or replaces that. -/
def Calm (s : State) : Act → Prop
  | .call who c => (s.pc ≠ .out → ∀ r < s.api.numPes,
      s.api.table r = none → (Api.call s.api c).2.table r = none) ∧
    (s.pc.looks = true → who = .outside →
      State.mainPools { s with api := (Api.call s.api c).2 } = s.mainPools ∧
      ∀ p ∈ s.mainPools, (s.api.objects.pool p).units = [] →
        ((Api.call s.api c).2.objects.pool p).units = [])
  | _ => True

instance (s : State) (a : Act) : Decidable (Calm s a) :=
  match a with
  | .call who c => inferInstanceAs (Decidable ((s.pc ≠ .out → ∀ r < s.api.numPes,
        s.api.table r = none → (Api.call s.api c).2.table r = none) ∧
      (s.pc.looks = true → who = .outside →
        State.mainPools { s with api := (Api.call s.api c).2 } = s.mainPools ∧
        ∀ p ∈ s.mainPools, (s.api.objects.pool p).units = [] →
          ((Api.call s.api c).2.objects.pool p).units = [])))
  | .init | .finalize _ | .drain | .hold _ => inferInstanceAs (Decidable True)

/-! ### What the calls leave alone -/

/-- What no call of `Api.Machine` writes. -/
def env (s : Api.State) : Nat × Bool := (s.numPes, s.initialized)

section

open Api (PoolArgs SchedDef)

variable (s : Api.State)

theorem env_schedCreatePredef {s s' : Api.State} {d : Option SchedPredef} {args : PoolArgs}
    {a u : Bool} (h : s.schedCreatePredef d args a u = .ok s') : env s' = env s := by
  cases d with
  | none => cases h
  | some d =>
    simp only [Api.State.schedCreatePredef] at h
    split at h
    · cases h
    · cases h
      rfl

theorem env_xstreamLease (i : Nat) (want : Int) : env (s.xstreamLease i want).2 = env s := by
  simp only [Api.State.xstreamLease]
  split <;> rfl

theorem env_createOn (sched : Option Nat) (want : Int) : env (s.createOn sched want).2 = env s := by
  cases sched with
  | none =>
    simp only [Api.State.createOn]
    split
    · rfl
    · rename_i h
      rw [env_xstreamLease, env_schedCreatePredef h]
  | some i =>
    simp only [Api.State.createOn]
    split
    · rfl
    · exact env_xstreamLease s i want

theorem env_xstreamCreate (sched : Option Nat) (o : Bool) :
    env (s.xstreamCreate sched o).2 = env s := by
  simp only [Api.State.xstreamCreate]
  split
  · rfl
  · split
    · rfl
    · exact env_createOn s sched (-1)

theorem env_schedCreate (d : Option SchedDef) (args : PoolArgs) (o : Bool) :
    env (s.schedCreate d args o).2 = env s := by
  simp only [Api.State.schedCreate]
  split
  · rfl
  · split
    · rfl
    · split
      · rfl
      · split
        · rfl
        · split
          · rfl
          · rename_i h
            have hs := env_schedCreatePredef h
            split
            · exact hs
            · split <;> exact hs

theorem env_schedCreateBasic (d : Option SchedPredef) (args : PoolArgs) (a : Option Bool) (o : Bool) :
    env (s.schedCreateBasic d args a o).2 = env s := by
  simp only [Api.State.schedCreateBasic]
  split
  · rfl
  · split
    · rfl
    · split
      · rfl
      · rename_i h
        exact env_schedCreatePredef h

theorem env_schedFree (i : Option Nat) : env (s.schedFree i).2 = env s := by
  simp only [Api.State.schedFree]
  split
  · rfl
  · split
    · rfl
    · split <;> rfl

theorem env_setMainSched (x i t : Option Nat) : env (s.setMainSched x i t).2 = env s := by
  simp only [Api.State.setMainSched]
  split
  · rfl
  · split
    · rfl
    · rfl
    · split
      · rfl
      · split
        · rfl
        · split <;> rfl

theorem env_joinImpl (x : Nat) (caller : Option Nat) : env (s.joinImpl x caller).2 = env s := by
  simp only [Api.State.joinImpl]
  split
  · rfl
  · split
    · rfl
    · split <;> rfl

theorem env_dispose (x : Nat) : env (s.dispose x) = env s := by
  simp only [Api.State.dispose]
  split <;> rfl

theorem env_call (c : Api.Call) : env (Api.call s c).2 = env s := by
  cases c with
  | poolCreate a => rfl
  | schedCreate d args o => exact env_schedCreate s d args o
  | schedCreateBasic d args a o => exact env_schedCreateBasic s d args a o
  | schedFree i => exact env_schedFree s i
  | xstreamCreate i o => exact env_xstreamCreate s i o
  | xstreamCreateWithRank i r =>
    simp only [Api.call, Api.State.xstreamCreateWithRank]
    split
    · rfl
    · exact env_createOn s i r
  | xstreamCreateBasic d args o =>
    simp only [Api.call, Api.State.xstreamCreateBasic]
    split
    · rfl
    · split
      · rfl
      · rename_i h
        rw [env_xstreamCreate, env_schedCreatePredef h]
  | setMainSched x i t => exact env_setMainSched s x i t
  | setMainSchedBasic x d args t =>
    simp only [Api.call, Api.State.setMainSchedBasic]
    split
    · rfl
    · rename_i h
      rw [env_setMainSched, env_schedCreatePredef h]
  | poolAddSched p i =>
    simp only [Api.call, Api.State.poolAddSched]
    split
    · rfl
    · rfl
    · split
      · rfl
      · split <;> rfl
  | xstreamJoin x y =>
    simp only [Api.call, Api.State.xstreamJoin]
    split
    · rfl
    · split
      · rfl
      · exact env_joinImpl s _ y
  | xstreamFree x y =>
    simp only [Api.call, Api.State.xstreamFree]
    split
    · rfl
    · split
      · rfl
      · split
        · rw [env_dispose, env_joinImpl]
        · exact env_joinImpl s _ y
  | stackedEnd i => rfl
  | runnerEnd x =>
    simp only [Api.call, Api.State.runnerEnd]
    split <;> rfl
  | work p l b => rfl

end

/-! ### The counters -/

/-- The reference count and the flag, against the calls that have succeeded. -/
structure Counted (s : State) : Prop where
  out : s.pc = .out → s.api.initialized = true → s.refs = s.inits - s.finals ∧ 0 < s.refs
  off : s.api.initialized = false → s.inits = s.finals ∧ s.pc = .out
  loop : s.pc ≠ .out → s.inits = s.finals + 1
  primary : s.api.initialized = true → s.primaryXstream.isSome ∧ s.primaryThread.isSome

section

variable {s s' : State}

theorem initial_counted (n : Nat) : Counted (initial n) := by
  refine ⟨fun _ h => ?_, fun _ => ⟨rfl, rfl⟩, fun h => absurd rfl h, fun h => ?_⟩
  · cases h
  · cases h

theorem Counted.init (h : Counted s) (hpc : s.pc = .out) : Counted s.abtInit := by
  simp only [State.abtInit]
  split
  · rename_i hi
    obtain ⟨hr, hpos⟩ := h.out hpc hi
    refine ⟨fun _ _ => ⟨?_, ?_⟩, fun hn => ?_, fun hn => absurd hpc hn, h.primary⟩
    · show s.refs + 1 = ((s.inits + 1 : Nat) : Int) - s.finals
      omega
    · show 0 < s.refs + 1
      omega
    · rw [hi] at hn
      cases hn
  · rename_i hi
    obtain ⟨heq, -⟩ := h.off (by simpa using hi)
    refine ⟨fun _ _ => ⟨?_, ?_⟩, fun hn => ?_, fun hn => absurd hpc hn, fun _ => ⟨rfl, rfl⟩⟩
    · show (1 : Int) = ((s.inits + 1 : Nat) : Int) - s.finals
      omega
    · show (0 : Int) < 1
      omega
    · cases hn

/-- What `ABT_finalize` answers before the loop: it refuses and changes nothing, gives one reference
back, or goes on with the last one. -/
inductive Begins (s : State) (k : Caller) : Option Code × State → Prop where
  | refuses {c : Code} (hc : c ≠ .success) : Begins s k (some c, s)
  | nested (hi : s.api.initialized = true) (hr : 1 < s.refs) :
    Begins s k (some .success, { s with refs := s.refs - 1, finals := s.finals + 1 })
  | drains (hi : s.api.initialized = true) (hr : s.refs ≤ 1) (hs : s.secondary = false) :
    Begins s k (none, { s with refs := 0, pc := .held })

theorem abtFinalize_begins (s : State) (k : Caller) : Begins s k (s.abtFinalize k) := by
  simp only [State.abtFinalize]
  split
  · exact .refuses (by simp)
  · rename_i hi
    have hi : s.api.initialized = true := by simpa using hi
    split
    · rename_i hr
      exact .nested hi hr
    · rename_i hr
      split
      · exact .refuses (by simp)
      · split
        · exact .refuses (by simp)
        · split
          · exact .refuses (by simp)
          · rename_i hs
            exact .drains hi (by omega) (by simpa using hs)

theorem Counted.finalize {k : Caller} {r : Option Code × State} (h : Counted s) (hpc : s.pc = .out)
    (hb : Begins s k r) : Counted r.2 := by
  cases hb with
  | refuses _ => exact h
  | nested hi hr =>
    obtain ⟨hrefs, -⟩ := h.out hpc hi
    refine ⟨fun _ _ => ⟨?_, ?_⟩, fun hn => ?_, fun hn => absurd hpc hn, h.primary⟩
    · show s.refs - 1 = (s.inits : Int) - ((s.finals + 1 : Nat) : Int)
      omega
    · show 0 < s.refs - 1
      omega
    · rw [hi] at hn
      cases hn
  | drains hi hr _ =>
    obtain ⟨hrefs, hpos⟩ := h.out hpc hi
    refine ⟨fun hn => ?_, fun hn => ?_, fun _ => ?_, h.primary⟩
    · cases hn
    · rw [hi] at hn
      cases hn
    · show s.inits = s.finals + 1
      omega

/-- The loop goes on. -/
theorem Counted.goes {pc : Pc} (h : Counted s) (hpc : s.pc ≠ .out) (hn : pc ≠ .out) :
    Counted { s with pc := pc } := by
  refine ⟨fun ho => absurd ho hn, fun ho => ?_, fun _ => h.loop hpc, h.primary⟩
  exact absurd (h.off ho).2 hpc

/-- What a step of the loop does. -/
inductive DrainStep (s : State) : State → Prop where
  | start (hpc : s.pc = .held) :
    DrainStep s { s with pc := .sizes s.mainPools (if s.held.isSome then 1 else 0) }
  | add {p : Nat} {l : List Nat} {n : Nat} (hpc : s.pc = .sizes (p :: l) n) :
    DrainStep s { s with pc := .sizes l (n + s.size p) }
  | complete (hpc : s.pc = .sizes [] 0) : DrainStep s s.complete
  | again {n : Nat} (hpc : s.pc = .sizes [] n) : DrainStep s { s with pc := .yield }
  | back (hpc : s.pc = .yield) : DrainStep s { s with pc := .held }

theorem drainStep_cases (hs : s.drainStep = some s') : DrainStep s s' := by
  simp only [State.drainStep] at hs
  generalize hpc : s.pc = pc at hs
  cases pc with
  | out =>
    cases hs
  | held =>
    cases hs
    exact .start hpc
  | yield =>
    cases hs
    exact .back hpc
  | sizes l n =>
    cases l with
    | cons p l =>
      cases hs
      exact .add hpc
    | nil =>
      simp only [Option.some.injEq] at hs
      subst hs
      split
      · rename_i hn
        subst hn
        exact .complete hpc
      · exact .again hpc

theorem complete_api (h : Counted s) (hpc : s.pc ≠ .out) :
    ∃ x t, s.primaryXstream = some x ∧ s.complete.api = State.dropPrimary s.api x t := by
  have hi : s.api.initialized = true := by
    by_contra hn
    exact hpc (h.off (by simpa using hn)).2
  obtain ⟨hx, ht⟩ := h.primary hi
  obtain ⟨x, hx⟩ := Option.isSome_iff_exists.mp hx
  obtain ⟨t, ht⟩ := Option.isSome_iff_exists.mp ht
  exact ⟨x, t, hx, by simp only [State.complete, hx, ht]⟩

theorem Counted.drain (h : Counted s) (hs : DrainStep s s') : Counted s' := by
  cases hs with
  | start hpc => exact h.goes (by simp [hpc]) (by simp)
  | add hpc => exact h.goes (by simp [hpc]) (by simp)
  | again hpc => exact h.goes (by simp [hpc]) (by simp)
  | back hpc => exact h.goes (by simp [hpc]) (by simp)
  | complete hpc =>
    have hne : s.pc ≠ .out := by simp [hpc]
    obtain ⟨x, t, -, hapi⟩ := complete_api h hne
    have hoff : s.complete.api.initialized = false := by
      rw [hapi]
      rfl
    refine ⟨fun _ hi => ?_, fun _ => ⟨?_, rfl⟩, fun hn => absurd rfl hn, fun hi => ?_⟩
    · rw [hoff] at hi
      cases hi
    · exact h.loop hne
    · rw [hoff] at hi
      cases hi

theorem Counted.step {a : Act} (h : Counted s) (hs : step s a = some s') : Counted s' := by
  cases a with
  | init =>
    simp only [Finalize.step, Option.ite_none_right_eq_some] at hs
    obtain ⟨hpc, hs⟩ := hs
    cases hs
    exact h.init hpc
  | finalize k =>
    simp only [Finalize.step, Option.ite_none_right_eq_some] at hs
    obtain ⟨hpc, hs⟩ := hs
    cases hs
    exact h.finalize hpc (abtFinalize_begins s k)
  | drain => exact h.drain (drainStep_cases hs)
  | call who c =>
    simp only [Finalize.step, Option.ite_none_right_eq_some] at hs
    obtain ⟨-, hs⟩ := hs
    cases hs
    have hinit : (Api.call s.api c).2.initialized = s.api.initialized :=
      congrArg Prod.snd (env_call s.api c)
    refine ⟨fun hpc hi => ?_, fun hi => ?_, h.loop, fun hi => ?_⟩
    · exact h.out hpc (hinit.symm.trans hi)
    · exact h.off (hinit.symm.trans hi)
    · exact h.primary (hinit.symm.trans hi)
  | hold u =>
    simp only [Finalize.step, Option.ite_none_right_eq_some] at hs
    obtain ⟨-, hs⟩ := hs
    cases hs
    exact ⟨h.out, h.off, h.loop, h.primary⟩

theorem Counted.initialized_iff (h : Counted s) : s.api.initialized = true ↔ s.finals < s.inits := by
  constructor
  · intro hi
    by_cases hpc : s.pc = .out
    · obtain ⟨hr, hpos⟩ := h.out hpc hi
      omega
    · have := h.loop hpc
      omega
  · intro hlt
    by_contra hn
    have := (h.off (by simpa using hn)).1
    omega

/-! ### The loop -/

/-- While `ABT_finalize` is in its loop there is no secondary xstream, and the pools that a sum of 0
goes over are empty. -/
structure Drained (s : State) : Prop where
  alone : s.pc ≠ .out → ∀ r, 0 < r → r < s.api.numPes → s.api.table r = none
  looked : ∀ l, s.pc = .sizes l 0 → s.held = none ∧
    ∃ done, s.mainPools = done ++ l ∧ ∀ p ∈ done, (s.api.objects.pool p).units = []

theorem secondary_false (h : s.secondary = false) {r : Nat} (hr : 0 < r) (hn : r < s.api.numPes) :
    s.api.table r = none := by
  have hmem : r ∈ (List.range s.api.numPes).drop 1 := by
    rw [List.mem_drop_iff_getElem]
    exact ⟨r - 1, by rw [List.length_range]; omega, by rw [List.getElem_range]; omega⟩
  have := List.any_eq_false.mp h r hmem
  simpa using this

/-- `ABT_finalize` is not looking at the pools. -/
theorem Drained.of_not_looks (h : s.pc.looks = false)
    (ha : s.pc ≠ .out → ∀ r, 0 < r → r < s.api.numPes → s.api.table r = none) : Drained s := by
  refine ⟨ha, fun l hl => ?_⟩
  rw [hl] at h
  cases h

theorem Drained.finalize {k : Caller} {r : Option Code × State} (h : Drained s)
    (hb : Begins s k r) (hpc : s.pc = .out) : Drained r.2 := by
  cases hb with
  | refuses _ => exact h
  | nested _ _ => exact .of_not_looks (by rw [hpc]; rfl) fun hn => absurd hpc hn
  | drains _ _ hs =>
    refine ⟨fun _ r h0 hr => secondary_false hs h0 hr, fun l hl => ?_⟩
    cases hl

theorem Drained.drain (h : Drained s) (hs : DrainStep s s') : Drained s' := by
  cases hs with
  | start hpc =>
    refine ⟨fun _ => h.alone (by simp [hpc]), fun l hl => ?_⟩
    simp only [Pc.sizes.injEq] at hl
    obtain ⟨rfl, hn⟩ := hl
    refine ⟨?_, [], rfl, by simp⟩
    cases hh : s.held with
    | none => rfl
    | some u =>
      rw [hh] at hn
      cases hn
  | @add p l n hpc =>
    refine ⟨fun _ => h.alone (by simp [hpc]), fun l' hl => ?_⟩
    simp only [Pc.sizes.injEq] at hl
    obtain ⟨rfl, hn⟩ := hl
    obtain rfl : n = 0 := by omega
    obtain ⟨hh, done, hm, hd⟩ := h.looked (p :: l) hpc
    refine ⟨hh, done ++ [p], by rw [List.append_assoc]; exact hm, fun q hq => ?_⟩
    obtain hq | hq := List.mem_append.mp hq
    · exact hd q hq
    · cases List.mem_singleton.mp hq
      exact List.length_eq_zero_iff.mp (by simpa [State.size] using hn)
  | complete hpc => exact .of_not_looks rfl fun hn => absurd rfl hn
  | again hpc => exact .of_not_looks rfl fun _ => h.alone (by simp [hpc])
  | back hpc =>
    refine ⟨fun _ => h.alone (by simp [hpc]), fun l hl => ?_⟩
    cases hl

/-- Nobody but a thread outside runs while `ABT_finalize` looks at the pools. -/
theorem Drained.outside {who : Actor} (h : Drained s) (hl : s.pc.looks = true)
    (hr : s.runs who = true) : who = .outside := by
  have hout : s.pc ≠ .out := by
    intro hpc
    rw [hpc] at hl
    cases hl
  cases who with
  | outside => rfl
  | pe r =>
    cases r with
    | zero =>
      have hy : s.pc = .yield := by simpa [State.runs, hout] using hr
      rw [hy] at hl
      cases hl
    | succ r =>
      simp only [State.runs, Bool.and_eq_true, decide_eq_true_eq] at hr
      rw [h.alone hout (r + 1) (Nat.succ_pos r) hr.1] at hr
      cases hr.2

theorem Drained.call {who : Actor} {c : Api.Call} (h : Drained s) (hg : Calm s (.call who c))
    (hr : s.runs who = true) : Drained { s with api := (Api.call s.api c).2 } := by
  have hpes : (Api.call s.api c).2.numPes = s.api.numPes := congrArg Prod.fst (env_call s.api c)
  refine ⟨fun hpc r h0 hlt => ?_, fun l hl => ?_⟩
  · have hlt : r < s.api.numPes := by
      rw [← hpes]
      exact hlt
    exact hg.1 hpc r hlt (h.alone hpc r h0 hlt)
  · have hlook : s.pc.looks = true := by
      change s.pc = _ at hl
      rw [hl]
      rfl
    obtain ⟨hm, hu⟩ := hg.2 hlook (h.outside hlook hr)
    obtain ⟨hh, done, hd, hempty⟩ := h.looked l hl
    refine ⟨hh, done, hm.trans hd, fun p hp => hu p ?_ (hempty p hp)⟩
    rw [hd]
    exact List.mem_append_left l hp

theorem Drained.step {a : Act} (h : Drained s) (hg : Calm s a) (hs : step s a = some s') :
    Drained s' := by
  cases a with
  | init =>
    simp only [Finalize.step, Option.ite_none_right_eq_some] at hs
    obtain ⟨hpc, hs⟩ := hs
    cases hs
    have hpc' : s.abtInit.pc = .out := by
      simp only [State.abtInit]
      split <;> exact hpc
    exact .of_not_looks (by rw [hpc']; rfl) fun hn => absurd hpc' hn
  | finalize k =>
    simp only [Finalize.step, Option.ite_none_right_eq_some] at hs
    obtain ⟨hpc, hs⟩ := hs
    cases hs
    exact h.finalize (abtFinalize_begins s k) hpc
  | drain => exact h.drain (drainStep_cases hs)
  | call who c =>
    simp only [Finalize.step, Option.ite_none_right_eq_some] at hs
    obtain ⟨⟨-, hr⟩, hs⟩ := hs
    cases hs
    exact h.call hg hr
  | hold u =>
    simp only [Finalize.step, Option.ite_none_right_eq_some] at hs
    obtain ⟨⟨-, hr⟩, hs⟩ := hs
    cases hs
    refine .of_not_looks ?_ h.alone
    show s.pc.looks = false
    simp only [State.runs, Bool.or_eq_true, decide_eq_true_eq] at hr
    obtain hpc | hpc := hr
    · rw [hpc]
      rfl
    · rw [hpc]
      rfl

theorem reach_inv (h : Reach system Calm s) : Counted s ∧ Drained s := by
  refine h.invariant (I := fun s => Counted s ∧ Drained s) ?_ fun _ _ _ _ hi hg hs =>
    ⟨hi.1.step hs, hi.2.step hg hs⟩
  rintro s ⟨n, rfl⟩
  exact ⟨initial_counted n, .of_not_looks rfl fun hn => absurd rfl hn⟩

/-- Only the last step of the loop leaves it. -/
theorem DrainStep.complete_of_out (h : DrainStep s s') (hpc : s'.pc = .out) :
    s.pc = .sizes [] 0 ∧ s' = s.complete := by
  cases h with
  | complete hz => exact ⟨hz, rfl⟩
  | start _ => cases hpc
  | add _ => cases hpc
  | again _ => cases hpc
  | back _ => cases hpc

theorem dropPrimary_units (a : Api.State) (x t p : Nat) :
    ((State.dropPrimary a x t).objects.pool p).units = (a.objects.pool p).units :=
  Objects.foldl_drop_units _ _ p

theorem dropPrimary_table (a : Api.State) (x t r : Nat) :
    (State.dropPrimary a x t).table r = if r = 0 then none else a.table r :=
  Function.update_apply ..

/-- The flag tells whether more calls of `ABT_init` than of `ABT_finalize` have succeeded; a refused
`ABT_finalize` changes nothing; and when the last one comes to its end the xstream table is empty and
nothing is queued for the primary. -/
theorem finalize_lifecycle (h : Reach system Calm s) :
    (s.abtInitialized = .success ↔ s.finals < s.inits) ∧
    (∀ k c, (s.abtFinalize k).1 = some c → c ≠ .success → (s.abtFinalize k).2 = s) ∧
    ∀ s', step s .drain = some s' → s'.pc = .out →
      (∀ r < s'.api.numPes, s'.api.table r = none) ∧
      (∀ p ∈ s.mainPools, (s'.api.objects.pool p).units = []) ∧ s'.held = none := by
  obtain ⟨hc, hd⟩ := reach_inv h
  refine ⟨?_, fun k c hk hne => ?_, fun s' hs hpc => ?_⟩
  · rw [← hc.initialized_iff, State.abtInitialized]
    cases s.api.initialized <;> simp
  · have hb := abtFinalize_begins s k
    generalize s.abtFinalize k = r at hk hb
    cases hb with
    | refuses _ => rfl
    | nested _ _ =>
      cases hk
      exact absurd rfl hne
    | drains _ _ _ => cases hk
  · obtain ⟨hz, rfl⟩ := (drainStep_cases hs).complete_of_out hpc
    have hne : s.pc ≠ .out := by simp [hz]
    obtain ⟨hh, done, hm, hempty⟩ := hd.looked [] hz
    obtain ⟨x, t, -, hapi⟩ := complete_api hc hne
    rw [hapi]
    refine ⟨fun r hr => ?_, fun p hp => ?_, hh⟩
    · rw [dropPrimary_table]
      split
      · rfl
      · exact hd.alone hne r (by omega) hr
    · rw [dropPrimary_units]
      rw [hm, List.append_nil] at hp
      exact hempty p hp

end

/-- The primary calls `ABT_finalize` with unit 5 queued in its pool, and the loop looks and yields. -/
def drainOne : List Act :=
  [.init, .call (.pe 0) (.work 0 [5] 0), .finalize ⟨true, some 0, some 0⟩, .drain, .drain, .drain]

/-- Unit 5 runs, and the loop looks again, up to its last step. -/
def lookAgain : List Act := [.call (.pe 0) (.work 0 [] 0), .drain, .drain, .drain]

theorem finalize_lifecycle_queued : ∃ s, (Reach system Calm s ∧ s.pc = .sizes [] 0) ∧
    ∃ s', step s .drain = some s' ∧ s'.pc = .out ∧ ∀ r < s'.api.numPes, s'.api.table r = none := by
  obtain ⟨s, hr, hpc, s', hs, hout⟩ : ∃ s, Reach system Calm s ∧ s.pc = .sizes [] 0 ∧
      ∃ s', step s .drain = some s' ∧ s'.pc = .out := by
    obtain ⟨s, hr, hpc⟩ := (Reach.start (M := system) (G := Calm) (s := initial 3)
      ⟨3, rfl⟩).exists_run (fun s => s.pc = .sizes [] 0) (drainOne ++ lookAgain) (by decide)
    refine ⟨s, hr, hpc, s.complete, ?_, rfl⟩
    simp only [step, State.drainStep, hpc]
    rfl
  exact ⟨s, ⟨hr, hpc⟩, s', hs, hout, ((finalize_lifecycle hr).2.2 s' hs hout).1⟩

/-- Unit 5 creates an xstream before it ends: `ABT_finalize` succeeds with rank 1 still leased. -/
theorem finalize_leaves_xstream : ∃ s, Reach system Free s ∧ s.pc = .out ∧
    s.abtInitialized = .uninitialized ∧ s.inits = 1 ∧ s.finals = 1 ∧ s.api.numPes = 3 ∧
    s.api.table 1 = some 1 :=
  (Reach.start (M := system) (G := Free) (s := initial 3) ⟨3, rfl⟩).exists_run _
    (drainOne ++ [Act.call (.pe 0) (.xstreamCreate none true)] ++ lookAgain ++ [Act.drain])
    (by decide)

end Finalize
end AbtReconverse
