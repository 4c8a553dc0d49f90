import AbtReconverse.Api.Machine
import AbtReconverse.Objects.Effect

/-!
# AbtReconverse.Api.Config

Scheduler configurations and the three creators that take one. A configuration object is a map from
indices to typed values; a creator is given null or an object.

The creators are those of `Api.Machine` with `event_freq` and the configuration
(`schedCreateBasic_api`, `schedCreate_api`, `xstreamCreateBasic_api`). `sched_apply_config` is called
by `ABT_sched_create_basic` alone. `config_reaches_sched`: the others give the new scheduler what the
configuration says iff that is what they give it without one (`Plain`), or they make none.
-/

namespace AbtReconverse
namespace Config

open Api

/-- A value with its type; every type other than int and double is read as a pointer. -/
inductive Val where
  | int (i : Int)
  | double (d : BitVec 64)
  | ptr (p : Nat)
  deriving DecidableEq, Repr

/-- `ABTI_sched_config`. -/
abbrev Vals := Int → Option Val

/-- `ABT_sched_config_var_end.idx` -/
def varEnd : Int := -1

/-- `ABT_sched_config_automatic.idx` -/
def automatic : Int := -3

/-- `ABT_sched_basic_freq.idx` -/
def basicFreq : Int := -4

/-- The loop of `ABT_sched_config_create` over its arguments. -/
def insertAll : Vals → List (Int × Val) → Vals
  | c, [] => c
  | c, (idx, v) :: l => if idx = varEnd then c else insertAll (Function.update c idx (some v)) l

/-- `ABT_sched_config_create`. -/
def configCreate (args : List (Int × Val)) : Vals := insertAll (fun _ => none) args

/-- `ABT_sched_config_set`; a null value deletes the entry. A null handle is refused. -/
def configSet (config : Option Vals) (idx : Int) (val : Option Val) : Option Vals :=
  config.map fun c => Function.update c idx val

structure State where
  api : Api.State
  eventFreq : Nat → Int

namespace State

def setAutomatic (s : State) (i : Nat) (b : Bool) : State :=
  { s with api := { s.api with
      objects := s.api.objects.setSched i { s.api.objects.sched i with automatic := b } } }

def setFreq (s : State) (i : Nat) (f : Int) : State :=
  { s with eventFreq := Function.update s.eventFreq i f }

def applyFreq (s : State) (i : Nat) (c : Vals) : State :=
  match c basicFreq with
  | some (.int f) => if 0 < f then s.setFreq i f else s
  | _ => s

def applyAutomatic (s : State) (i : Nat) (c : Vals) : State :=
  match c automatic with
  | some (.int a) => s.setAutomatic i (decide (a ≠ 0))
  | _ => s

/-- `sched_apply_config`. -/
def schedApplyConfig (s : State) (i : Nat) (config : Option Vals) : State :=
  match config with
  | none => s
  | some c => (s.applyFreq i c).applyAutomatic i c

/-- `ABTI_sched_create_predef`; `automatic` and `user_def` as in `Api.Machine`. -/
def schedCreatePredef (s : State) (predef : Option SchedPredef) (args : PoolArgs)
    (automatic userDef : Bool) : Except Code State :=
  match s.api.schedCreatePredef predef args automatic userDef with
  | .error e => .error e
  | .ok a => .ok ({ s with api := a }.setFreq s.api.objects.nextSched 50)

/-- `ABT_sched_create_basic`. -/
def schedCreateBasic (s : State) (predef : Option SchedPredef) (args : PoolArgs)
    (config : Option Vals) (newsched : Bool) : Code × State :=
  if !s.api.initialized then (.uninitialized, s)
  else if !newsched then (.invArg, s)
  else
    match s.schedCreatePredef predef args true false with
    | .error e => (e, s)
    | .ok s' => (.success, s'.schedApplyConfig s.api.objects.nextSched config)

/-- `ABT_sched_create`. The configuration is kept for the user's scheduler. -/
def schedCreate (s : State) (sdef : Option SchedDef) (args : PoolArgs) (_config : Option Vals)
    (newsched : Bool) : Code × State :=
  if !s.api.initialized then (.uninitialized, s)
  else
    match sdef with
    | none => (.invSched, s)
    | some d =>
      if !newsched then (.invArg, s)
      else if !d.run then (.invSched, s)
      else
        match s.schedCreatePredef (some .basic) args false true with
        | .error e => (e, s)
        | .ok s' =>
          match d.init with
          | none => (.success, s')
          | some r =>
            if r = 0 then (.success, s')
            else (.callback r, { s' with api := s'.api.schedDestroy s.api.objects.nextSched })

/-- `ABT_xstream_create`. -/
def xstreamCreate (s : State) (sched : Option Nat) (newxstream : Bool) : Code × State :=
  if !s.api.initialized then (.uninitialized, s)
  else if !newxstream then (.invArg, s)
  else
    match sched with
    | none =>
      match s.schedCreatePredef (some .default) ⟨0, none⟩ true false with
      | .error e => (e, s)
      | .ok s' =>
        let r := s'.api.xstreamLease s.api.objects.nextSched (-1)
        (r.1, { s' with api := r.2 })
    | some i =>
      let r := s.api.createOn (some i) (-1)
      (r.1, { s with api := r.2 })

/-- `ABT_xstream_create_basic`. -/
def xstreamCreateBasic (s : State) (predef : Option SchedPredef) (args : PoolArgs)
    (_config : Option Vals) (newxstream : Bool) : Code × State :=
  if !s.api.initialized then (.uninitialized, s)
  else
    match s.schedCreatePredef predef args true false with
    | .error e => (e, s)
    | .ok s' => s'.xstreamCreate (some s.api.objects.nextSched) newxstream

/-- `ABT_sched_create_basic`, and `ABT_xstream_create` with the scheduler that it made. -/
def basicThenCreate (s : State) (predef : Option SchedPredef) (args : PoolArgs)
    (config : Option Vals) (newxstream : Bool) : Code × State :=
  let r := s.schedCreateBasic predef args config true
  if r.1 = .success then r.2.xstreamCreate (some s.api.objects.nextSched) newxstream else r

end State

/-- The flag that a configuration asks for. -/
def automaticOf (config : Option Vals) (dflt : Bool) : Bool :=
  match config.bind (· automatic) with
  | some (.int a) => decide (a ≠ 0)
  | _ => dflt

/-- The frequency that a configuration asks for. -/
def freqOf (config : Option Vals) (dflt : Int) : Int :=
  match config.bind (· basicFreq) with
  | some (.int f) => if 0 < f then f else dflt
  | _ => dflt

/-- The configuration asks for nothing but what there is without it. -/
def Plain (config : Option Vals) (dflt : Bool) : Prop :=
  automaticOf config dflt = dflt ∧ freqOf config 50 = 50

/-! ### Applying a configuration -/

section

variable (s : State) (i : Nat)

theorem setAutomatic_self : s.setAutomatic i (s.api.objects.sched i).automatic = s := by
  unfold State.setAutomatic Objects.State.setSched
  rw [Function.update_eq_self]

theorem setFreq_self : s.setFreq i (s.eventFreq i) = s := by
  unfold State.setFreq
  rw [Function.update_eq_self]

theorem applyFreq_eq (c : Vals) :
    s.applyFreq i c = s.setFreq i (freqOf (some c) (s.eventFreq i)) := by
  simp only [State.applyFreq, freqOf, Option.bind_some]
  split
  · split
    · rfl
    · exact (setFreq_self s i).symm
  · exact (setFreq_self s i).symm

theorem applyAutomatic_eq (c : Vals) : s.applyAutomatic i c =
    s.setAutomatic i (automaticOf (some c) (s.api.objects.sched i).automatic) := by
  simp only [State.applyAutomatic, automaticOf, Option.bind_some]
  split
  · rfl
  · exact (setAutomatic_self s i).symm

theorem schedApplyConfig_eq (config : Option Vals) : s.schedApplyConfig i config =
    (s.setFreq i (freqOf config (s.eventFreq i))).setAutomatic i
      (automaticOf config (s.api.objects.sched i).automatic) := by
  cases config with
  | none =>
    rw [show freqOf none (s.eventFreq i) = s.eventFreq i from rfl, setFreq_self]
    exact (setAutomatic_self s i).symm
  | some c =>
    rw [State.schedApplyConfig, applyFreq_eq, applyAutomatic_eq]
    rfl

@[simp] theorem setAutomatic_automatic (b : Bool) :
    ((s.setAutomatic i b).api.objects.sched i).automatic = b := by
  simp [State.setAutomatic, Objects.State.setSched]

@[simp] theorem setFreq_eventFreq (f : Int) : (s.setFreq i f).eventFreq i = f :=
  Function.update_self ..

/-- What the configuration asks for, on a scheduler as `ABTI_sched_create_predef` leaves it. -/
structure Has (s : State) (i : Nat) (automatic : Bool) (freq : Int) : Prop where
  automatic : (s.api.objects.sched i).automatic = automatic
  freq : s.eventFreq i = freq

variable {s i}

theorem Has.apply {dflt : Bool} (h : Has s i dflt 50) (config : Option Vals) :
    Has (s.schedApplyConfig i config) i (automaticOf config dflt) (freqOf config 50) := by
  rw [schedApplyConfig_eq, h.automatic, h.freq]
  exact ⟨setAutomatic_automatic .., setFreq_eventFreq ..⟩

theorem Has.apply_plain {dflt : Bool} (h : Has s i dflt 50) {config : Option Vals}
    (hp : Plain config dflt) : s.schedApplyConfig i config = s := by
  rw [schedApplyConfig_eq, h.automatic, h.freq, hp.1, hp.2]
  nth_rewrite 1 [← h.freq]
  nth_rewrite 1 [← h.automatic]
  rw [setFreq_self, setAutomatic_self]

/-! ### The creators -/

variable {s' : State} {predef : Option SchedPredef} {args : PoolArgs} {a u : Bool}

/-- `ABTI_sched_create_predef`, with its two refusals. -/
theorem schedCreatePredef_cases (s : State) (predef : Option SchedPredef) (args : PoolArgs)
    (a u : Bool) :
    (∃ e, s.schedCreatePredef predef args a u = .error e ∧ e ≠ .success ∧
      ¬ (predef ≠ none ∧ 0 ≤ args.num)) ∨
    ∃ s', s.schedCreatePredef predef args a u = .ok s' ∧ (predef ≠ none ∧ 0 ≤ args.num) ∧
      Has s' s.api.objects.nextSched a 50 ∧ s'.api.initialized = s.api.initialized := by
  cases predef with
  | none => exact .inl ⟨_, rfl, by simp, by simp⟩
  | some d =>
    by_cases hnum : args.num < 0
    · refine .inl ⟨.invArg, ?_, by simp, by omega⟩
      simp only [State.schedCreatePredef, Api.State.schedCreatePredef, if_pos hnum]
    · have hok : s.schedCreatePredef (some d) args a u =
          .ok ({ s with api := { s.api with
            objects := s.api.objects.newSched (poolList d args) a u } }.setFreq
              s.api.objects.nextSched 50) := by
        simp only [State.schedCreatePredef, Api.State.schedCreatePredef, if_neg hnum]
      refine .inr ⟨_, hok, ⟨by simp, by omega⟩, ⟨?_, setFreq_eventFreq ..⟩, rfl⟩
      exact congrArg Objects.Sched.automatic (Objects.newSched_self ..)

/-- The lease leaves the two settings. -/
theorem Has.xstreamCreate {freq : Int} (h : Has s i a freq) (newxstream : Bool) :
    Has (s.xstreamCreate (some i) newxstream).2 i a freq := by
  unfold State.xstreamCreate
  split
  · exact h
  · split
    · exact h
    · refine ⟨?_, h.freq⟩
      simp only [Api.State.createOn]
      split
      · exact h.automatic
      · unfold Api.State.xstreamLease
        split
        · exact h.automatic
        · simp only [Objects.State.newXstream, Function.update_self]
          exact h.automatic

end

/-! ### The same calls without configurations -/

section

variable (s : State) (predef : Option SchedPredef) (args : PoolArgs) (config : Option Vals) (o : Bool)

/-- The value under `ABT_sched_config_automatic`. -/
def flag (config : Option Vals) : Option Bool :=
  match config.bind (· automatic) with
  | some (.int a) => some (decide (a ≠ 0))
  | _ => none

theorem getD_flag (dflt : Bool) : (flag config).getD dflt = automaticOf config dflt := by
  unfold flag automaticOf
  split <;> rfl

theorem schedCreate_api (sdef : Option SchedDef) :
    Prod.map id State.api (s.schedCreate sdef args config o) = s.api.schedCreate sdef args o := by
  unfold State.schedCreate Api.State.schedCreate State.schedCreatePredef
  cases s.api.initialized with
  | false => rfl
  | true =>
    cases sdef with
    | none => rfl
    | some d =>
      obtain ⟨run, init⟩ := d
      cases o with
      | false => rfl
      | true =>
        cases run with
        | false => rfl
        | true =>
          cases s.api.schedCreatePredef (some .basic) args false true with
          | error e => rfl
          | ok a =>
            cases init with
            | none => rfl
            | some r =>
              by_cases hr : r = 0
              · simp [hr, State.setFreq]
              · simp [hr, State.setFreq]

theorem xstreamCreateBasic_api :
    Prod.map id State.api (s.xstreamCreateBasic predef args config o) =
      s.api.xstreamCreateBasic predef args o := by
  unfold State.xstreamCreateBasic Api.State.xstreamCreateBasic State.schedCreatePredef
  cases s.api.initialized with
  | false => rfl
  | true =>
    cases s.api.schedCreatePredef predef args true false with
    | error e => rfl
    | ok a =>
      dsimp only [State.xstreamCreate, Api.State.xstreamCreate, State.setFreq]
      cases a.initialized with
      | false => rfl
      | true => cases o <;> rfl

theorem newSched_setAutomatic (s : Objects.State) (l : List (Option Nat)) (a b u : Bool) :
    (s.newSched l a u).setSched s.nextSched
        { (s.newSched l a u).sched s.nextSched with automatic := b } = s.newSched l b u := by
  obtain ⟨-, -, -, hns, -⟩ := Objects.pools_frame l s
  rw [Objects.newSched_self]
  simp only [Objects.State.newSched, Objects.State.addSched, Objects.State.setSched, hns,
    Function.update_idem]

theorem schedCreateBasic_api :
    Prod.map id State.api (s.schedCreateBasic predef args config o) =
      s.api.schedCreateBasic predef args (flag config) o := by
  unfold State.schedCreateBasic Api.State.schedCreateBasic State.schedCreatePredef
  split
  · rfl
  split
  · rfl
  cases predef with
  | none => rfl
  | some d =>
    simp only [Api.State.schedCreatePredef]
    by_cases hnum : args.num < 0
    · simp only [if_pos hnum]
      rfl
    · simp only [if_neg hnum, schedApplyConfig_eq, getD_flag]
      simp only [State.setAutomatic, State.setFreq, Prod.map, id]
      rw [newSched_setAutomatic, Objects.newSched_self]

end

/-! ### Where the configuration arrives -/

inductive Creation where
  | basic (predef : Option SchedPredef) (args : PoolArgs) (newsched : Bool)
  | create (sdef : Option SchedDef) (args : PoolArgs) (newsched : Bool)
  | xstream (predef : Option SchedPredef) (args : PoolArgs) (newxstream : Bool)

namespace Creation

def perform (s : State) (config : Option Vals) : Creation → Code × State
  | basic predef args o => s.schedCreateBasic predef args config o
  | create sdef args o => s.schedCreate sdef args config o
  | xstream predef args o => s.xstreamCreateBasic predef args config o

/-- `automatic` without a configuration. -/
def dflt : Creation → Bool
  | create .. => false
  | _ => true

/-- The call gets past its checks and makes a scheduler, which `ABT_sched_create` keeps. -/
def Makes (s : State) : Creation → Prop
  | basic predef args o =>
    s.api.initialized = true ∧ o = true ∧ predef ≠ none ∧ 0 ≤ args.num
  | create sdef args o =>
    s.api.initialized = true ∧ o = true ∧ 0 ≤ args.num ∧
      ∃ d, sdef = some d ∧ d.run = true ∧ (d.init = none ∨ d.init = some 0)
  | xstream predef args _ => s.api.initialized = true ∧ predef ≠ none ∧ 0 ≤ args.num

end Creation

/-- The new scheduler is as the configuration says, and `ABT_xstream_create_basic` is the two calls in
a row. -/
structure Configured (s : State) (config : Option Vals) (c : Creation) : Prop where
  has : (c.perform s config).1 = .success →
    Has (c.perform s config).2 s.api.objects.nextSched (automaticOf config c.dflt)
      (freqOf config 50)
  composed : ∀ predef args newxstream, c = .xstream predef args newxstream →
    c.perform s config = s.basicThenCreate predef args config newxstream

/-- `ABT_sched_create_basic`, a configuration without effect, or no scheduler at all. -/
def Arrives (s : State) (config : Option Vals) (c : Creation) : Prop :=
  (∃ predef args newsched, c = .basic predef args newsched) ∨ Plain config c.dflt ∨ ¬ c.Makes s

section

variable {s : State} {config : Option Vals} {predef : Option SchedPredef} {args : PoolArgs}
  {o : Bool}

theorem schedCreateBasic_has (h : (s.schedCreateBasic predef args config o).1 = .success) :
    Has (s.schedCreateBasic predef args config o).2 s.api.objects.nextSched
      (automaticOf config true) (freqOf config 50) := by
  unfold State.schedCreateBasic at h ⊢
  split at h
  · cases h
  · split at h
    · cases h
    · rename_i hinit ho
      rw [if_neg hinit, if_neg ho]
      rcases schedCreatePredef_cases s predef args true false with
        ⟨e, he, hne, -⟩ | ⟨s', hs', -, hhas, -⟩
      · rw [he] at h
        exact absurd h hne
      · rw [hs']
        exact hhas.apply config

theorem plain_of_has {s' : State} {i : Nat} {dflt : Bool} (h : Has s' i dflt 50)
    (h' : Has s' i (automaticOf config dflt) (freqOf config 50)) : Plain config dflt :=
  ⟨h'.automatic.symm.trans h.automatic, h'.freq.symm.trans h.freq⟩

theorem schedCreate_makes (config : Option Vals) {sdef : Option SchedDef}
    (h : (Creation.create sdef args o).Makes s) :
    ∃ s', s.schedCreate sdef args config o = (.success, s') ∧
      Has s' s.api.objects.nextSched false 50 := by
  obtain ⟨hinit, rfl, hnum, d, rfl, hrun, hd⟩ := h
  rcases schedCreatePredef_cases s (some .basic) args false true with
    ⟨e, -, -, hno⟩ | ⟨s', hs', -, hhas, -⟩
  · exact absurd ⟨by simp, hnum⟩ hno
  · refine ⟨s', ?_, hhas⟩
    rcases hd with hd | hd
    · simp [State.schedCreate, hinit, hrun, hs', hd]
    · simp [State.schedCreate, hinit, hrun, hs', hd]

theorem schedCreate_success (config : Option Vals) {sdef : Option SchedDef}
    (h : (s.schedCreate sdef args config o).1 = .success) :
    (Creation.create sdef args o).Makes s := by
  unfold State.schedCreate at h
  split at h
  · cases h
  rename_i hinit
  cases sdef with
  | none => cases h
  | some d =>
    simp only at h
    split at h
    · cases h
    rename_i ho
    split at h
    · cases h
    rename_i hrun
    rcases schedCreatePredef_cases s (some .basic) args false true with
      ⟨e, he, hne, -⟩ | ⟨s', hs', hargs, -⟩
    · rw [he] at h
      exact absurd h hne
    · rw [hs'] at h
      refine ⟨by simpa using hinit, by simpa using ho, hargs.2, d, rfl, by simpa using hrun, ?_⟩
      cases hd : d.init with
      | none => exact .inl rfl
      | some r =>
        simp only [hd] at h
        split at h
        · rename_i hr
          exact .inr (congrArg some hr)
        · cases h

/-- `ABT_xstream_create_basic` beside the two calls: they differ in the scheduler that
`ABT_xstream_create` is given. -/
theorem xstreamCreateBasic_makes (config : Option Vals)
    (h : (Creation.xstream predef args o).Makes s) :
    ∃ s', Has s' s.api.objects.nextSched true 50 ∧
      s.xstreamCreateBasic predef args config o =
        s'.xstreamCreate (some s.api.objects.nextSched) o ∧
      s.basicThenCreate predef args config o =
        (s'.schedApplyConfig s.api.objects.nextSched config).xstreamCreate
          (some s.api.objects.nextSched) o := by
  obtain ⟨hinit, hargs⟩ := h
  rcases schedCreatePredef_cases s predef args true false with
    ⟨e, -, -, hno⟩ | ⟨s', hs', -, hhas, -⟩
  · exact absurd hargs hno
  · refine ⟨s', hhas, ?_, ?_⟩
    · simp [State.xstreamCreateBasic, hinit, hs']
    · simp [State.basicThenCreate, State.schedCreateBasic, hinit, hs']

theorem xstreamCreateBasic_refused (config : Option Vals)
    (h : ¬ (Creation.xstream predef args o).Makes s) :
    ∃ e, e ≠ .success ∧ s.xstreamCreateBasic predef args config o = (e, s) ∧
      s.basicThenCreate predef args config o = (e, s) := by
  cases hinit : s.api.initialized with
  | false =>
    refine ⟨.uninitialized, by simp, ?_, ?_⟩
    · simp [State.xstreamCreateBasic, hinit]
    · simp [State.basicThenCreate, State.schedCreateBasic, hinit]
  | true =>
    rcases schedCreatePredef_cases s predef args true false with
      ⟨e, he, hne, -⟩ | ⟨s', -, hargs, -⟩
    · refine ⟨e, hne, ?_, ?_⟩
      · simp [State.xstreamCreateBasic, hinit, he]
      · simp [State.basicThenCreate, State.schedCreateBasic, hinit, he, hne]
    · exact absurd ⟨hinit, hargs⟩ h

theorem create_configured (config : Option Vals) (sdef : Option SchedDef) :
    Configured s config (.create sdef args o) ↔ Arrives s config (.create sdef args o) := by
  by_cases hm : (Creation.create sdef args o).Makes s
  · obtain ⟨s', hs', hhas⟩ := schedCreate_makes config hm
    constructor
    · intro h
      have hcfg := h.has
      simp only [Creation.perform, hs'] at hcfg
      exact .inr (.inl (plain_of_has hhas (hcfg trivial)))
    · rintro (⟨_, _, _, h⟩ | hp | hno)
      · cases h
      · constructor
        · intro _
          simp only [Creation.perform, hs']
          rw [hp.1, hp.2]
          exact hhas
        · intro predef args o h
          cases h
      · exact absurd hm hno
  · refine iff_of_true ⟨fun hok => absurd (schedCreate_success config hok) hm, ?_⟩ (.inr (.inr hm))
    intro predef args o h
    cases h

theorem xstream_configured (config : Option Vals) :
    Configured s config (.xstream predef args o) ↔ Arrives s config (.xstream predef args o) := by
  by_cases hm : (Creation.xstream predef args o).Makes s
  · obtain ⟨s', hhas, hx, hb⟩ := xstreamCreateBasic_makes config hm
    constructor
    · intro h
      have heq := h.composed _ _ _ rfl
      simp only [Creation.perform, hx, hb] at heq
      have hcfg := (hhas.apply config).xstreamCreate o
      rw [← heq] at hcfg
      exact .inr (.inl (plain_of_has (hhas.xstreamCreate o) hcfg))
    · rintro (⟨_, _, _, h⟩ | hp | hno)
      · cases h
      · have heq : (Creation.xstream predef args o).perform s config =
            s.basicThenCreate predef args config o := by
          simp only [Creation.perform, hx, hb, hhas.apply_plain hp]
        constructor
        · intro _
          rw [heq, hb]
          exact (hhas.apply config).xstreamCreate o
        · intro predef' args' o' h
          cases h
          exact heq
      · exact absurd hm hno
  · obtain ⟨e, hne, hx, hb⟩ := xstreamCreateBasic_refused config hm
    refine iff_of_true ⟨?_, ?_⟩ (.inr (.inr hm))
    · intro h
      simp only [Creation.perform, hx] at h
      exact absurd h hne
    · intro predef' args' o' h
      cases h
      exact hx.trans hb.symm

end

theorem config_reaches_sched (s : State) (config : Option Vals) (c : Creation) :
    Configured s config c ↔ Arrives s config c := by
  cases c with
  | basic predef args o =>
    refine iff_of_true ⟨schedCreateBasic_has, ?_⟩ (.inl ⟨_, _, _, rfl⟩)
    intro predef args o h
    cases h
  | create sdef args o => exact create_configured config sdef
  | xstream predef args o => exact xstream_configured config

def fresh : State := ⟨Api.initial 4, fun _ => 50⟩

/-- `ABT_sched_config_automatic` is 1. -/
def raised : Option Vals := some (configCreate [(automatic, .int 1), (varEnd, .int 0)])

/-- `ABT_sched_basic_freq` is 7, and `ABT_sched_config_automatic` is set to 0. -/
def lowered : Option Vals :=
  configSet (some (configCreate [(basicFreq, .int 7), (varEnd, .int 0)])) automatic (some (.int 0))

/-- A user-defined scheduler with a `run`. -/
def userSched : Creation := .create (some ⟨true, none⟩) ⟨0, none⟩ true

def basicXstream : Creation := .xstream (some .default) ⟨0, none⟩ true

theorem config_dropped :
    ((userSched.perform fresh raised).1 = .success ∧ automaticOf raised false = true ∧
      ((userSched.perform fresh raised).2.api.objects.sched 1).automatic = false) ∧
    ((basicXstream.perform fresh lowered).1 = .success ∧
      (automaticOf lowered true = false ∧ freqOf lowered 50 = 7) ∧
      ((basicXstream.perform fresh lowered).2.api.objects.sched 1).automatic = true ∧
      (basicXstream.perform fresh lowered).2.eventFreq 1 = 50) := by
  decide

end Config
end AbtReconverse
