import Mathlib.Data.List.Nodup
import Mathlib.Logic.Function.Basic
import AbtReconverse.Lib.Lts

/-!
# AbtReconverse.Thread.Keys

Work-unit-specific data: the values a unit has under its keys and `run_key_destructors`, which
`thread_main` runs when the function of a ULT has returned or left by `ABT_thread_exit`. The machine
follows one unit from its creation to the release of its descriptor. A tasklet is run inline and the
primary ULT is deleted by `ABT_finalize`; neither comes to the loop.

The loop walks `t->keys`, whose size it reads anew each time, and a destructor may set values, make
and free keys or leave by `ABT_thread_exit`, which starts the loop again. So may other units at any
step: the loop does not take `jm`. Values and destructors are numbers, a null pointer is `none`.
Key ids are not reused.

The history of the unit goes along: the values that were set, which set was the last under a key, and
which values were passed to a destructor.
-/

namespace AbtReconverse
namespace Keys

open Lts

/-! ### Vectors of pointers -/

/-- `i < v.size() ? v[i] : nullptr`. -/
def entry (l : List (Option Nat)) (i : Nat) : Option Nat := l[i]?.join

/-- `if (i >= v.size()) v.resize(i + 1, nullptr); v[i] = x`. -/
def store (l : List (Option Nat)) (i : Nat) (x : Option Nat) : List (Option Nat) :=
  (l ++ List.replicate (i + 1 - l.length) none).set i x

theorem entry_set_none (l : List (Option Nat)) (i j : Nat) :
    entry (l.set i none) j = if j = i then none else entry l j := by
  simp only [entry, List.getElem?_set]
  by_cases hji : j = i
  · subst hji
    by_cases hj : j < l.length <;> simp [hj]
  · simp [hji, Ne.symm hji]

theorem entry_grow (l : List (Option Nat)) (k j : Nat) :
    entry (l ++ List.replicate k none) j = entry l j := by
  simp only [entry, List.getElem?_append, List.getElem?_replicate]
  by_cases hj : j < l.length
  · simp [hj]
  · rw [if_neg hj, List.getElem?_eq_none (Nat.le_of_not_lt hj)]
    split <;> rfl

theorem entry_store (l : List (Option Nat)) (i j : Nat) (x : Option Nat) :
    entry (store l i x) j = if j = i then x else entry l j := by
  by_cases hji : j = i
  · subst hji
    have hlen : j < (l ++ List.replicate (j + 1 - l.length) none).length := by
      rw [List.length_append, List.length_replicate]
      omega
    simp only [entry, store, List.getElem?_set_self hlen, if_pos, Option.join_some]
  · rw [if_neg hji, ← entry_grow l (i + 1 - l.length) j]
    simp only [entry, store, List.getElem?_set_ne (Ne.symm hji)]

theorem entry_of_length_le {l : List (Option Nat)} {i : Nat} (h : l.length ≤ i) :
    entry l i = none := by
  rw [entry, List.getElem?_eq_none h]
  rfl

/-! ### The machine -/

inductive Kind where
  | ult
  | tasklet
  | primary
  deriving DecidableEq, Repr

/-- Where the unit is: in its function, at one of the steps of `run_key_destructors`, in a destructor
(`inside`), or at its end. `v` is the value read from `t->keys[i]` and `d` the destructor read from
`g_key_dtors[i]`; `n` is the number of the set that stored the value, for the history. -/
inductive Pc where
  | body
  | test (i : Nat)
  | read (i v n : Nat)
  | clear (i v n : Nat) (d : Option Nat)
  | inside (i : Nat)
  | done
  | released
  deriving DecidableEq, Repr

/-- A value passed to a destructor; `set` is the number of the set that stored it. -/
structure Pass where
  key : Nat
  set : Nat
  value : Nat
  dtor : Nat
  deriving DecidableEq, Repr

structure State where
  kind : Kind
  pc : Pc
  /-- `t->keys`. -/
  keys : List (Option Nat)
  /-- `g_key_dtors`. -/
  dtors : List (Option Nat)
  nextKey : Nat
  /-- The keys that have not been freed. -/
  live : Nat → Bool
  /-- History: the destructor that each key was created with. -/
  made : List (Option Nat)
  /-- History: every set of a value on the unit. -/
  sets : List (Nat × Option Nat)
  /-- History: the last set under each key. -/
  last : Nat → Option Nat
  passed : List Pass

def initial (k : Kind) : State where
  kind := k
  pc := .body
  keys := []
  dtors := []
  nextKey := 0
  live := fun _ => false
  made := []
  sets := []
  last := fun _ => none
  passed := []

inductive Act where
  | keyCreate (d : Option Nat)
  | keyFree (id : Nat)
  /-- `ABT_key_set` or `ABT_self_set_specific` by the unit, in its function or in a destructor, or
  `ABT_thread_set_specific` by anyone. -/
  | set (id : Nat) (v : Option Nat)
  /-- The function returns or calls `ABT_thread_exit`; for the primary, `ABT_finalize`. -/
  | finish
  /-- The next step of `run_key_destructors`. -/
  | loop
  /-- The destructor returns, or calls `ABT_thread_exit`. -/
  | leave (exit : Bool)
  /-- The descriptor is released. -/
  | release
  deriving DecidableEq, Repr

namespace State

def slot (s : State) (id : Nat) : Option Nat := entry s.keys id

def dtor (s : State) (id : Nat) : Option Nat := entry s.dtors id

end State

/-- `run_key_destructors`, one step. -/
def loopStep (s : State) : Option State :=
  match s.pc with
  | .test i =>
    match s.keys[i]? with
    | none => some { s with pc := .done }
    | some none => some { s with pc := .test (i + 1) }
    | some (some v) => some { s with pc := .read i v ((s.last i).getD 0) }
  | .read i v n => some { s with pc := .clear i v n (s.dtor i) }
  | .clear i v n d =>
    let s' := { s with keys := s.keys.set i none }
    match d with
    | none => some { s' with pc := .test (i + 1) }
    | some d => some { s' with
        pc := .inside i
        passed := s.passed ++ [⟨i, n, v, d⟩] }
  | _ => none

def step (s : State) : Act → Option State
  | .keyCreate d =>
    some { s with
      dtors := store s.dtors s.nextKey d
      nextKey := s.nextKey + 1
      live := Function.update s.live s.nextKey true
      made := s.made ++ [d] }
  | .keyFree id =>
    if s.live id then
      some { s with
        dtors := s.dtors.set id none
        live := Function.update s.live id false }
    else none
  | .set id v =>
    if s.live id ∧ s.pc ≠ .released then
      some { s with
        keys := store s.keys id v
        sets := s.sets ++ [(id, v)]
        last := Function.update s.last id (some s.sets.length) }
    else none
  | .finish =>
    if s.pc = .body then
      some { s with pc := if s.kind = .ult then .test 0 else .done }
    else none
  | .loop => loopStep s
  | .leave exit =>
    match s.pc with
    | .inside i => some { s with pc := if exit then .test 0 else .test (i + 1) }
    | _ => none
  | .release => if s.pc = .done then some { s with pc := .released } else none

def system : System State Act where
  init s := ∃ k, s = initial k
  step := step

/-- The loop has yet to come to the slot of a key. -/
def Pc.ahead (id : Nat) : Pc → Bool
  | .body => true
  | .test i => i ≤ id
  | .read i _ _ | .clear i _ _ _ | .inside i => i < id
  | .done | .released => false

/-- Values are set under keys with a destructor only while the loop has yet to come to their slot, and
a unit that is not a ULT ends with no value under such a key. -/
def Ahead (s : State) : Act → Prop
  | .set id v => v ≠ none → s.dtor id ≠ none → s.pc.ahead id = true
  | .finish => s.kind = .ult ∨ ∀ id < s.keys.length, s.slot id ≠ none → s.dtor id = none
  | _ => True

instance (s : State) (a : Act) : Decidable (Ahead s a) :=
  match a with
  | .set id v => inferInstanceAs (Decidable (v ≠ none → s.dtor id ≠ none → s.pc.ahead id = true))
  | .finish => inferInstanceAs (Decidable (s.kind = .ult ∨
      ∀ id < s.keys.length, s.slot id ≠ none → s.dtor id = none))
  | .keyCreate _ | .keyFree _ | .loop | .leave _ | .release => inferInstanceAs (Decidable True)

/-! ### What holds in every run -/

/-- The value that the loop has read and is about to pass. -/
def Pc.taken : Pc → Option (Nat × Nat × Nat)
  | .read i v n | .clear i v n _ => some (i, v, n)
  | _ => none

/-- The value of set `n` is `v`, under key `id`, and has not been passed. -/
structure Unpassed (sets : List (Nat × Option Nat)) (passed : List Pass) (id v n : Nat) : Prop where
  set : sets[n]? = some (id, some v)
  fresh : n ∉ passed.map Pass.set

structure Base (s : State) : Prop where
  live : ∀ id, s.live id = true → id < s.nextKey
  length : s.made.length = s.nextKey
  made : ∀ id d, s.dtor id = some d → s.made[id]? = some (some d)
  reading : ∀ i v n d, s.pc = .clear i v n (some d) → s.made[i]? = some (some d)
  last : ∀ id n, s.last id = some n → id < s.nextKey ∧ n < s.sets.length
  slot : ∀ id v, s.slot id = some v → ∃ n, s.last id = some n ∧ Unpassed s.sets s.passed id v n
  taken : ∀ i v n, s.pc.taken = some (i, v, n) → Unpassed s.sets s.passed i v n
  log : ∀ e ∈ s.passed,
    s.sets[e.set]? = some (e.key, some e.value) ∧ s.made[e.key]? = some (some e.dtor)
  once : (s.passed.map Pass.set).Nodup

theorem lt_of_getElem? {α : Type} {l : List α} {n : Nat} {x : α} (h : l[n]? = some x) :
    n < l.length :=
  (List.getElem?_eq_some_iff.mp h).1

theorem getElem?_concat {α : Type} {l : List α} {n : Nat} {x : α} (y : α) (h : l[n]? = some x) :
    (l ++ [y])[n]? = some x := by
  rw [List.getElem?_append_left (lt_of_getElem? h), h]

section

variable {s s' : State} {id v n : Nat} {x : Option Nat}

theorem Base.set_lt (h : Base s) (hn : n ∈ s.passed.map Pass.set) : n < s.sets.length := by
  obtain ⟨e, he, rfl⟩ := List.mem_map.mp hn
  exact lt_of_getElem? (h.log e he).1

theorem initial_base (k : Kind) : Base (initial k) := by
  refine ⟨by simp [initial], rfl, ?_, by simp [initial], by simp [initial], ?_,
    by simp [initial, Pc.taken], by simp [initial], by simp [initial]⟩
  · intro id d hd
    cases hd
  · intro id v hv
    cases hv

/-- The unit moves on without a value in hand. -/
theorem Base.goes (h : Base s) {pc : Pc} (hpc : pc.taken = none) : Base { s with pc := pc } := by
  refine ⟨h.live, h.length, h.made, fun i v n d hc => ?_, h.last, h.slot, fun i v n hn => ?_, h.log,
    h.once⟩
  · change pc = _ at hc
    rw [hc] at hpc
    cases hpc
  · change pc.taken = _ at hn
    rw [hpc] at hn
    cases hn

theorem Base.keyCreate (h : Base s) (hs : step s (.keyCreate x) = some s') : Base s' := by
  cases hs
  refine ⟨fun id hid => ?_, ?_, fun id d hd => ?_, fun i v n d hc => ?_, fun id n hn => ?_, h.slot,
    h.taken, fun e he => ?_, h.once⟩
  · change Function.update s.live s.nextKey true id = true at hid
    by_cases hne : id = s.nextKey
    · subst hne
      exact Nat.lt_succ_self _
    · rw [Function.update_of_ne hne] at hid
      exact Nat.lt_succ_of_lt (h.live id hid)
  · simp [h.length]
  · change entry (store s.dtors s.nextKey x) id = some d at hd
    rw [entry_store] at hd
    split at hd
    · rename_i hid
      subst hid hd
      rw [← h.length]
      exact List.getElem?_concat_length
    · exact getElem?_concat x (h.made id d hd)
  · exact getElem?_concat x (h.reading i v n d hc)
  · obtain ⟨hid, hlt⟩ := h.last id n hn
    exact ⟨Nat.lt_succ_of_lt hid, hlt⟩
  · obtain ⟨hset, hmade⟩ := h.log e he
    exact ⟨hset, getElem?_concat x hmade⟩

theorem Base.keyFree (h : Base s) (hs : step s (.keyFree id) = some s') : Base s' := by
  simp only [step, Option.ite_none_right_eq_some] at hs
  obtain ⟨-, hs⟩ := hs
  cases hs
  refine ⟨fun j hj => ?_, h.length, fun j d hd => ?_, h.reading, h.last, h.slot, h.taken, h.log,
    h.once⟩
  · change Function.update s.live id false j = true at hj
    by_cases hne : j = id
    · subst hne
      simp at hj
    · rw [Function.update_of_ne hne] at hj
      exact h.live j hj
  · change entry (s.dtors.set id none) j = some d at hd
    rw [entry_set_none] at hd
    split at hd
    · cases hd
    · exact h.made j d hd

theorem Base.set (h : Base s) (hs : step s (.set id x) = some s') : Base s' := by
  simp only [step, Option.ite_none_right_eq_some] at hs
  obtain ⟨⟨hlive, -⟩, hs⟩ := hs
  cases hs
  have hkeep : ∀ {i v n : Nat}, Unpassed s.sets s.passed i v n →
      Unpassed (s.sets ++ [(id, x)]) s.passed i v n :=
    fun hu => ⟨getElem?_concat _ hu.set, hu.fresh⟩
  refine ⟨h.live, h.length, h.made, h.reading, fun j n hn => ?_, fun j v hv => ?_,
    fun i v n hn => hkeep (h.taken i v n hn), fun e he => ?_, h.once⟩
  · change Function.update s.last id (some s.sets.length) j = some n at hn
    rw [List.length_append, List.length_singleton]
    by_cases hj : j = id
    · subst hj
      rw [Function.update_self] at hn
      cases hn
      exact ⟨h.live j hlive, Nat.lt_succ_self _⟩
    · rw [Function.update_of_ne hj] at hn
      exact ⟨(h.last j n hn).1, Nat.lt_succ_of_lt (h.last j n hn).2⟩
  · change entry (store s.keys id x) j = some v at hv
    rw [entry_store] at hv
    split at hv
    · rename_i hj
      subst hj hv
      refine ⟨s.sets.length, Function.update_self .., List.getElem?_concat_length, fun hin => ?_⟩
      exact absurd (h.set_lt hin) (Nat.lt_irrefl _)
    · rename_i hj
      obtain ⟨n, hn, hu⟩ := h.slot j v hv
      exact ⟨n, (Function.update_of_ne hj _ _).trans hn, hkeep hu⟩
  · obtain ⟨hset, hmade⟩ := h.log e he
    exact ⟨getElem?_concat _ hset, hmade⟩

/-- The loop clears a slot, whether or not there is a destructor. -/
theorem Base.clears (h : Base s) (i : Nat) : Base { s with keys := s.keys.set i none } := by
  refine ⟨h.live, h.length, h.made, h.reading, h.last, fun j v hv => ?_, h.taken, h.log, h.once⟩
  change entry (s.keys.set i none) j = some v at hv
  rw [entry_set_none] at hv
  split at hv
  · cases hv
  · exact h.slot j v hv

/-- The value in hand is passed. -/
theorem Base.passes (h : Base s) {i d : Nat} (hpc : s.pc = .clear i v n (some d))
    (hslot : s.slot i = none) :
    Base { s with
      pc := .inside i
      passed := s.passed ++ [⟨i, n, v, d⟩] } := by
  have ht : Unpassed s.sets s.passed i v n := h.taken i v n (by rw [hpc]; rfl)
  refine ⟨h.live, h.length, h.made, fun _ _ _ _ hc => (by cases hc), h.last, fun j w hw => ?_,
    fun _ _ _ hn => (by cases hn), fun e he => ?_, ?_⟩
  · obtain ⟨m, hm, hu⟩ := h.slot j w hw
    refine ⟨m, hm, hu.set, fun hin => ?_⟩
    rw [List.map_append, List.mem_append] at hin
    obtain hin | hin := hin
    · exact hu.fresh hin
    · -- the set passed now is one under key `i`, whose slot is empty
      rw [List.mem_singleton.mp hin] at hu
      have he := hu.set.symm.trans ht.set
      cases he
      change s.slot i = some v at hw
      rw [hslot] at hw
      cases hw
  · obtain he | he := List.mem_append.mp he
    · exact h.log e he
    · cases List.mem_singleton.mp he
      exact ⟨ht.set, h.reading i v n d hpc⟩
  · show (List.map Pass.set (s.passed ++ [⟨i, n, v, d⟩])).Nodup
    rw [List.map_append, List.nodup_append]
    refine ⟨h.once, by simp, fun a ha b hb => ?_⟩
    cases List.mem_singleton.mp hb
    rintro rfl
    exact ht.fresh ha

theorem slot_cleared (s : State) (i : Nat) : entry (s.keys.set i none) i = none := by
  rw [entry_set_none, if_pos rfl]

/-- What a step of the loop does. -/
inductive LoopStep (s : State) : State → Prop where
  | past {i : Nat} (hpc : s.pc = .test i) (hi : s.keys.length ≤ i) :
    LoopStep s { s with pc := .done }
  | skip {i : Nat} (hpc : s.pc = .test i) (hi : s.slot i = none) :
    LoopStep s { s with pc := .test (i + 1) }
  | take {i v : Nat} (hpc : s.pc = .test i) (hi : s.slot i = some v) :
    LoopStep s { s with pc := .read i v ((s.last i).getD 0) }
  | read {i v n : Nat} (hpc : s.pc = .read i v n) :
    LoopStep s { s with pc := .clear i v n (s.dtor i) }
  | drop {i v n : Nat} (hpc : s.pc = .clear i v n none) :
    LoopStep s { s with
      pc := .test (i + 1)
      keys := s.keys.set i none }
  | pass {i v n d : Nat} (hpc : s.pc = .clear i v n (some d)) :
    LoopStep s { s with
      pc := .inside i
      keys := s.keys.set i none
      passed := s.passed ++ [⟨i, n, v, d⟩] }

theorem loopStep_cases (hs : loopStep s = some s') : LoopStep s s' := by
  simp only [loopStep] at hs
  generalize hpc : s.pc = pc at hs
  cases pc with
  | body | inside _ | done | released =>
    cases hs
  | test i =>
    cases hk : s.keys[i]? with
    | none =>
      simp only [hk, Option.some.injEq] at hs
      subst hs
      exact .past hpc (List.getElem?_eq_none_iff.mp hk)
    | some o =>
      have hslot : s.slot i = o := by
        rw [State.slot, entry, hk]
        rfl
      cases o with
      | none =>
        simp only [hk, Option.some.injEq] at hs
        subst hs
        exact .skip hpc hslot
      | some v =>
        simp only [hk, Option.some.injEq] at hs
        subst hs
        exact .take hpc hslot
  | read i v n =>
    cases hs
    exact .read hpc
  | clear i v n d =>
    cases d with
    | none =>
      cases hs
      exact .drop hpc
    | some d =>
      cases hs
      exact .pass hpc

theorem Base.loop (h : Base s) (hs : LoopStep s s') : Base s' := by
  cases hs with
  | past _ _ => exact h.goes rfl
  | skip _ _ => exact h.goes rfl
  | @take i v _ hi =>
    obtain ⟨n, hn, hu⟩ := h.slot i v hi
    refine ⟨h.live, h.length, h.made, fun _ _ _ _ hc => (by cases hc), h.last, h.slot,
      fun j w m hm => ?_, h.log, h.once⟩
    rw [hn] at hm
    cases hm
    exact hu
  | @read i v n hpc =>
    refine ⟨h.live, h.length, h.made, fun j w m d hc => ?_, h.last, h.slot, fun j w m hm => ?_, h.log,
      h.once⟩
    · simp only [Pc.clear.injEq] at hc
      obtain ⟨rfl, -, -, hd⟩ := hc
      exact h.made i d hd
    · cases hm
      exact h.taken i v n (by rw [hpc]; rfl)
  | drop _ => exact (h.clears _).goes rfl
  | @pass i v n d hpc => exact (h.clears i).passes hpc (slot_cleared s i)

theorem Base.step {a : Act} (h : Base s) (hs : step s a = some s') : Base s' := by
  cases a with
  | keyCreate d => exact h.keyCreate hs
  | keyFree id => exact h.keyFree hs
  | set id v => exact h.set hs
  | finish =>
    simp only [Keys.step, Option.ite_none_right_eq_some] at hs
    obtain ⟨-, hs⟩ := hs
    cases hs
    refine h.goes ?_
    split <;> rfl
  | loop => exact h.loop (loopStep_cases hs)
  | leave exit =>
    simp only [Keys.step] at hs
    split at hs
    · cases hs
      refine h.goes ?_
      split <;> rfl
    · cases hs
  | release =>
    simp only [Keys.step, Option.ite_none_right_eq_some] at hs
    obtain ⟨-, hs⟩ := hs
    cases hs
    exact h.goes rfl

/-! ### What holds if values are set ahead of the loop -/

/-- The value of the last set under a key with a destructor is still in its slot with the loop to
come, is in the hands of the loop, or has been passed. -/
inductive Handled (s : State) (id v n d : Nat) : Prop where
  | waits (hslot : s.slot id = some v) (hpc : s.pc.ahead id = true)
  | read (hpc : s.pc = .read id v n)
  | clear (hpc : s.pc = .clear id v n (some d))
  | passed (h : ⟨id, n, v, d⟩ ∈ s.passed)

def AllHandled (s : State) : Prop :=
  ∀ id v n d, s.last id = some n → s.sets[n]? = some (id, some v) → s.dtor id = some d →
    Handled s id v n d

/-- The unit moves on with no value in hand, before or after. -/
theorem Handled.goes {d : Nat} {pc : Pc} (h : Handled s id v n d) (ht : s.pc.taken = none)
    (hpc : s.slot id = some v → s.pc.ahead id = true → pc.ahead id = true) :
    Handled { s with pc := pc } id v n d := by
  cases h with
  | waits hslot ha => exact .waits hslot (hpc hslot ha)
  | read hr =>
    rw [hr] at ht
    cases ht
  | clear hc =>
    rw [hc] at ht
    cases ht
  | passed hp => exact .passed hp

theorem AllHandled.keyCreate (h : AllHandled s) (hb : Base s)
    (hs : step s (.keyCreate x) = some s') : AllHandled s' := by
  cases hs
  intro id v n d hl hn hd
  change entry (store s.dtors s.nextKey x) id = some d at hd
  -- nothing has been set under the new key yet
  rw [entry_store, if_neg (Nat.ne_of_lt (hb.last id n hl).1)] at hd
  cases h id v n d hl hn hd with
  | waits hslot ha => exact .waits hslot ha
  | read hr => exact .read hr
  | clear hc => exact .clear hc
  | passed hp => exact .passed hp

theorem AllHandled.keyFree (h : AllHandled s) (hs : step s (.keyFree id) = some s') :
    AllHandled s' := by
  simp only [step, Option.ite_none_right_eq_some] at hs
  obtain ⟨-, hs⟩ := hs
  cases hs
  intro j v n d hl hn hd
  change entry (s.dtors.set id none) j = some d at hd
  rw [entry_set_none] at hd
  split at hd
  · cases hd
  · cases h j v n d hl hn hd with
    | waits hslot ha => exact .waits hslot ha
    | read hr => exact .read hr
    | clear hc => exact .clear hc
    | passed hp => exact .passed hp

theorem AllHandled.set (h : AllHandled s) (hb : Base s) (hg : Ahead s (.set id x))
    (hs : step s (.set id x) = some s') : AllHandled s' := by
  simp only [step, Option.ite_none_right_eq_some] at hs
  obtain ⟨-, hs⟩ := hs
  cases hs
  intro j v n d hl hn hd
  change Function.update s.last id (some s.sets.length) j = some n at hl
  change (s.sets ++ [(id, x)])[n]? = some (j, some v) at hn
  change s.dtor j = some d at hd
  by_cases hj : j = id
  · subst hj
    rw [Function.update_self] at hl
    cases hl
    rw [List.getElem?_concat_length] at hn
    cases hn
    refine .waits ?_ (hg (by simp) (by simp [hd]))
    rw [State.slot, entry_store, if_pos rfl]
  · rw [Function.update_of_ne hj] at hl
    rw [List.getElem?_append_left (hb.last j n hl).2] at hn
    cases h j v n d hl hn hd with
    | waits hslot ha =>
      refine .waits ?_ ha
      rw [State.slot, entry_store, if_neg hj]
      exact hslot
    | read hr => exact .read hr
    | clear hc => exact .clear hc
    | passed hp => exact .passed hp

theorem AllHandled.finish (h : AllHandled s) (hg : Ahead s .finish)
    (hs : step s .finish = some s') : AllHandled s' := by
  simp only [step, Option.ite_none_right_eq_some] at hs
  obtain ⟨hpc, hs⟩ := hs
  cases hs
  intro id v n d hl hn hd
  refine (h id v n d hl hn hd).goes (by rw [hpc]; rfl) fun hslot _ => ?_
  cases hg with
  | inl hk => simp [hk, Pc.ahead]
  | inr hno =>
    have hid : id < s.keys.length := by
      by_contra hge
      rw [State.slot, entry_of_length_le (Nat.le_of_not_lt hge)] at hslot
      cases hslot
    have hd' := hno id hid (by simp [hslot])
    change s.dtor id = some d at hd
    rw [hd'] at hd
    cases hd

theorem AllHandled.loop (h : AllHandled s) (hs : LoopStep s s') : AllHandled s' := by
  intro id v n d hl hn hd
  cases hs with
  | @past i hpc hi =>
    refine (h id v n d hl hn hd).goes (by rw [hpc]; rfl) fun hslot ha => ?_
    rw [hpc] at ha
    have hlen : s.keys.length ≤ id := Nat.le_trans hi (of_decide_eq_true ha)
    rw [State.slot, entry_of_length_le hlen] at hslot
    cases hslot
  | @skip i hpc hi =>
    refine (h id v n d hl hn hd).goes (by rw [hpc]; rfl) fun hslot ha => ?_
    rw [hpc] at ha
    have hle : i ≤ id := of_decide_eq_true ha
    have hne : i ≠ id := by
      rintro rfl
      rw [hi] at hslot
      cases hslot
    exact decide_eq_true (by omega)
  | @take i w hpc hi =>
    by_cases hid : id = i
    · subst hid
      cases h id v n d hl hn hd with
      | waits hslot _ =>
        rw [hi] at hslot
        cases hslot
        change s.last id = some n at hl
        exact .read (by rw [hl]; rfl)
      | read hr => rw [hpc] at hr; cases hr
      | clear hc => rw [hpc] at hc; cases hc
      | passed hp => exact .passed hp
    · refine (h id v n d hl hn hd).goes (by rw [hpc]; rfl) fun _ ha => ?_
      rw [hpc] at ha
      have hle : i ≤ id := of_decide_eq_true ha
      exact decide_eq_true (by omega)
  | @read i w m hpc =>
    cases h id v n d hl hn hd with
    | waits hslot ha =>
      refine .waits hslot ?_
      rw [hpc] at ha
      exact ha
    | read hr =>
      rw [hpc] at hr
      cases hr
      exact .clear (congrArg _ hd)
    | clear hc => rw [hpc] at hc; cases hc
    | passed hp => exact .passed hp
  | @drop i w m hpc =>
    cases h id v n d hl hn hd with
    | waits hslot ha =>
      rw [hpc] at ha
      have hlt : i < id := of_decide_eq_true ha
      refine .waits ?_ (decide_eq_true hlt)
      rw [State.slot, entry_set_none, if_neg (by omega)]
      exact hslot
    | read hr => rw [hpc] at hr; cases hr
    | clear hc => rw [hpc] at hc; cases hc
    | passed hp => exact .passed hp
  | @pass i w m e hpc =>
    cases h id v n d hl hn hd with
    | waits hslot ha =>
      rw [hpc] at ha
      have hlt : i < id := of_decide_eq_true ha
      refine .waits ?_ (decide_eq_true hlt)
      rw [State.slot, entry_set_none, if_neg (by omega)]
      exact hslot
    | read hr => rw [hpc] at hr; cases hr
    | clear hc =>
      rw [hpc] at hc
      cases hc
      exact .passed (by simp)
    | passed hp => exact .passed (List.mem_append_left _ hp)

theorem AllHandled.step {a : Act} (h : AllHandled s) (hb : Base s) (hg : Ahead s a)
    (hs : step s a = some s') : AllHandled s' := by
  cases a with
  | keyCreate d => exact h.keyCreate hb hs
  | keyFree id => exact h.keyFree hs
  | set id v => exact h.set hb hg hs
  | finish => exact h.finish hg hs
  | loop => exact h.loop (loopStep_cases hs)
  | leave exit =>
    simp only [Keys.step] at hs
    split at hs
    · rename_i i hpc
      cases hs
      intro id v n d hl hn hd
      refine (h id v n d hl hn hd).goes (by rw [hpc]; rfl) fun _ ha => ?_
      rw [hpc] at ha
      have hlt : i < id := of_decide_eq_true ha
      cases exit with
      | true => exact decide_eq_true (Nat.zero_le id)
      | false => exact decide_eq_true hlt
    · cases hs
  | release =>
    simp only [Keys.step, Option.ite_none_right_eq_some] at hs
    obtain ⟨hpc, hs⟩ := hs
    cases hs
    intro id v n d hl hn hd
    refine (h id v n d hl hn hd).goes (by rw [hpc]; rfl) fun _ ha => ?_
    rw [hpc] at ha
    cases ha

theorem reach_inv (h : Reach system Ahead s) : Base s ∧ AllHandled s := by
  refine h.invariant (I := fun s => Base s ∧ AllHandled s) ?_ fun _ _ _ _ hi hg hs =>
    ⟨hi.1.step hs, hi.2.step hi.1 hg hs⟩
  rintro s ⟨k, rfl⟩
  refine ⟨initial_base k, fun id v n d hl => ?_⟩
  cases hl

/-- When the descriptor is released, the value last set under a key with a destructor has been passed
to it once, if it is not null; and whatever has been passed to a destructor was set under a key that
was created with it, and was passed once. -/
theorem destructors_once (h : Reach system Ahead s) (hr : s.pc = .released) :
    (∀ id v n d, s.last id = some n → s.sets[n]? = some (id, some v) → s.dtor id = some d →
      ⟨id, n, v, d⟩ ∈ s.passed ∧ (s.passed.map Pass.set).count n = 1) ∧
    ∀ e ∈ s.passed, s.sets[e.set]? = some (e.key, some e.value) ∧
      s.made[e.key]? = some (some e.dtor) ∧ (s.passed.map Pass.set).count e.set = 1 := by
  obtain ⟨hb, hh⟩ := reach_inv h
  have hone : ∀ e ∈ s.passed, (s.passed.map Pass.set).count e.set = 1 :=
    fun e he => List.nodup_iff_count_eq_one.mp hb.once _ (List.mem_map_of_mem he)
  refine ⟨fun id v n d hl hn hd => ?_, fun e he => ⟨(hb.log e he).1, (hb.log e he).2, hone e he⟩⟩
  have hp : ⟨id, n, v, d⟩ ∈ s.passed := by
    cases hh id v n d hl hn hd with
    | waits _ ha =>
      rw [hr] at ha
      cases ha
    | read hc =>
      rw [hr] at hc
      cases hc
    | clear hc =>
      rw [hr] at hc
      cases hc
    | passed hp => exact hp
  exact ⟨hp, hone _ hp⟩

end

/-- The destructor 5 of key 0 sets a value under key 1, whose destructor is 6. -/
theorem destructors_once_chain : ∃ s, (Reach system Ahead s ∧ s.pc = .released) ∧
    ⟨0, 0, 9, 5⟩ ∈ s.passed ∧ ⟨1, 1, 8, 6⟩ ∈ s.passed := by
  obtain ⟨s, hr, hpc, h0, h1⟩ := (Reach.start (M := system) (G := Ahead) (s := initial .ult)
    ⟨.ult, rfl⟩).exists_run
    (fun s => s.pc = .released ∧
      (s.last 0 = some 0 ∧ s.sets[0]? = some (0, some 9) ∧ s.dtor 0 = some 5) ∧
      s.last 1 = some 1 ∧ s.sets[1]? = some (1, some 8) ∧ s.dtor 1 = some 6)
    [.keyCreate (some 5), .keyCreate (some 6), .set 0 (some 9), .finish, .loop, .loop, .loop,
      .set 1 (some 8), .leave false, .loop, .loop, .loop, .leave false, .loop, .release] (by decide)
  have hall := (destructors_once hr hpc).1
  exact ⟨s, ⟨hr, hpc⟩, (hall 0 9 0 5 h0.1 h0.2.1 h0.2.2).1, (hall 1 8 1 6 h1.1 h1.2.1 h1.2.2).1⟩

/-- Three ways to release a descriptor with a value that never came to the destructor of its key: a
tasklet, the primary ULT, and a ULT whose destructor sets a value under its own key. -/
theorem destructors_missed :
    (∀ k, k = Kind.tasklet ∨ k = Kind.primary → ∃ s, Reach system Free s ∧ s.kind = k ∧
      s.pc = .released ∧ s.sets = [(0, some 9)] ∧ s.last 0 = some 0 ∧ s.dtor 0 = some 5 ∧
      s.passed = []) ∧
    ∃ s, Reach system Free s ∧ s.kind = .ult ∧ s.pc = .released ∧
      s.sets = [(0, some 9), (0, some 8)] ∧ s.last 0 = some 1 ∧ s.dtor 0 = some 5 ∧
      s.passed = [⟨0, 0, 9, 5⟩] := by
  constructor
  · intro k hk
    refine (Reach.start (M := system) (G := Free) (s := initial k) ⟨k, rfl⟩).exists_run _
      [.keyCreate (some 5), .set 0 (some 9), .finish, .release] ?_
    cases hk with
    | inl hk =>
      subst hk
      decide
    | inr hk =>
      subst hk
      decide
  · exact (Reach.start (M := system) (G := Free) (s := initial .ult) ⟨.ult, rfl⟩).exists_run _
      [.keyCreate (some 5), .set 0 (some 9), .finish, .loop, .loop, .loop, .set 0 (some 8),
        .leave false, .loop, .release] (by decide)

end Keys
end AbtReconverse
