import AbtReconverse.Sync.Refine

/-!
# AbtReconverse.Sync.Future

The future of `sync.cpp`: `n` compartments that are filled in order, a flag `ready` that the set of
the last one raises, and a callback that it runs, under the mutex, with all the values. `n` is any
number, and `cb` tells whether there is a callback; a compartment is an address.

The fields `tried` and `fired`, and what a wait returns, are history: the sets since the creation or
the last reset with their outcome, the arguments of the callback in that time, and those at the
moment at which the wait found the future ready.

`ready` is written by `ABT_future_set` and `ABT_future_reset` only. With `n = 0` no set gets as far,
so the future is full and never ready (`future_stuck`); for all other `n` it behaves
(`future_completion`).
-/

namespace AbtReconverse
namespace Future

open Lts

/-- `ABTI_future` without `n`, `cb`, the mutex and the condition variable. -/
structure Data where
  count : Nat
  values : List Nat
  ready : Bool
  tried : List (Nat × Bool)
  fired : List (List Nat)
  deriving DecidableEq, Repr

inductive Call where
  | wait
  | test
  | set (value : Nat)
  | reset
  deriving DecidableEq, Repr

/-- `ABT_SUCCESS`, `ABT_ERR_FUTURE`, or the success of a test or a wait. -/
inductive Ret where
  | success
  | future
  | isReady (b : Bool)
  | waited (fired : List (List Nat))
  deriving DecidableEq, Repr

/-- The condition variable. -/
def cond : Nat := 0

/-- `f->values[f->count++] = value;` -/
def Data.store (d : Data) (value : Nat) : Data :=
  { d with
    count := d.count + 1
    values := d.values.set d.count value
    tried := d.tried ++ [(value, true)] }

/-- `f->ready = 1; if (f->cb) f->cb(f->values.data());` -/
def Data.complete (d : Data) (cb : Bool) : Data :=
  { d with ready := true, fired := if cb then d.fired ++ [d.values] else d.fired }

/-- `ABT_future_wait`, `ABT_future_test`, `ABT_future_set` and `ABT_future_reset` between lock and
unlock of the mutex. -/
def body (n : Nat) (cb : Bool) (_ : Nat) : Call → Data → Data × Monitor.Next Call Nat Ret
  | .wait, d => if d.ready then (d, .done [] (.waited d.fired)) else (d, .wait cond .wait)
  | .test, d => (d, .done [] (.isReady d.ready))
  | .set v, d =>
    if n ≤ d.count then ({ d with tried := d.tried ++ [(v, false)] }, .done [] .future)
    else if (d.store v).count = n then ((d.store v).complete cb, .done [.all cond] .success)
    else (d.store v, .done [] .success)
  | .reset, d =>
    ({ d with count := 0, ready := false, tried := [], fired := [] }, .done [] .success)

/-- `ABT_future_create`, with null pointers in the compartments. -/
def create (n : Nat) : Data := ⟨0, List.replicate n 0, false, [], []⟩

/-- Any call at any time. -/
def Free (_ : Data) (_ : Nat) (_ : Call) : Prop := True

instance (d : Data) (t : Nat) (l : Call) : Decidable (Free d t l) := instDecidableTrue

/-- What the fields say about the sets since the creation or the last reset: the first `n` of them
succeeded and are stored in order, `ready` is set when there were so many, and the callback ran then,
once, with all of them. -/
structure Filled (n : Nat) (cb : Bool) (d : Data) : Prop where
  count : d.count = min n d.tried.length
  ready : d.ready = true ↔ d.count = n
  outcomes : ∀ k x, d.tried[k]? = some x → x.2 = decide (k < n)
  size : d.values.length = n
  stored : d.values.take d.count = (d.tried.take n).map Prod.fst
  fired : d.fired = if cb = true ∧ d.ready = true then [d.values] else []

section

variable {n : Nat} {cb : Bool} {d : Data} {v : Nat}

theorem Filled.create (hn : 0 < n) : Filled n cb (create n) := by
  refine ⟨by simp [Future.create], ?_, fun k x hk => ?_, by simp [Future.create], by
    simp [Future.create], by simp [Future.create]⟩
  · simp [Future.create]; omega
  · simp [Future.create] at hk

theorem Filled.reset (h : Filled n cb d) (hn : 0 < n) :
    Filled n cb { d with count := 0, ready := false, tried := [], fired := [] } := by
  refine ⟨by simp, ?_, fun k x hk => ?_, h.size, by simp, by simp⟩
  · simp; omega
  · simp at hk

/-- The outcomes with one more set. -/
theorem Filled.outcomes_snoc (h : Filled n cb d) {b : Bool} (hb : b = decide (d.tried.length < n))
    (k : Nat) (x : Nat × Bool) (hk : (d.tried ++ [(v, b)])[k]? = some x) : x.2 = decide (k < n) := by
  rw [List.getElem?_append] at hk
  split at hk
  · exact h.outcomes k x hk
  · rename_i hle
    have hkl : k = d.tried.length := by
      by_contra hne
      rw [List.getElem?_eq_none (by simp; omega)] at hk
      cases hk
    subst hkl
    simp at hk
    rw [← hk]; exact hb

/-- A set of a full future. -/
theorem Filled.refuse (h : Filled n cb d) (hle : n ≤ d.count) :
    Filled n cb { d with tried := d.tried ++ [(v, false)] } := by
  have hc := h.count
  have hlen : n ≤ d.tried.length := by omega
  refine ⟨?_, h.ready, h.outcomes_snoc (by simp; omega), h.size, ?_, h.fired⟩
  · simp only [List.length_append, List.length_singleton]; omega
  · simp only [List.take_append_of_le_length hlen]; exact h.stored

theorem Filled.length_of_lt (h : Filled n cb d) (hlt : d.count < n) : d.tried.length = d.count := by
  have := h.count
  omega

/-- A set of a future that is not full stores its value. -/
theorem Filled.store_stored (h : Filled n cb d) (hlt : d.count < n) :
    (d.store v).values.take (d.store v).count = ((d.store v).tried.take n).map Prod.fst := by
  have hlen := h.length_of_lt hlt
  have hsize : d.count < d.values.length := by rw [h.size]; exact hlt
  have hold : d.values.take d.count = d.tried.map Prod.fst := by
    rw [h.stored, List.take_of_length_le (by omega)]
  simp only [Data.store]
  rw [List.take_add_one, List.take_set_of_le (Nat.le_refl _), List.getElem?_set_self hsize, hold,
    List.take_of_length_le (by simp; omega)]
  simp

theorem Filled.store (h : Filled n cb d) (hlt : d.count < n) (hne : (d.store v).count ≠ n) :
    Filled n cb (d.store v) := by
  have hlen := h.length_of_lt hlt
  have hready : d.ready = false := by
    cases hr : d.ready with
    | false => rfl
    | true => have := h.ready.mp hr; omega
  refine ⟨?_, ?_, h.outcomes_snoc (by simp; omega), ?_, h.store_stored hlt, ?_⟩
  · simp only [Data.store, List.length_append, List.length_singleton]; omega
  · exact ⟨fun hr => (by have hr : d.ready = true := hr; rw [hready] at hr; cases hr),
      fun hc => absurd hc hne⟩
  · simpa [Data.store] using h.size
  · have := h.fired
    simp only [hready, Bool.false_eq_true, and_false, if_false] at this
    simp [Data.store, hready, this]

/-- The set of the last compartment. -/
theorem Filled.complete (h : Filled n cb d) (hlt : d.count < n) (heq : (d.store v).count = n) :
    Filled n cb ((d.store v).complete cb) := by
  have hlen := h.length_of_lt hlt
  have hready : d.ready = false := by
    cases hr : d.ready with
    | false => rfl
    | true => have := h.ready.mp hr; omega
  have hcount : d.count + 1 = n := heq
  refine ⟨?_, ⟨fun _ => heq, fun _ => rfl⟩, h.outcomes_snoc (by simp; omega), ?_,
    h.store_stored hlt, ?_⟩
  · simp only [Data.complete, Data.store, List.length_append, List.length_singleton]; omega
  · simpa [Data.complete, Data.store] using h.size
  · have := h.fired
    simp only [hready, Bool.false_eq_true, and_false, if_false] at this
    cases cb <;> simp [Data.complete, Data.store, this]

/-! ## The invariant of the monitor -/

abbrev Mon := Monitor.State Data Call Nat Ret

variable {d' : Data} {t c : Nat} {l l' : Call} {ws : List (Monitor.Wake Nat)} {r : Ret}

theorem body_wait (hb : body n cb t l d = (d', .wait c l')) : d' = d ∧ d.ready = false := by
  cases l <;> simp only [body] at hb
  case wait =>
    split at hb <;> cases hb
    rename_i hr
    exact ⟨rfl, by simpa using hr⟩
  case test | reset => cases hb
  case set v =>
    repeat' split at hb
    all_goals cases hb

theorem Filled.done (h : Filled n cb d) (hn : 0 < n) (hb : body n cb t l d = (d', .done ws r)) :
    Filled n cb d' := by
  cases l <;> simp only [body] at hb
  case wait => split at hb <;> cases hb; exact h
  case test => cases hb; exact h
  case set v =>
    split at hb
    · rename_i hle; cases hb; exact h.refuse hle
    · rename_i hlt
      split at hb <;> rename_i heq <;> cases hb
      · exact h.complete (Nat.not_le.mp hlt) heq
      · exact h.store (Nat.not_le.mp hlt) heq
  case reset => cases hb; exact h.reset hn

/-- A section that leaves the future ready found it so or wakes all waiters. -/
theorem body_ready (hb : body n cb t l d = (d', .done ws r)) (hr : d'.ready = true) :
    d.ready = true ∨ ws = [.all cond] := by
  cases l <;> simp only [body] at hb
  case wait => split at hb <;> cases hb; exact .inl hr
  case test => cases hb; exact .inl hr
  case set v =>
    split at hb
    · cases hb; exact .inl hr
    · split at hb <;> cases hb
      · exact .inr rfl
      · exact .inl hr
  case reset => cases hb; cases hr

/-- A wait ends when the future is ready. -/
theorem body_waited {f : List (List Nat)} (hb : body n cb t l d = (d', .done ws (.waited f))) :
    d.ready = true ∧ f = d.fired := by
  cases l <;> simp only [body] at hb
  case wait =>
    split at hb <;> cases hb
    rename_i hr
    exact ⟨hr, rfl⟩
  case test | reset => cases hb
  case set v =>
    repeat' split at hb
    all_goals cases hb

/-- The result of a wait: by then the callback had run once, with `n` values. -/
def Served (n : Nat) (cb : Bool) (r : Ret) : Prop :=
  ∀ f, r = .waited f → cb = true → ∃ vals, f = [vals] ∧ vals.length = n

structure Inv (n : Nat) (cb : Bool) (m : Mon) : Prop where
  filled : Filled n cb m.data
  empty : m.data.ready = true → m.queue cond = []
  finished : ∀ t r, m.pos t = .finished r → Served n cb r
  results : ∀ t r, m.result t = some r → Served n cb r

variable {m m' : Mon} {a : Monitor.Act Call}

theorem Filled.served (h : Filled n cb d) (hb : body n cb t l d = (d', .done ws r)) :
    Served n cb r := by
  rintro f rfl hcb
  obtain ⟨hr, rfl⟩ := body_waited hb
  have := h.fired
  rw [if_pos ⟨hcb, hr⟩] at this
  exact ⟨d.values, this, h.size⟩

theorem settle_finished {q : Nat → List Nat} {p : Monitor.Pos Call Nat Ret}
    (h : Monitor.settle q t p = .finished r) : p = .finished r := by
  cases p with
  | waiting c l =>
    simp only [Monitor.settle] at h
    split at h <;> cases h
  | _ => exact h

theorem Inv.step (h : Inv n cb m) (hn : 0 < n) (hst : Monitor.step (body n cb) m a = some m') :
    Inv n cb m' := by
  obtain ⟨t, l, _, hp, rfl⟩ | ⟨t, o, l, v, c, l', _, hp, hb, rfl⟩ |
    ⟨t, o, l, v, ws, r, _, hp, hb, rfl⟩ | ⟨t, r, _, hp, rfl⟩ := Monitor.step_cases hst
  · refine ⟨h.filled, h.empty, fun u r hu => ?_, h.results⟩
    by_cases hut : u = t
    · subst hut; simp at hu
    · simp only [Function.update_of_ne hut] at hu; exact h.finished u r hu
  · obtain ⟨rfl, hr⟩ := body_wait hb
    refine ⟨h.filled, fun hr' => ?_, fun u r hu => ?_, h.results⟩
    · have hr' : m.data.ready = true := hr'
      rw [hr] at hr'; cases hr'
    · by_cases hut : u = t
      · subst hut; simp at hu
      · simp only [Function.update_of_ne hut] at hu; exact h.finished u r hu
  · refine ⟨h.filled.done hn hb, fun hr => ?_, fun u r' hu => ?_, h.results⟩
    · obtain hr | rfl := body_ready hb hr
      · exact List.subset_nil.mp (h.empty hr ▸ (Monitor.wakeAll_sublist m.queue ws cond).subset)
      · simp [Monitor.wakeAll, Monitor.Wake.apply]
    · by_cases hut : u = t
      · subst hut
        simp only [Function.update_self] at hu
        cases hu
        exact h.filled.served hb
      · simp only [Function.update_of_ne hut] at hu; exact h.finished u r' (settle_finished hu)
  · refine ⟨h.filled, h.empty, fun u r' hu => ?_, fun u r' hu => ?_⟩
    · by_cases hut : u = t
      · subst hut; simp at hu
      · simp only [Function.update_of_ne hut] at hu; exact h.finished u r' hu
    · by_cases hut : u = t
      · subst hut
        simp only [Function.update_self] at hu
        cases hu
        exact h.finished u r hp
      · simp only [Function.update_of_ne hut] at hu; exact h.results u r' hu

theorem reach_inv (hn : 0 < n)
    (hr : Reach (Monitor.system (body n cb) (create n)) (Monitor.Calls Free) m) : Inv n cb m := by
  refine hr.invariant ?_ ?_
  · rintro _ rfl
    exact ⟨.create hn, fun hr => (by cases hr), fun _ _ hp => (by cases hp), fun _ _ hr => (by cases hr)⟩
  · intro m a m' _ h _ hst; exact h.step hn hst

end

/-! ## The future -/

/-- A future behaves: its fields tell the sets since the creation or the last reset, nobody is left
on the list of a ready future, a set succeeds when fewer than `n` came before it and otherwise only
returns the error, and a wait returns after the callback. -/
structure Completes (n : Nat) (cb : Bool) (s : Guarded.State Data Call Ret) : Prop where
  filled : Filled n cb s.data
  empty : (s.sync.mutex 0).locked = false → s.data.ready = true → ∀ t, ¬ Sync.OnList s.sync cond t
  succeeds : ∀ t v, s.data.tried.length < n →
    ∃ d ws, body n cb t (.set v) s.data = (d, .done ws .success)
  refuses : ∀ t v, n ≤ s.data.tried.length → body n cb t (.set v) s.data =
    ({ s.data with tried := s.data.tried ++ [(v, false)] }, .done [] .future)
  served : ∀ t r, s.result t = some r → Served n cb r

/-- Waits on a future without compartments: it is full from the start, a set is refused, and the
waiter sleeps on the list. -/
def noCompartments : List (Guarded.Act Call) :=
  [.call 0 .wait, .go 0, .run 0, .go 0, .go 0, .go 0, .callback (.cond cond),
    .call 1 (.set 7), .go 1, .run 1, .run 1, .go 1, .run 1]

theorem future_stuck : ∃ s, Reach (Guarded.system (fun _ => true) (body 0 true) (create 0))
    (Guarded.Calls Free) s ∧ (s.sync.mutex 0).locked = false ∧ s.data.count = 0 ∧
      s.data.ready = false ∧ Sync.OnList s.sync cond 0 ∧ s.result 1 = some .future := by
  obtain ⟨s, hr, hs⟩ := (Reach.start rfl : Reach (Guarded.system (fun _ => true) (body 0 true)
    (create 0)) (Guarded.Calls Free) _).exists_run
    (fun s => (s.sync.mutex 0).locked = false ∧ s.data.count = 0 ∧ s.data.ready = false ∧
      Sync.OnList s.sync cond 0 ∧ s.result 1 = some .future) noCompartments (by decide)
  exact ⟨s, hr, hs⟩

/-- A future behaves in every run exactly if it has compartments. -/
theorem future_completion (n : Nat) (cb : Bool) (ult : Nat → Bool) :
    (∀ s, Reach (Guarded.system ult (body n cb) (create n)) (Guarded.Calls Free) s →
      Completes n cb s) ↔ 1 ≤ n := by
  constructor
  · intro hall
    by_contra hn
    obtain rfl : n = 0 := by omega
    have hready := (hall _ (.start rfl)).filled.ready.mpr rfl
    cases hready
  · intro hn s hr
    obtain ⟨m, hm, q, ch, hsim⟩ := Guarded.reach_sim hr
    have h := reach_inv hn hm
    have hf : Filled n cb s.data := by rw [← hsim.data]; exact h.filled
    have hc := hf.count
    refine ⟨hf, fun hfree hready t ht => ?_, fun t v hlt => ?_, fun t v hle => ?_, fun t r hres => ?_⟩
    · have hm := (hsim.onList_iff hfree cond t).mp ht
      rw [← hsim.data] at hready
      rw [h.empty hready] at hm
      cases hm
    · simp only [body]
      rw [if_neg (by omega)]
      split
      · exact ⟨_, _, rfl⟩
      · exact ⟨_, _, rfl⟩
    · simp only [body]
      rw [if_pos (by omega)]
    · rw [← hsim.result] at hres
      exact h.results t r hres

end Future
end AbtReconverse
