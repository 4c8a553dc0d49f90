/-!
# AbtReconverse.Lib.Lts

Labelled transition systems given by an executable step function.

* `System S A`: initial states, and a partial step function (`none`: the action is not enabled).
* `Reach M G s`: `s` is reached by steps that all meet the side condition `G`. With `Free` there
  is no side condition and `Reach M Free` is plain reachability.
* `runWhen`: a bounded run along a list of actions that checks `G` at every step; it turns a
  computation into a `Reach` derivation (`Reach.runWhen`, `Reach.runWhen_keeps`).

* `Reach.almost_all`: a run has moved finitely many of its parties.

* `System.withHistory`: the system together with a history that every step extends and none reads;
  `Reach.historyInvariant` is its rule.

* `Reach.simulation`: if every step of a system is matched by a step of another or by none, every
  state it reaches is matched by a reached one.

* `runFor`: `n` steps of a deterministic machine. `runFor_rel`: two such machines that go step by
  step together (`Option.Rel`) do so for any number of steps.

`Reach.invariant` is the induction used for every safety result: what holds initially and is kept
by every step holds in every reached state.
-/

namespace Lts

structure System (S A : Type) where
  init : S → Prop
  step : S → A → Option S

/-- No side condition on the steps. -/
def Free {S A : Type} (_ : S) (_ : A) : Prop := True

instance {S A : Type} (s : S) (a : A) : Decidable (Free s a) := inferInstanceAs (Decidable True)

inductive Reach {S A : Type} (M : System S A) (G : S → A → Prop) : S → Prop where
  | start {s : S} : M.init s → Reach M G s
  | next {s s' : S} {a : A} : Reach M G s → G s a → M.step s a = some s' → Reach M G s'

namespace Reach

variable {S A : Type} {M : System S A} {G H : S → A → Prop}

/-- The invariant rule. The step case may also use that the state before the step is reached. -/
theorem invariant {I : S → Prop} (h0 : ∀ s, M.init s → I s)
    (hs : ∀ s a s', Reach M G s → I s → G s a → M.step s a = some s' → I s') {s : S}
    (h : Reach M G s) : I s := by
  induction h with
  | start hi => exact h0 _ hi
  | next hr hg hst ih => exact hs _ _ _ hr ih hg hst

theorem mono (hGH : ∀ s a, G s a → H s a) {s : S} (h : Reach M G s) : Reach M H s := by
  induction h with
  | start hi => exact .start hi
  | next _ hg hst ih => exact .next ih (hGH _ _ hg) hst

theorem free {s : S} (h : Reach M G s) : Reach M Free s := h.mono fun _ _ _ => trivial

end Reach

/-- Forward simulation: a step is matched by one step of the other system, or by none. -/
theorem Reach.simulation {S A T B : Type} {M : System S A} {N : System T B} {G : S → A → Prop}
    {H : T → B → Prop} {R : S → T → Prop} (h0 : ∀ s, M.init s → ∃ t, N.init t ∧ R s t)
    (hs : ∀ s t a s', R s t → G s a → M.step s a = some s' →
      R s' t ∨ ∃ b t', H t b ∧ N.step t b = some t' ∧ R s' t') {s : S} (h : Reach M G s) :
    ∃ t, Reach N H t ∧ R s t := by
  induction h with
  | start hi =>
    obtain ⟨t, ht, hR⟩ := h0 _ hi
    exact ⟨t, .start ht, hR⟩
  | next _ hg hst ih =>
    obtain ⟨t, ht, hR⟩ := ih
    obtain hR' | ⟨b, t', hH, hst', hR'⟩ := hs _ _ _ _ hR hg hst
    · exact ⟨t, ht, hR'⟩
    · exact ⟨t', .next ht hH hst', hR'⟩

/-- Run the actions in order, checking the side condition before each; `none` when an action is
not enabled or not allowed. -/
def runWhen {S A : Type} (M : System S A) (G : S → A → Prop) [∀ s a, Decidable (G s a)] :
    S → List A → Option S
  | s, [] => some s
  | s, a :: as => if G s a then (M.step s a).bind fun s' => runWhen M G s' as else none

theorem Reach.runWhen {S A : Type} {M : System S A} {G : S → A → Prop}
    [∀ s a, Decidable (G s a)] {s s' : S} {as : List A} (h : Reach M G s)
    (hr : runWhen M G s as = some s') : Reach M G s' := by
  induction as generalizing s with
  | nil => simp only [Lts.runWhen, Option.some.injEq] at hr; subst hr; exact h
  | cons a as ih =>
    simp only [Lts.runWhen] at hr
    split at hr
    · rename_i hg
      obtain ⟨s1, hs1, hr⟩ := Option.bind_eq_some_iff.mp hr
      exact ih (.next h hg hs1) hr
    · cases hr

/-- A run under a stronger side condition, whose steps keep `f`. -/
theorem Reach.runWhen_keeps {S A B : Type} {M : System S A} {G H : S → A → Prop}
    [∀ s a, Decidable (G s a)] {f : S → B}
    (hstep : ∀ s a s', G s a → M.step s a = some s' → H s a ∧ f s' = f s) {s s' : S} {as : List A}
    (h : Reach M H s) (hr : Lts.runWhen M G s as = some s') : Reach M H s' ∧ f s' = f s := by
  induction as generalizing s with
  | nil => cases hr; exact ⟨h, rfl⟩
  | cons a as ih =>
    simp only [Lts.runWhen] at hr
    split at hr
    · rename_i hg
      obtain ⟨s₁, hs₁, hr⟩ := Option.bind_eq_some_iff.mp hr
      obtain ⟨hh, hf⟩ := hstep s a s₁ hg hs₁
      obtain ⟨h', hf'⟩ := ih (.next h hh hs₁) hr
      exact ⟨h', hf'.trans hf⟩
    · cases hr

/-- If all parties start out alike and a step moves one of them at most, almost all stay so. -/
theorem Reach.almost_all {S A K : Type} {M : System S A} {G : S → A → Prop} {f : S → Nat → K} {k : K}
    (h0 : ∀ s, M.init s → ∀ n, f s n = k)
    (hs : ∀ s a s', M.step s a = some s' → ∃ j, ∀ i, i ≠ j → f s' i = f s i) {s : S}
    (h : Reach M G s) : ∃ n, ∀ m, n ≤ m → f s m = k := by
  refine h.invariant (I := fun s => ∃ n, ∀ m, n ≤ m → f s m = k) ?_ ?_
  · intro s hi; exact ⟨0, fun m _ => h0 s hi m⟩
  · intro s a s' _ ⟨n, hn⟩ _ hst
    obtain ⟨j, hj⟩ := hs s a s' hst
    exact ⟨max n (j + 1), fun m hm => (hj m (by omega)).trans (hn m (by omega))⟩

/-- A run that can be computed, to a state with a property that can be computed. -/
theorem exists_runWhen {S A : Type} {M : System S A} {G : S → A → Prop}
    [∀ s a, Decidable (G s a)] {s : S} (P : S → Prop) [DecidablePred P] (as : List A)
    (hp : (runWhen M G s as).any (fun s' => decide (P s')) = true) :
    ∃ s', runWhen M G s as = some s' ∧ P s' := by
  cases hr : runWhen M G s as with
  | none => rw [hr] at hp; cases hp
  | some s' =>
    rw [hr] at hp
    exact ⟨s', rfl, of_decide_eq_true hp⟩

theorem Reach.exists_run {S A : Type} {M : System S A} {G : S → A → Prop}
    [∀ s a, Decidable (G s a)] {s : S} (h : Reach M G s) (P : S → Prop) [DecidablePred P]
    (as : List A) (hp : (Lts.runWhen M G s as).any (fun s' => decide (P s')) = true) :
    ∃ s', Reach M G s' ∧ P s' := by
  obtain ⟨s', hr, hs'⟩ := exists_runWhen P as hp
  exact ⟨s', h.runWhen hr, hs'⟩

namespace System

variable {S A H : Type}

/-- The system with a history, which starts as `h₀` and which `upd` extends at every step by what the
states before and after it and its action show. -/
def withHistory (M : System S A) (h₀ : H) (upd : S → A → S → H → H) : System (S × H) A where
  init x := M.init x.1 ∧ x.2 = h₀
  step x a := (M.step x.1 a).map fun s' => (s', upd x.1 a s' x.2)

variable {M : System S A} {h₀ : H} {upd : S → A → S → H → H}

theorem withHistory_step {x y : S × H} {a : A} :
    (M.withHistory h₀ upd).step x a = some y ↔
      M.step x.1 a = some y.1 ∧ y.2 = upd x.1 a y.1 x.2 := by
  obtain ⟨s', h'⟩ := y
  simp only [withHistory, Option.map_eq_some_iff, Prod.mk.injEq]
  constructor
  · rintro ⟨_, hst, rfl, rfl⟩; exact ⟨hst, rfl⟩
  · rintro ⟨hst, rfl⟩; exact ⟨s', hst, rfl, rfl⟩

end System

section History

variable {S A H : Type} {M : System S A} {h₀ : H} {upd : S → A → S → H → H}

/-- The invariant rule for a system with a history. -/
theorem Reach.historyInvariant {G : S × H → A → Prop} {I : S → H → Prop}
    (h0 : ∀ s, M.init s → I s h₀)
    (hs : ∀ s h a s', Reach (M.withHistory h₀ upd) G (s, h) → I s h → G (s, h) a →
      M.step s a = some s' → I s' (upd s a s' h)) {x : S × H}
    (hr : Reach (M.withHistory h₀ upd) G x) : I x.1 x.2 := by
  refine hr.invariant (I := fun x => I x.1 x.2) ?_ ?_
  · rintro ⟨s, h⟩ ⟨hi, rfl⟩; exact h0 s hi
  · rintro ⟨s, h⟩ a ⟨s', h'⟩ hr ih hg hst
    obtain ⟨hst, hh⟩ := System.withHistory_step.mp hst
    simp only at hst hh ih ⊢
    rw [hh]
    exact hs s h a s' hr ih hg hst

end History

/-- `n` steps of a deterministic machine; `none` when it halts before. -/
def runFor {S : Type} (f : S → Option S) : Nat → S → Option S
  | 0, s => some s
  | n + 1, s => (f s).bind (runFor f n)

theorem runFor_rel {S T : Type} {f : S → Option S} {g : T → Option T} {R : S → T → Prop}
    (h : ∀ s t, R s t → Option.Rel R (f s) (g t)) {s : S} {t : T} (hst : R s t) (n : Nat) :
    Option.Rel R (runFor f n s) (runFor g n t) := by
  induction n generalizing s t with
  | zero => exact .some hst
  | succ n ih =>
    have h' := h s t hst
    simp only [runFor]
    revert h'
    generalize f s = x
    generalize g t = y
    intro h'
    cases h' with
    | some h' => exact ih h'
    | none => exact .none

end Lts
