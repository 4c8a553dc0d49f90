import Mathlib.Logic.Function.Basic
import Mathlib.Data.List.Basic
import AbtReconverse.Lib.Lts

/-!
# AbtReconverse.Lib.Monitor

Monitors with condition queues, in the style where a woken caller competes for the monitor again.

A monitor has data `V` and sections (`Prog`): a caller at `l` that has the monitor runs its section,
which changes the data and then either waits on a condition, to go on at some `l'` later, or is done,
with callers to wake and a result. Sections exclude each other, so here each one is a single step
(`turn`), and any caller that is ready may take the next one.

* `State`: the data, the queues of waiting callers, and where each caller is.
* `Wf`: the queues hold exactly the waiting callers; every step keeps this (`Wf.step`).
* `step_cases`: what a step can be; the invariants of a monitor are proved by these cases.
-/

namespace Monitor

open Lts

/-- Wake the caller that waits longest on a condition, or all that wait on it. -/
inductive Wake (C : Type) where
  | one (c : C)
  | all (c : C)
  deriving DecidableEq, Repr

/-- How a section ends. -/
inductive Next (L C R : Type) where
  | wait (c : C) (l : L)
  | done (ws : List (Wake C)) (r : R)

/-- The section of a caller at `l`. -/
abbrev Prog (V L C R : Type) := Nat → L → V → V × Next L C R

/-- Where a caller is: outside, ready for its turn (for the first time, or again after a wait on a
condition), waiting, or finished with a result. -/
inductive Pos (L C R : Type) where
  | out
  | ready (woken : Option C) (l : L)
  | waiting (c : C) (l : L)
  | finished (r : R)

structure State (V L C R : Type) where
  data : V
  queue : C → List Nat
  pos : Nat → Pos L C R
  /-- What the last call returned. -/
  result : Nat → Option R

inductive Act (L : Type) where
  | call (t : Nat) (l : L)
  | turn (t : Nat)
  | ret (t : Nat)

section

variable {V L C R : Type} [DecidableEq C]

def Wake.apply (q : C → List Nat) : Wake C → C → List Nat
  | .one c => Function.update q c (q c).tail
  | .all c => Function.update q c []

/-- The queues after some wake-ups. -/
def wakeAll (q : C → List Nat) (ws : List (Wake C)) : C → List Nat := ws.foldl Wake.apply q

/-- A caller that is no longer on the queue it waits on is ready. -/
def settle (q : C → List Nat) (t : Nat) : Pos L C R → Pos L C R
  | .waiting c l => if t ∈ q c then .waiting c l else .ready (some c) l
  | p => p

/-- The caller at `l` runs its section. -/
def turn (P : Prog V L C R) (s : State V L C R) (t : Nat) (l : L) : State V L C R :=
  match P t l s.data with
  | (v, .wait c l') =>
    { data := v
      queue := Function.update s.queue c (s.queue c ++ [t])
      pos := Function.update s.pos t (.waiting c l')
      result := s.result }
  | (v, .done ws r) =>
    { data := v
      queue := wakeAll s.queue ws
      pos := Function.update (fun u => settle (wakeAll s.queue ws) u (s.pos u)) t (.finished r)
      result := s.result }

def step (P : Prog V L C R) (s : State V L C R) : Act L → Option (State V L C R)
  | .call t l => match s.pos t with
    | .out => some { s with pos := Function.update s.pos t (.ready none l) }
    | _ => none
  | .turn t => match s.pos t with
    | .ready _ l => some (turn P s t l)
    | _ => none
  | .ret t => match s.pos t with
    | .finished r => some { s with
        pos := Function.update s.pos t .out
        result := Function.update s.result t (some r) }
    | _ => none

/-- The monitor from the data `v₀`, with every caller outside. -/
def system (P : Prog V L C R) (v₀ : V) : System (State V L C R) (Act L) where
  init s := s = ⟨v₀, fun _ => [], fun _ => .out, fun _ => none⟩
  step := step P

/-- Calls are begun as `E` allows; the rest is free. -/
def Calls (E : V → Nat → L → Prop) (s : State V L C R) : Act L → Prop
  | .call t l => E s.data t l
  | _ => True

variable {P : Prog V L C R} {s s' : State V L C R}

theorem step_call {t : Nat} (l : L) (hp : s.pos t = .out) :
    step P s (.call t l) = some { s with pos := Function.update s.pos t (.ready none l) } := by
  simp only [step, hp]

theorem step_ret {t : Nat} {r : R} (hp : s.pos t = .finished r) :
    step P s (.ret t) = some { s with
      pos := Function.update s.pos t .out, result := Function.update s.result t (some r) } := by
  simp only [step, hp]

theorem step_turn {t : Nat} {o : Option C} {l : L} (hp : s.pos t = .ready o l) :
    step P s (.turn t) = some (turn P s t l) := by
  simp only [step, hp]

theorem turn_wait {t : Nat} {l l' : L} {v : V} {c : C} (hP : P t l s.data = (v, .wait c l')) :
    turn P s t l = ⟨v, Function.update s.queue c (s.queue c ++ [t]),
      Function.update s.pos t (.waiting c l'), s.result⟩ := by
  simp only [turn, hP]

theorem turn_done {t : Nat} {l : L} {v : V} {ws : List (Wake C)} {r : R}
    (hP : P t l s.data = (v, .done ws r)) :
    turn P s t l = ⟨v, wakeAll s.queue ws,
      Function.update (fun u => settle (wakeAll s.queue ws) u (s.pos u)) t (.finished r),
      s.result⟩ := by
  simp only [turn, hP]

/-- What a step can be. -/
theorem step_cases {a : Act L} (hst : step P s a = some s') :
    (∃ t l, a = .call t l ∧ s.pos t = .out ∧
      s' = { s with pos := Function.update s.pos t (.ready none l) }) ∨
    (∃ t o l v c l', a = .turn t ∧ s.pos t = .ready o l ∧ P t l s.data = (v, .wait c l') ∧
      s' = ⟨v, Function.update s.queue c (s.queue c ++ [t]),
        Function.update s.pos t (.waiting c l'), s.result⟩) ∨
    (∃ t o l v ws r, a = .turn t ∧ s.pos t = .ready o l ∧ P t l s.data = (v, .done ws r) ∧
      s' = ⟨v, wakeAll s.queue ws,
        Function.update (fun u => settle (wakeAll s.queue ws) u (s.pos u)) t (.finished r),
        s.result⟩) ∨
    ∃ t r, a = .ret t ∧ s.pos t = .finished r ∧
      s' = { s with
        pos := Function.update s.pos t .out, result := Function.update s.result t (some r) } := by
  cases a with
  | call t l =>
    simp only [step] at hst
    split at hst <;> cases hst
    rename_i ho
    exact .inl ⟨t, l, rfl, ho, rfl⟩
  | turn t =>
    simp only [step] at hst
    split at hst <;> cases hst
    rename_i o l ho
    refine .inr ?_
    cases hP : P t l s.data with
    | mk v n =>
      cases n with
      | wait c l' => exact .inl ⟨t, o, l, v, c, l', rfl, ho, hP, turn_wait hP⟩
      | done ws r => exact .inr (.inl ⟨t, o, l, v, ws, r, rfl, ho, hP, turn_done hP⟩)
  | ret t =>
    simp only [step] at hst
    split at hst <;> cases hst
    rename_i r ho
    exact .inr (.inr (.inr ⟨t, r, rfl, ho, rfl⟩))

/-! ## The queues -/

theorem apply_sublist (q : C → List Nat) (w : Wake C) (c : C) : (w.apply q c).Sublist (q c) := by
  cases w with
  | one c' =>
    by_cases hc : c = c'
    · subst hc; simpa [Wake.apply] using List.tail_sublist (q c)
    · simp [Wake.apply, hc]
  | all c' =>
    by_cases hc : c = c'
    · subst hc; simp [Wake.apply]
    · simp [Wake.apply, hc]

/-- Wake-ups only take callers off the queues. -/
theorem wakeAll_sublist (q : C → List Nat) (ws : List (Wake C)) (c : C) :
    (wakeAll q ws c).Sublist (q c) := by
  induction ws generalizing q with
  | nil => exact List.Sublist.refl _
  | cons w ws ih => exact (ih (w.apply q)).trans (apply_sublist q w c)

/-- The queues hold the waiting callers, each once. -/
structure Wf (s : State V L C R) : Prop where
  queued : ∀ c t, t ∈ s.queue c ↔ ∃ l, s.pos t = .waiting c l
  nodup : ∀ c, (s.queue c).Nodup

theorem Wf.step {a : Act L} (h : Wf s) (hst : step P s a = some s') : Wf s' := by
  obtain ⟨t, l, _, hp, rfl⟩ | ⟨t, o, l, v, c, l', _, hp, _, rfl⟩ |
    ⟨t, o, l, v, ws, r, _, hp, _, rfl⟩ | ⟨t, r, _, hp, rfl⟩ := step_cases hst
  · refine ⟨fun c u => ?_, h.nodup⟩
    rw [h.queued]
    by_cases hu : u = t
    · subst hu; simp [hp]
    · simp [hu]
  · have hn : ∀ c, t ∉ s.queue c := by
      intro c hm
      obtain ⟨l, hl⟩ := (h.queued c t).mp hm
      rw [hp] at hl; cases hl
    refine ⟨fun c' u => ?_, fun c' => ?_⟩
    · by_cases hu : u = t
      · subst hu
        by_cases hc : c' = c
        · subst hc; simp
        · simpa [hc, Ne.symm hc] using hn c'
      · by_cases hc : c' = c
        · subst hc; simp [hu, h.queued]
        · simp [hu, hc, h.queued]
    · by_cases hc : c' = c
      · subst hc
        simpa [List.nodup_append, h.nodup c'] using fun a ha (he : a = t) => hn c' (he ▸ ha)
      · simpa [hc] using h.nodup c'
  · have hn : ∀ c, t ∉ wakeAll s.queue ws c := by
      intro c hm
      obtain ⟨l, hl⟩ := (h.queued c t).mp ((wakeAll_sublist _ ws c).subset hm)
      rw [hp] at hl; cases hl
    refine ⟨fun c u => ?_, fun c => (h.nodup c).sublist (wakeAll_sublist _ ws c)⟩
    by_cases hu : u = t
    · subst hu; simpa using hn c
    · simp only [Function.update_of_ne hu]
      constructor
      · intro hm
        obtain ⟨l, hl⟩ := (h.queued c u).mp ((wakeAll_sublist _ ws c).subset hm)
        exact ⟨l, by simp [hl, settle, hm]⟩
      · rintro ⟨l, hl⟩
        cases hpu : s.pos u with
        | waiting c' l' =>
          rw [hpu] at hl
          simp only [settle] at hl
          split at hl
          · rename_i hm; cases hl; exact hm
          · cases hl
        | out => rw [hpu] at hl; cases hl
        | ready o' l' => rw [hpu] at hl; cases hl
        | finished r' => rw [hpu] at hl; cases hl
  · refine ⟨fun c u => ?_, h.nodup⟩
    rw [h.queued]
    by_cases hu : u = t
    · subst hu; simp [hp]
    · simp [hu]

end

end Monitor
