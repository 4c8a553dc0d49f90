import AbtReconverse.Sync.Refine

/-!
# AbtReconverse.Sync.Barrier

The barrier of `sync.cpp`. The call that fills a round starts the next one and wakes all that wait;
a waiting call remembers the generation it arrived in and goes on waiting until the generation is
another one.

Arrivals are numbered in the order in which they increment `waiting`. The number is history: it is
kept in `arrivals`, goes along with the waiting call and is what the call returns here. Rounds are
`num` arrivals each, so arrival `i` belongs to the round that ends with arrival `num * ⌈i / num⌉`
(`roundEnd`). The 64-bit `generation` is a natural number here: it counts rounds.
-/

namespace AbtReconverse
namespace Barrier

open Lts

/-- `ABTI_barrier` without `num`, the mutex and the condition variable. -/
structure Data where
  waiting : Nat
  generation : Nat
  arrivals : Nat
  deriving DecidableEq, Repr

/-- Where `ABT_barrier_wait` is: at its beginning, or in the loop with its `gen`. -/
inductive Local where
  | arrive
  | again (gen i : Nat)
  deriving DecidableEq, Repr

/-- The condition variable. -/
def cond : Nat := 0

/-- `while (gen == b->generation) ABT_cond_wait(b->c, b->m);` -/
def loop (gen i : Nat) (d : Data) : Data × Monitor.Next Local Nat Nat :=
  if gen = d.generation then (d, .wait cond (.again gen i)) else (d, .done [] i)

/-- `ABT_barrier_wait` between lock and unlock of the mutex. -/
def body (num : Nat) (_ : Nat) : Local → Data → Data × Monitor.Next Local Nat Nat
  | .arrive, d =>
    if num ≤ d.waiting + 1 then
      ({ waiting := 0, generation := d.generation + 1, arrivals := d.arrivals + 1 },
        .done [.all cond] (d.arrivals + 1))
    else
      loop d.generation (d.arrivals + 1)
        { d with waiting := d.waiting + 1, arrivals := d.arrivals + 1 }
  | .again gen i, d => loop gen i d

/-- `ABT_barrier_create`. -/
def create : Data := ⟨0, 0, 0⟩

/-- A call begins at the beginning. -/
def Arrives (_ : Data) (_ : Nat) (l : Local) : Prop := l = .arrive

instance (d : Data) (t : Nat) (l : Local) : Decidable (Arrives d t l) :=
  inferInstanceAs (Decidable (_ = _))

/-- The last arrival of the round of arrival `i`. -/
def roundEnd (num i : Nat) : Nat := num * ((i + num - 1) / num)

/-- Arrival `i` is one of round `g`, counted from 0. -/
def InRound (num g i : Nat) : Prop := num * g < i ∧ i ≤ num * (g + 1)

section

variable {num g i : Nat}

theorem InRound.roundEnd_eq (h : InRound num g i) : roundEnd num i = num * (g + 1) := by
  obtain ⟨hlt, hle⟩ := h
  have hnum : 0 < num := by
    rcases Nat.eq_zero_or_pos num with rfl | hpos
    · omega
    · exact hpos
  have hdiv : (i + num - 1) / num = g + 1 := by
    refine Nat.div_eq_of_lt_le ?_ ?_
    · rw [Nat.mul_comm, Nat.mul_succ]; omega
    · rw [Nat.mul_comm, Nat.mul_succ]; omega
  rw [roundEnd, hdiv]

abbrev Mon := Monitor.State Data Local Nat Nat

/-- What is true of a caller, by where it is. -/
def Placed (num : Nat) (d : Data) : Monitor.Pos Local Nat Nat → Prop
  | .waiting c (.again g i) => c = cond ∧ InRound num g i ∧ g = d.generation
  | .waiting _ .arrive => False
  | .ready _ (.again g i) => InRound num g i ∧ g ≤ d.generation
  | .finished i => ∃ g, InRound num g i ∧ g < d.generation
  | _ => True

structure Inv (num : Nat) (m : Mon) : Prop where
  wf : Monitor.Wf m
  count : m.data.arrivals = num * m.data.generation + m.data.waiting
  waiting : m.data.waiting < num
  placed : ∀ t, Placed num m.data (m.pos t)
  results : ∀ t i, m.result t = some i → ∃ g, InRound num g i ∧ g < m.data.generation

variable {d v : Data} {t u c r : Nat} {l l' : Local} {ws : List (Monitor.Wake Nat)} {m m' : Mon}
  {a : Monitor.Act Local} {p : Monitor.Pos Local Nat Nat} {q : Nat → List Nat}

theorem body_wait (hb : body num t l d = (v, .wait c l')) :
    c = cond ∧ v.generation = d.generation ∧
    ((l = .arrive ∧ d.waiting + 1 < num ∧ l' = .again d.generation (d.arrivals + 1) ∧
      v.waiting = d.waiting + 1 ∧ v.arrivals = d.arrivals + 1) ∨
    (∃ i, l = .again d.generation i ∧ l' = l ∧ v = d)) := by
  cases l with
  | arrive =>
    simp only [body, loop] at hb
    split at hb
    · cases hb
    · rename_i hlt
      simp only [if_true] at hb
      cases hb
      exact ⟨rfl, rfl, .inl ⟨rfl, by omega, rfl, rfl, rfl⟩⟩
  | again g i =>
    simp only [body, loop] at hb
    split at hb <;> cases hb
    rename_i hg
    subst hg
    exact ⟨rfl, rfl, .inr ⟨i, rfl, rfl, rfl⟩⟩

theorem body_done (hb : body num t l d = (v, .done ws r)) :
    (l = .arrive ∧ num ≤ d.waiting + 1 ∧ ws = [.all cond] ∧ r = d.arrivals + 1 ∧
      v = ⟨0, d.generation + 1, d.arrivals + 1⟩) ∨
    (∃ g, l = .again g r ∧ g ≠ d.generation ∧ ws = [] ∧ v = d) := by
  cases l with
  | arrive =>
    simp only [body, loop] at hb
    split at hb
    · rename_i hle
      cases hb
      exact .inl ⟨rfl, hle, rfl, rfl, rfl⟩
    · simp only [if_true] at hb
      cases hb
  | again g i =>
    simp only [body, loop] at hb
    split at hb <;> cases hb
    rename_i hg
    exact .inr ⟨g, rfl, hg, rfl, rfl⟩

theorem Placed.congr (h : Placed num d p) (hg : v.generation = d.generation) : Placed num v p := by
  rcases p with _ | ⟨o, _ | ⟨g, i⟩⟩ | ⟨c, _ | ⟨g, i⟩⟩ | i <;> simp only [Placed, hg] at h ⊢ <;> exact h

theorem Placed.settle (h : Placed num d p) : Placed num d (Monitor.settle q t p) := by
  cases p with
  | waiting c l =>
    cases l with
    | arrive => exact absurd h id
    | again g i =>
      simp only [Monitor.settle]
      split
      · exact h
      · exact ⟨h.2.1, Nat.le_of_eq h.2.2⟩
  | _ => exact h

/-- The round is full: nobody is left waiting in it. -/
theorem Placed.filled (h : Placed num d p) (hq : q cond = []) (hg : v.generation = d.generation + 1) :
    Placed num v (Monitor.settle q t p) := by
  cases p with
  | out => exact trivial
  | ready o l =>
    cases l with
    | arrive => exact trivial
    | again g i => exact ⟨h.1, by rw [hg]; exact Nat.le_succ_of_le h.2⟩
  | waiting c l =>
    cases l with
    | arrive => exact absurd h id
    | again g i =>
      obtain ⟨rfl, hr, hgen⟩ := h
      simp only [Monitor.settle, hq, List.not_mem_nil, if_false]
      exact ⟨hr, by omega⟩
  | finished i =>
    obtain ⟨g, hr, hlt⟩ := h
    exact ⟨g, hr, by omega⟩

theorem Inv.initial (hnum : 0 < num) :
    Inv num ⟨create, fun _ => [], fun _ => .out, fun _ => none⟩ :=
  ⟨⟨by simp, fun _ => List.nodup_nil⟩, rfl, hnum, fun _ => trivial, fun _ _ h => (by cases h)⟩

theorem Inv.wait (h : Inv num m) {o : Option Nat} (hp : m.pos t = .ready o l)
    (hb : body num t l m.data = (v, .wait c l'))
    (hwf : Monitor.Wf ⟨v, q, Function.update m.pos t (.waiting c l'), m.result⟩) :
    Inv num ⟨v, q, Function.update m.pos t (.waiting c l'), m.result⟩ := by
  obtain ⟨rfl, hg, hcase⟩ := body_wait hb
  have hcount := h.count
  have hlt := h.waiting
  refine ⟨hwf, ?_, ?_, fun u => ?_, fun u i hi => ?_⟩
  · obtain ⟨_, _, _, hw, ha⟩ | ⟨i, _, _, rfl⟩ := hcase
    · simp only [hg, hw, ha]; omega
    · exact hcount
  · obtain ⟨_, hn, _, hw, _⟩ | ⟨i, _, _, rfl⟩ := hcase
    · simp only [hw]; exact hn
    · exact hlt
  · by_cases hut : u = t
    · subst hut
      simp only [Function.update_self]
      obtain ⟨_, hn, rfl, _, _⟩ | ⟨i, rfl, rfl, rfl⟩ := hcase
      · refine ⟨rfl, ⟨?_, ?_⟩, hg.symm⟩
        · omega
        · rw [Nat.mul_succ]; omega
      · have hpl := h.placed u
        rw [hp] at hpl
        exact ⟨rfl, hpl.1, rfl⟩
    · simp only [Function.update_of_ne hut]
      exact (h.placed u).congr hg
  · obtain ⟨g, hr, hlt⟩ := h.results u i hi
    exact ⟨g, hr, by simpa only [hg] using hlt⟩

theorem Inv.done (h : Inv num m) {o : Option Nat} (hp : m.pos t = .ready o l)
    (hb : body num t l m.data = (v, .done ws r)) (hq : q = Monitor.wakeAll m.queue ws)
    (hwf : Monitor.Wf ⟨v, q, Function.update (fun u => Monitor.settle q u (m.pos u)) t (.finished r),
      m.result⟩) :
    Inv num ⟨v, q, Function.update (fun u => Monitor.settle q u (m.pos u)) t (.finished r),
      m.result⟩ := by
  have hcount := h.count
  have hlt := h.waiting
  obtain ⟨rfl, hfull, rfl, rfl, rfl⟩ | ⟨g, rfl, hne, rfl, rfl⟩ := body_done hb
  · -- the last arrival of its round
    refine ⟨hwf, ?_, ?_, fun u => ?_, fun u i hi => ?_⟩
    · show m.data.arrivals + 1 = num * (m.data.generation + 1) + 0
      rw [Nat.mul_succ]; omega
    · show 0 < num
      omega
    · by_cases hut : u = t
      · subst hut
        simp only [Function.update_self]
        refine ⟨m.data.generation, ⟨?_, ?_⟩, Nat.lt_succ_self _⟩
        · omega
        · rw [Nat.mul_succ]; omega
      · simp only [Function.update_of_ne hut]
        refine (h.placed u).filled ?_ rfl
        rw [hq]; simp [Monitor.wakeAll, Monitor.Wake.apply]
    · obtain ⟨g, hr, hlt'⟩ := h.results u i hi
      exact ⟨g, hr, Nat.lt_succ_of_lt hlt'⟩
  · -- a waiting call of an earlier round
    refine ⟨hwf, hcount, hlt, fun u => ?_, h.results⟩
    by_cases hut : u = t
    · subst hut
      simp only [Function.update_self]
      have hpl := h.placed u
      rw [hp] at hpl
      exact ⟨g, hpl.1, Nat.lt_of_le_of_ne hpl.2 hne⟩
    · simp only [Function.update_of_ne hut]
      exact (h.placed u).settle

theorem Inv.step (h : Inv num m) (hg : Monitor.Calls Arrives m a)
    (hst : Monitor.step (body num) m a = some m') : Inv num m' := by
  have hwf := h.wf.step hst
  obtain ⟨t, l, rfl, hp, rfl⟩ | ⟨t, o, l, v, c, l', _, hp, hb, rfl⟩ |
    ⟨t, o, l, v, ws, r, _, hp, hb, rfl⟩ | ⟨t, r, _, hp, rfl⟩ := Monitor.step_cases hst
  · obtain rfl : l = .arrive := hg
    refine ⟨hwf, h.count, h.waiting, fun u => ?_, h.results⟩
    by_cases hut : u = t
    · subst hut; simp only [Function.update_self]; exact trivial
    · simp only [Function.update_of_ne hut]; exact h.placed u
  · exact h.wait hp hb hwf
  · exact h.done hp hb rfl hwf
  · have hpl := h.placed t
    rw [hp] at hpl
    refine ⟨hwf, h.count, h.waiting, fun u => ?_, fun u i hi => ?_⟩
    · by_cases hut : u = t
      · subst hut; simp only [Function.update_self]; exact trivial
      · simp only [Function.update_of_ne hut]; exact h.placed u
    · by_cases hut : u = t
      · subst hut
        simp only [Function.update_self] at hi
        cases hi
        exact hpl
      · simp only [Function.update_of_ne hut] at hi; exact h.results u i hi

theorem reach_inv (hnum : 0 < num)
    (hr : Reach (Monitor.system (body num) create) (Monitor.Calls Arrives) m) : Inv num m := by
  refine hr.invariant ?_ ?_
  · rintro _ rfl; exact .initial hnum
  · intro m a m' _ h hg hst; exact h.step hg hst

/-- A round before the present one is complete. -/
theorem Inv.roundEnd_le (h : Inv num m) (hr : InRound num g i) :
    roundEnd num i ≤ m.data.arrivals ↔ g < m.data.generation := by
  have hcount := h.count
  have hlt := h.waiting
  rw [hr.roundEnd_eq]
  constructor
  · intro hle
    by_contra hge
    have := Nat.mul_le_mul_left num (Nat.not_lt.mp hge)
    rw [Nat.mul_succ] at hle
    omega
  · intro hg
    have := Nat.mul_le_mul_left num (Nat.succ_le_of_lt hg)
    simp only [Nat.succ_eq_add_one] at this
    omega

end

/-! ## The barrier -/

section

variable {num : Nat} {ult : Nat → Bool} {s : Guarded.State Data Local Nat}

/-- Rounds: `waiting` stays below `num`, `generation` is the number of complete rounds, a call
returns only when its round is complete, and a waiting call of a complete round is off the list,
woken or about to be, and leaves when it looks at the data again. -/
theorem barrier_rounds (hnum : 1 ≤ num)
    (hr : Reach (Guarded.system ult (body num) create) (Guarded.Calls Arrives) s) :
    s.data.waiting < num ∧
    s.data.generation = s.data.arrivals / num ∧
    (∀ t i, s.result t = some i → roundEnd num i ≤ s.data.arrivals) ∧
    ∀ t gen i, s.phase t = .waiting cond (.again gen i) → roundEnd num i ≤ s.data.arrivals →
      body num t (.again gen i) s.data = (s.data, .done [] i) ∧
      ((s.sync.mutex 0).locked = false → Guarded.Signalled s cond t (.again gen i) ∧
        ∀ md, (s.sync.pc t).wait = some (.cond cond, md) →
          Sync.Woken s.sync ⟨t, .wait⟩ ∨ ∃ x, Sync.ToWake s.sync x ⟨t, .wait⟩) := by
  obtain ⟨m, hm, q, ch, hsim⟩ := Guarded.reach_sim hr
  have h := reach_inv hnum hm
  rw [← hsim.data]
  have hcount := h.count
  refine ⟨h.waiting, ?_, fun t i hi => ?_, fun t gen i hp hi => ?_⟩
  · rw [hcount, Nat.mul_add_div hnum, Nat.div_eq_of_lt h.waiting, Nat.add_zero]
  · rw [← hsim.result] at hi
    obtain ⟨g, hg, hlt⟩ := h.results t i hi
    exact (h.roundEnd_le hg).mpr hlt
  · have hpl := h.placed t
    have hpos := hsim.pos t
    rw [hp] at hpos
    simp only [Guarded.Phase.pos] at hpos
    split at hpos
    · -- a caller on the queue is in the present round
      rw [hpos] at hpl
      obtain ⟨_, hround, hgen⟩ := hpl
      have := (h.roundEnd_le hround).mp hi
      omega
    · rw [hpos] at hpl
      have hlt := (h.roundEnd_le hpl.1).mp hi
      refine ⟨?_, fun hfree => ?_⟩
      · simp only [body, loop]
        rw [if_neg (Nat.ne_of_lt hlt)]
      · have hsig := hsim.signalled hfree hpos
        exact ⟨hsig, fun md hw => hsim.released hsig hw⟩

end

/-- Two callers, rounds of two: caller 1 completes the first round, returns and waits in the second
one while caller 0 has not looked yet. -/
def lagging : List (Guarded.Act Local) :=
  [.call 0 .arrive, .go 0, .run 0, .go 0, .go 0, .go 0, .callback (.cond cond),
    .call 1 .arrive, .go 1, .run 1, .run 1, .go 1, .go 1, .go 1, .go 1, .go 1, .run 1, .go 1, .run 1,
    .call 1 .arrive, .go 1, .run 1, .go 1, .go 1, .go 1, .callback (.cond cond)]

theorem barrier_rounds_lagging : ∃ s : Guarded.State Data Local Nat,
    Reach (Guarded.system (fun _ => true) (body 2) create) (Guarded.Calls Arrives) s ∧
    (s.phase 0 = .waiting cond (.again 0 1) ∧ s.result 1 = some 2 ∧ s.data.arrivals = 3 ∧
      (s.sync.mutex 0).locked = false) ∧
    s.data.generation = 1 ∧ roundEnd 2 2 ≤ s.data.arrivals ∧
    body 2 0 (.again 0 1) s.data = (s.data, .done [] 1) ∧
    Guarded.Signalled s cond 0 (.again 0 1) := by
  obtain ⟨s, hr, hs⟩ := (Reach.start rfl : Reach (Guarded.system (fun _ => true) (body 2) create)
    (Guarded.Calls Arrives) _).exists_run
    (fun s => s.phase 0 = .waiting cond (.again 0 1) ∧ s.result 1 = some 2 ∧ s.data.arrivals = 3 ∧
      (s.sync.mutex 0).locked = false) lagging (by decide)
  obtain ⟨hp, hres, ha, hfree⟩ := hs
  obtain ⟨_, hgen, hret, hwait⟩ := barrier_rounds (by decide) hr
  obtain ⟨hbody, hsig⟩ := hwait 0 0 1 hp (by rw [ha]; decide)
  exact ⟨s, hr, ⟨hp, hres, ha, hfree⟩, by rw [hgen, ha], hret 1 2 hres, hbody, (hsig hfree).1⟩

end Barrier
end AbtReconverse
