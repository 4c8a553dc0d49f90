import AbtReconverse.Pool.Agree

/-!
# AbtReconverse.Pool.Pinned

The primary ULT can only be resumed by its home PE, and every kind of pool keeps it for that PE in
its own way: the list path steps over it, the single-consumer path pops it and pushes it again, a
user pool gets it back and is asked once more. The timed pop of a user pool that has a
`p_pop_timedwait` does none of this.

The pools of one process are the built-in ones (`Storage`) and user-defined ones, whose callbacks
act on a state of their own; of a callback only this is assumed, that it stores what is pushed and
gives every unit back once (`UserPool`). `Takes` is the law of a pop, and it composes along the
callers: `ABTI_sched_pop_by_policy`, `ABTI_poll_sched`, the idle hook of basic_wait and the loop of
a stacked scheduler.
-/

namespace AbtReconverse
namespace Pinning

open Storage (Fault)

/-- `ABT_pool_def`: callbacks on a state of type `U`, and the units that a state stores. -/
structure UserPool (U : Type) where
  push : U → Nat → U
  pop : U → Option Nat × U
  /-- `p_pop_timedwait`, which a pool may lack. -/
  popTimedwait : Option (Int → U → Option Nat × U)
  units : U → List Nat
  push_perm : ∀ u x, (units (push u x)).Perm (x :: units u)
  pop_perm : ∀ u, (units u).Perm ((pop u).1.toList ++ units (pop u).2)
  timed_perm : ∀ f, popTimedwait = some f → ∀ d u, (units u).Perm ((f d u).1.toList ++ units (f d u).2)

/-- What does not change: which pools are user-defined, the unit of every thread and the map
`ABTI_g->units` back, the primary ULT and its home PE. -/
structure Pools (U : Type) where
  mem : Storage.Config
  user : Nat → Option (UserPool U)
  unit : Nat → Nat
  thread : Nat → Option Nat
  thread_unit : ∀ t, thread (unit t) = some t
  primary : Nat
  home : Nat

structure World (U : Type) where
  mem : Storage.State
  user : Nat → U

/-- What a pop gives: the pools after it, and the unit. -/
abbrev Popped (U : Type) : Type := Except Fault (World U × Option Nat)

section

variable {U : Type}

/-- `pinned_elsewhere`, on PE `r`. -/
def Pools.pinnedElsewhere (c : Pools U) (r t : Nat) : Bool := t == c.primary && c.home != r

/-- `unit_to_thread` of what a callback returned. -/
def Pools.unitToThread (c : Pools U) (u : Option Nat) : Option Nat := u.bind c.thread

/-- `ABTI_pool::pop` of a user pool: a unit that is not ours is put back and the next one taken. -/
def popUser (c : Pools U) (r : Nat) (d : UserPool U) (u : U) : U × Option Nat :=
  let x := d.pop u
  match c.unitToThread x.1 with
  | none => (x.2, none)
  | some t =>
    if c.pinnedElsewhere r t then
      let y := d.pop (d.push x.2 (c.unit t))
      match c.unitToThread y.1 with
      | none => (y.2, none)
      | some n => if c.pinnedElsewhere r n then (d.push y.2 (c.unit n), none) else (y.2, some n)
    else (x.2, some t)

/-- `ABTI_pool::pop`. -/
def pop (c : Pools U) (r fuel : Nat) (w : World U) (p : Nat) : Popped U :=
  match c.user p with
  | some d =>
    let x := popUser c r d (w.user p)
    .ok ({ w with user := Function.update w.user p x.1 }, x.2)
  | none =>
    (Storage.pop c.mem (c.pinnedElsewhere r) fuel w.mem p).map fun x => ({ w with mem := x.1 }, x.2)

/-- Where a pop found nothing, go on with `f`. -/
def orElse (x : Popped U) (f : World U → Popped U) : Popped U :=
  match x with
  | .ok (w, none) => f w
  | .ok (w, some t) => .ok (w, some t)
  | .error e => .error e

/-- The timed callback of pool `p`. -/
def Pools.timed (c : Pools U) (p : Nat) : Option (Int → U → Option Nat × U) :=
  (c.user p).bind UserPool.popTimedwait

/-- `ABTI_pool::pop_timedwait`; `wait` is what the other PEs do while the caller is in the wait. -/
def popTimedwait (c : Pools U) (r fuel : Nat) (now deadline : Int) (wait : World U → World U)
    (w : World U) (p : Nat) : Popped U :=
  match c.timed p with
  | some f =>
    let x := f deadline (w.user p)
    .ok ({ w with user := Function.update w.user p x.2 }, c.unitToThread x.1)
  | none =>
    orElse (pop c r fuel w p) fun w =>
      if deadline ≤ now then .ok (w, none) else pop c r fuel (wait w) p

structure Sched where
  pools : List Nat
  predef : SchedPredef

/-- The first unit of the pools in order. -/
def popFirst (c : Pools U) (r fuel : Nat) : List Nat → World U → Popped U
  | [], w => .ok (w, none)
  | p :: ps, w => orElse (pop c r fuel w p) (popFirst c r fuel ps)

/-- `ABTI_sched_pop_by_policy`; `random` is the value of `random()`. -/
def popByPolicy (c : Pools U) (r fuel random : Nat) (s : Sched) (w : World U) : Popped U :=
  match s.predef, s.pools with
  | .randws, p :: q :: ps =>
    orElse (pop c r fuel w p) fun w =>
      pop c r fuel w ((q :: ps).getD (random % (q :: ps).length) q)
  | _, ps => popFirst c r fuel ps w

/-- `ABTI_pool_index`. -/
def Sched.poolIndex (s : Sched) (p : Option Nat) : Nat := (s.pools.map some).idxOf p

/-- What `ABTI_poll_sched` runs, and the parked unit (`ABTI_held`) afterwards. -/
def pollSched (c : Pools U) (r fuel random : Nat) (s : Sched) (held : Option Nat) (w : World U) :
    Except Fault (World U × Option Nat × Option Nat) :=
  match held with
  | some h =>
    (popFirst c r fuel (s.pools.take (s.poolIndex (w.mem.pool h))) w).map fun x =>
      match x.2 with
      | some t => (x.1, some t, some h)
      | none => (x.1, some h, none)
  | none => (popByPolicy c r fuel random s w).map fun x => (x.1, x.2, none)

/-- What `ABTI_xstream_idle_hook` runs, and the parked unit afterwards. A basic_wait scheduler takes
the timed pop of a user pool, the parked unit, or a pop before and after `CsdIdleWait`; the others
only sleep. Times are in milliseconds. -/
def idleHook (c : Pools U) (r fuel : Nat) (now : Int) (wait : World U → World U) (s : Sched)
    (held : Option Nat) (w : World U) : Except Fault (World U × Option Nat × Option Nat) :=
  match s.predef, s.pools with
  | .basicWait, p :: _ =>
    if (c.timed p).isSome then
      (popTimedwait c r fuel now (now + 2) wait w p).map fun x => (x.1, x.2, held)
    else
      match held with
      | some h => .ok (w, some h, none)
      | none =>
        (orElse (pop c r fuel w p) fun w => pop c r fuel (wait w) p).map fun x => (x.1, x.2, none)
  | _, _ => .ok (w, none, held)

/-- One turn of the loop of `stacked_sched_main`. -/
def stackedTurn (c : Pools U) (r fuel random : Nat) (exit : Bool) (s : Sched) (w : World U) :
    Popped U :=
  if exit then .ok (w, none) else popByPolicy c r fuel random s w

/-! ## The law of a pop -/

/-- Pool `p` holds the units `q p`; a user pool in an order of its own. -/
def World.Holds (w : World U) (c : Pools U) (q : Nat → List Nat) (n : Nat) : Prop :=
  (∃ q₀, Storage.Holds c.mem w.mem q₀ n ∧ ∀ p, c.user p = none → q p = q₀ p) ∧
  ∀ p d, c.user p = some d → (d.units (w.user p)).Perm ((q p).map c.unit)

/-- The units queued before are those queued after, in the same pools, and the one returned. -/
def Conserved (q : Nat → List Nat) (o : Option Nat) (q' : Nat → List Nat) : Prop :=
  ∃ p, (q p).Perm (o.toList ++ q' p) ∧ ∀ p', p' ≠ p → (q p').Perm (q' p')

/-- The pop returns; it loses and duplicates nothing, and what it returns satisfies `P`. -/
def Takes (c : Pools U) (n : Nat) (P : Nat → Prop) (q : Nat → List Nat) (x : Popped U) : Prop :=
  ∃ w' o q', x = .ok (w', o) ∧ w'.Holds c q' n ∧ Conserved q o q' ∧ ∀ t, o = some t → P t

/-- Not pinned to a PE other than `r`. -/
def Free (c : Pools U) (r t : Nat) : Prop := c.pinnedElsewhere r t = false

variable {c : Pools U} {r fuel n m p : Nat} {w : World U} {q q₁ q₂ : Nat → List Nat}
  {o : Option Nat} {x : Popped U} {P : Nat → Prop}

theorem free_iff {t : Nat} : Free c r t ↔ (t = c.primary → c.home = r) := by
  simp [Free, Pools.pinnedElsewhere]

theorem conserved_none : Conserved q none q₁ ↔ ∀ p, (q p).Perm (q₁ p) := by
  constructor
  · rintro ⟨p, hp, ho⟩ p'
    by_cases h : p' = p
    · subst h; simpa using hp
    · exact ho p' h
  · intro h
    exact ⟨0, by simpa using h 0, fun p' _ => h p'⟩

theorem Conserved.trans (h₁ : Conserved q none q₁) (h₂ : Conserved q₁ o q₂) : Conserved q o q₂ := by
  rw [conserved_none] at h₁
  obtain ⟨p, hp, ho⟩ := h₂
  exact ⟨p, (h₁ p).trans hp, fun p' hp' => (h₁ p').trans (ho p' hp')⟩

theorem Conserved.update {l : List Nat} (h : (q p).Perm (o.toList ++ l)) :
    Conserved q o (Function.update q p l) := by
  refine ⟨p, ?_, fun p' hp' => ?_⟩
  · rw [Function.update_self]; exact h
  · rw [Function.update_of_ne hp']

theorem Takes.none (h : w.Holds c q n) : Takes c n P q (.ok (w, .none)) :=
  ⟨w, .none, q, rfl, h, conserved_none.mpr fun _ => .refl _, fun _ ht => by simp at ht⟩

theorem Takes.orElse {f : World U → Popped U} (hx : Takes c n P q x)
    (hf : ∀ w q', w.Holds c q' n → Takes c n P q' (f w)) : Takes c n P q (orElse x f) := by
  obtain ⟨w', o, q', rfl, hh, hc, ho⟩ := hx
  cases o with
  | some t => exact ⟨w', some t, q', rfl, hh, hc, ho⟩
  | none =>
    obtain ⟨w₂, o₂, q₂, he, hh₂, hc₂, ho₂⟩ := hf w' q' hh
    exact ⟨w₂, o₂, q₂, he, hh₂, hc.trans hc₂, ho₂⟩

/-! ## The storage kinds -/

/-- Both built-in paths: the queue holds the primary at most once, so the unit behind it is free. -/
theorem take_law (s : Storage.Config) {l : List Nat} (hl : l.Nodup) (p : Nat) :
    l.Perm ((Storage.take s (c.pinnedElsewhere r) p l).2.toList ++
      (Storage.take s (c.pinnedElsewhere r) p l).1) ∧
    ∀ t, (Storage.take s (c.pinnedElsewhere r) p l).2 = some t → Free c r t := by
  cases l with
  | nil => cases hs : s.single p <;> simp [Storage.take, Storage.takeList, Storage.takeMpsc, hs]
  | cons t l =>
    cases hpin : c.pinnedElsewhere r t with
    | false =>
      have hfree : Free c r t := hpin
      cases hs : s.single p <;>
        simp [Storage.take, Storage.takeList, Storage.takeMpsc, hs, hpin, hfree]
    | true =>
      cases hs : s.single p with
      | true =>
        simp only [Storage.take, Storage.takeMpsc, hs, hpin, if_true]
        refine ⟨?_, fun _ h => by simp at h⟩
        exact (List.perm_append_singleton t l).symm
      | false =>
        cases l with
        | nil => simp [Storage.take, Storage.takeList, hs, hpin]
        | cons u l =>
          have htu : t ≠ u := fun h => (List.nodup_cons.mp hl).1 (h ▸ List.mem_cons_self)
          simp only [Storage.take, Storage.takeList, hs, hpin, Bool.false_eq_true, if_false, if_true]
          refine ⟨List.Perm.swap u t l, ?_⟩
          intro v hv
          cases hv
          rw [free_iff]
          intro hu
          simp only [Pools.pinnedElsewhere, Bool.and_eq_true, beq_iff_eq] at hpin
          exact absurd (hpin.1.trans hu.symm) htu

theorem World.Holds.set_mem (h : w.Holds c q n) {s : Storage.State} {l : List Nat}
    (hp : c.user p = none)
    (hs : ∀ q₀, Storage.Holds c.mem w.mem q₀ n → q₀ p = q p →
      Storage.Holds c.mem s (Function.update q₀ p l) n) :
    ({ w with mem := s } : World U).Holds c (Function.update q p l) n := by
  obtain ⟨⟨q₀, h₀, hq⟩, hu⟩ := h
  refine ⟨⟨_, hs q₀ h₀ (hq p hp).symm, fun p' hp' => ?_⟩, fun p' d hd => ?_⟩
  · by_cases he : p' = p
    · subst he; rw [Function.update_self, Function.update_self]
    · rw [Function.update_of_ne he, Function.update_of_ne he]; exact hq p' hp'
  · have he : p' ≠ p := fun he => by rw [he, hp] at hd; simp at hd
    rw [Function.update_of_ne he]
    exact hu p' d hd

theorem World.Holds.set_user (h : w.Holds c q n) {d : UserPool U} {u : U} {l : List Nat}
    (hp : c.user p = some d) (hu : (d.units u).Perm (l.map c.unit)) :
    ({ w with user := Function.update w.user p u } : World U).Holds c (Function.update q p l) n := by
  obtain ⟨⟨q₀, h₀, hq⟩, hold⟩ := h
  refine ⟨⟨q₀, h₀, fun p' hp' => ?_⟩, fun p' d' hd => ?_⟩
  · have he : p' ≠ p := fun he => by rw [he, hp] at hp'; simp at hp'
    rw [Function.update_of_ne he]
    exact hq p' hp'
  · by_cases he : p' = p
    · subst he
      obtain rfl : d' = d := Option.some.inj (hd.symm.trans hp)
      show (d'.units (Function.update w.user p' u p')).Perm _
      rw [Function.update_self, Function.update_self]
      exact hu
    · show (d'.units (Function.update w.user p u p')).Perm _
      rw [Function.update_of_ne he, Function.update_of_ne he]
      exact hold p' d' hd

/-- What a callback takes out of the units of `l` is a thread of `l`. -/
theorem taken_law {l us us' : List Nat} {u : Option Nat} (hl : us.Perm (l.map c.unit))
    (ht : us.Perm (u.toList ++ us')) :
    ∃ l', us'.Perm (l'.map c.unit) ∧ l.Perm ((c.unitToThread u).toList ++ l') ∧
      u = (c.unitToThread u).map c.unit := by
  cases u with
  | none => exact ⟨l, ht.symm.trans hl, .refl l, rfl⟩
  | some x =>
    have hx : x ∈ l.map c.unit := hl.subset (ht.symm.subset (by simp))
    obtain ⟨t, htl, rfl⟩ := List.mem_map.mp hx
    have hthread : c.unitToThread (some (c.unit t)) = some t := c.thread_unit t
    have herase : l.Perm (t :: l.erase t) := List.perm_cons_erase htl
    refine ⟨l.erase t, ?_, ?_, ?_⟩
    · exact (List.perm_cons (c.unit t)).mp (ht.symm.trans (hl.trans (herase.map c.unit)))
    · rw [hthread]; exact herase
    · rw [hthread]; rfl

/-- As `Takes`, for the state of a user pool that holds the threads `l`. -/
def UserTakes (c : Pools U) (r : Nat) (d : UserPool U) (l : List Nat) (x : U × Option Nat) : Prop :=
  ∃ l', (d.units x.1).Perm (l'.map c.unit) ∧ l.Perm (x.2.toList ++ l') ∧
    ∀ t, x.2 = some t → Free c r t

theorem popUser_law {d : UserPool U} {u : U} {l : List Nat}
    (hl : (d.units u).Perm (l.map c.unit)) : UserTakes c r d l (popUser c r d u) := by
  have hput : ∀ {u' : U} {k : List Nat} (t : Nat), (d.units u').Perm (k.map c.unit) →
      (d.units (d.push u' (c.unit t))).Perm ((t :: k).map c.unit) := by
    intro u' k t hk
    exact (d.push_perm u' (c.unit t)).trans (hk.cons _)
  obtain ⟨l₁, hus₁, hl₁, -⟩ := taken_law hl (d.pop_perm u)
  cases ht : c.unitToThread (d.pop u).1 with
  | none =>
    rw [ht] at hl₁
    simp only [popUser, ht]
    exact ⟨l₁, hus₁, hl₁, fun _ h => by simp at h⟩
  | some t =>
    rw [ht] at hl₁
    cases hpin : c.pinnedElsewhere r t with
    | false =>
      simp only [popUser, ht, hpin, Bool.false_eq_true, if_false]
      exact ⟨l₁, hus₁, hl₁, fun t' h => by cases h; exact hpin⟩
    | true =>
      -- the unit is back in the pool: the second pop chooses among the same threads
      obtain ⟨l₂, hus₂, hl₂, -⟩ := taken_law (hput t hus₁) (d.pop_perm (d.push (d.pop u).2 (c.unit t)))
      have hl' := hl₁.trans hl₂
      cases hn : c.unitToThread (d.pop (d.push (d.pop u).2 (c.unit t))).1 with
      | none =>
        rw [hn] at hl'
        simp only [popUser, ht, hpin, if_true, hn]
        exact ⟨l₂, hus₂, hl', fun _ h => by simp at h⟩
      | some k =>
        rw [hn] at hl'
        cases hpk : c.pinnedElsewhere r k with
        | false =>
          simp only [popUser, ht, hpin, if_true, hn, hpk, Bool.false_eq_true, if_false]
          exact ⟨l₂, hus₂, hl', fun t' h => by cases h; exact hpk⟩
        | true =>
          simp only [popUser, ht, hpin, if_true, hn, hpk]
          exact ⟨k :: l₂, hput k hus₂, hl', fun _ h => by simp at h⟩

/-- Every kind of pool: an untimed pop keeps the primary for its home PE. -/
theorem pop_law (h : w.Holds c q n) (hf : n < fuel) (r p : Nat) :
    Takes c n (Free c r) q (pop c r fuel w p) := by
  cases hp : c.user p with
  | none =>
    obtain ⟨q₀, h₀, hq⟩ := h.1
    obtain ⟨s', hpop, -⟩ := Storage.pop_spec h₀ hf (c.pinnedElsewhere r) p
    obtain ⟨hperm, hfree⟩ := take_law (c := c) (r := r) c.mem (h₀.nodup p) p
    rw [← hq p hp] at hpop hperm hfree
    refine ⟨{ w with mem := s' }, _, _, ?_, h.set_mem hp fun q₁ h₁ he => ?_, Conserved.update hperm,
      hfree⟩
    · simp only [pop, hp, hpop]; rfl
    · obtain ⟨s₁, hpop₁, hh₁⟩ := Storage.pop_spec h₁ hf (c.pinnedElsewhere r) p
      rw [he, hpop] at hpop₁
      cases hpop₁
      rwa [he] at hh₁
  | some d =>
    obtain ⟨l, hus, hl, hfree⟩ := popUser_law (r := r) (h.2 p d hp)
    refine ⟨_, _, _, ?_, h.set_user hp hus, Conserved.update hl, hfree⟩
    simp only [pop, hp]

/-! ## The callers -/

theorem popFirst_law (hf : n < fuel) (r : Nat) (ps : List Nat) (h : w.Holds c q n) :
    Takes c n (Free c r) q (popFirst c r fuel ps w) := by
  induction ps generalizing w q with
  | nil => exact Takes.none h
  | cons p ps ih => exact (pop_law h hf r p).orElse fun w q' h' => ih h'

theorem popByPolicy_law (h : w.Holds c q n) (hf : n < fuel) (r random : Nat) (s : Sched) :
    Takes c n (Free c r) q (popByPolicy c r fuel random s w) := by
  unfold popByPolicy
  split
  · exact (pop_law h hf r _).orElse fun w q' h' => pop_law h' hf r _
  · exact popFirst_law hf r _ h

/-- While a caller waits, the other PEs go on using the pools. -/
def Goes (c : Pools U) (n m : Nat) (wait : World U → World U) : Prop :=
  ∀ w q, w.Holds c q n → ∃ q', (wait w).Holds c q' m

/-- As `Takes`, for a pop that may wait: either it finds a unit at once, or it first finds none that
it may take, and what it takes after the wait it takes from what is queued then. -/
def TakesAround (c : Pools U) (n m : Nat) (wait : World U → World U) (q : Nat → List Nat)
    (w' : World U) (o : Option Nat) : Prop :=
  ∃ q', (w'.Holds c q' n ∧ Conserved q o q') ∨
    ∃ w₁ q₁ q₂, w₁.Holds c q₁ n ∧ Conserved q none q₁ ∧ (wait w₁).Holds c q₂ m ∧
      w'.Holds c q' m ∧ Conserved q₂ o q'

/-- A pop, and if it finds nothing a second one after the wait. -/
theorem waiting_law {wait : World U → World U} (h : w.Holds c q n) (hn : n < fuel) (hm : m < fuel)
    (hw : Goes c n m wait) (r p : Nat) :
    ∃ w' o, orElse (pop c r fuel w p) (fun w => pop c r fuel (wait w) p) = .ok (w', o) ∧
      TakesAround c n m wait q w' o ∧ ∀ t, o = some t → Free c r t := by
  obtain ⟨w₁, o₁, q₁, he, hh, hc, ho⟩ := pop_law h hn r p
  rw [he]
  cases o₁ with
  | some t => exact ⟨w₁, some t, rfl, ⟨q₁, .inl ⟨hh, hc⟩⟩, ho⟩
  | none =>
    obtain ⟨q₂, hh₂⟩ := hw w₁ q₁ hh
    obtain ⟨w', o, q', he', hh', hc', ho'⟩ := pop_law hh₂ hm r p
    exact ⟨w', o, he', ⟨q', .inr ⟨w₁, q₁, q₂, hh, hc, hh₂, hh', hc'⟩⟩, ho'⟩

/-- The timed callback of pool `p` does not choose the primary's unit, or this is its home PE. -/
def TimedOk (c : Pools U) (r : Nat) (deadline : Int) (w : World U) (p : Nat) : Prop :=
  c.home = r ∨ ∀ f, c.timed p = some f → (f deadline (w.user p)).1 ≠ some (c.unit c.primary)

theorem timed_eq_some {f : Int → U → Option Nat × U} (h : c.timed p = some f) :
    ∃ d, c.user p = some d ∧ d.popTimedwait = some f := Option.bind_eq_some_iff.mp h

theorem popTimedwait_law {wait : World U → World U} (h : w.Holds c q n) (hn : n < fuel)
    (hm : m < fuel) (hw : Goes c n m wait) (r p : Nat) (now deadline : Int) :
    ∃ w' o, popTimedwait c r fuel now deadline wait w p = .ok (w', o) ∧
      TakesAround c n m wait q w' o ∧
      ((∀ t, o = some t → Free c r t) ↔ TimedOk c r deadline w p) := by
  cases ht : c.timed p with
  | some f =>
    obtain ⟨d, hd, hdf⟩ := timed_eq_some ht
    obtain ⟨l, hus, hl, hu⟩ := taken_law (h.2 p d hd) (d.timed_perm f hdf deadline (w.user p))
    refine ⟨_, _, by simp only [popTimedwait, ht],
      ⟨_, .inl ⟨h.set_user hd hus, Conserved.update hl⟩⟩, ?_⟩
    have hprim : (f deadline (w.user p)).1 = some (c.unit c.primary) ↔
        c.unitToThread (f deadline (w.user p)).1 = some c.primary := by
      constructor
      · intro he; rw [he]; exact c.thread_unit _
      · intro he; rw [hu, he]; rfl
    constructor
    · intro hfree
      by_cases hhome : c.home = r
      · exact .inl hhome
      · refine .inr fun f' hf' => ?_
        obtain rfl : f = f' := Option.some.inj (ht.symm.trans hf')
        exact fun he => hhome (free_iff.mp (hfree _ (hprim.mp he)) rfl)
    · rintro (hhome | hne) t hto
      · exact free_iff.mpr fun _ => hhome
      · exact free_iff.mpr fun htp => absurd (hprim.mpr (htp ▸ hto)) (hne f ht)
  | none =>
    have hok : TimedOk c r deadline w p := .inr fun f hf => by rw [ht] at hf; simp at hf
    simp only [popTimedwait, ht]
    by_cases hdl : deadline ≤ now
    · simp only [if_pos hdl]
      obtain ⟨w', o, q', he, hh, hc, ho⟩ := (pop_law h hn r p).orElse fun w q' h' => Takes.none h'
      exact ⟨w', o, he, ⟨q', .inl ⟨hh, hc⟩⟩, fun _ => hok, fun _ => ho⟩
    · simp only [if_neg hdl]
      obtain ⟨w', o, he, ht', ho⟩ := waiting_law h hn hm hw r p
      exact ⟨w', o, he, ht', fun _ => hok, fun _ => ho⟩

theorem pollSched_law (h : w.Holds c q n) (hf : n < fuel) (r random : Nat) (s : Sched)
    {held : Option Nat} (hheld : ∀ t, held = some t → Free c r t) :
    ∃ w' o held' q', pollSched c r fuel random s held w = .ok (w', o, held') ∧ w'.Holds c q' n ∧
      (Conserved q o q' ∧ held' = held ∨ Conserved q none q' ∧ o = held ∧ held' = none) ∧
      ∀ t, o = some t → Free c r t := by
  cases held with
  | none =>
    obtain ⟨w', o, q', he, hh, hc, ho⟩ := popByPolicy_law h hf r random s
    exact ⟨w', o, none, q', by simp only [pollSched, he]; rfl, hh, .inl ⟨hc, rfl⟩, ho⟩
  | some k =>
    obtain ⟨w', o, q', he, hh, hc, ho⟩ :=
      popFirst_law hf r (s.pools.take (s.poolIndex (w.mem.pool k))) h
    cases o with
    | some t =>
      exact ⟨w', some t, some k, q', by simp only [pollSched, he]; rfl, hh, .inl ⟨hc, rfl⟩, ho⟩
    | none =>
      exact ⟨w', some k, none, q', by simp only [pollSched, he]; rfl, hh, .inr ⟨hc, rfl, rfl⟩, hheld⟩

theorem idleHook_law {wait : World U → World U} (h : w.Holds c q n) (hn : n < fuel) (hm : m < fuel)
    (hw : Goes c n m wait) (r : Nat) (now : Int) (s : Sched) {held : Option Nat}
    (hheld : ∀ t, held = some t → Free c r t) :
    ∃ w' o held', idleHook c r fuel now wait s held w = .ok (w', o, held') ∧
      (TakesAround c n m wait q w' o ∧ held' = held ∨ w' = w ∧ o = held ∧ held' = none) ∧
      ((∀ t, o = some t → Free c r t) ↔
        ∀ p, s.predef = .basicWait → s.pools.head? = some p → TimedOk c r (now + 2) w p) := by
  unfold idleHook
  split
  case h_2 hno =>
    refine ⟨w, none, held, rfl, .inl ⟨⟨q, .inl ⟨h, ?_⟩⟩, rfl⟩, fun _ p hb hp => ?_, by simp⟩
    · exact conserved_none.mpr fun _ => .refl _
    · obtain ⟨ps, hps⟩ := List.head?_eq_some_iff.mp hp
      exact absurd hps (hno p ps hb)
  case h_1 p ps hb hp =>
    simp only [hb, hp, List.head?_cons, Option.some.injEq, forall_eq', forall_const]
    cases ht : c.timed p with
    | some f =>
      obtain ⟨w', o, he, htk, hok⟩ := popTimedwait_law h hn hm hw r p now (now + 2)
      simp only [Option.isSome_some, if_true, he]
      exact ⟨w', o, held, rfl, .inl ⟨htk, rfl⟩, hok⟩
    | none =>
      have hok : TimedOk c r (now + 2) w p := .inr fun f hf => by rw [ht] at hf; simp at hf
      cases held with
      | some k =>
        simp only [Option.isSome_none, Bool.false_eq_true, if_false]
        exact ⟨w, some k, none, rfl, .inr ⟨rfl, rfl, rfl⟩, fun _ => hok, fun _ => hheld⟩
      | none =>
        obtain ⟨w', o, he, htk, ho⟩ := waiting_law h hn hm hw r p
        simp only [Option.isSome_none, Bool.false_eq_true, if_false, he]
        exact ⟨w', o, none, rfl, .inl ⟨htk, rfl⟩, fun _ => hok, fun _ => ho⟩

end

/-- Every pop on PE `r` returns, loses and duplicates nothing, and gives the primary only to its home
PE: the untimed pops and their callers always, the timed ones exactly when the timed callback of a
user pool does not choose the primary on another PE. A parked unit was popped on this PE. -/
theorem primary_pinning {U : Type} {c : Pools U} {w : World U} {q : Nat → List Nat}
    {n m fuel : Nat} {wait : World U → World U} (h : w.Holds c q n) (hn : n < fuel) (hm : m < fuel)
    (hw : Goes c n m wait) (r : Nat) {held : Option Nat}
    (hheld : ∀ t, held = some t → Free c r t) (s : Sched) (random p : Nat) (now deadline : Int) :
    Takes c n (Free c r) q (pop c r fuel w p) ∧
    (∃ w' o, popTimedwait c r fuel now deadline wait w p = .ok (w', o) ∧
      TakesAround c n m wait q w' o ∧
      ((∀ t, o = some t → Free c r t) ↔ TimedOk c r deadline w p)) ∧
    Takes c n (Free c r) q (popByPolicy c r fuel random s w) ∧
    (∃ w' o held' q', pollSched c r fuel random s held w = .ok (w', o, held') ∧ w'.Holds c q' n ∧
      (Conserved q o q' ∧ held' = held ∨ Conserved q none q' ∧ o = held ∧ held' = none) ∧
      ∀ t, o = some t → Free c r t) ∧
    (∃ w' o held', idleHook c r fuel now wait s held w = .ok (w', o, held') ∧
      (TakesAround c n m wait q w' o ∧ held' = held ∨ w' = w ∧ o = held ∧ held' = none) ∧
      ((∀ t, o = some t → Free c r t) ↔
        ∀ p, s.predef = .basicWait → s.pools.head? = some p → TimedOk c r (now + 2) w p)) ∧
    ∀ exit, Takes c n (Free c r) q (stackedTurn c r fuel random exit s w) := by
  refine ⟨pop_law h hn r p, popTimedwait_law h hn hm hw r p now deadline,
    popByPolicy_law h hn r random s, pollSched_law h hn r random s hheld,
    idleHook_law h hn hm hw r now s hheld, fun exit => ?_⟩
  cases exit with
  | true => exact Takes.none h
  | false => exact popByPolicy_law h hn r random s

/-- A user pool that is a queue, with or without a timed pop. -/
def queuePool (timed : Bool) : UserPool (List Nat) where
  push := fun u x => u ++ [x]
  pop := fun u => (u.head?, u.tail)
  popTimedwait := if timed then some fun _ u => (u.head?, u.tail) else none
  units := id
  push_perm := fun u x => List.perm_append_singleton x u
  pop_perm := fun u => by cases u <;> simp
  timed_perm := fun f hf d u => by
    cases timed with
    | false => simp at hf
    | true => cases hf; cases u <;> simp

/-- Pool 0 is a list, pool 1 a single-consumer queue, pool 2 a user pool; thread 0 is the primary
and PE 0 its home. -/
def mixedPools (timed : Bool) : Pools (List Nat) where
  mem := ⟨fun p => if p = 0 then .mpmc else .mpsc⟩
  user := fun p => if p = 2 then some (queuePool timed) else none
  unit := fun t => t + 100
  thread := fun u => some (u - 100)
  thread_unit := fun t => by simp
  primary := 0
  home := 0

/-- The primary and thread 7 are in the user pool. -/
def primaryQueued : World (List Nat) := ⟨Storage.initial, fun p => if p = 2 then [100, 107] else []⟩

def primaryContents (p : Nat) : List Nat := if p = 2 then [0, 7] else []

theorem primaryQueued_holds (timed : Bool) :
    primaryQueued.Holds (mixedPools timed) primaryContents 0 := by
  refine ⟨⟨fun _ => [], Storage.Holds.initial _, fun p hp => ?_⟩, fun p d hd => ?_⟩
  · by_cases h : p = 2
    · simp [mixedPools, h] at hp
    · simp [primaryContents, h]
  · by_cases h : p = 2
    · subst h
      cases hd
      exact .refl _
    · simp [mixedPools, h] at hd

theorem primary_pinning_queued :
    (pop (mixedPools false) 1 1 primaryQueued 2).map Prod.snd = .ok (some 7) ∧
    Takes (mixedPools false) 0 (Free (mixedPools false) 1) primaryContents
      (pop (mixedPools false) 1 1 primaryQueued 2) :=
  ⟨rfl, (primary_pinning (primaryQueued_holds false) (by decide) (by decide)
    (fun _ q hq => ⟨q, hq⟩ : Goes (mixedPools false) 0 0 id) 1 (by simp : ∀ t, none = some t → _)
    ⟨[2], .basicWait⟩ 0 2 0 0).1⟩

/-- With a timed callback in the user pool, PE 1 gets the primary of PE 0: from the timed pop and from
the idle hook of a basic_wait scheduler. -/
theorem timed_pop_not_pinned :
    (popTimedwait (mixedPools true) 1 1 0 2 id primaryQueued 2).map Prod.snd = .ok (some 0) ∧
    (idleHook (mixedPools true) 1 1 0 id ⟨[2], .basicWait⟩ none primaryQueued).map (·.2.1) =
      .ok (some 0) ∧
    (mixedPools true).primary = 0 ∧ (mixedPools true).home ≠ 1 := by
  exact ⟨rfl, rfl, rfl, by decide⟩

end Pinning
end AbtReconverse
