import Mathlib.Data.List.Nodup
import Mathlib.Logic.Function.Basic

/-!
# AbtReconverse.Pool.Atomic

What a built-in pool is for: a queue of units on which every operation takes effect in one step. A
push puts its unit at the end (`arrive`). A consumer calls an operation, the operation takes effect
(`take` or `miss` for a pop, `remove` for a removal), and the call returns what was decided then.

The two representations of a pool follow it with different rules (`Rules`): on the list path the
results are exact, on the single-consumer path a pop may find nothing, and a removal may hit, while
a push is in flight. `Follows R x q q'`: a step of the code with label `x` is a step with that label
here, or none. What a removal does not change and how a unit leaves the queue is read off from that.
-/

namespace AbtReconverse
namespace Atomic

inductive Op where
  | pop
  | remove (t : Nat)
  deriving DecidableEq, Repr

inductive Result where
  | popped (t : Option Nat)
  | removed (hit : Bool)
  deriving DecidableEq, Repr

/-- Where a consumer's call is: before or after the step in which it takes effect. -/
inductive Phase where
  | idle
  | called (o : Op)
  | decided (r : Result)
  deriving DecidableEq, Repr

structure Rules where
  /-- The consumer may resume the unit. -/
  resume : Nat → Nat → Bool
  /-- The unit is associated with the pool. -/
  mine : Nat → Bool
  /-- Pushes in flight show: a pop may miss what is queued, a removal may hit what is not. -/
  inFlight : Bool

structure State where
  queue : List Nat
  phase : Nat → Phase
  result : Nat → Option Result

inductive Act where
  | arrive (t : Nat)
  | call (c : Nat) (o : Op)
  | take (c : Nat)
  | miss (c : Nat)
  | remove (c t : Nat) (hit : Bool)
  | back (c : Nat) (r : Result)
  deriving DecidableEq, Repr

/-- What a step is for: a push of a unit, the `count` of some push, the call of an operation, or a
consumer's call. -/
inductive Label where
  | push (t : Nat)
  | count
  | call (c : Nat) (o : Op)
  | cons (c : Nat)
  deriving DecidableEq, Repr

/-- The consumer that acts. -/
def Label.party : Label → Option Nat
  | .push _ | .count => none
  | .call c _ | .cons c => some c

def Act.label : Act → Label
  | .arrive t => .push t
  | .call c o => .call c o
  | .take c | .miss c | .remove c _ _ | .back c _ => .cons c

def State.setPhase (q : State) (c : Nat) (ph : Phase) : State :=
  { q with phase := Function.update q.phase c ph }

/-- What a removal of `t` may answer. -/
def Rules.Hits (R : Rules) (q : State) (t : Nat) : Bool → Prop
  | true => t ∈ q.queue ∧ R.mine t = true ∨ R.inFlight = true
  | false => ¬ (t ∈ q.queue ∧ R.mine t = true)

instance (R : Rules) (q : State) (t : Nat) : (hit : Bool) → Decidable (R.Hits q t hit)
  | true => inferInstanceAs (Decidable (_ ∨ _))
  | false => inferInstanceAs (Decidable (¬ _))

def step (R : Rules) (q : State) : Act → Option State
  | .arrive t => if t ∉ q.queue then some { q with queue := q.queue ++ [t] } else none
  | .call c o => if q.phase c = .idle then some (q.setPhase c (.called o)) else none
  | .take c =>
    if q.phase c = .called .pop then
      (q.queue.find? (R.resume c)).map fun t =>
        { q with queue := q.queue.erase t }.setPhase c (.decided (.popped (some t)))
    else none
  | .miss c =>
    if q.phase c = .called .pop ∧ (q.queue.find? (R.resume c) = none ∨ R.inFlight = true) then
      some (q.setPhase c (.decided (.popped none)))
    else none
  | .remove c t hit =>
    if q.phase c = .called (.remove t) ∧ R.Hits q t hit then
      some ({ q with queue := if hit then q.queue.erase t else q.queue }.setPhase c
        (.decided (.removed hit)))
    else none
  | .back c r =>
    if q.phase c = .decided r then
      some { q.setPhase c .idle with result := Function.update q.result c (some r) }
    else none

/-- A step of the code, seen here. -/
def Follows (R : Rules) (x : Label) (q q' : State) : Prop :=
  q' = q ∨ ∃ a, a.label = x ∧ step R q a = some q'

section

variable {R : Rules} {q q' : State} {a : Act} {c t : Nat} {x : Label}

/-- What a step can do to the queue. -/
inductive Change (R : Rules) (q q' : State) : Act → Prop where
  | arrive {t : Nat} (ht : t ∉ q.queue) (he : q'.queue = q.queue ++ [t]) :
    Change R q q' (.arrive t)
  | take {c t : Nat} (hc : q.phase c = .called .pop) (ht : q.queue.find? (R.resume c) = some t)
    (he : q'.queue = q.queue.erase t) (hd : q'.phase c = .decided (.popped (some t))) :
    Change R q q' (.take c)
  | remove {c t : Nat} (hc : q.phase c = .called (.remove t)) (he : q'.queue = q.queue.erase t)
    (hd : q'.phase c = .decided (.removed true)) : Change R q q' (.remove c t true)
  | same {a : Act} (he : q'.queue = q.queue) : Change R q q' a

theorem step_change (h : step R q a = some q') : Change R q q' a := by
  cases a with
  | arrive t =>
    simp only [step, Option.ite_none_right_eq_some] at h
    obtain ⟨ht, h⟩ := h
    cases h
    exact .arrive ht rfl
  | take c =>
    simp only [step, Option.ite_none_right_eq_some] at h
    obtain ⟨hc, h⟩ := h
    obtain ⟨t, ht, rfl⟩ := Option.map_eq_some_iff.mp h
    exact .take hc ht rfl (Function.update_self ..)
  | remove c t hit =>
    simp only [step, Option.ite_none_right_eq_some] at h
    obtain ⟨⟨hc, -⟩, h⟩ := h
    cases h
    cases hit with
    | true => exact .remove hc rfl (Function.update_self ..)
    | false => exact .same rfl
  | call c o | miss c | back c r =>
    simp only [step, Option.ite_none_right_eq_some] at h
    obtain ⟨-, h⟩ := h
    cases h
    exact .same rfl

theorem Follows.nodup (h : Follows R x q q') (hq : q.queue.Nodup) : q'.queue.Nodup := by
  obtain rfl | ⟨a, -, h⟩ := h
  · exact hq
  · cases step_change h with
    | arrive ht he =>
      rw [he]
      exact List.nodup_append.mpr ⟨hq, List.nodup_singleton _, fun u hu v hv huv =>
        ht (by rw [List.mem_singleton.mp hv] at huv; exact huv ▸ hu)⟩
    | take _ _ he _ | remove _ he _ =>
      rw [he]
      exact hq.erase _
    | same he => rwa [he]

/-- A consumer in a removal of `t` changes at most the place of `t`. -/
theorem Follows.removal (h : Follows R x q q') (hx : x.party = some c) (hq : q.queue.Nodup)
    (hc : q.phase c = .called (.remove t)) :
    q'.queue.filter (· ≠ t) = q.queue.filter (· ≠ t) := by
  obtain rfl | ⟨a, rfl, h⟩ := h
  · rfl
  · cases step_change h with
    | arrive _ _ => cases hx
    | take hc' _ _ _ =>
      cases hx
      cases hc.symm.trans hc'
    | remove hc' he _ =>
      cases hx
      cases hc.symm.trans hc'
      rw [he, hq.erase_eq_filter, List.filter_filter]
      refine List.filter_congr fun u _ => ?_
      by_cases hu : u = t <;> simp [hu]
    | same he => rw [he]

/-- A call that has taken effect no longer touches the queue. -/
theorem Follows.decided (h : Follows R x q q') (hx : x.party = some c) {r : Result}
    (hc : q.phase c = .decided r) : q'.queue = q.queue := by
  obtain rfl | ⟨a, rfl, h⟩ := h
  · rfl
  · cases step_change h with
    | arrive _ _ => cases hx
    | take hc' _ _ _ | remove hc' _ _ =>
      cases hx
      cases hc.symm.trans hc'
    | same he => exact he

/-- A unit leaves the queue in the hands of the pop that will return it, or by its removal. -/
theorem Follows.leaves (h : Follows R x q q') {u : Nat} (hu : u ∈ q.queue) (hu' : u ∉ q'.queue) :
    ∃ c, x = .cons c ∧ (q'.phase c = .decided (.popped (some u)) ∨
      q.phase c = .called (.remove u)) := by
  obtain rfl | ⟨a, ha, h⟩ := h
  · exact absurd hu hu'
  · have herase : ∀ {t}, q'.queue = q.queue.erase t → u = t := by
      intro t he
      by_contra hne
      rw [he] at hu'
      exact hu' ((List.mem_erase_of_ne hne).mpr hu)
    cases step_change h with
    | arrive _ he =>
      rw [he] at hu'
      exact absurd (List.mem_append_left _ hu) hu'
    | take _ _ he hd =>
      obtain rfl := herase he
      exact ⟨_, ha.symm, .inl hd⟩
    | remove hc he _ =>
      obtain rfl := herase he
      exact ⟨_, ha.symm, .inr hc⟩
    | same he =>
      rw [he] at hu'
      exact absurd hu hu'

/-- The units that stay keep their order: the queue loses one of them, or a new one comes last. -/
theorem Follows.order (h : Follows R x q q') :
    q'.queue.Sublist q.queue ∨ ∃ t, t ∉ q.queue ∧ q'.queue = q.queue ++ [t] := by
  obtain rfl | ⟨a, -, h⟩ := h
  · exact .inl (.refl _)
  · cases step_change h with
    | arrive ht he => exact .inr ⟨_, ht, he⟩
    | take _ _ he _ | remove _ he _ =>
      rw [he]
      exact .inl List.erase_sublist
    | same he =>
      rw [he]
      exact .inl (.refl _)

/-- What a step with label `x` may do to the queue. -/
structure Effect (R : Rules) (x : Label) (q q' : State) : Prop where
  follows : Follows R x q q'
  nodup : q'.queue.Nodup
  removal : ∀ c t, x.party = some c → q.phase c = .called (.remove t) →
    q'.queue.filter (· ≠ t) = q.queue.filter (· ≠ t)
  decided : ∀ c r, x.party = some c → q.phase c = .decided r → q'.queue = q.queue
  leaves : ∀ u ∈ q.queue, u ∉ q'.queue → ∃ c, x = .cons c ∧
    (q'.phase c = .decided (.popped (some u)) ∨ q.phase c = .called (.remove u))

theorem Follows.effect (h : Follows R x q q') (hq : q.queue.Nodup) : Effect R x q q' where
  follows := h
  nodup := h.nodup hq
  removal _ _ hx hc := h.removal hx hq hc
  decided _ _ hx hc := h.decided hx hc
  leaves _ hu hu' := h.leaves hu hu'

end

end Atomic
end AbtReconverse
