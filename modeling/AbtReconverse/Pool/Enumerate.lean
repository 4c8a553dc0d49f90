import AbtReconverse.Pool.Agree

/-!
# AbtReconverse.Pool.Enumerate

`ABTI_pool::for_each_unit`, which `ABT_pool_print_all` and `ABT_pool_print_all_threads` use, after
any sequence of completed pushes, pops and removals. The list path visits its list. The
single-consumer path visits the nodes behind `head`, and `head` is the stub only until a pop has
passed it: from then on it may be the node of the first queued unit, which is not visited
(`forEachUnit_skips`). `enumerates_iff` says that this is the only way in which an enumeration
differs from the queue.
-/

namespace AbtReconverse
namespace Storage

open Lts

/-- The body of the loop on the single-consumer path: the unit that `f` is called on. -/
def visit (s : State) : Node → Option Nat
  | .stub _ => none
  | .unit t => if s.removed t then none else some t

/-- `for_each_unit`: the units that `f` is called on, in order. -/
def forEachUnit (c : Config) (fuel : Nat) (s : State) (p : Nat) : Option (List Nat) :=
  if c.single p then (walk s.next fuel (s.next (s.head p))).map fun l => l.filterMap (visit s)
  else walk s.lnext fuel (s.lhead p)

/-- A completed operation; a pop is made from a PE where some units are pinned elsewhere. -/
inductive Call where
  | push (p t : Nat)
  | pop (pinned : Nat → Bool) (p : Nat)
  | remove (p t : Nat)

def call (c : Config) (fuel : Nat) (s : State) : Call → Except Fault State
  | .push p t => poolPush c s p t
  | .pop pinned p => (pop c pinned fuel s p).map Prod.fst
  | .remove p t => .ok (removeUnit c s p t).1

def calls (c : Config) (fuel : Nat) : State → List Call → Except Fault State
  | s, [] => .ok s
  | s, o :: os =>
    match call c fuel s o with
    | .ok s => calls c fuel s os
    | .error e => .error e

/-- What an operation does to the queues of the pools. -/
def queueStep (c : Config) (q : Nat → List Nat) : Call → Nat → List Nat
  | .push p t => Function.update q p (q p ++ [t])
  | .pop pinned p => Function.update q p (take c pinned p (q p)).1
  | .remove p t => Function.update q p ((q p).erase t)

/-- The queued, un-removed units of every pool after some operations. -/
def queued (c : Config) (os : List Call) : Nat → List Nat :=
  os.foldl (queueStep c) fun _ => []

/-- The units that up to `k` pops return, until one finds nothing. -/
def popAll (c : Config) (fuel : Nat) : Nat → State → Nat → Except Fault (List Nat)
  | 0, _, _ => .ok []
  | k + 1, s, p =>
    match pop c (fun _ => false) fuel s p with
    | .ok (s, some t) => (popAll c fuel k s p).map (t :: ·)
    | .ok (_, none) => .ok []
    | .error e => .error e

/-- `head` is the node of a unit that is still queued. -/
def HeadQueued (c : Config) (s : State) (p : Nat) : Prop :=
  c.single p = true ∧ ∃ t, s.head p = .unit t ∧ s.removed t = false

section

variable {c : Config} {s s' : State} {ch : Nat → List Nat} {q : Nat → List Nat} {n fuel p : Nat}

theorem Holds.mono (h : Holds c s q n) {m : Nat} (hm : n ≤ m) : Holds c s q m := by
  obtain ⟨ch, hi, hq⟩ := h
  exact ⟨ch, hi, fun p => ⟨(hq p).1, Nat.le_trans (hq p).2 hm⟩⟩

theorem call_holds (h : Holds c s q n) (hf : n < fuel) {o : Call}
    (hc : call c fuel s o = .ok s') : Holds c s' (queueStep c q o) (n + 1) := by
  cases o with
  | push p t =>
    simp only [call, poolPush] at hc
    cases ht : s.inPool t with
    | true =>
      simp only [push, ht, if_true] at hc
      cases hc
    | false =>
      obtain ⟨ch, hi, hq⟩ := h
      have h' : Holds c { s with pool := Function.update s.pool t (some p) } q n :=
        ⟨ch, hi.associate ht _, hq⟩
      obtain ⟨r, hr, hh⟩ := push_spec h' ht (Function.update_self ..)
      rw [hr] at hc
      cases hc
      exact hh
  | pop pinned p =>
    obtain ⟨r, hr, hh⟩ := pop_spec h hf pinned p
    simp only [call, hr] at hc
    cases hc
    exact hh.mono (Nat.le_succ n)
  | remove p t =>
    cases hc
    exact (remove_spec h p t).mono (Nat.le_succ n)

theorem calls_holds {os : List Call} (h : Holds c s q n) (hf : n + os.length < fuel)
    (hc : calls c fuel s os = .ok s') :
    Holds c s' (os.foldl (queueStep c) q) (n + os.length) := by
  induction os generalizing s q n with
  | nil =>
    cases hc
    exact h
  | cons o os ih =>
    rw [List.length_cons] at hf ⊢
    rw [calls] at hc
    cases hr : call c fuel s o with
    | error e =>
      rw [hr] at hc
      cases hc
    | ok r =>
      rw [hr] at hc
      have hh := call_holds h (by omega) hr
      exact (ih hh (by omega) hc).mono (by omega)

/-- Later pops return the queue, first unit first. -/
theorem popAll_eq (h : Holds c s q n) (hf : n < fuel) :
    ∀ k, (q p).length ≤ k → popAll c fuel k s p = .ok (q p) := by
  intro k
  induction k generalizing s q with
  | zero =>
    intro hk
    rw [List.length_eq_zero_iff.mp (Nat.le_zero.mp hk), popAll]
  | succ k ih =>
    intro hk
    obtain ⟨r, hr, hh⟩ := pop_spec h hf (fun _ => false) p
    rw [take_unpinned] at hr hh
    rw [popAll, hr]
    cases hq : q p with
    | nil => rfl
    | cons t l =>
      have hlen : (Function.update q p (q p).tail p).length ≤ k := by
        rw [Function.update_self, hq]
        rw [hq] at hk
        exact Nat.le_of_succ_le_succ hk
      have hrest := ih hh hlen
      rw [Function.update_self, hq] at hrest
      show (popAll c fuel k r p).map (t :: ·) = _
      rw [hrest]
      rfl

/-- Among the nodes of units, the loop visits the units that are not marked. -/
theorem visit_units (s : State) (l : List Nat) :
    (l.map Node.unit).filterMap (visit s) = unmarked s l := by
  induction l with
  | nil => rfl
  | cons t l ih =>
    rw [List.map_cons, List.filterMap_cons, ih, unmarked_cons]
    cases hr : s.removed t <;> simp [visit, hr]

theorem Inv.enumerate_list (hi : Inv c s ch) (hs : c.single p = false)
    (hn : (ch p).length ≤ fuel) : forEachUnit c fuel s p = some (ch p) := by
  rw [forEachUnit, if_neg (by simp [hs])]
  exact (hi.list p hs).fwd.walk_eq hn

/-- The stub is at the head: every unit is behind it. -/
theorem Inv.enumerate_stub (hi : Inv c s ch) (hs : c.single p = true) (hh : s.head p = .stub p)
    (hn : (ch p).length ≤ fuel) : forEachUnit c fuel s p = some (unmarked s (ch p)) := by
  have hst := hi.mpsc p hs
  rw [hh] at hst
  rw [forEachUnit, if_pos hs, hh, hst.at_stub.1.walk_eq (by rwa [List.length_map]),
    Option.map_some, visit_units]

/-- A unit is at the head: the others are behind it. -/
theorem Inv.enumerate_unit (hi : Inv c s ch) (hs : c.single p = true) {t : Nat}
    (hh : s.head p = .unit t) (hn : (ch p).length ≤ fuel) :
    ∃ l, ch p = t :: l ∧ forEachUnit c fuel s p = some (unmarked s l) := by
  have hst := hi.mpsc p hs
  rw [hh] at hst
  obtain ⟨hp, -⟩ := hst.at_node (by simp)
  cases hch : ch p with
  | nil =>
    rw [hch] at hp
    cases hp
  | cons u l =>
    rw [hch] at hp hn
    obtain ⟨hu, hp⟩ := hp
    cases hu
    refine ⟨l, rfl, ?_⟩
    have hlen : (l.map Node.unit).length ≤ fuel := by
      rw [List.length_map]
      exact Nat.le_of_succ_le hn
    rw [forEachUnit, if_pos hs, hh, hp.walk_eq hlen, Option.map_some, visit_units]

theorem Inv.head_cases (hi : Inv c s ch) (hs : c.single p = true) :
    s.head p = .stub p ∨ ∃ t, s.head p = .unit t := by
  by_cases hh : s.head p = .stub p
  · exact .inl hh
  · obtain ⟨l, hl, -, -⟩ := (hi.mpsc p hs).hd_cons hh
    cases hch : ch p with
    | nil =>
      rw [hch] at hl
      cases hl
    | cons t k =>
      rw [hch] at hl
      exact .inr ⟨t, (List.cons.inj hl).1.symm⟩

/-- Unless the head is a queued unit, the enumeration is the queue. -/
theorem forEachUnit_eq (h : Holds c s q n) (hf : n ≤ fuel) (hh : ¬ HeadQueued c s p) :
    forEachUnit c fuel s p = some (q p) := by
  obtain ⟨ch, hi, hq⟩ := h
  have hn : (ch p).length ≤ fuel := Nat.le_trans (hq p).2 hf
  rw [(hq p).1]
  cases hs : c.single p with
  | false => rw [hi.unmarked_list hs, hi.enumerate_list hs hn]
  | true =>
    obtain hstub | ⟨t, ht⟩ := hi.head_cases hs
    · exact hi.enumerate_stub hs hstub hn
    · obtain ⟨l, hl, he⟩ := hi.enumerate_unit hs ht hn
      have hr : s.removed t = true := by
        rw [← Bool.not_eq_false]
        exact fun hr => hh ⟨hs, t, ht, hr⟩
      rw [he, hl, unmarked_cons, if_pos hr]

/-- If the head is a queued unit, it is the first of the queue, and the enumeration is the rest. -/
theorem forEachUnit_skips (h : Holds c s q n) (hf : n ≤ fuel) (hh : HeadQueued c s p) :
    ∃ t l, q p = t :: l ∧ s.head p = .unit t ∧ forEachUnit c fuel s p = some l := by
  obtain ⟨ch, hi, hq⟩ := h
  obtain ⟨hs, t, ht, hr⟩ := hh
  obtain ⟨l, hl, he⟩ := hi.enumerate_unit hs ht (Nat.le_trans (hq p).2 hf)
  refine ⟨t, unmarked s l, ?_, ht, he⟩
  rw [(hq p).1, hl, unmarked_cons, if_neg (by simp [hr])]

end

/-- After any sequence of completed operations, the queue of a pool has every unit once, later pops
return it and `size` is its length; `for_each_unit` visits it in that order exactly if `head` is not
the node of a queued unit. -/
theorem enumerates_iff (c : Config) (os : List Call) (fuel : Nat) (hf : os.length < fuel) (s : State)
    (hs : calls c fuel initial os = .ok s) (p : Nat) :
    (queued c os p).Nodup ∧ popAll c fuel fuel s p = .ok (queued c os p) ∧
      size s p = (queued c os p).length ∧
      (forEachUnit c fuel s p = some (queued c os p) ↔ ¬ HeadQueued c s p) := by
  have h : Holds c s (queued c os) (0 + os.length) :=
    calls_holds (Holds.initial c) (by omega) hs
  have hlen : (queued c os p).length ≤ fuel := by
    obtain ⟨ch, -, hq⟩ := h
    have h1 := (hq p).2
    have h2 : (unmarked s (ch p)).length ≤ (ch p).length := List.length_filter_le ..
    rw [(hq p).1]
    omega
  refine ⟨h.nodup p, popAll_eq h (by omega) fuel hlen, size_spec h p, fun he hh => ?_,
    forEachUnit_eq h (by omega)⟩
  have hfuel : 0 + os.length ≤ fuel := by omega
  obtain ⟨t, l, hq, -, hl⟩ := forEachUnit_skips h hfuel hh
  rw [hl, hq] at he
  have := congrArg List.length (Option.some.inj he)
  simp at this

/-- Unit 1 is removed after the pop of unit 0 has left it at the head. -/
theorem enumerates_iff_removed : ∃ s,
    calls (onePath .mpsc) 9 initial
        [.push 0 0, .push 0 1, .push 0 2, .pop (fun _ => false) 0, .remove 0 1] = .ok s ∧
      forEachUnit (onePath .mpsc) 9 s 0 = some [2] := by
  refine ⟨_, rfl, ?_⟩
  exact (enumerates_iff (onePath .mpsc)
    [.push 0 0, .push 0 1, .push 0 2, .pop (fun _ => false) 0, .remove 0 1] 9 (by decide) _ rfl
    0).2.2.2.mpr (by rintro ⟨-, t, ht, hr⟩; cases ht; cases hr)

/-- Units 0 and 1 are pushed and unit 0 is popped: unit 1 is queued and `size` is 1, but no unit is
visited. -/
theorem head_not_enumerated : ∃ s,
    calls (onePath .mpsc) 9 initial [.push 0 0, .push 0 1, .pop (fun _ => false) 0] = .ok s ∧
      queued (onePath .mpsc) [.push 0 0, .push 0 1, .pop (fun _ => false) 0] 0 = [1] ∧
      popAll (onePath .mpsc) 9 9 s 0 = .ok [1] ∧ size s 0 = 1 ∧
      forEachUnit (onePath .mpsc) 9 s 0 = some [] :=
  ⟨_, rfl, rfl, rfl, rfl, rfl⟩

end Storage
end AbtReconverse
