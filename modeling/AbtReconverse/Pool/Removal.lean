import AbtReconverse.Pool.Listed
import AbtReconverse.Pool.MpscPath
import AbtReconverse.Pool.Pop

/-!
# AbtReconverse.Pool.Removal

`remove_unit` touches only its unit. The single-consumer path follows `Pool.Atomic` in every
interleaving: a push takes effect with its exchange of `tail`, a pop where it takes an unmarked node
off, a removal with its mark. A removal that comes while the push of its unit is in flight marks the
unit, and a later pop discards it. The list path follows it as long as no removal meets an unlinked
push of its unit (`Pool.Listed`); if one does, `list_unlink` drops every other unit
(`removal_drops_list`).
-/

namespace AbtReconverse
namespace Mpsc

open Lts
open Atomic (Follows Phase)

def label : Act → Atomic.Label
  | .enter t | .push t => .push t
  | .count => .count
  | .pop c => .call c .pop
  | .remove c t => .call c (.remove t)
  | .cons c => .cons c

def Result.atomic : Result → Atomic.Result
  | .popped p => .popped (p.map Push.unit)
  | .removed hit => .removed hit

/-- A pop that has taken a marked unit goes on. -/
def ConsPc.atomic (removed : Nat → Bool) : ConsPc → Phase
  | .idle => .idle
  | .popLock | .popHead | .popSecond _ | .popTest _ _ | .popStub _ | .popSwap _ | .popLink _ _
  | .popReload _ | .popTake _ _ => .called .pop
  | .popClear p | .popFlag p =>
    if removed p.unit then .called .pop else .decided (.popped (some p.unit))
  | .popUnlock p => .decided (.popped (p.map Push.unit))
  | .popCount p => .decided (.popped (some p.unit))
  | .remLock t | .remTest t | .remMark t => .called (.remove t)
  | .remUnlock hit => .decided (.removed hit)
  | .remCount => .decided (.removed true)

/-- The pool as the specification sees it. -/
def State.atomic (s : State) : Atomic.State where
  queue := s.ready.map Push.unit
  phase := fun c => (s.cons c).atomic s.removed
  result := fun c => (s.result c).map Result.atomic

def rules (mine : Nat → Bool) : Atomic.Rules where
  resume := fun _ _ => true
  mine := mine
  inFlight := true

/-- With no operation in flight. -/
def Quiet (s : State) : Prop :=
  (∀ t, s.push t = .idle) ∧ s.linked = 0 ∧ ∀ c, s.cons c = .idle

section

variable {s s' : State} {chain : List Node} {c t : Nat} {pc : ConsPc} {R : Atomic.Rules}

/-- Only the holder of the lock looks at the marks. -/
theorem atomic_free (h : pc.holds = false) (r r' : Nat → Bool) : pc.atomic r = pc.atomic r' := by
  cases pc with
  | popClear p | popFlag p => cases h
  | _ => rfl

theorem atomic_cons (h : Inv s chain) (hc : s'.cons = Function.update s.cons c pc)
    (hr : s'.result = s.result)
    (hfree : (s.cons c).holds = true ∨ s'.removed = s.removed) :
    s'.atomic = { s.atomic with queue := s'.ready.map Push.unit }.setPhase c
      (pc.atomic s'.removed) := by
  have hphase : (fun d => (Function.update s.cons c pc d).atomic s'.removed) =
      Function.update (fun d => (s.cons d).atomic s.removed) c (pc.atomic s'.removed) := by
    funext d
    by_cases hd : d = c
    · subst hd; simp
    · rw [Function.update_of_ne hd, Function.update_of_ne hd]
      obtain hheld | he := hfree
      · exact atomic_free (h.alone hheld d hd) ..
      · rw [he]
  unfold State.atomic Atomic.State.setPhase
  rw [hc, hr, hphase]

/-- A step of a call that is a step of the specification. -/
theorem follows_cons {b : Atomic.Act} (h : Inv s chain)
    (hc : s'.cons = Function.update s.cons c pc) (hr : s'.result = s.result)
    (hfree : (s.cons c).holds = true ∨ s'.removed = s.removed)
    (hst : Atomic.step R s.atomic b = some ({ s.atomic with
      queue := s'.ready.map Push.unit }.setPhase c (pc.atomic s'.removed))) :
    Follows R b.label s.atomic s'.atomic :=
  .inr ⟨b, rfl, by rw [hst, atomic_cons h hc hr hfree]⟩

/-- A step of a call that the specification does not see. -/
theorem follows_same {pc₀ : ConsPc} {x : Atomic.Label} (h : Inv s chain) (hpc : s.cons c = pc₀)
    (hc : s'.cons = Function.update s.cons c pc) (hr : s'.result = s.result)
    (hfree : (s.cons c).holds = true ∨ s'.removed = s.removed) (hready : s'.ready = s.ready)
    (hph : pc.atomic s'.removed = pc₀.atomic s.removed) : Follows R x s.atomic s'.atomic := by
  refine .inl ?_
  rw [atomic_cons h hc hr hfree, hready, hph, ← hpc]
  exact congrArg (fun f => { s.atomic with phase := f })
    (Function.update_eq_self c s.atomic.phase)

/-- A step of a push that the specification does not see. -/
theorem follows_push {x : Atomic.Label} (hc : s'.cons = s.cons) (hr : s'.result = s.result)
    (hrem : s'.removed = s.removed) (hpushed : s'.pushed = s.pushed) (hout : s'.out = s.out) :
    Follows R x s.atomic s'.atomic := by
  refine .inl ?_
  unfold State.atomic
  rw [hc, hr, hrem, Inv.ready_congr hpushed hout hrem]

/-- The pop finds nothing. -/
theorem follows_miss {mine : Nat → Bool} {pc₀ : ConsPc} (h : Inv s chain) (hpc : s.cons c = pc₀)
    (hph : pc₀.atomic s.removed = .called .pop) :
    Follows (rules mine) (.cons c) s.atomic (s.setCons c (.popUnlock none)).atomic := by
  refine follows_cons (b := .miss c) h rfl rfl (.inr rfl) ?_
  have hc : s.atomic.phase c = .called .pop := by
    show (s.cons c).atomic s.removed = _
    rw [hpc, hph]
  simp only [Atomic.step, hc, rules, or_true, and_self, if_true]
  rfl

/-- The call returns what was decided. -/
theorem follows_back {pc₀ : ConsPc} {r : Result} {lk : Option Nat} {n : Int} (hpc : s.cons c = pc₀)
    (hph : pc₀.atomic s.removed = .decided r.atomic) :
    Follows R (.cons c) s.atomic (State.atomic ({ s with lk := lk, count := n }.back c r)) := by
  refine .inr ⟨.back c r.atomic, rfl, ?_⟩
  have hc : s.atomic.phase c = .decided r.atomic := by
    show (s.cons c).atomic s.removed = _
    rw [hpc, hph]
  simp only [Atomic.step, hc, if_true, Option.some.injEq]
  unfold State.atomic State.back Atomic.State.setPhase
  congr
  · exact (Function.comp_update (ConsPc.atomic s.removed) s.cons c .idle).symm
  · exact (Function.comp_update (Option.map Result.atomic) s.result c (some r)).symm

/-! ### What is queued -/

theorem Inv.queue_units (h : Inv s chain) :
    s.atomic.queue = (units chain).filter fun t => !s.removed t := by
  show s.ready.map Push.unit = _
  rw [h.ready_eq, List.map_map]
  exact List.map_id _

theorem Inv.units_nodup (h : Inv s chain) : (units chain).Nodup := by
  have hnd := h.nodup
  rw [← h.history, List.nodup_append] at hnd
  exact hnd.2.1.of_map _

theorem Inv.queue_nodup (h : Inv s chain) : s.atomic.queue.Nodup := by
  rw [h.queue_units]
  exact h.units_nodup.filter _

theorem Inv.mem_queue (h : Inv s chain) (ht : t ∈ s.atomic.queue) :
    .unit t ∈ chain ∧ s.removed t = false := by
  rw [h.queue_units, List.mem_filter, mem_units] at ht
  exact ⟨ht.1, by simpa using ht.2⟩

/-- The queue after a pop has taken the node of `t` off. -/
theorem Inv.ready_take (h : Inv s chain) {v : Node} (hpc : s.cons c = .popTake (.unit t) v)
    (e : Push × Option Nat) :
    ∃ l : List Push, s.ready = (if s.removed t then l else s.cur t :: l) ∧
      (({ s with head := v, out := s.out ++ [e] } : State).setCons c (.popClear (s.cur t))).ready =
        l := by
  obtain ⟨l, rfl⟩ := h.looks_chain (c := c) (x := .unit t) (by rw [hpc]; rfl)
  refine ⟨_, h.ready_cons, ?_⟩
  unfold State.ready
  rw [Inv.queue_snoc]
  rfl

/-- Clearing the mark of a unit that is no longer in the list does not show. -/
theorem atomic_clearMark (h : Inv s chain) {p : Push} (hpc : s.cons c = .popFlag p)
    (hr : s.removed p.unit = true) : (clearMark s c p).atomic = s.atomic := by
  have hout : p.unit ∉ units chain := by
    intro hm
    have hin := ((h.unitOk p.unit).member (mem_units.mp hm)).1
    rw [(h.consOk c).flag p hpc hr] at hin
    cases hin
  have hready : (clearMark s c p).ready = s.ready := by
    unfold State.ready
    show s.queue.filter _ = s.queue.filter _
    rw [h.queue_eq]
    refine List.filter_congr fun q hq => ?_
    obtain ⟨u, hu, rfl⟩ := List.mem_map.mp hq
    have hne : u ≠ p.unit := by
      rintro rfl
      exact hout hu
    show (!Function.update s.removed p.unit false u) = _
    rw [Function.update_of_ne hne]
    rfl
  have hph : (s.cons c).atomic s.removed = .called .pop := by
    rw [hpc]
    exact if_pos hr
  have hheld : (s.cons c).holds = true := by rw [hpc]; rfl
  have hcons : (clearMark s c p).cons = Function.update s.cons c _ := rfl
  rw [atomic_cons h hcons rfl (.inl hheld), hready]
  show s.atomic.setPhase c (.called .pop) = s.atomic
  rw [← hph]
  exact congrArg (fun f => { s.atomic with phase := f })
    (Function.update_eq_self c s.atomic.phase)

/-! ### The specification is followed -/

/-- A removal that takes nothing out. -/
theorem follows_absent (h : Inv s chain) (hph : (s.cons c).atomic s.removed = .called (.remove t))
    (hout : R.Hits s.atomic t false) :
    Follows R (.cons c) s.atomic (s.setCons c (.remUnlock false)).atomic := by
  have hphase : s.atomic.phase c = .called (.remove t) := hph
  refine follows_cons (b := .remove c t false) h rfl rfl (.inr rfl) ?_
  simp only [Atomic.step, hphase, hout, and_self, if_true, Bool.false_eq_true, if_false]
  rfl

theorem consStep_follows (h : Inv s chain) (hst : ConsStep s c s') :
    Follows (rules s.mine) (.cons c) s.atomic s'.atomic := by
  have hphase : ∀ {pc : ConsPc}, s.cons c = pc → s.atomic.phase c = pc.atomic s.removed := by
    rintro pc rfl
    rfl
  cases hst with
  | popEmpty hpc _ _ | popGiveUp hpc _ | popBroken hpc _ => exact follows_miss h hpc rfl
  | popCrash hpc => exact absurd rfl ((h.consOk c).looks .stub (by rw [hpc]; rfl)).2
  | @popTake t v hpc =>
    obtain ⟨l, hready, hready'⟩ := h.ready_take hpc (s.cur t, if s.removed t then none else some c)
    cases hr : s.removed t with
    | true =>
      rw [hr, if_pos rfl] at hready
      rw [hr] at hready'
      exact follows_same h hpc rfl rfl (.inr rfl) (hready'.trans hready.symm) (if_pos hr)
    | false =>
      rw [hr, if_neg (by simp)] at hready
      rw [hr] at hready'
      refine follows_cons (b := .take c) h rfl rfl (.inr rfl) ?_
      have hqueue : s.atomic.queue = t :: l.map Push.unit := by
        show s.ready.map Push.unit = _
        rw [hready]
        rfl
      have hph : (ConsPc.popClear (s.cur t)).atomic s.removed = .decided (.popped (some t)) :=
        if_neg (by simp [State.cur, hr])
      simp only [Atomic.step, hphase hpc, ConsPc.atomic, if_true, hqueue, rules,
        List.find?_cons_of_pos, Option.map_some, List.erase_cons_head]
      rw [← hready', ← hph]
      rfl
  | popDiscard hpc hr => exact .inl (atomic_clearMark h hpc hr)
  | popKeep hpc hr => exact follows_same h hpc rfl rfl (.inr rfl) rfl (if_neg (by simp [hr])).symm
  | remAbsent hpc hin =>
    refine follows_absent h (by rw [hpc]; rfl) ?_
    rintro ⟨ht, hm⟩
    exact hin ⟨((h.unitOk _).member (h.mem_queue ht).1).1, hm⟩
  | remTwice hpc hr =>
    refine follows_absent h (by rw [hpc]; rfl) ?_
    rintro ⟨ht, -⟩
    rw [(h.mem_queue ht).2] at hr
    cases hr
  | @remMark t hpc _ =>
    have hhit : (rules s.mine).Hits s.atomic t true := .inr rfl
    refine follows_cons (b := .remove c t true) h rfl rfl (.inl (by rw [hpc]; rfl)) ?_
    simp only [Atomic.step, hphase hpc, ConsPc.atomic, hhit, and_self, if_true]
    have hqueue : s.atomic.queue.erase t = (s.queue.filter fun p =>
        !Function.update s.removed t true p.unit).map Push.unit := by
      rw [h.queue_nodup.erase_eq_filter, h.queue_units, h.queue_eq, List.filter_filter,
        List.filter_map, List.map_map]
      refine Eq.trans ?_ (List.map_id _).symm
      refine List.filter_congr fun u _ => ?_
      by_cases hu : u = t
      · subst hu; simp [State.cur]
      · simp [State.cur, hu]
    rw [hqueue]
    rfl
  | popNull hpc | popCount hpc | remMiss hpc | remCount hpc => exact follows_back hpc rfl
  | popLock hpc _ | popPass hpc _ _ | popHead hpc _ | popSecond hpc | popTest hpc | popLast hpc _
  | popStub hpc | popSwap hpc | popLink hpc | popReload hpc _ | popClear hpc | popUnlock hpc
  | remLock hpc _ | remTest hpc _ | remUnlock hpc =>
    exact follows_same h hpc rfl rfl (.inr rfl) rfl rfl

theorem exchange_follows {mine : Nat → Bool} (h : Inv s chain) (hpc : s.push t = .exchange) :
    Follows (rules mine) (.push t) s.atomic (State.atomic ({ s with
      tail := .unit t
      pushed := s.pushed ++ [s.cur t] }.setPush t (.link s.tail))) := by
  have hlen : s.out.length ≤ s.pushed.length := by
    rw [← h.history]
    simp
  have hqueue : ({ s with
      tail := .unit t
      pushed := s.pushed ++ [s.cur t] }.setPush t (.link s.tail)).queue = s.queue ++ [s.cur t] :=
    List.drop_append_of_le_length hlen
  have hready : ({ s with
      tail := .unit t
      pushed := s.pushed ++ [s.cur t] }.setPush t (.link s.tail)).ready =
        s.ready ++ [s.cur t].filter fun p => !s.removed p.unit := by
    unfold State.ready
    rw [hqueue, List.filter_append]
    rfl
  cases hr : s.removed t with
  | true =>
    refine .inl ?_
    unfold State.atomic
    rw [hready]
    simp [State.cur, hr, State.setPush]
  | false =>
    have hout : t ∉ s.atomic.queue := fun hm =>
      h.not_mem_of_early (by rw [hpc]; rfl) (h.mem_queue hm).1
    refine .inr ⟨.arrive t, rfl, ?_⟩
    simp only [Atomic.step, hout, not_false_eq_true, if_true, Option.some.injEq]
    unfold State.atomic
    rw [hready]
    simp [State.cur, hr, State.setPush]

theorem step_follows {a : Act} (h : Inv s chain) (hst : step s a = some s') :
    Follows (rules s.mine) (label a) s.atomic s'.atomic := by
  cases step_cases hst with
  | abort _ | enter _ | clear _ | link _ | count _ => exact follows_push rfl rfl rfl rfl rfl
  | exchange hpc => exact exchange_follows h hpc
  | @pop c hidle =>
    have hc : s.atomic.phase c = .idle := congrArg (ConsPc.atomic s.removed) hidle
    refine follows_cons (b := .call c .pop) h rfl rfl (.inr rfl) ?_
    simp only [Atomic.step, hc, if_true]
    rfl
  | @remove c t hidle =>
    have hc : s.atomic.phase c = .idle := congrArg (ConsPc.atomic s.removed) hidle
    refine follows_cons (b := .call c (.remove t)) h rfl rfl (.inr rfl) ?_
    simp only [Atomic.step, hc, if_true]
    rfl
  | cons hst => exact consStep_follows h hst

theorem step_mine {a : Act} (hst : step s a = some s') : s'.mine = s.mine := by
  cases step_cases hst with
  | cons hst => exact (Inv.consStep_kept hst).2
  | _ => rfl

/-! ### Every interleaving -/

/-- What the pool is in a state: a pop that is about to clear a mark counts as having done it. -/
def Shows (s : State) (q : Atomic.State) : Prop :=
  Settled s ∧ (∀ c p, ¬ Clearing s c p) ∧ q = s.atomic ∨
    ∃ c p, Clearing s c p ∧ Settled (clearMark s c p) ∧ q = (clearMark s c p).atomic

theorem Settled.shows (h : Settled s) : Shows s s.atomic := by
  by_cases hcl : ∃ c p, Clearing s c p
  · obtain ⟨c, p, hcl⟩ := hcl
    obtain ⟨chain, hinv, hcount⟩ := h
    obtain ⟨chain', hinv'⟩ := hinv.consStep hcl.consStep
    refine .inr ⟨c, p, hcl, ⟨chain', hinv', hcount.consStep hinv hcl.consStep⟩, ?_⟩
    exact (atomic_clearMark hinv hcl.cons hcl.removed).symm
  · exact .inl ⟨h, fun c p hx => hcl ⟨c, p, hx⟩, rfl⟩

theorem Shows.nodup {q : Atomic.State} (h : Shows s q) : q.queue.Nodup := by
  obtain ⟨⟨chain, hinv, -⟩, -, rfl⟩ | ⟨c, p, -, ⟨chain, hinv, -⟩, rfl⟩ := h
  · exact hinv.queue_nodup
  · exact hinv.queue_nodup

theorem exists_act (a : Act) : ∃ b, act b = a := by
  cases a with
  | enter t => exact ⟨.enter t, rfl⟩
  | push t => exact ⟨.push t, rfl⟩
  | count => exact ⟨.count, rfl⟩
  | pop c => exact ⟨.pop c, rfl⟩
  | remove c t => exact ⟨.remove c t, rfl⟩
  | cons c => exact ⟨.call c, rfl⟩

theorem Shows.step {q : Atomic.State} {a : Act} (h : Shows s q) (hst : step s a = some s')
    (hnot : s'.aborted = false) :
    ∃ q', Shows s' q' ∧ Follows (rules s.mine) (label a) q q' := by
  obtain ⟨a, rfl⟩ := exists_act a
  obtain ⟨hset, hno, rfl⟩ | ⟨c, p, hcl, hset, rfl⟩ := h
  · obtain ⟨chain, hinv, -⟩ := id hset
    exact ⟨_, (hset.step hno hst hnot).1.shows, step_follows hinv hst⟩
  · obtain ⟨chain, hinv, -⟩ := id hset
    by_cases ha : a = .call c
    · subst ha
      obtain rfl : s' = clearMark s c p := hcl.step hst
      exact ⟨_, hset.shows, .inl rfl⟩
    · obtain ⟨hst', hcl'⟩ := clearMark_step hcl hset.alone ha hst
      obtain ⟨hset', -⟩ := hset.step hcl.not_clearing hst' hnot
      exact ⟨_, .inr ⟨c, p, hcl', hset', rfl⟩, step_follows hinv hst'⟩

theorem Shows.size {q : Atomic.State} (h : Shows s q) (hq : Quiet s) :
    q.queue = s.ready.map Push.unit ∧ s.size = q.queue.length := by
  obtain ⟨hpush, hlinked, hcons⟩ := hq
  obtain ⟨⟨chain, hinv, hcount⟩, -, rfl⟩ | ⟨c, p, hcl, -⟩ := h
  · refine ⟨rfl, ?_⟩
    rw [hinv.size_eq hcount hpush hlinked hcons]
    exact (List.length_map _).symm
  · cases (hcons c).symm.trans hcl.cons

theorem reach_shows {mine : Nat → Bool} (h : Reach (system mine) Free s) :
    s.mine = mine ∧ (s.aborted = false → ∃ q, Shows s q) := by
  refine h.invariant (I := fun s => s.mine = mine ∧ (s.aborted = false → ∃ q, Shows s q)) ?_ ?_
  · rintro _ rfl
    exact ⟨rfl, fun _ => ⟨_, Settled.shows ⟨_, .start mine, .start mine⟩⟩⟩
  · intro s a s' _ ⟨hm, ih⟩ _ hst
    refine ⟨(step_mine hst).trans hm, fun hnot => ?_⟩
    have ha : s.aborted = false := by
      rw [Bool.eq_false_iff]
      intro ha
      simp [system, Mpsc.step, ha] at hst
    obtain ⟨q, hq⟩ := ih ha
    obtain ⟨q', hq', -⟩ := hq.step hst hnot
    exact ⟨q', hq'⟩

end

end Mpsc

open Lts

/-- On both paths a step of `remove_unit` changes the place of its own unit at most, every unit
leaves the queue in the hands of a pop that returns it or by its own removal, and with nothing in
flight `size` is the number of queued, un-removed units. On the single-consumer path this holds in
every interleaving, on the list path in those where no removal meets an unlinked push of its unit. -/
theorem removal_keeps_others (pinned : Nat → Nat → Bool)
    (hone : ∀ c t u, pinned c t = true → pinned c u = true → t = u) (pool : Nat → Option Nat)
    (mine : Nat → Bool) :
    (∀ s, Reach (ListPath.system pinned pool) ListPath.Allowed s →
      ∃ l, ListPath.WellFormed s l ∧
        ∀ a s', ListPath.Allowed s a → ListPath.step pinned s a = some s' →
          ∃ l', ListPath.WellFormed s' l' ∧
            Atomic.Effect (ListPath.rules pinned pool) (ListPath.label a)
              (s.atomic l) (s'.atomic l')) ∧
    ∀ s, Reach (Mpsc.system mine) Free s → s.aborted = false →
      ∃ q, Mpsc.Shows s q ∧ q.queue.Nodup ∧
        (Mpsc.Quiet s → q.queue = s.ready.map Mpsc.Push.unit ∧ s.size = q.queue.length) ∧
        ∀ a s', Mpsc.step s a = some s' → s'.aborted = false →
          ∃ q', Mpsc.Shows s' q' ∧ Atomic.Effect (Mpsc.rules mine) (Mpsc.label a) q q' := by
  refine ⟨fun s h => ?_, fun s h ha => ?_⟩
  · obtain ⟨l, hi, hp⟩ := ListPath.reach_inv h
    refine ⟨l, hi.wellFormed, fun a s' hal hs => ?_⟩
    have hf := ListPath.step_follows hone hi hp hs
    exact ⟨_, (ListPath.step_spec hi hal hs).1.wellFormed, hf.effect hi.list.nodup⟩
  · obtain ⟨rfl, hq⟩ := Mpsc.reach_shows h
    obtain ⟨q, hq⟩ := hq ha
    refine ⟨q, hq, hq.nodup, hq.size, fun a s' hst hnot => ?_⟩
    obtain ⟨q', hq', hf⟩ := hq.step hst hnot
    exact ⟨q', hq', hf.effect hq.nodup⟩

/-- Single-consumer path: unit 0 is queued, and unit 1 is removed between the exchange of its
`in_pool` and that of `tail`. -/
def removeInFlight : List Mpsc.Act :=
  [.enter 0, .push 0, .push 0, .push 0, .count, .enter 1, .push 1,
    .remove 0 1, .cons 0, .cons 0, .cons 0, .cons 0, .cons 0, .push 1, .push 1, .count]

/-- List path: units 0 and 1 are queued, and consumer 0 has the lock for the removal of unit 1. -/
def removeLinked : List Waiting.StoreAct :=
  ListPath.pushAll 0 ++ ListPath.pushAll 1 ++ [Waiting.StoreAct.remove 0 1, .call 0, .call 0]

theorem removal_keeps_others_in_flight :
    (∃ s l s' l', Reach (ListPath.system (fun _ _ => false) fun _ => some 0) ListPath.Allowed s ∧
      s.cons 0 = .remUnlink 1 ∧ ListPath.WellFormed s l ∧ ListPath.WellFormed s' l' ∧
      Atomic.Effect (ListPath.rules (fun _ _ => false) fun _ => some 0) (.cons 0)
        (s.atomic l) (s'.atomic l')) ∧
    ∃ s q, Reach (Mpsc.system fun _ => true) Free s ∧ s.hits = [⟨1, 1⟩] ∧ Mpsc.Quiet s ∧
      Mpsc.Shows s q ∧ q.queue = [0] ∧ s.size = 1 := by
  have hboth := removal_keeps_others (fun _ _ => false) (by simp) (fun _ => some 0) fun _ => true
  constructor
  · obtain ⟨s, hr, hpc, hstep⟩ := Reach.exists_run (G := ListPath.Allowed)
      (.start (M := ListPath.system (fun _ _ => false) fun _ => some 0) rfl)
      (fun s => s.cons 0 = .remUnlink 1 ∧
        (ListPath.step (fun _ _ => false) s (.call 0)).isSome = true) removeLinked (by decide)
    obtain ⟨l, hw, hsteps⟩ := hboth.1 s hr
    obtain ⟨s', hs'⟩ := Option.isSome_iff_exists.mp hstep
    obtain ⟨l', hw', he⟩ := hsteps (.call 0) s' (by rw [ListPath.Allowed, hpc]; trivial) hs'
    exact ⟨s, l, s', l', hr, hpc, hw, hw', he⟩
  · obtain ⟨s, hrun, hhits, ha, hready, hquiet⟩ : ∃ s,
        runWhen (Mpsc.system fun _ => true) Free (Mpsc.initial fun _ => true) removeInFlight =
          some s ∧ s.hits = [⟨1, 1⟩] ∧ s.aborted = false ∧ s.ready = [⟨0, 1⟩] ∧ Mpsc.Quiet s := by
      refine ⟨_, rfl, rfl, rfl, rfl, fun t => ?_, rfl, fun c => ?_⟩
      · match t with
        | 0 => rfl
        | 1 => rfl
        | t + 2 => rfl
      · match c with
        | 0 => rfl
        | c + 1 => rfl
    have hr : Reach (Mpsc.system fun _ => true) Free s := Reach.runWhen (.start rfl) hrun
    obtain ⟨q, hq, -, hsize, -⟩ := hboth.2 s hr ha
    obtain ⟨he, hn⟩ := hsize hquiet
    rw [hready] at he
    exact ⟨s, q, hr, hhits, hquiet, hq, he, by rw [hn, he]; rfl⟩

/-- Units 0 and 1 are queued. The push of unit 2 has set `in_pool` and waits for the lock; the removal
of unit 2 has found it set. -/
def removeUnlinked : List Waiting.StoreAct :=
  ListPath.pushAll 0 ++ ListPath.pushAll 1 ++ [Waiting.StoreAct.enter 2, .remove 0 2, .call 0, .call 0]

/-- The removal and the push come to their ends. -/
def bothFinish : List Waiting.StoreAct :=
  [.call 0, .call 0, .call 0, .call 0, .push 2, .push 2, .push 2, .count]

/-- The step that unlinks unit 2 leaves the list empty. With nothing in flight at the end, unit 2 is
the only one in the list, and `size` is 2. -/
theorem removal_drops_list :
    (∃ s s', Reach (ListPath.system (fun _ _ => false) fun _ => some 0) Free s ∧
      s.cons 0 = .remUnlink 2 ∧
      Doubly s.mem.lprev s.mem.lnext (s.mem.lhead 0) (s.mem.ltail 0) [0, 1] ∧
      ListPath.step (fun _ _ => false) s (.call 0) = some s' ∧
      s'.mem.lhead 0 = none ∧ s'.mem.ltail 0 = none) ∧
    ∃ s, Reach (ListPath.system (fun _ _ => false) fun _ => some 0) Free s ∧
      ListPath.Quiet s ∧
      Doubly s.mem.lprev s.mem.lnext (s.mem.lhead 0) (s.mem.ltail 0) [2] ∧
      Storage.size s.mem 0 = 2 := by
  constructor
  · obtain ⟨s, s', hrun, h⟩ : ∃ s s',
        runWhen (ListPath.system (fun _ _ => false) fun _ => some 0) Free
            (ListPath.initial fun _ => some 0) removeUnlinked = some s ∧
          s.cons 0 = .remUnlink 2 ∧
          Doubly s.mem.lprev s.mem.lnext (s.mem.lhead 0) (s.mem.ltail 0) [0, 1] ∧
          ListPath.step (fun _ _ => false) s (.call 0) = some s' ∧
          s'.mem.lhead 0 = none ∧ s'.mem.ltail 0 = none :=
      ⟨_, _, rfl, rfl, ⟨⟨rfl, rfl, rfl⟩, rfl, rfl, rfl⟩, rfl, rfl, rfl⟩
    exact ⟨s, s', Reach.runWhen (.start rfl) hrun, h⟩
  · obtain ⟨s, hrun, h⟩ : ∃ s,
        runWhen (ListPath.system (fun _ _ => false) fun _ => some 0) Free
            (ListPath.initial fun _ => some 0) (removeUnlinked ++ bothFinish) = some s ∧
          ListPath.Quiet s ∧
          Doubly s.mem.lprev s.mem.lnext (s.mem.lhead 0) (s.mem.ltail 0) [2] ∧
          Storage.size s.mem 0 = 2 := by
      refine ⟨_, rfl, ⟨fun t => ?_, rfl, fun c => ?_⟩, ⟨⟨rfl, rfl⟩, rfl, rfl⟩, rfl⟩
      · match t with
        | 0 => rfl
        | 1 => rfl
        | 2 => rfl
        | t + 3 => rfl
      · match c with
        | 0 => rfl
        | c + 1 => rfl
    exact ⟨s, Reach.runWhen (.start rfl) hrun, h⟩

end AbtReconverse
