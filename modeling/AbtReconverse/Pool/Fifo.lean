import AbtReconverse.Pool.Pop

/-!
# AbtReconverse.Pool.Fifo

The lock-free pool is a FIFO queue of pushes, from which `remove_unit` takes units out of turn.
The calls that have returned, with their results, and the marks of the removals are a history
(`recorded`). The pops of a consumer have returned what it has taken off to return, in that order and
less what it has in hand, and its removals that answered true are those that have marked a push of
their unit (`Returns`). `mpsc_fifo` collects what holds in every reached state (`Fifo`) and what a
pop does that runs with no push in flight.
-/

namespace AbtReconverse
namespace Mpsc

open Lts

/-! ### The history of returns -/

inductive Call where
  | pop
  | remove (t : Nat)
  deriving DecidableEq, Repr

/-- The unit of a removal. -/
def Call.unit : Call → Option Nat
  | .pop => none
  | .remove t => some t

/-- A call that has returned, and its result. -/
structure Return where
  call : Call
  result : Option Result
  deriving DecidableEq, Repr

structure History where
  /-- The last call of each consumer. -/
  call : Nat → Call
  log : Nat → List Return
  /-- The pushes that `remove_unit` has marked, and the consumers that called it. -/
  marks : List (Nat × Push)

def History.empty : History := ⟨fun _ => .pop, fun _ => [], []⟩

def record (s : State) (a : Act) (s' : State) (h : History) : History :=
  match a with
  | .pop c => { h with call := Function.update h.call c .pop }
  | .remove c t => { h with call := Function.update h.call c (.remove t) }
  | .cons c =>
    { h with
      log := if s'.cons c = .idle then
          Function.update h.log c (h.log c ++ [⟨h.call c, s'.result c⟩])
        else h.log
      marks := h.marks ++ (s'.hits.drop s.hits.length).map (Prod.mk c) }
  | _ => h

def recorded (mine : Nat → Bool) : System (State × History) Act :=
  (system mine).withHistory .empty record

/-- The push that a pop returned. -/
def Return.popped : Return → Option Push
  | ⟨_, some (.popped p)⟩ => p
  | _ => none

/-- The unit that a removal answered true for. -/
def Return.removed : Return → Option Nat
  | ⟨k, some (.removed true)⟩ => k.unit
  | _ => none

/-- A pop returns a unit or `NULL`, a removal a truth value. -/
def Return.typed : Return → Bool
  | ⟨.pop, some (.popped _)⟩ | ⟨.remove _, some (.removed _)⟩ => true
  | _ => false

/-- The pushes that pops of consumer `c` have returned. -/
def History.pops (h : History) (c : Nat) : List Push := (h.log c).filterMap Return.popped

/-- The units for which `remove_unit` has answered consumer `c` true. -/
def History.removals (h : History) (c : Nat) : List Nat := (h.log c).filterMap Return.removed

/-- The units whose pushes consumer `c` has marked. -/
def History.marked (h : History) (c : Nat) : List Nat :=
  (h.marks.filter (·.1 == c)).map (·.2.unit)

/-- The pushes that consumer `c` has taken off to return them. -/
def State.taken (s : State) (c : Nat) : List Push :=
  (s.out.filter (·.2 == some c)).map Prod.fst

/-- The push that the pop of consumer `c` will return. -/
def State.inHand (s : State) (c : Nat) : Option Push :=
  match s.cons c with
  | .popClear p | .popFlag p => if s.removed p.unit then none else some p
  | pc => pc.returns

/-- The removal has marked its unit. -/
def ConsPc.hit : ConsPc → Bool
  | .remUnlock b => b
  | .remCount => true
  | _ => false

/-- The consumer is in this call. -/
def ConsPc.fits (k : Call) : ConsPc → Prop
  | .idle => True
  | .remLock t | .remTest t | .remMark t => k = .remove t
  | .remUnlock _ | .remCount => k ≠ .pop
  | _ => k = .pop

/-- What consumer `c` was told, and what it will be told for what it has done. -/
structure ReturnsTo (s : State) (h : History) (c : Nat) : Prop where
  fits : (s.cons c).fits (h.call c)
  typed : ∀ e ∈ h.log c, e.typed = true
  pops : h.pops c ++ (s.inHand c).toList = s.taken c
  removals : h.removals c ++ (if (s.cons c).hit then (h.call c).unit.toList else []) = h.marked c

/-- The consumers have been told what they did. -/
structure Returns (s : State) (h : History) : Prop where
  marks : h.marks.map Prod.snd = s.hits
  told : ∀ c, ReturnsTo s h c

section

variable {s s' : State} {chain : List Node} {h : History} {c d : Nat}

/-- A step of one consumer leaves the others what they have taken and have in hand: it changes a
flag `removed` under the lock only. -/
theorem Inv.inHand_other (hi : Inv s chain) (hd : d ≠ c) (hst : ConsStep s c s') :
    s'.cons d = s.cons d ∧ s'.taken d = s.taken d ∧ s'.inHand d = s.inHand d := by
  have hcons : s'.cons d = s.cons d := by
    cases hst <;> exact Function.update_of_ne hd ..
  have htaken : s'.taken d = s.taken d := by
    cases hst with
    | popTake => simp [State.taken, State.setCons, Ne.symm hd]
    | _ => rfl
  have hrem : s'.removed = s.removed ∨ (s.cons c).holds = true := by
    cases hst with
    | popDiscard hpc | remMark hpc => exact .inr (by rw [hpc]; rfl)
    | _ => exact .inl rfl
  refine ⟨hcons, htaken, ?_⟩
  unfold State.inHand
  rw [hcons]
  obtain hrem | hc := hrem
  · rw [hrem]
  · have hfree := hi.alone hc d hd
    cases hpc : s.cons d with
    | popClear | popFlag => rw [hpc] at hfree; cases hfree
    | _ => rfl

theorem hits_drop (hst : ConsStep s c s') : s.hits ++ s'.hits.drop s.hits.length = s'.hits := by
  cases hst with
  | remMark => simp [State.setCons]
  | _ => simp [State.setCons, State.setNext, State.back]

theorem ReturnsTo.other (hr : ReturnsTo s h d) (hi : Inv s chain) (hd : d ≠ c)
    (hst : ConsStep s c s') : ReturnsTo s' (record s (.cons c) s' h) d := by
  obtain ⟨hcons, htaken, hhand⟩ := hi.inHand_other hd hst
  have hlog : (record s (.cons c) s' h).log d = h.log d := by
    simp only [record]
    split
    · exact Function.update_of_ne hd ..
    · rfl
  have hmarked : (record s (.cons c) s' h).marked d = h.marked d := by
    have hnone : ((s'.hits.drop s.hits.length).map (Prod.mk c)).filter (·.1 == d) = [] := by
      rw [List.filter_map, List.map_eq_nil_iff]
      simp [Function.comp_def, Ne.symm hd]
    rw [History.marked, History.marked, record, List.filter_append, hnone, List.append_nil]
  have hcall : (record s (.cons c) s' h).call d = h.call d := rfl
  refine ⟨?_, ?_, ?_, ?_⟩
  · rw [hcons, hcall]; exact hr.fits
  · rw [hlog]; exact hr.typed
  · rw [History.pops, hlog, hhand, htaken]; exact hr.pops
  · rw [History.removals, hlog, hcons, hmarked, hcall]; exact hr.removals

/-- A step inside a call that takes nothing off to return it and marks nothing. -/
theorem ReturnsTo.stay (hr : ReturnsTo s h c) {pc : ConsPc} (hpc : s'.cons c = pc)
    (hne : pc ≠ .idle) (hfits : (s.cons c).fits (h.call c) → pc.fits (h.call c))
    (hhit : pc.hit = (s.cons c).hit) (hhand : s'.inHand c = s.inHand c)
    (htaken : s'.taken c = s.taken c) (hhits : s'.hits = s.hits) :
    ReturnsTo s' (record s (.cons c) s' h) c := by
  have hrec : record s (.cons c) s' h = h := by
    simp [record, hpc, hne, hhits]
  rw [hrec]
  refine ⟨?_, hr.typed, ?_, ?_⟩
  · rw [hpc]; exact hfits hr.fits
  · rw [hhand, htaken]; exact hr.pops
  · rw [hpc, hhit]; exact hr.removals

/-- The call returns `r`: what was in hand, or whether the unit was marked. -/
theorem ReturnsTo.back (hr : ReturnsTo s h c) {r : Result} (hpc : s'.cons c = .idle)
    (hres : s'.result c = some r) (htyped : Return.typed ⟨h.call c, some r⟩ = true)
    (hpop : Return.popped ⟨h.call c, some r⟩ = s.inHand c)
    (hrem : (Return.removed ⟨h.call c, some r⟩).toList =
      if (s.cons c).hit then (h.call c).unit.toList else [])
    (htaken : s'.taken c = s.taken c) (hhits : s'.hits = s.hits) :
    ReturnsTo s' (record s (.cons c) s' h) c := by
  have hlog : (record s (.cons c) s' h).log c = h.log c ++ [⟨h.call c, some r⟩] := by
    simp [record, hpc, hres]
  have hmarked : (record s (.cons c) s' h).marked c = h.marked c := by
    simp [record, History.marked, hhits]
  have hhand : s'.inHand c = none := by simp [State.inHand, hpc, ConsPc.returns]
  refine ⟨?_, ?_, ?_, ?_⟩
  · rw [hpc]; trivial
  · intro e he
    rw [hlog, List.mem_append, List.mem_singleton] at he
    obtain he | rfl := he
    · exact hr.typed e he
    · exact htyped
  · rw [History.pops, hlog, hhand, htaken, ← hr.pops, List.filterMap_append, ← hpop]
    cases hp : Return.popped ⟨h.call c, some r⟩ <;> simp [History.pops, hp]
  · rw [History.removals, hlog, hpc, hmarked, ← hr.removals, List.filterMap_append, ← hrem]
    cases hp : Return.removed ⟨h.call c, some r⟩ <;> simp [History.removals, hp, ConsPc.hit]

/-- The pop takes off the first unit, to return it unless it is marked. -/
theorem ReturnsTo.take (hr : ReturnsTo s h c) {t : Nat} {v : Node}
    (hpc : s.cons c = .popTake (.unit t) v) :
    let s' := { s with
      head := v
      out := s.out ++ [(s.cur t, if s.removed t then none else some c)] }.setCons c
        (.popClear (s.cur t))
    ReturnsTo s' (record s (.cons c) s' h) c := by
  intro s'
  have hrec : record s (.cons c) s' h = h := by
    simp [record, s', State.setCons]
  have hnone : s.inHand c = none := by simp [State.inHand, hpc, ConsPc.returns]
  have htaken : s'.taken c = s.taken c ++ (s'.inHand c).toList := by
    by_cases hm : s.removed t = true <;>
      simp [s', State.taken, State.inHand, State.setCons, State.cur, hm]
  have hfits := hr.fits
  have hrem := hr.removals
  rw [hpc] at hfits hrem
  rw [hrec]
  refine ⟨?_, hr.typed, ?_, ?_⟩
  · rw [show s'.cons c = _ from Function.update_self ..]; exact hfits
  · rw [htaken, ← hr.pops, hnone, Option.toList_none, List.append_nil]
  · rw [show s'.cons c = _ from Function.update_self ..]; exact hrem

/-- The removal marks its unit. -/
theorem ReturnsTo.mark (hr : ReturnsTo s h c) {t : Nat} (hpc : s.cons c = .remMark t) :
    let s' := { s with
      removed := Function.update s.removed t true
      hits := s.hits ++ [s.cur t] }.setCons c (.remUnlock true)
    ReturnsTo s' (record s (.cons c) s' h) c := by
  intro s'
  have hrec : record s (.cons c) s' h = { h with marks := h.marks ++ [(c, s.cur t)] } := by
    simp [record, s', State.setCons]
  have hmarked : History.marked { h with marks := h.marks ++ [(c, s.cur t)] } c =
      h.marked c ++ [t] := by
    simp [History.marked, State.cur]
  have hself : s'.cons c = .remUnlock true := Function.update_self ..
  have hcall : h.call c = .remove t := by
    have := hr.fits
    rwa [hpc] at this
  have hrem := hr.removals
  have hpops := hr.pops
  simp only [hpc, ConsPc.hit, Bool.false_eq_true, if_false, List.append_nil] at hrem
  simp only [State.inHand, hpc, ConsPc.returns] at hpops
  rw [hrec]
  refine ⟨?_, hr.typed, ?_, ?_⟩
  · rw [hself]; show h.call c ≠ .pop; rw [hcall]; simp
  · simp only [State.inHand, hself, ConsPc.returns]; exact hpops
  · rw [hmarked, hself, ← hrem]
    simp only [ConsPc.hit, if_true, hcall]
    rfl

theorem ReturnsTo.own (hr : ReturnsTo s h c) (hi : Inv s chain) (hst : ConsStep s c s') :
    ReturnsTo s' (record s (.cons c) s' h) c := by
  have hself : ∀ pc, Function.update s.cons c pc c = pc := fun pc => Function.update_self ..
  have hfits : ∀ {pc : ConsPc}, s.cons c = pc → pc.fits (h.call c) := by
    rintro _ rfl; exact hr.fits
  cases hst with
  | popLock hpc | popHead hpc | popSecond hpc | popTest hpc | popLast hpc | popStub hpc
  | popSwap hpc | popLink hpc | popReload hpc | popPass hpc | popEmpty hpc | popGiveUp hpc
  | popBroken hpc | popUnlock hpc | popKeep hpc _ | popDiscard hpc _ =>
    refine hr.stay (hself _) (by simp) ?_ ?_ ?_ rfl rfl <;>
      simp [State.inHand, State.setCons, State.setNext, ConsPc.returns, ConsPc.hit, ConsPc.fits, *]
  | popClear hpc =>
    refine hr.stay (hself _) (by simp) ?_ ?_ ?_ rfl rfl
    · rw [hpc]; exact id
    · rw [hpc]; rfl
    · simp only [State.inHand, State.setCons, Function.update_self, hpc]
      rfl
  | remLock hpc | remTest hpc | remAbsent hpc | remTwice hpc | remUnlock hpc =>
    refine hr.stay (hself _) (by simp) ?_ ?_ ?_ rfl rfl <;>
      simp +contextual [State.inHand, State.setCons, ConsPc.returns, ConsPc.hit, ConsPc.fits, hpc]
  | popCrash hpc => exact absurd rfl ((hi.consOk c).looks .stub (by rw [hpc]; rfl)).2
  | popTake hpc => exact hr.take hpc
  | remMark hpc _ => exact hr.mark hpc
  | popNull hpc | popCount hpc =>
    have hcall : h.call c = .pop := hfits hpc
    refine hr.back (hself _) (Function.update_self ..) ?_ ?_ ?_ rfl rfl <;> rw [hcall]
    · rfl
    · simp [State.inHand, hpc, ConsPc.returns, Return.popped]
    · simp [hpc, ConsPc.hit, Return.removed]
  | remMiss hpc | remCount hpc =>
    refine hr.back (hself _) (Function.update_self ..) ?_ ?_ ?_ rfl rfl
    · cases hk : h.call c with
      | pop => exact absurd hk (hfits hpc)
      | remove t => rfl
    · simp [State.inHand, hpc, ConsPc.returns, Return.popped]
    · simp [hpc, ConsPc.hit, Return.removed]

theorem Returns.step {a : Act} (hr : Returns s h) (hi : Inv s chain) (hst : step s a = some s') :
    Returns s' (record s a s' h) := by
  cases step_cases hst with
  | abort _ | enter _ | clear _ | exchange _ | link _ | count _ =>
    exact ⟨hr.marks, fun d => ⟨(hr.told d).fits, (hr.told d).typed, (hr.told d).pops,
      (hr.told d).removals⟩⟩
  | @pop c hidle | @remove c t hidle =>
    refine ⟨hr.marks, fun d => ?_⟩
    obtain rfl | hd := eq_or_ne d c
    · have hpops := (hr.told d).pops
      have hrem := (hr.told d).removals
      simp only [State.inHand, hidle, ConsPc.returns] at hpops
      simp only [hidle, ConsPc.hit] at hrem
      refine ⟨?_, (hr.told d).typed, ?_, ?_⟩
      · simp [record, State.setCons, ConsPc.fits]
      · simp only [State.inHand, State.setCons, Function.update_self, ConsPc.returns]
        exact hpops
      · simp only [State.setCons, Function.update_self, ConsPc.hit]
        exact hrem
    · have hcons : ∀ pc, (s.setCons c pc).cons d = s.cons d := fun _ => Function.update_of_ne hd ..
      have hcall : ∀ k, Function.update h.call c k d = h.call d := fun _ => Function.update_of_ne hd ..
      refine ⟨?_, (hr.told d).typed, ?_, ?_⟩
      · simp only [record, hcons, hcall]; exact (hr.told d).fits
      · simp only [State.inHand, hcons]; exact (hr.told d).pops
      · simp only [record, hcons, hcall]; exact (hr.told d).removals
  | @cons c _ hst =>
    refine ⟨?_, fun d => ?_⟩
    · rw [record, List.map_append, hr.marks, List.map_map]
      exact (congrArg _ (List.map_id _)).trans (hits_drop hst)
    · obtain rfl | hd := eq_or_ne d c
      · exact (hr.told d).own hi hst
      · exact (hr.told d).other hi hd hst

theorem reach_returns {mine : Nat → Bool} {x : State × History}
    (hr : Reach (recorded mine) (fun x => NotWhileRemoved x.1) x) :
    Reach (system mine) NotWhileRemoved x.1 ∧ Returns x.1 x.2 := by
  refine hr.historyInvariant
    (I := fun s h => Reach (system mine) NotWhileRemoved s ∧ Returns s h) ?_ ?_
  · rintro _ rfl
    exact ⟨.start rfl, rfl, fun c => ⟨trivial, nofun, rfl, rfl⟩⟩
  · intro s h a s' _ ⟨hs, hret⟩ hg hst
    obtain ⟨chain, hi⟩ := reach_inv hs
    exact ⟨.next hs hg hst, hret.step hi hst⟩

end

/-! ### The queue -/

/-- What the pool guarantees in a state, after the calls that have returned. -/
structure Fifo (s : State) (h : History) : Prop where
  /-- Pushes are taken off in the order of their exchanges. -/
  order : s.out.map Prod.fst <+: s.pushed
  /-- Each is taken off once. -/
  once : s.pushed.Nodup
  /-- A pop returns what it has taken off, unless `remove_unit` has marked it. -/
  fate : ∀ p r, (p, r) ∈ s.out → (r = none ↔ p ∈ s.hits)
  /-- The pops of a consumer return what it has taken off to return, in that order; the last push may
  still be in its hands. -/
  pops : ∀ c, h.pops c <+: s.taken c ∧ (s.cons c = .idle → h.pops c = s.taken c)
  /-- They return pushes in the order of their exchanges and none twice, -/
  popsOnce : ∀ c, (h.pops c).Sublist s.pushed ∧ (h.pops c).Nodup
  /-- nor one that a pop of another consumer returns. -/
  popsApart : ∀ c d p, p ∈ h.pops c → p ∈ h.pops d → c = d
  /-- A push is marked once, by one call of `remove_unit`, -/
  marks : h.marks.map Prod.snd = s.hits ∧ s.hits.Nodup
  /-- and the calls that answer true are those that have marked a push of their unit; the last may
  still be on its way back. -/
  removals : ∀ c, h.removals c <+: h.marked c ∧ (s.cons c = .idle → h.removals c = h.marked c)
  typed : ∀ c, ∀ e ∈ h.log c, e.typed = true
  /-- The owner of the stub is not dereferenced. -/
  crashed : s.crashed = false
  /-- The nodes from `head` to `tail`: the stub is there at most once, and the units are the queued
  pushes. -/
  nodes : ∃ chain : List Node, chain.head? = some s.head ∧ chain.getLast? = some s.tail ∧
    Broken s.next (Pending s) chain ∧ chain.count .stub ≤ 1 ∧ (units chain).map s.cur = s.queue
  size : (∀ t, s.push t = .idle) → s.linked = 0 → (∀ c, s.cons c = .idle) →
    s.size = s.ready.length

section

variable {s : State} {chain : List Node} {h : History} {c d : Nat}

theorem Inv.taken_sublist (hi : Inv s chain) (c : Nat) : (s.taken c).Sublist s.pushed :=
  (List.filter_sublist.map Prod.fst).trans (List.IsPrefix.sublist ⟨_, hi.history⟩)

theorem mem_taken {p : Push} : p ∈ s.taken c ↔ (p, some c) ∈ s.out := by
  simp [State.taken]

theorem Inv.taken_apart (hi : Inv s chain) {p : Push} (hc : p ∈ s.taken c) (hd : p ∈ s.taken d) :
    c = d := by
  have hnodup : (s.out.map Prod.fst).Nodup := hi.nodup.sublist (List.IsPrefix.sublist ⟨_, hi.history⟩)
  have he := List.inj_on_of_nodup_map hnodup (mem_taken.mp hc) (mem_taken.mp hd) rfl
  cases he
  rfl

theorem Returns.fifo (hr : Returns s h) (hi : Inv s chain) (hc : CountInv s) : Fifo s h where
  order := ⟨_, hi.history⟩
  once := hi.nodup
  fate := hi.fate
  pops c := by
    refine ⟨⟨_, (hr.told c).pops⟩, fun hidle => ?_⟩
    have hpops := (hr.told c).pops
    simp only [State.inHand, hidle, ConsPc.returns, Option.toList_none, List.append_nil] at hpops
    exact hpops
  popsOnce c := by
    have hsub := (List.IsPrefix.sublist ⟨_, (hr.told c).pops⟩).trans (hi.taken_sublist c)
    exact ⟨hsub, hi.nodup.sublist hsub⟩
  popsApart c d p hp hq :=
    hi.taken_apart (List.IsPrefix.mem hp ⟨_, (hr.told c).pops⟩)
      (List.IsPrefix.mem hq ⟨_, (hr.told d).pops⟩)
  marks := ⟨hr.marks, hi.hitNodup⟩
  removals c := by
    refine ⟨⟨_, (hr.told c).removals⟩, fun hidle => ?_⟩
    have hrem := (hr.told c).removals
    simp only [hidle, ConsPc.hit, Bool.false_eq_true, if_false, List.append_nil] at hrem
    exact hrem
  typed c := (hr.told c).typed
  crashed := hi.crashed
  nodes := ⟨chain, hi.head, hi.tail, hi.broken, List.nodup_iff_count_le_one.mp hi.broken.nodup _,
    hi.queue_eq.symm⟩
  size := hi.size_eq hc

end

/-- The lock-free pool, for every interleaving of pushes, pops and removals in which no removed
unit is pushed again before a pop has discarded it. A pop that has taken the lock while no push is
in flight comes back, and if no push starts before that, it returns the first queued unit that is
not removed (`NULL` exactly when there is none), whatever the other consumers do. -/
theorem mpsc_fifo (mine : Nat → Bool) (s : State) (h : History)
    (hr : Reach (recorded mine) (fun x => NotWhileRemoved x.1) (s, h)) :
    Fifo s h ∧
    ∀ c, s.cons c = .popHead → (∀ t, s.push t = .idle) → s.aborted = false →
      (∃ n s', runWhen (system mine) (NoPush c) s (List.replicate n (.cons c)) = some s' ∧
        s'.cons c = .idle) ∧
      ∀ as s', runWhen (system mine) (NoPush c) s as = some s' → s'.cons c = .idle →
        s'.result c = some (.popped s.ready.head?) := by
  obtain ⟨hs, hret⟩ := reach_returns hr
  obtain ⟨chain, hinv⟩ := reach_inv hs
  refine ⟨hret.fifo hinv (reach_count hs), fun c hpc hquiet ha => ⟨?_, ?_⟩⟩
  · exact pop_returns hs ha (.inl (by rw [hpc]; rfl))
  · intro as s' hrun hidle
    have hp := popsTo_run hs hquiet (.of hpc (show PopsAt s.ready c s .popHead from rfl)) hrun
    unfold PopsTo at hp
    rw [hidle] at hp
    exact hp

/-- Units 0 and 1 are pushed, unit 0 is removed, and a pop has taken the lock. -/
def removedFirst : List Act :=
  [.enter 0, .push 0, .push 0, .enter 1, .push 1, .push 1, .push 1, .count, .push 0, .count,
    .remove 0 0, .cons 0, .cons 0, .cons 0, .cons 0, .cons 0, .pop 0, .cons 0]

/-- A unit that is not pushed stays out of `push`. -/
theorem idle_step {s s' : State} {t : Nat} {a : Act} (hidle : s.push t = .idle)
    (ha : a ≠ .enter t) (hst : step s a = some s') : s'.push t = .idle := by
  have hpush : ∀ {u : Nat} {pc : PushPc}, s.push u = pc → pc ≠ .idle → t ≠ u := by
    rintro u pc hpc hne rfl
    exact hne (hpc.symm.trans hidle)
  cases step_cases hst with
  | abort _ | count _ | pop _ | remove _ => exact hidle
  | @enter u _ =>
    have hu : t ≠ u := by rintro rfl; exact ha rfl
    exact (Function.update_of_ne hu ..).trans hidle
  | clear hpc | exchange hpc | link hpc =>
    exact (Function.update_of_ne (hpush hpc nofun) ..).trans hidle
  | cons hst => rw [(Inv.consStep_kept hst).1]; exact hidle

theorem idle_run {mine : Nat → Bool} {x y : State × History} {t : Nat} {as : List Act}
    (hidle : x.1.push t = .idle) (ha : .enter t ∉ as)
    (hr : runWhen (recorded mine) (fun x => NotWhileRemoved x.1) x as = some y) :
    y.1.push t = .idle := by
  induction as generalizing x with
  | nil => cases hr; exact hidle
  | cons a as ih =>
    simp only [runWhen] at hr
    split at hr
    · obtain ⟨z, hz, hr⟩ := Option.bind_eq_some_iff.mp hr
      have hst := (System.withHistory_step.mp hz).1
      refine ih (idle_step hidle ?_ hst) (fun hm => ha (List.mem_cons_of_mem _ hm)) hr
      rintro rfl
      exact ha List.mem_cons_self
    · cases hr

theorem mpsc_fifo_removed : ∃ s h, Reach (recorded fun _ => true)
    (fun x => NotWhileRemoved x.1) (s, h) ∧
    h.log 0 = [⟨.remove 0, some (.removed true)⟩] ∧ s.hits = [⟨0, 1⟩] ∧ Fifo s h ∧
    ∀ as s', runWhen (system fun _ => true) (NoPush 0) s as = some s' → s'.cons 0 = .idle →
      s'.result 0 = some (.popped (some ⟨1, 1⟩)) := by
  obtain ⟨⟨s, h⟩, hr, hlog, hhits, hpc, ha, h0, h1, hready⟩ := exists_runWhen
    (M := recorded fun _ => true) (G := fun x => NotWhileRemoved x.1)
    (s := (initial fun _ => true, .empty))
    (fun x => x.2.log 0 = [⟨.remove 0, some (.removed true)⟩] ∧ x.1.hits = [⟨0, 1⟩] ∧
      x.1.cons 0 = .popHead ∧ x.1.aborted = false ∧ x.1.push 0 = .idle ∧ x.1.push 1 = .idle ∧
      x.1.ready = [⟨1, 1⟩]) removedFirst (by decide)
  have hstart : Reach (recorded fun _ => true) (fun x => NotWhileRemoved x.1)
      (initial fun _ => true, .empty) := .start ⟨rfl, rfl⟩
  have hreach := hstart.runWhen hr
  have hquiet : ∀ t, s.push t = .idle := by
    intro t
    match t with
    | 0 => exact h0
    | 1 => exact h1
    | t + 2 => exact idle_run rfl (by simp [removedFirst]) hr
  have hpool := mpsc_fifo _ s h hreach
  have hpop := (hpool.2 0 hpc hquiet ha).2
  rw [hready] at hpop
  exact ⟨s, h, hreach, hlog, hhits, hpool.1, hpop⟩

end Mpsc
end AbtReconverse
