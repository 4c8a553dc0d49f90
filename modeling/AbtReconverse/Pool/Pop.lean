import AbtReconverse.Pool.Size

/-!
# AbtReconverse.Pool.Pop

A pop with no push in flight. Under the lock every link of the list is there, apart from the one
the pop itself writes when it re-appends the stub, so the pop looks through the queue until it
finds an unmarked unit (`PopsTo`) and does not give up before (`popsTo_run`). It comes back
(`pop_returns`), whatever the other consumers do.
-/

namespace AbtReconverse
namespace Mpsc

open Lts

/-- Where a pop that is to return the first element of `goal` can be, and what it relies on. -/
def PopsAt (goal : List Push) (c : Nat) (s : State) : ConsPc → Prop
  | .popHead | .popSecond _ | .popTest _ (some _) | .popTake _ _ => s.ready = goal
  | .popTest h none => s.ready = goal ∧ s.next h = none
  | .popStub h | .popSwap h => s.ready = goal ∧ s.tail = h
  | .popLink h prev => s.ready = goal ∧ prev = h
  | .popReload h => s.ready = goal ∧ s.next h ≠ none
  | .popClear p | .popFlag p => if s.removed p.unit then s.ready = goal else goal.head? = some p
  | .popUnlock r => goal.head? = r
  | .popCount p => goal.head? = some p
  | .idle => s.result c = some (.popped goal.head?)
  | _ => False

/-- Consumer `c` is in a pop that returns the first element of `goal`. -/
def PopsTo (goal : List Push) (c : Nat) (s : State) : Prop := PopsAt goal c s (s.cons c)

theorem PopsTo.of {goal : List Push} {c : Nat} {s : State} {pc : ConsPc} (hpc : s.cons c = pc)
    (h : PopsAt goal c s pc) : PopsTo goal c s := by
  unfold PopsTo
  rwa [hpc]

/-- No push runs and `c` makes no further call. -/
def NoPush (c : Nat) (_ : State) : Act → Prop
  | .enter _ | .push _ => False
  | .pop d | .remove d _ => d ≠ c
  | .cons _ | .count => True

instance (c : Nat) (s : State) : (a : Act) → Decidable (NoPush c s a)
  | .enter _ | .push _ => inferInstanceAs (Decidable False)
  | .pop d | .remove d _ => inferInstanceAs (Decidable (d ≠ c))
  | .cons _ | .count => inferInstanceAs (Decidable True)

/-- What a consumer that does not have the lock can change. -/
structure Frame (c : Nat) (s s' : State) : Prop where
  push : s'.push = s.push
  cons : s'.cons c = s.cons c
  result : s'.result c = s.result c
  list : (s.cons c).holds = true → s'.next = s.next ∧ s'.tail = s.tail ∧ s'.removed = s.removed ∧
    s'.pushed = s.pushed ∧ s'.out = s.out

namespace Inv

variable {s s' : State} {chain : List Node} {c d : Nat} {goal : List Push}

/-- The step of another consumer. -/
theorem frame_cons (h : Inv s chain) (hd : c ≠ d) (hst : ConsStep s d s') : Frame c s s' := by
  -- either it does not have the lock, or `c` does not
  have hl : ∀ {pc : ConsPc}, s.cons d = pc → pc.holds = true → ¬ (s.cons c).holds = true := by
    rintro pc rfl hd' hc
    exact hd (h.lock_unique hd' hc)
  have hcons : ∀ pc, Function.update s.cons d pc c = s.cons c := fun pc =>
    Function.update_of_ne hd ..
  cases hst with
  | popStub hpc | popSwap hpc | popLink hpc | popTake hpc | popDiscard hpc _ | remMark hpc _ =>
    exact ⟨rfl, hcons _, rfl, fun hc => absurd hc (hl hpc rfl)⟩
  | popNull _ | popCount _ | remMiss _ | remCount _ =>
    exact ⟨rfl, hcons _, Function.update_of_ne hd .., fun _ => ⟨rfl, rfl, rfl, rfl, rfl⟩⟩
  | _ => exact ⟨rfl, hcons _, rfl, fun _ => ⟨rfl, rfl, rfl, rfl, rfl⟩⟩

theorem frame (h : Inv s chain) {a : Act} (hg : NoPush c s a) (ha : a ≠ .cons c)
    (hst : step s a = some s') : Frame c s s' := by
  cases step_cases hst with
  | abort _ | enter _ | clear _ | exchange _ | link _ => exact hg.elim
  | count _ => exact ⟨rfl, rfl, rfl, fun _ => ⟨rfl, rfl, rfl, rfl, rfl⟩⟩
  | pop _ | remove _ =>
    exact ⟨rfl, Function.update_of_ne (Ne.symm hg) .., rfl, fun _ => ⟨rfl, rfl, rfl, rfl, rfl⟩⟩
  | cons hst => exact h.frame_cons (fun hd => ha (by rw [hd])) hst

theorem ready_congr (h1 : s'.pushed = s.pushed) (h2 : s'.out = s.out)
    (h3 : s'.removed = s.removed) : s'.ready = s.ready := by
  unfold State.ready State.queue
  rw [h1, h2, h3]

theorem popsTo_frame (hp : PopsTo goal c s) (hf : Frame c s s') : PopsTo goal c s' := by
  unfold PopsTo at hp ⊢
  rw [hf.cons]
  have hlist := hf.list
  cases hpc : s.cons c with
  | idle => rw [hpc] at hp; exact hf.result.trans hp
  | popCount p => rw [hpc] at hp; exact hp
  | popLock | remLock | remTest | remMark | remUnlock | remCount =>
    rw [hpc] at hp; exact hp.elim
  | popTest h nx =>
    rw [hpc] at hp hlist
    obtain ⟨e1, e2, e3, e4, e5⟩ := hlist rfl
    cases nx <;> simpa only [PopsAt, ready_congr e4 e5 e3, e1] using hp
  | _ =>
    rw [hpc] at hp hlist
    obtain ⟨e1, e2, e3, e4, e5⟩ := hlist rfl
    simpa only [PopsAt, ready_congr e4 e5 e3, e1, e2, e3] using hp

/-- With no push in flight a link is missing only where the pop itself is about to write it. -/
theorem last_of_none (h : Inv s chain) (hquiet : ∀ t, s.push t = .idle)
    (hc : (s.cons c).holds = true) (hlink : ∀ x u, s.cons c ≠ .popLink x u) {x : Node}
    {l : List Node} (hl : chain = x :: l) (hx : s.next x = none) : l = [] := by
  cases l with
  | nil => rfl
  | cons v l =>
    obtain ⟨t, ht⟩ := h.push_of_none hc hlink hl hx
    rw [hquiet] at ht
    cases ht

theorem ready_cons {t : Nat} {l : List Node} (h : Inv s (.unit t :: l)) :
    s.ready = if s.removed t then (s.queue.drop 1).filter (fun p => !s.removed p.unit)
      else s.cur t :: (s.queue.drop 1).filter (fun p => !s.removed p.unit) := by
  unfold State.ready
  rw [h.queue_eq]
  cases hr : s.removed t <;> simp [State.cur, hr]

theorem queue_snoc (s : State) (e : Push × Option Nat) {pc : ConsPc} {v : Node} :
    (({ s with head := v, out := s.out ++ [e] } : State).setCons c pc).queue = s.queue.drop 1 := by
  simp [State.queue, State.setCons]

/-- The pop's own step. -/
theorem popsTo_consStep (h : Inv s chain) (hquiet : ∀ t, s.push t = .idle) (hp : PopsTo goal c s)
    (hst : ConsStep s c s') : PopsTo goal c s' := by
  have hp : ∀ {pc : ConsPc}, s.cons c = pc → PopsAt goal c s pc := by
    rintro pc rfl
    exact hp
  cases hst with
  | popEmpty hpc hhead hnext =>
    -- the list is the stub alone
    have hch := h.head
    rw [hhead] at hch
    obtain ⟨l, rfl⟩ := List.head?_eq_some_iff.mp hch
    obtain rfl := h.last_of_none hquiet (c := c) (by rw [hpc]; rfl) (by simp [hpc]) rfl hnext
    have hr : [] = goal := h.ready_eq.symm.trans (hp hpc)
    exact .of (Function.update_self ..) (by rw [← hr]; rfl)
  | popHead hpc _ =>
    refine .of (Function.update_self ..) ?_
    cases hn : s.next s.head
    · exact ⟨hp hpc, hn⟩
    · exact hp hpc
  | @popSecond x hpc =>
    refine .of (Function.update_self ..) ?_
    cases hn : s.next x
    · exact ⟨hp hpc, hn⟩
    · exact hp hpc
  | @popGiveUp x hpc htail | @popLast x hpc htail =>
    obtain ⟨l, hl⟩ := h.looks_chain (c := c) (x := x) (by rw [hpc]; rfl)
    obtain rfl := h.last_of_none hquiet (c := c) (by rw [hpc]; rfl) (by simp [hpc]) hl (hp hpc).2
    have hlast := h.tail
    rw [hl] at hlast
    have hxt : s.tail = x := by simpa using hlast.symm
    first
      | exact absurd hxt.symm htail
      | exact .of (Function.update_self ..) ⟨(hp hpc).1, hxt⟩
  | popLink hpc =>
    obtain ⟨hr, rfl⟩ := hp hpc
    exact .of (Function.update_self ..) ⟨hr, by simp [State.setCons, State.setNext]⟩
  | popBroken hpc hn => exact absurd hn (hp hpc).2
  | popReload hpc _ => exact .of (Function.update_self ..) (hp hpc).1
  | popCrash hpc => exact absurd rfl ((h.consOk c).looks .stub (by rw [hpc]; rfl)).2
  | @popTake u v hpc =>
    have hp : s.ready = goal := hp hpc
    obtain ⟨l, rfl⟩ := h.looks_chain (c := c) (x := .unit u) (by rw [hpc]; rfl)
    have hr := h.ready_cons.symm.trans hp
    refine .of (Function.update_self ..) ?_
    simp only [PopsAt, State.setCons, State.cur]
    split
    · rename_i hrem
      rw [if_pos hrem] at hr
      rw [← hr]
      simp [State.ready, State.queue]
    · rename_i hrem
      rw [if_neg hrem] at hr
      rw [← hr]; rfl
  | @popDiscard p hpc hrem =>
    have hp := hp hpc
    simp only [PopsAt, if_pos hrem] at hp
    -- the unit is off the list, so its mark does not count
    have hnot : .unit p.unit ∉ chain := fun hm => by
      have := ((h.unitOk _).member hm).1
      rw [(h.consOk c).flag p hpc hrem] at this; cases this
    refine .of (Function.update_self ..) (Eq.trans ?_ hp)
    refine List.filter_congr fun q hq => ?_
    have hq' : q ∈ s.queue := hq
    rw [h.queue_eq, List.mem_map] at hq'
    obtain ⟨t, ht, rfl⟩ := hq'
    have : t ≠ p.unit := by rintro rfl; exact hnot (mem_units.mp ht)
    simp [State.cur, State.setCons, this]
  | popKeep hpc hrem =>
    have hp := hp hpc
    simp only [PopsAt, hrem, Bool.false_eq_true, if_false] at hp
    exact .of (Function.update_self ..) hp
  | popNull hpc =>
    refine .of (Function.update_self ..) ?_
    simp [PopsAt, State.back, show goal.head? = none from hp hpc]
  | @popCount p hpc =>
    refine .of (Function.update_self ..) ?_
    simp [PopsAt, State.back, show goal.head? = some p from hp hpc]
  | popPass hpc _ _ | popTest hpc | popStub hpc | popSwap hpc | popClear hpc | popUnlock hpc =>
    exact .of (Function.update_self ..) (hp hpc)
  | popLock hpc _ | remLock hpc _ | remTest hpc _ | remAbsent hpc _ | remTwice hpc _
  | remMark hpc _ | remMiss hpc | remUnlock hpc | remCount hpc => exact (hp hpc).elim

/-- Only producers move a push, and a unit keeps its pool. -/
theorem consStep_kept (hst : ConsStep s c s') : s'.push = s.push ∧ s'.mine = s.mine := by
  cases hst <;> exact ⟨rfl, rfl⟩

theorem popsTo_step (h : Inv s chain) (hquiet : ∀ t, s.push t = .idle) (hp : PopsTo goal c s)
    {a : Act} (hg : NoPush c s a) (hst : step s a = some s') :
    PopsTo goal c s' ∧ ∀ t, s'.push t = .idle := by
  by_cases ha : a = .cons c
  · subst ha
    obtain _ | _ | _ | _ | _ | _ | _ | _ | hst := step_cases hst
    refine ⟨h.popsTo_consStep hquiet hp hst, ?_⟩
    rw [(consStep_kept hst).1]; exact hquiet
  · have hf := h.frame hg ha hst
    exact ⟨popsTo_frame hp hf, by rw [hf.push]; exact hquiet⟩

end Inv

theorem popsTo_run {mine : Nat → Bool} {s s' : State} {c : Nat} {goal : List Push} {as : List Act}
    (h : Reach (system mine) NotWhileRemoved s) (hquiet : ∀ t, s.push t = .idle)
    (hp : PopsTo goal c s) (hr : runWhen (system mine) (NoPush c) s as = some s') :
    PopsTo goal c s' := by
  induction as generalizing s with
  | nil => simp only [runWhen, Option.some.injEq] at hr; subst hr; exact hp
  | cons a as ih =>
    simp only [runWhen] at hr
    split at hr
    · rename_i hg
      obtain ⟨s1, hs1, hr⟩ := Option.bind_eq_some_iff.mp hr
      obtain ⟨chain, hinv⟩ := reach_inv h
      obtain ⟨hp1, hq1⟩ := hinv.popsTo_step hquiet hp hg hs1
      refine ih (h.next ?_ hs1) hq1 hp1 hr
      cases a <;> first | exact hg.elim | trivial
    · cases hr

/-! ### The pop comes back -/

/-- How many steps a pop is from its return, when it discards nothing more. -/
def ConsPc.togo : ConsPc → Nat
  | .popHead => 12
  | .popSecond _ => 11
  | .popTest _ _ => 10
  | .popStub _ => 9
  | .popSwap _ => 8
  | .popLink _ _ => 7
  | .popReload _ => 6
  | .popTake _ _ => 5
  | .popClear _ => 14
  | .popFlag _ => 13
  | .popUnlock _ => 2
  | .popCount _ => 1
  | _ => 0

/-- In a pop, with the lock or past it. -/
def ConsPc.popping : ConsPc → Bool
  | .idle | .popLock | .remLock _ | .remTest _ | .remMark _ | .remUnlock _ | .remCount => false
  | _ => true

/-- A pop in `s` comes closer to its return in `s'`. -/
def Closer (c : Nat) (s s' : State) : Prop :=
  s'.aborted = s.aborted ∧ ((s'.cons c).popping = true ∨ s'.cons c = .idle) ∧
    10 * s'.queue.length + (s'.cons c).togo < 10 * s.queue.length + (s.cons c).togo

theorem Closer.of {s s' : State} {c : Nat} {pc pc' : ConsPc} (hpc : s.cons c = pc)
    (hpc' : s'.cons c = pc') (ha : s'.aborted = s.aborted) (hq : s'.queue = s.queue)
    (hpop : pc'.popping = true ∨ pc' = .idle) (ht : pc'.togo < pc.togo) : Closer c s s' := by
  unfold Closer
  rw [hpc, hpc', hq]
  exact ⟨ha, hpop, Nat.add_lt_add_left ht _⟩

/-- Each step of a pop brings it closer to its return; a discard takes a push off the queue. -/
theorem Inv.popStep_closer {s : State} {chain : List Node} {c : Nat} (h : Inv s chain)
    {pc : ConsPc} (hpc : s.cons c = pc) (hpop : pc.popping = true) :
    ∃ s', Mpsc.popStep s c pc = some s' ∧ Closer c s s' := by
  cases pc with
  | popTake x v =>
    cases x with
    | stub => exact absurd rfl ((h.consOk c).looks .stub (by rw [hpc]; rfl)).2
    | unit u =>
      obtain ⟨l, rfl⟩ := h.looks_chain (c := c) (x := .unit u) (by rw [hpc]; rfl)
      refine ⟨_, rfl, rfl, .inl (by simp [State.setCons, ConsPc.popping]), ?_⟩
      have hq : s.queue.length = (units l).length + 1 := by rw [h.queue_eq]; simp
      have hq' : ∀ e, (s.pushed.drop (s.out ++ [e]).length).length = s.queue.length - 1 := by
        intro e
        simp only [State.queue, List.length_append, List.length_drop, List.length_singleton]
        omega
      simp only [State.setCons, State.queue, Function.update_self, hq', hpc, ConsPc.togo] at hq ⊢
      omega
  | popTest x nx =>
    cases nx with
    | some v =>
      exact ⟨_, rfl, .of hpc (Function.update_self ..) rfl rfl (.inl rfl) (by simp [ConsPc.togo])⟩
    | none =>
      simp only [Mpsc.popStep]
      split
      all_goals
        exact ⟨_, rfl, .of hpc (Function.update_self ..) rfl rfl (.inl rfl)
          (by simp [ConsPc.togo])⟩
  | popUnlock r =>
    cases r with
    | none =>
      exact ⟨_, rfl, .of hpc (Function.update_self ..) rfl rfl (.inr rfl) (by simp [ConsPc.togo])⟩
    | some p =>
      exact ⟨_, rfl, .of hpc (Function.update_self ..) rfl rfl (.inl rfl) (by simp [ConsPc.togo])⟩
  | popCount p =>
    exact ⟨_, rfl, .of hpc (Function.update_self ..) rfl rfl (.inr rfl) (by simp [ConsPc.togo])⟩
  | idle | popLock | remLock | remTest | remMark | remUnlock | remCount => cases hpop
  | _ =>
    simp only [Mpsc.popStep]
    (repeat' split)
    all_goals
      exact ⟨_, rfl, .of hpc (Function.update_self ..) rfl rfl (.inl rfl) (by simp [ConsPc.togo])⟩

theorem Inv.step_closer {s : State} {chain : List Node} {c : Nat} (h : Inv s chain)
    (hpop : (s.cons c).popping = true) (ha : s.aborted = false) :
    ∃ s', Mpsc.step s (.cons c) = some s' ∧ Closer c s s' := by
  obtain ⟨s', hst, hc⟩ := h.popStep_closer rfl hpop
  refine ⟨s', ?_, hc⟩
  unfold Mpsc.step
  rw [if_neg (by simp [ha, h.crashed])]
  simp only [Mpsc.consStep]
  cases hpc : s.cons c
  all_goals
    rw [hpc] at hpop hst
    first
      | exact hst
      | cases hpop

/-- A pop that has the lock returns after finitely many steps of its own. -/
theorem pop_returns {mine : Nat → Bool} {s : State} {c : Nat}
    (h : Reach (system mine) NotWhileRemoved s) (ha : s.aborted = false)
    (hpop : (s.cons c).popping = true ∨ s.cons c = .idle) :
    ∃ n s', runWhen (system mine) (NoPush c) s (List.replicate n (.cons c)) = some s' ∧
      s'.cons c = .idle := by
  -- induction on the distance from the return
  induction hm : 10 * s.queue.length + (s.cons c).togo using Nat.strong_induction_on
    generalizing s with
  | _ m ih =>
    rcases hpop with hpop | hidle
    · obtain ⟨chain, hinv⟩ := reach_inv h
      obtain ⟨s1, hst, ha1, hpop1, hlt⟩ := hinv.step_closer hpop ha
      obtain ⟨n, s', hr, hidle⟩ := ih _ (hm ▸ hlt) (h.next (a := Act.cons c) trivial hst)
        (ha1.trans ha) hpop1 rfl
      refine ⟨n + 1, s', ?_, hidle⟩
      rw [List.replicate_succ, runWhen, if_pos (show NoPush c s (.cons c) from trivial)]
      exact Option.bind_eq_some_iff.mpr ⟨s1, hst, hr⟩
    · exact ⟨0, s, rfl, hidle⟩

end Mpsc
end AbtReconverse
