import AbtReconverse.Pool.Size
import AbtReconverse.Pool.Waiting

/-!
# AbtReconverse.Pool.MpscPath

The lock-free path of a built-in pool as a store of `Pool.Waiting`, for every interleaving: also
those in which a removed unit is pushed again between the pop's store to `in_pool` and its exchange
of `removed`, which `NotWhileRemoved` excludes. A pop that is about to clear a mark changes nothing
else and has the lock, so the other steps commute with its own (`clearMark_step`): a state is related
to the one after that step (`settle`), in which the mark is gone, and there the invariants of
`Pool.Chain` and `Pool.Size` hold.

A pop gives up where a link is missing behind its node, and there is a push to write it
(`late_of_link`), or where the queue is empty, and then every unit counted is owed (`taken_of_nil`).
-/

namespace AbtReconverse
namespace Mpsc

open Lts
open Waiting (StoreAct PushPhase CallPhase View Moves Store)

/-! ### Phases -/

def PushPc.phase : PushPc → PushPhase
  | .idle => .idle
  | .clear | .exchange => .early
  | .link _ => .late

/-- A pop that has read a null `next` gives up unless its node is still the last one, and one that
has taken a removed unit goes on. -/
def callPhase (tail : Node) (removed : Nat → Bool) : ConsPc → CallPhase
  | .idle => .idle
  | .popLock | .popHead | .popSecond _ | .popTest _ (some _) | .popStub _ | .popSwap _
  | .popLink _ _ | .popReload _ | .popTake _ _ => .popping
  | .popTest h none => if h = tail then .popping else .gone
  | .popClear p | .popFlag p => if removed p.unit then .popping else .owes
  | .popUnlock none => .gone
  | .popUnlock (some _) | .popCount _ => .owes
  | .remLock _ | .remTest _ | .remMark _ | .remUnlock false => .removing
  | .remUnlock true | .remCount => .owes

def view (s : State) : View where
  push := fun t => (s.push t).phase
  call := fun c => callPhase s.tail s.removed (s.cons c)
  linked := s.linked
  count := s.count

/-- Only the holder of the lock looks at `tail` and at the marks. -/
theorem callPhase_free {pc : ConsPc} (h : pc.holds = false) (x y : Node) (r r' : Nat → Bool) :
    callPhase x r pc = callPhase y r' pc := by
  cases pc with
  | popUnlock o => cases h
  | remUnlock hit => cases h
  | _ => first | rfl | cases h

theorem owes_iff {s : State} {c : Nat} : (view s).Owes c ↔ Owes s c := by
  show callPhase s.tail s.removed (s.cons c) = .owes ↔ _
  unfold Owes
  cases s.cons c with
  | popTest h o =>
    cases o with
    | none => simp only [callPhase]; split <;> simp
    | some v => simp [callPhase]
  | popUnlock o => cases o <;> simp [callPhase]
  | remUnlock hit => cases hit <;> simp [callPhase]
  | popClear p | popFlag p => cases hr : s.removed p.unit <;> simp [callPhase, hr]
  | _ => simp [callPhase]

/-! ### The steps as moves -/

section

variable {s s' : State} {chain : List Node} {c t : Nat} {pc : ConsPc} {a : StoreAct}

/-- A call goes on, and `count` becomes `n`. -/
theorem moves_call {n : Int} (h : Inv s chain) (hcons : s'.cons = Function.update s.cons c pc)
    (hsame : s'.push = s.push ∧ s'.linked = s.linked) (hn : s'.count = n)
    (hfree : (s.cons c).holds = true ∨ s'.tail = s.tail ∧ s'.removed = s.removed)
    (hm : Moves true (view s) a
      ({ view s with count := n }.setCall c (callPhase s'.tail s'.removed pc))) :
    Moves true (view s) a (view s') := by
  have hcall : (fun d => callPhase s'.tail s'.removed (Function.update s.cons c pc d)) =
      Function.update (fun d => callPhase s.tail s.removed (s.cons d)) c
        (callPhase s'.tail s'.removed pc) := by
    funext d
    by_cases hd : d = c
    · subst hd; simp
    · rw [Function.update_of_ne hd, Function.update_of_ne hd]
      obtain hc | ⟨h₁, h₂⟩ := hfree
      · exact callPhase_free (h.alone hc d hd) ..
      · rw [h₁, h₂]
  have hv : view s' = { view s with count := n }.setCall c (callPhase s'.tail s'.removed pc) := by
    unfold view View.setCall
    rw [hcons, hsame.1, hsame.2, hn, hcall]
  rw [hv]
  exact hm

/-- A step inside a call that the waiting does not see. -/
theorem calling (h : Inv s chain) (hcons : s'.cons = Function.update s.cons c pc)
    (hsame : s'.push = s.push ∧ s'.linked = s.linked) (hn : s'.count = s.count)
    (hfree : (s.cons c).holds = true ∨ s'.tail = s.tail ∧ s'.removed = s.removed) {ph : CallPhase}
    (hph : callPhase s.tail s.removed (s.cons c) = ph)
    (hph' : callPhase s'.tail s'.removed pc = ph) (hne : ph ≠ .idle) :
    Moves true (view s) (.call c) (view s') := by
  refine moves_call h hcons hsame hn hfree ?_
  have hcall : (view s).call c = ph := hph
  have hself : (view s).setCall c ph = view s := by
    rw [← hcall]
    exact congrArg (fun f => { view s with call := f }) (Function.update_eq_self c (view s).call)
  rw [hph']
  show Moves true (view s) (.call c) ((view s).setCall c ph)
  rw [hself]
  exact .calling (by rw [hcall]; exact hne)

/-- Each discarded push was marked. -/
theorem discarded_le (h : Inv s chain) :
    (s.out.filter fun e => !e.2.isSome).length ≤ s.hits.length := by
  have hnd := h.nodup
  rw [← h.history, List.nodup_append] at hnd
  have hsub : ((s.out.filter fun e => !e.2.isSome).map Prod.fst).Subperm s.hits := by
    refine (hnd.1.sublist (List.filter_sublist.map _)).subperm ?_
    intro p hp
    obtain ⟨⟨q, r⟩, hm, rfl⟩ := List.mem_map.mp hp
    obtain ⟨ho, hr⟩ := List.mem_filter.mp hm
    exact (h.fate q r ho).mp (by simpa using hr)
  simpa using hsub.length_le

/-- The queue is empty: what is still counted is owed. -/
theorem taken_of_nil (h : Inv s chain) (hc : CountInv s) (hnil : units chain = []) :
    ∃ d, Counts d (view s).Owes ∧ (view s).count ≤ d := by
  obtain ⟨a, e, ca, ce, hcount⟩ := hc.count
  refine ⟨e, ce.congr fun x => owes_iff, ?_⟩
  have hpushed := congrArg List.length h.history
  have hout := List.length_eq_length_filter_add (l := s.out) (fun e => e.2.isSome)
  have hle := discarded_le h
  have := ca.nonneg
  rw [hnil] at hpushed
  simp only [List.length_append, List.length_map, List.map_nil, List.length_nil] at hpushed
  show s.count ≤ e
  rw [hcount, returned]
  omega

theorem late_of_link {x : Node} (ht : ∃ t, s.push t = .link x) : (view s).Late := by
  obtain ⟨t, ht⟩ := ht
  exact .inl ⟨t, by simp [view, ht, PushPc.phase]⟩

/-- The node that a pop looks at has no successor and is not the last one. -/
theorem late_of_looks (h : Inv s chain) (hc : (s.cons c).holds = true)
    (hlink : ∀ x u, s.cons c ≠ .popLink x u) {x : Node} (hhead : s.head = x)
    (hx : s.next x = none) (htail : x ≠ s.tail) : (view s).Late := by
  have hfirst := h.head
  have hlast := h.tail
  cases chain with
  | nil => cases hfirst
  | cons y l =>
    cases hfirst.trans (congrArg some hhead)
    cases l with
    | nil => cases hlast; exact absurd rfl htail
    | cons v l => exact late_of_link (h.push_of_none hc hlink rfl hx)

/-- The pop reads `next` of its node. -/
theorem test_moves (h : Inv s chain) {x : Node} (hc : (s.cons c).holds = true)
    (hlink : ∀ x u, s.cons c ≠ .popLink x u) (hhead : s.head = x)
    (hph : callPhase s.tail s.removed (s.cons c) = .popping) :
    Moves true (view s) (.call c) (view (s.setCons c (.popTest x (s.next x)))) := by
  cases hx : s.next x with
  | some v => exact calling h rfl ⟨rfl, rfl⟩ rfl (.inl hc) hph rfl (by simp)
  | none =>
    by_cases htail : x = s.tail
    · exact calling h rfl ⟨rfl, rfl⟩ rfl (.inl hc) hph (if_pos htail) (by simp)
    · refine moves_call h rfl ⟨rfl, rfl⟩ rfl (.inl hc) ?_
      show Moves true (view s) (.call c) ((view s).setCall c (if x = s.tail then .popping else .gone))
      rw [if_neg htail]
      exact .miss hph (.inl ⟨rfl, late_of_looks h hc hlink hhead hx htail⟩)

theorem consStep_moves (h : Inv s chain) (hc : CountInv s) (hst : ConsStep s c s') :
    Moves true (view s) (.call c) (view s') := by
  have hph : ∀ {pc : ConsPc}, s.cons c = pc →
      callPhase s.tail s.removed (s.cons c) = callPhase s.tail s.removed pc := by
    rintro pc rfl
    rfl
  have hheld : ∀ {pc : ConsPc}, s.cons c = pc → pc.holds = true → (s.cons c).holds = true := by
    rintro pc rfl
    exact id
  cases hst with
  | popLock hpc _ | remLock hpc _ =>
    exact calling h rfl ⟨rfl, rfl⟩ rfl (.inr ⟨rfl, rfl⟩) (hph hpc) rfl (by simp [callPhase])
  | popEmpty hpc hhead hnext =>
    refine moves_call h rfl ⟨rfl, rfl⟩ rfl (.inl (hheld hpc rfl)) (.miss (hph hpc) ?_)
    have hfirst := h.head
    cases chain with
    | nil => cases hfirst
    | cons y l =>
      cases hfirst.trans (congrArg some hhead)
      cases l with
      | nil => exact .inr (taken_of_nil h hc rfl)
      | cons v l =>
        exact .inl ⟨rfl, late_of_link (h.push_of_none (hheld hpc rfl) (by simp [hpc]) rfl hnext)⟩
  | popHead hpc _ => exact test_moves h (hheld hpc rfl) (by simp [hpc]) rfl (hph hpc)
  | popSecond hpc =>
    have hlooks := (h.consOk c).looks _ (by rw [hpc]; rfl)
    exact test_moves h (hheld hpc rfl) (by simp [hpc]) hlooks.1 (hph hpc)
  | popGiveUp hpc htail =>
    exact calling h rfl ⟨rfl, rfl⟩ rfl (.inl (hheld hpc rfl)) ((hph hpc).trans (if_neg htail)) rfl
      (by simp)
  | popLast hpc htail =>
    exact calling h rfl ⟨rfl, rfl⟩ rfl (.inl (hheld hpc rfl)) ((hph hpc).trans (if_pos htail)) rfl
      (by simp)
  | @popBroken x hpc hnext =>
    refine moves_call h rfl ⟨rfl, rfl⟩ rfl (.inl (hheld hpc rfl)) (.miss (hph hpc) (.inl ⟨rfl, ?_⟩))
    -- the stub is in the list, so the node is not alone there
    obtain ⟨hhead, hne⟩ := (h.consOk c).looks x (by rw [hpc]; rfl)
    have hstub := (h.consOk c).reload x hpc
    obtain ⟨l, rfl⟩ := h.looks_chain (c := c) (x := x) (by rw [hpc]; rfl)
    cases l with
    | nil => exact absurd (List.mem_singleton.mp hstub).symm hne
    | cons v l => exact late_of_link (h.push_of_none (hheld hpc rfl) (by simp [hpc]) rfl hnext)
  | popCrash hpc => exact absurd rfl ((h.consOk c).looks .stub (by rw [hpc]; rfl)).2
  | @popTake t v hpc =>
    cases hr : s.removed t with
    | true =>
      exact calling h rfl ⟨rfl, rfl⟩ rfl (.inl (hheld hpc rfl)) (hph hpc) (if_pos hr)
        (by simp [callPhase])
    | false =>
      refine moves_call h rfl ⟨rfl, rfl⟩ rfl (.inl (hheld hpc rfl)) ?_
      have hph' : callPhase s.tail s.removed (.popClear (s.cur t)) = .owes :=
        if_neg (by simp [State.cur, hr])
      show Moves true (view s) (.call c)
        ((view s).setCall c (callPhase s.tail s.removed (.popClear (s.cur t))))
      rw [hph']
      exact .take (.inl (hph hpc))
  | popClear hpc =>
    refine calling h rfl ⟨rfl, rfl⟩ rfl (.inl (hheld hpc rfl)) (hph hpc) rfl ?_
    simp only [callPhase]
    split <;> simp
  | popDiscard hpc hr =>
    exact calling h rfl ⟨rfl, rfl⟩ rfl (.inl (hheld hpc rfl)) ((hph hpc).trans (if_pos hr)) rfl
      (by simp)
  | popKeep hpc hr =>
    exact calling h rfl ⟨rfl, rfl⟩ rfl (.inl (hheld hpc rfl))
      ((hph hpc).trans (if_neg (by simp [hr]))) rfl (by simp)
  | popNull hpc => exact moves_call h rfl ⟨rfl, rfl⟩ rfl (.inl (hheld hpc rfl)) (.back (hph hpc))
  | remMark hpc _ =>
    exact moves_call h rfl ⟨rfl, rfl⟩ rfl (.inl (hheld hpc rfl)) (.take (.inr (hph hpc)))
  | remMiss hpc => exact moves_call h rfl ⟨rfl, rfl⟩ rfl (.inl (hheld hpc rfl)) (.absent (hph hpc))
  | popCount hpc | remCount hpc =>
    exact moves_call h rfl ⟨rfl, rfl⟩ rfl (.inr ⟨rfl, rfl⟩) (.pay (hph hpc))
  | popPass hpc _ _ | popTest hpc | popStub hpc | popSwap hpc | popLink hpc | popReload hpc _
  | popUnlock hpc | remTest hpc _ | remAbsent hpc _ | remTwice hpc _ | remUnlock hpc =>
    exact calling h rfl ⟨rfl, rfl⟩ rfl (.inl (hheld hpc rfl)) (hph hpc) rfl (by simp [callPhase])

/-- A push goes on. -/
theorem moves_push {n : Nat} {pc : PushPc} (hpush : s'.push = Function.update s.push t pc)
    (hsame : s'.cons = s.cons ∧ s'.removed = s.removed ∧ s'.count = s.count) (hn : s'.linked = n)
    (hm : Moves true (view s) a ({ view s with
      call := fun c => callPhase s'.tail s.removed (s.cons c)
      linked := n }.setPush t pc.phase)) :
    Moves true (view s) a (view s') := by
  have hv : view s' = { view s with
      call := fun c => callPhase s'.tail s.removed (s.cons c)
      linked := n }.setPush t pc.phase := by
    unfold view View.setPush
    rw [hpush, hsame.1, hsame.2.1, hsame.2.2, hn]
    congr
    exact Function.comp_update PushPc.phase s.push t pc
  rw [hv]
  exact hm

/-- The exchange of `tail` leaves a pop that has found its node to be the last one with nothing. -/
theorem phase_exchange (h : Inv s chain) (hpc : s.push t = .exchange) (c : Nat) :
    callPhase (.unit t) s.removed (s.cons c) = callPhase s.tail s.removed (s.cons c) ∨
      callPhase s.tail s.removed (s.cons c) = .popping ∧
        callPhase (.unit t) s.removed (s.cons c) = .gone := by
  cases hc : s.cons c with
  | popTest x o =>
    cases o with
    | some v => exact .inl rfl
    | none =>
      have hx : x ≠ .unit t := by
        rintro rfl
        have hhead := ((h.consOk c).looks (.unit t) (by rw [hc]; rfl)).1
        have hmem := h.head_mem
        rw [hhead] at hmem
        exact h.not_mem_of_early (by rw [hpc]; rfl) hmem
      have hgone : callPhase (.unit t) s.removed (.popTest x none) = .gone := if_neg hx
      rw [hgone]
      by_cases htail : x = s.tail
      · exact .inr ⟨if_pos htail, rfl⟩
      · exact .inl (if_neg htail).symm
  | popUnlock o => cases o <;> exact .inl rfl
  | remUnlock hit => cases hit <;> exact .inl rfl
  | _ => exact .inl rfl

end

/-! ### Every interleaving -/

def act : StoreAct → Act
  | .enter t => .enter t
  | .push t => .push t
  | .count => .count
  | .pop c => .pop c
  | .remove c t => .remove c t
  | .call c => .cons c

theorem step_moves {s s' : State} {chain : List Node} {a : StoreAct} (h : Inv s chain)
    (hc : CountInv s) (hst : step s (act a) = some s') (hnot : s'.aborted = false) :
    Moves true (view s) a (view s') := by
  have hst := step_cases hst
  cases a with
  | enter t =>
    cases hst with
    | abort _ => cases hnot
    | enter hin =>
      have hidle := h.push_idle hin
      exact moves_push rfl ⟨rfl, rfl, rfl⟩ rfl (.enter (by simp [view, hidle, PushPc.phase]))
  | push t =>
    have hph : (view s).push t = (s.push t).phase := rfl
    cases hst with
    | clear hpc =>
      rw [hpc] at hph
      have hself : (view s).setPush t .early = view s :=
        congrArg (fun f => { view s with push := f })
          ((congrArg (Function.update (view s).push t) hph.symm).trans
            (Function.update_eq_self t (view s).push))
      refine moves_push rfl ⟨rfl, rfl, rfl⟩ rfl ?_
      show Moves true (view s) (.push t) ((view s).setPush t .early)
      rw [hself]
      exact .pushing (by simp [hph, PushPc.phase])
    | exchange hpc =>
      rw [hpc] at hph
      refine moves_push rfl ⟨rfl, rfl, rfl⟩ rfl (.arrive _ hph fun c => ?_)
      exact (phase_exchange h hpc c).imp_right fun hx => ⟨rfl, hx⟩
    | link hpc =>
      rw [hpc] at hph
      exact moves_push rfl ⟨rfl, rfl, rfl⟩ rfl (.link hph)
  | count =>
    cases hst with
    | count hpos => exact .reveal hpos
  | pop c | remove c t =>
    cases hst
    rename_i hidle
    refine moves_call h rfl ⟨rfl, rfl⟩ rfl (.inr ⟨rfl, rfl⟩) ?_
    constructor
    simp [view, hidle, callPhase]
  | call c =>
    cases hst with
    | cons hst => exact consStep_moves h hc hst

/-- Pop `c` has the lock and is about to clear the mark of `p`. -/
structure Clearing (s : State) (c : Nat) (p : Push) : Prop where
  lk : s.lk = some c
  cons : s.cons c = .popFlag p
  removed : s.removed p.unit = true

/-- It has cleared it. -/
def clearMark (s : State) (c : Nat) (p : Push) : State :=
  { s with removed := Function.update s.removed p.unit false }.setCons c .popHead

def Settled (s : State) : Prop := ∃ chain, Inv s chain ∧ CountInv s

def Ok (s : State) : Prop :=
  Settled s ∧ (∀ c p, ¬ Clearing s c p) ∨ ∃ c p, Clearing s c p ∧ Settled (clearMark s c p)

section

variable {s s' : State} {c : Nat} {p : Push} {a : StoreAct}

theorem Clearing.consStep (h : Clearing s c p) : ConsStep s c (clearMark s c p) :=
  .popDiscard h.cons h.removed

theorem Clearing.step (h : Clearing s c p) (hst : step s (.cons c) = some s') :
    s' = clearMark s c p := by
  have hflag : Mpsc.consStep s c = some (clearMark s c p) := by
    simp only [Mpsc.consStep, h.cons, popStep, h.removed, if_true]
    rfl
  unfold Mpsc.step at hst
  split at hst
  · cases hst
  · exact Option.some.inj (hst.symm.trans hflag)

theorem Settled.ok (h : Settled s) : Ok s := by
  by_cases hcl : ∃ c p, Clearing s c p
  · obtain ⟨c, p, hcl⟩ := hcl
    obtain ⟨chain, hinv, hcount⟩ := h
    obtain ⟨chain', hinv'⟩ := hinv.consStep hcl.consStep
    exact .inr ⟨c, p, hcl, chain', hinv', hcount.consStep hinv hcl.consStep⟩
  · refine .inl ⟨h, fun c p hx => hcl ⟨c, p, hx⟩⟩

/-- A push that does not abort is of a unit that is not marked, unless a pop is clearing the mark. -/
theorem not_removed {chain : List Node} (h : Inv s chain) (hno : ∀ c p, ¬ Clearing s c p)
    (hst : step s (act a) = some s') (hnot : s'.aborted = false) : NotWhileRemoved s (act a) := by
  cases a with
  | enter t =>
    show s.removed t = false
    by_contra hr
    have hr : s.removed t = true := by simpa using hr
    obtain ⟨-, hin | ⟨c, hc⟩⟩ := (h.unitOk t).removed hr
    · cases step_cases hst with
      | abort _ => cases hnot
      | enter hout => rw [hin] at hout; cases hout
    · exact hno c _ ⟨(h.lock c).mp (by rw [hc]; rfl), hc, hr⟩
  | _ => trivial

theorem Settled.step (h : Settled s) (hno : ∀ c p, ¬ Clearing s c p)
    (hst : step s (act a) = some s') (hnot : s'.aborted = false) :
    Settled s' ∧ Moves true (view s) a (view s') := by
  obtain ⟨chain, hinv, hcount⟩ := h
  obtain ⟨chain', hinv'⟩ := step_inv hinv (not_removed hinv hno hst hnot) hst
  exact ⟨⟨chain', hinv', hcount.step hinv hst⟩, step_moves hinv hcount hst hnot⟩

/-- The others do not look at the mark. -/
theorem view_clearMark (h : Clearing s c p) (hother : ∀ d, d ≠ c → (s.cons d).holds = false) :
    view (clearMark s c p) = view s := by
  have hcall : ∀ d, callPhase (clearMark s c p).tail (clearMark s c p).removed
      ((clearMark s c p).cons d) = callPhase s.tail s.removed (s.cons d) := by
    intro d
    by_cases hd : d = c
    · subst hd
      rw [h.cons]
      have hself : (clearMark s d p).cons d = .popHead := Function.update_self ..
      rw [hself]
      exact (if_pos h.removed).symm
    · have hkept : (clearMark s c p).cons d = s.cons d := Function.update_of_ne hd ..
      rw [hkept]
      exact callPhase_free (hother d hd) ..
  exact congrArg (fun f => { view s with call := f }) (funext hcall)

/-- A consumer and the pop that clears the mark are at different places. -/
theorem clearMark_update {d : Nat} (hd : d ≠ c) (pc : ConsPc) :
    Function.update (Function.update s.cons d pc) c .popHead =
      Function.update (clearMark s c p).cons d pc :=
  Function.update_comm hd ..

/-- The steps of the others commute with the clearing of the mark. -/
theorem clearMark_step (h : Clearing s c p) (hother : ∀ d, d ≠ c → (s.cons d).holds = false)
    (ha : a ≠ .call c) (hst : step s (act a) = some s') :
    step (clearMark s c p) (act a) = some (clearMark s' c p) ∧ Clearing s' c p := by
  have hrun : ¬ (s.aborted = true ∨ s.crashed = true) := by
    intro hx
    simp [step, hx] at hst
  unfold step at hst ⊢
  rw [if_neg hrun] at hst
  rw [if_neg (show ¬ ((clearMark s c p).aborted = true ∨ (clearMark s c p).crashed = true) from hrun)]
  cases a with
  | enter t =>
    cases hst
    by_cases hin : s.inPool t = true
    · have hin' : (clearMark s c p).inPool t = true := hin
      simp only [act, enter, if_pos hin, if_pos hin']
      exact ⟨rfl, h.lk, h.cons, h.removed⟩
    · have hin' : ¬ (clearMark s c p).inPool t = true := hin
      simp only [act, enter, if_neg hin, if_neg hin']
      exact ⟨rfl, h.lk, h.cons, h.removed⟩
  | push t =>
    have hpush : (clearMark s c p).push t = s.push t := rfl
    simp only [act, pushStep] at hst ⊢
    rw [hpush]
    cases hpc : s.push t with
    | idle => simp [hpc] at hst
    | clear | exchange | link u =>
      rw [hpc] at hst
      cases hst
      exact ⟨rfl, h.lk, h.cons, h.removed⟩
  | count =>
    simp only [act, countStep, Option.ite_none_right_eq_some] at hst ⊢
    obtain ⟨hpos, hst⟩ := hst
    cases hst
    exact ⟨⟨hpos, rfl⟩, h.lk, h.cons, h.removed⟩
  | pop d | remove d t =>
    simp only [act, Option.ite_none_right_eq_some] at hst ⊢
    obtain ⟨hidle, hst⟩ := hst
    cases hst
    have hd : d ≠ c := by
      rintro rfl
      cases h.cons.symm.trans hidle
    refine ⟨⟨(Function.update_of_ne hd ..).trans hidle, ?_⟩, h.lk,
      (Function.update_of_ne hd.symm ..).trans h.cons, h.removed⟩
    exact congrArg (fun f => some { clearMark s c p with cons := f }) (clearMark_update hd _).symm
  | call d =>
    have hd : d ≠ c := by
      rintro rfl
      exact ha rfl
    have hkept : (clearMark s c p).cons d = s.cons d := Function.update_of_ne hd ..
    have hfree := hother d hd
    simp only [act, consStep] at hst ⊢
    rw [hkept]
    cases hpc : s.cons d with
    | idle => simp [hpc, popStep] at hst
    | popLock => simp [hpc, popStep, h.lk] at hst
    | remLock t => simp [hpc, removeStep, h.lk] at hst
    | popCount q | remCount =>
      rw [hpc] at hst
      cases hst
      refine ⟨?_, h.lk, (Function.update_of_ne hd.symm ..).trans h.cons, h.removed⟩
      simp only [popStep, removeStep, State.back, clearMark, State.setCons, Function.update_comm hd]
    | _ => simp [hpc, ConsPc.holds] at hfree

theorem Settled.alone (h : Settled (clearMark s c p)) (d : Nat) (hd : d ≠ c) :
    (s.cons d).holds = false := by
  obtain ⟨chain, hinv, -⟩ := h
  have hself : (clearMark s c p).cons c = .popHead := Function.update_self ..
  have hkept : (clearMark s c p).cons d = s.cons d := Function.update_of_ne hd ..
  rw [← hkept]
  exact hinv.alone (by rw [hself]; rfl) d hd

/-- Once the mark is cleared no pop is clearing one. -/
theorem Clearing.not_clearing (h : Clearing s c p) (d : Nat) (q : Push) :
    ¬ Clearing (clearMark s c p) d q := by
  intro hx
  cases h.lk.symm.trans hx.lk
  have hself : (clearMark s c p).cons c = .popHead := Function.update_self ..
  cases hself.symm.trans hx.cons

theorem Ok.step (h : Ok s) (hst : step s (act a) = some s') (hnot : s'.aborted = false) :
    Ok s' ∧ Moves true (view s) a (view s') := by
  obtain ⟨hset, hno⟩ | ⟨c, p, hcl, hset⟩ := h
  · obtain ⟨hset', hm⟩ := hset.step hno hst hnot
    exact ⟨hset'.ok, hm⟩
  · by_cases ha : a = .call c
    · subst ha
      obtain rfl : s' = clearMark s c p := hcl.step hst
      refine ⟨hset.ok, ?_⟩
      rw [view_clearMark hcl hset.alone]
      refine .calling ?_
      show callPhase s.tail s.removed (s.cons c) ≠ .idle
      rw [hcl.cons]
      simp [callPhase, hcl.removed]
    · obtain ⟨hst', hcl'⟩ := clearMark_step hcl hset.alone ha hst
      obtain ⟨hset', hm⟩ := hset.step hcl.not_clearing hst' hnot
      rw [view_clearMark hcl hset.alone, view_clearMark hcl' hset'.alone] at hm
      exact ⟨.inr ⟨c, p, hcl', hset'⟩, hm⟩

end

/-- The path as a store: a push that aborts ends the run. -/
def storeStep (s : State) (a : StoreAct) : Option State :=
  (step s (act a)).filter fun s' => !s'.aborted

theorem storeStep_spec {s s' : State} {a : StoreAct} (h : Ok s) (hs : storeStep s a = some s') :
    Ok s' ∧ Moves true (view s) a (view s') := by
  obtain ⟨hs, hnot⟩ := Option.filter_eq_some_iff.mp hs
  exact h.step hs (by simpa using hnot)

def store (mine : Nat → Bool) : Store State where
  holes := true
  start := initial mine
  step := storeStep
  view := view
  Allowed _ _ := True
  Ok := Ok
  ok_start := Settled.ok ⟨_, .start mine, .start mine⟩
  view_start := rfl
  ok_step h _ hs := (storeStep_spec h hs).1
  moves h _ hs := (storeStep_spec h hs).2

instance (mine : Nat → Bool) (s : State) (a : StoreAct) : Decidable ((store mine).Allowed s a) :=
  isTrue trivial

end Mpsc
end AbtReconverse
