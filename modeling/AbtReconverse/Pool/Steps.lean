import AbtReconverse.Pool.Chain

/-!
# AbtReconverse.Pool.Steps

The steps of the lock-free pool as rules: one for each way through `push`, `pop_mpsc` and
`remove_unit`, with the tests that lead there (`ConsStep`, `Step`). Properties of the steps are
proved by cases on them (`consStep_cases`, `step_cases`).

Every step keeps the invariant of `AbtReconverse.Pool.Chain`: the effect lemmas there, put together
along the rules (`step_inv`), and so it holds in every reached state (`reach_inv`).
-/

namespace AbtReconverse
namespace Mpsc

open Lts

/-- What a step of a consumer's call does. -/
inductive ConsStep (s : State) (c : Nat) : State → Prop where
  | popLock (hpc : s.cons c = .popLock) (hlk : s.lk = none) :
    ConsStep s c ({ s with lk := some c }.setCons c .popHead)
  | popEmpty (hpc : s.cons c = .popHead) (hhead : s.head = .stub) (hnext : s.next .stub = none) :
    ConsStep s c (s.setCons c (.popUnlock none))
  | popPass {v : Node} (hpc : s.cons c = .popHead) (hhead : s.head = .stub)
    (hnext : s.next .stub = some v) : ConsStep s c ({ s with head := v }.setCons c (.popSecond v))
  | popHead (hpc : s.cons c = .popHead) (hhead : s.head ≠ .stub) :
    ConsStep s c (s.setCons c (.popTest s.head (s.next s.head)))
  | popSecond {x : Node} (hpc : s.cons c = .popSecond x) :
    ConsStep s c (s.setCons c (.popTest x (s.next x)))
  | popTest {x v : Node} (hpc : s.cons c = .popTest x (some v)) :
    ConsStep s c (s.setCons c (.popTake x v))
  | popGiveUp {x : Node} (hpc : s.cons c = .popTest x none) (htail : x ≠ s.tail) :
    ConsStep s c (s.setCons c (.popUnlock none))
  | popLast {x : Node} (hpc : s.cons c = .popTest x none) (htail : x = s.tail) :
    ConsStep s c (s.setCons c (.popStub x))
  | popStub {x : Node} (hpc : s.cons c = .popStub x) :
    ConsStep s c ((s.setNext .stub none).setCons c (.popSwap x))
  | popSwap {x : Node} (hpc : s.cons c = .popSwap x) :
    ConsStep s c ({ s with tail := .stub }.setCons c (.popLink x s.tail))
  | popLink {x u : Node} (hpc : s.cons c = .popLink x u) :
    ConsStep s c ((s.setNext u (some .stub)).setCons c (.popReload x))
  | popBroken {x : Node} (hpc : s.cons c = .popReload x) (hnext : s.next x = none) :
    ConsStep s c (s.setCons c (.popUnlock none))
  | popReload {x v : Node} (hpc : s.cons c = .popReload x) (hnext : s.next x = some v) :
    ConsStep s c (s.setCons c (.popTake x v))
  | popCrash {v : Node} (hpc : s.cons c = .popTake .stub v) :
    ConsStep s c ({ s with head := v, crashed := true }.setCons c .idle)
  | popTake {t : Nat} {v : Node} (hpc : s.cons c = .popTake (.unit t) v) :
    ConsStep s c ({ s with
      head := v
      out := s.out ++ [(s.cur t, if s.removed t then none else some c)] }.setCons c
        (.popClear (s.cur t)))
  | popClear {p : Push} (hpc : s.cons c = .popClear p) :
    ConsStep s c ({ s with inPool := Function.update s.inPool p.unit false }.setCons c (.popFlag p))
  | popDiscard {p : Push} (hpc : s.cons c = .popFlag p) (hr : s.removed p.unit = true) :
    ConsStep s c ({ s with removed := Function.update s.removed p.unit false }.setCons c .popHead)
  | popKeep {p : Push} (hpc : s.cons c = .popFlag p) (hr : s.removed p.unit = false) :
    ConsStep s c (s.setCons c (.popUnlock (some p)))
  | popNull (hpc : s.cons c = .popUnlock none) :
    ConsStep s c ({ s with lk := none }.back c (.popped none))
  | popUnlock {p : Push} (hpc : s.cons c = .popUnlock (some p)) :
    ConsStep s c ({ s with lk := none }.setCons c (.popCount p))
  | popCount {p : Push} (hpc : s.cons c = .popCount p) :
    ConsStep s c ({ s with count := s.count - 1 }.back c (.popped (some p)))
  | remLock {t : Nat} (hpc : s.cons c = .remLock t) (hlk : s.lk = none) :
    ConsStep s c ({ s with lk := some c }.setCons c (.remTest t))
  | remTest {t : Nat} (hpc : s.cons c = .remTest t) (hin : s.inPool t ∧ s.mine t) :
    ConsStep s c (s.setCons c (.remMark t))
  | remAbsent {t : Nat} (hpc : s.cons c = .remTest t) (hin : ¬ (s.inPool t ∧ s.mine t)) :
    ConsStep s c (s.setCons c (.remUnlock false))
  | remTwice {t : Nat} (hpc : s.cons c = .remMark t) (hr : s.removed t = true) :
    ConsStep s c (s.setCons c (.remUnlock false))
  | remMark {t : Nat} (hpc : s.cons c = .remMark t) (hr : s.removed t = false) :
    ConsStep s c ({ s with
      removed := Function.update s.removed t true
      hits := s.hits ++ [s.cur t] }.setCons c (.remUnlock true))
  | remMiss (hpc : s.cons c = .remUnlock false) :
    ConsStep s c ({ s with lk := none }.back c (.removed false))
  | remUnlock (hpc : s.cons c = .remUnlock true) :
    ConsStep s c ({ s with lk := none }.setCons c .remCount)
  | remCount (hpc : s.cons c = .remCount) :
    ConsStep s c ({ s with count := s.count - 1 }.back c (.removed true))

/-- What an action does. -/
inductive Step (s : State) : Act → State → Prop where
  | abort {t : Nat} (hin : s.inPool t = true) : Step s (.enter t) { s with aborted := true }
  | enter {t : Nat} (hin : s.inPool t = false) :
    Step s (.enter t) ({ s with
      inPool := Function.update s.inPool t true
      num := Function.update s.num t (s.num t + 1) }.setPush t .clear)
  | clear {t : Nat} (hpc : s.push t = .clear) :
    Step s (.push t) ((s.setNext (.unit t) none).setPush t .exchange)
  | exchange {t : Nat} (hpc : s.push t = .exchange) :
    Step s (.push t) ({ s with
      tail := .unit t
      pushed := s.pushed ++ [s.cur t] }.setPush t (.link s.tail))
  | link {t : Nat} {u : Node} (hpc : s.push t = .link u) :
    Step s (.push t)
      ({ s.setNext u (some (.unit t)) with linked := s.linked + 1 }.setPush t .idle)
  | count (hpos : 0 < s.linked) :
    Step s .count { s with count := s.count + 1, linked := s.linked - 1 }
  | pop {c : Nat} (hidle : s.cons c = .idle) : Step s (.pop c) (s.setCons c .popLock)
  | remove {c t : Nat} (hidle : s.cons c = .idle) : Step s (.remove c t) (s.setCons c (.remLock t))
  | cons {c : Nat} {s' : State} (hst : ConsStep s c s') : Step s (.cons c) s'

section

variable {s s' : State} {c t : Nat}

theorem popStep_cases {pc : ConsPc} (hpc : s.cons c = pc) (hst : popStep s c pc = some s') :
    ConsStep s c s' := by
  cases pc with
  | popLock =>
    simp only [popStep, Option.ite_none_right_eq_some] at hst
    obtain ⟨hlk, hst⟩ := hst
    cases hst
    exact .popLock hpc hlk
  | popHead =>
    simp only [popStep] at hst
    split at hst
    · split at hst <;> cases hst
      · exact .popEmpty hpc ‹_› ‹_›
      · exact .popPass hpc ‹_› ‹_›
    · cases hst
      exact .popHead hpc ‹_›
  | popSecond x => cases hst; exact .popSecond hpc
  | popTest x o =>
    cases o with
    | some v => cases hst; exact .popTest hpc
    | none =>
      simp only [popStep] at hst
      split at hst <;> cases hst
      · exact .popGiveUp hpc ‹_›
      · exact .popLast hpc (not_not.mp ‹_›)
  | popStub x => cases hst; exact .popStub hpc
  | popSwap x => cases hst; exact .popSwap hpc
  | popLink x u => cases hst; exact .popLink hpc
  | popReload x =>
    simp only [popStep] at hst
    split at hst <;> cases hst
    · exact .popBroken hpc ‹_›
    · exact .popReload hpc ‹_›
  | popTake x v =>
    cases x with
    | stub => cases hst; exact .popCrash hpc
    | unit t => cases hst; exact .popTake hpc
  | popClear p => cases hst; exact .popClear hpc
  | popFlag p =>
    simp only [popStep] at hst
    split at hst <;> rename_i hr <;> cases hst
    · exact .popDiscard hpc hr
    · exact .popKeep hpc (by simpa using hr)
  | popUnlock o =>
    cases o with
    | none => cases hst; exact .popNull hpc
    | some p => cases hst; exact .popUnlock hpc
  | popCount p => cases hst; exact .popCount hpc
  | idle | remLock | remTest | remMark | remUnlock | remCount => cases hst

theorem removeStep_cases {pc : ConsPc} (hpc : s.cons c = pc) (hst : removeStep s c pc = some s') :
    ConsStep s c s' := by
  cases pc with
  | remLock t =>
    simp only [removeStep, Option.ite_none_right_eq_some] at hst
    obtain ⟨hlk, hst⟩ := hst
    cases hst
    exact .remLock hpc hlk
  | remTest t =>
    simp only [removeStep] at hst
    split at hst <;> cases hst
    · exact .remTest hpc ‹_›
    · exact .remAbsent hpc ‹_›
  | remMark t =>
    simp only [removeStep] at hst
    split at hst <;> rename_i hr <;> cases hst
    · exact .remTwice hpc hr
    · exact .remMark hpc (by simpa using hr)
  | remUnlock hit =>
    cases hit with
    | true => cases hst; exact .remUnlock hpc
    | false => cases hst; exact .remMiss hpc
  | remCount => cases hst; exact .remCount hpc
  | _ => cases hst

theorem consStep_cases (hst : consStep s c = some s') : ConsStep s c s' := by
  unfold consStep at hst
  split at hst
  all_goals first | exact removeStep_cases rfl hst | exact popStep_cases rfl hst

theorem step_cases {a : Act} (hst : step s a = some s') : Step s a s' := by
  unfold step at hst
  split at hst
  · cases hst
  cases a with
  | enter t =>
    cases hst
    unfold enter
    split <;> rename_i hin
    · exact .abort hin
    · exact .enter (by simpa using hin)
  | push t =>
    simp only [pushStep] at hst
    split at hst <;> rename_i hpc <;> cases hst
    · exact .clear hpc
    · exact .exchange hpc
    · exact .link hpc
  | count =>
    simp only [countStep, Option.ite_none_right_eq_some] at hst
    obtain ⟨hpos, hst⟩ := hst
    cases hst
    exact .count hpos
  | pop c =>
    simp only [Option.ite_none_right_eq_some] at hst
    obtain ⟨hidle, hst⟩ := hst
    cases hst
    exact .pop hidle
  | remove c t =>
    simp only [Option.ite_none_right_eq_some] at hst
    obtain ⟨hidle, hst⟩ := hst
    cases hst
    exact .remove hidle
  | cons c => exact .cons (consStep_cases hst)

end

namespace Inv

variable {s s' : State} {chain : List Node} {c t : Nat}

theorem consStep (h : Inv s chain) (hst : ConsStep s c s') : ∃ chain', Inv s' chain' := by
  have hheld : ∀ {pc : ConsPc}, s.cons c = pc → pc.holds = true → s.lk = some c := by
    rintro pc rfl hp
    exact (h.lock c).mp hp
  -- the lock stays as it is, is taken, or is given back
  have hsame : ∀ d, d ≠ c → (s.lk = some d ↔ s.lk = some d) := fun _ _ => Iff.rfl
  have htake : s.lk = none → ∀ d, d ≠ c → (s.lk = some d ↔ some c = some d) := by
    intro hn d hd
    rw [hn]
    simpa using Ne.symm hd
  have hgive : s.lk = some c → ∀ d, d ≠ c → (s.lk = some d ↔ none = some d) := by
    intro hs d hd
    rw [hs]
    simpa using Ne.symm hd
  have hfree : ∀ {pc : ConsPc}, s.cons c = pc → pc.holds = false → s.lk ≠ some c := by
    rintro pc rfl hp he
    rw [(h.lock c).mpr he] at hp
    cases hp
  cases hst with
  | popLock hpc hn | remLock hpc hn =>
    exact ⟨chain, h.goto hpc rfl (htake hn) (iff_of_true rfl rfl) (.plain rfl rfl rfl nofun)⟩
  | popEmpty hpc _ _ | popGiveUp hpc _ | popBroken hpc _ | remAbsent hpc _ | remTwice hpc _ =>
    exact ⟨chain, h.goto hpc rfl hsame (iff_of_true rfl (hheld hpc rfl))
      (.plain rfl rfl rfl nofun)⟩
  | popPass hpc hhead hv => exact h.passStub hpc hhead hv
  | popHead hpc hhead =>
    exact ⟨chain, h.goto hpc rfl hsame (iff_of_true rfl (hheld hpc rfl))
      (.look rfl ⟨rfl, hhead⟩ (fun _ hv => hv) nofun nofun nofun nofun)⟩
  | popSecond hpc =>
    have hx := (h.consOk c).looks _ (by rw [hpc]; rfl)
    exact ⟨chain, h.goto hpc rfl hsame (iff_of_true rfl (hheld hpc rfl))
      (.look rfl hx (fun _ hv => hv) nofun nofun nofun nofun)⟩
  | popTest hpc =>
    have hx := (h.consOk c).looks _ (by rw [hpc]; rfl)
    have hv := (h.consOk c).sees _ _ (by rw [hpc]; rfl) (by rw [hpc]; rfl)
    exact ⟨chain, h.goto hpc rfl hsame (iff_of_true rfl (hheld hpc rfl))
      (.look rfl hx (by rintro _ ⟨⟩; exact hv) nofun nofun nofun nofun)⟩
  | @popLast x hpc hxt =>
    have hx := (h.consOk c).looks x (by rw [hpc]; rfl)
    refine ⟨chain, h.goto hpc rfl hsame (iff_of_true rfl (hheld hpc rfl))
      (.look rfl hx nofun (fun _ hm => ?_) nofun nofun nofun)⟩
    -- the first node is the last one
    obtain ⟨l, rfl⟩ := h.looks_chain (c := c) (x := x) (by rw [hpc]; rfl)
    cases l with
    | nil => exact hx.2 (List.mem_singleton.mp hm).symm
    | cons a l =>
      have hlast := h.tail
      rw [List.getLast?_cons_cons, ← hxt] at hlast
      exact (List.nodup_cons.mp h.broken.nodup).1 (List.mem_of_getLast? hlast)
  | popStub hpc => exact ⟨chain, h.clearStub hpc⟩
  | popSwap hpc => exact ⟨_, h.swapStub hpc⟩
  | popLink hpc => exact ⟨chain, h.linkStubPrev hpc⟩
  | popReload hpc hv =>
    have hx := (h.consOk c).looks _ (by rw [hpc]; rfl)
    exact ⟨chain, h.goto hpc rfl hsame (iff_of_true rfl (hheld hpc rfl))
      (.look rfl hx (by rintro _ ⟨⟩; exact hv) nofun nofun nofun nofun)⟩
  | popCrash hpc => exact absurd rfl ((h.consOk c).looks .stub (by rw [hpc]; rfl)).2
  | popTake hpc => exact h.takeHead hpc
  | popClear hpc => exact ⟨chain, h.clearInPool hpc⟩
  | popDiscard hpc hr => exact ⟨chain, h.discard hpc hr⟩
  | @popKeep p hpc hr =>
    refine ⟨chain, h.move hsame (iff_of_true rfl (hheld hpc rfl))
      ⟨nofun, nofun, nofun, nofun, nofun, nofun, nofun, nofun, ?_, nofun, nofun⟩ (by rw [hpc]; nofun)
      (by rw [hpc]; nofun) ?_⟩
    · rintro q ⟨⟩
      have := (h.consOk c).hand p (by rw [hpc]; rfl)
      rwa [hr] at this
    · intro q hq
      rw [hpc] at hq
      cases hq
      exact hr
  | popNull hpc => exact ⟨chain, h.back (hgive (hheld hpc rfl)) (by simp) (by simp) (.inl hpc)⟩
  | popUnlock hpc =>
    refine ⟨chain, h.goto hpc rfl (hgive (hheld hpc rfl)) (iff_of_false nofun nofun) (.free rfl ?_)⟩
    rintro q ⟨⟩
    exact (h.consOk c).returns _ (by rw [hpc]; rfl)
  | popCount hpc =>
    refine ⟨chain, h.back hsame (hfree hpc rfl) ?_ (.inr (.inl ⟨_, hpc⟩))⟩
    rintro q ⟨⟩
    exact (h.consOk c).returns _ (by rw [hpc]; rfl)
  | remTest hpc hin =>
    refine ⟨chain, h.goto hpc rfl hsame (iff_of_true rfl (hheld hpc rfl))
      ⟨nofun, nofun, nofun, nofun, nofun, nofun, nofun, ?_, nofun, nofun, nofun⟩⟩
    rintro w ⟨⟩
    exact hin.1
  | remMark hpc hr => exact ⟨chain, h.markRemoved hpc hr⟩
  | remMiss hpc =>
    exact ⟨chain, h.back (hgive (hheld hpc rfl)) (by simp) (by simp) (.inr (.inr (.inl hpc)))⟩
  | remUnlock hpc =>
    exact ⟨chain, h.goto hpc rfl (hgive (hheld hpc rfl)) (iff_of_false nofun nofun)
      (.plain rfl rfl rfl nofun)⟩
  | remCount hpc =>
    exact ⟨chain, h.back hsame (hfree hpc rfl) (by simp) (.inr (.inr (.inr hpc)))⟩

end Inv

theorem step_inv {s s' : State} {chain : List Node} {a : Act} (h : Inv s chain)
    (hg : NotWhileRemoved s a) (hst : step s a = some s') : ∃ chain', Inv s' chain' := by
  cases step_cases hst with
  | abort _ =>
    exact ⟨chain, { h with
      unitOk := fun t => { h.unitOk t with }
      consOk := fun c => { h.consOk c with } }⟩
  | enter hin => exact ⟨chain, h.enter hin hg⟩
  | clear hpc => exact ⟨chain, h.clearNext hpc⟩
  | exchange hpc => exact ⟨_, h.exchangeTail hpc⟩
  | link hpc => exact ⟨chain, h.linkPrev hpc⟩
  | count _ => exact ⟨chain, h.addCount _ _⟩
  | @pop c hidle | @remove c t hidle =>
    have hn : s.lk ≠ some c := by
      intro he
      have := (h.lock c).mpr he
      rw [hidle] at this
      cases this
    exact ⟨chain, h.goto hidle rfl (fun _ _ => Iff.rfl) (iff_of_false nofun hn)
      (.plain rfl rfl rfl nofun)⟩
  | cons hst => exact h.consStep hst

theorem reach_inv {mine : Nat → Bool} {s : State} (h : Reach (system mine) NotWhileRemoved s) :
    ∃ chain, Inv s chain := by
  refine Reach.invariant (I := fun s => ∃ chain, Inv s chain) ?_ ?_ h
  · rintro _ rfl; exact ⟨_, .start mine⟩
  · rintro s a s' _ ⟨chain, hinv⟩ hg hst; exact step_inv hinv hg hst

end Mpsc
end AbtReconverse
