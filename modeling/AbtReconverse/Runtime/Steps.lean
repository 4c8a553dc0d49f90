import AbtReconverse.Runtime.Machine

/-!
# AbtReconverse.Runtime.Steps

What a step of the runtime can do: one rule for each action, two where the code branches, with what
was tested before (`step_cases`). The invariants of the runtime are proved rule by rule.
-/

namespace AbtReconverse
namespace Runtime

/-- Where a PE goes on that has put a popped unit back. -/
def Caller.back : Caller → PePc
  | .poll => .sched
  | .choose u k => .choosing u k

inductive Step (c : Config) (s : State) : Act → State → Prop
  | createUlt {t p : Nat} {ty : ThreadType}
      (hg : (s.thr t).state = .unborn ∧ ty ≠ .primary ∧ ty ≠ .sched) :
      Step c s (.createUlt t p ty) { s with
        thr := Function.update s.thr t
          { Thread.fresh with type := ty, state := .blocked, pool := p } }
  | createTask {w t p : Nat} {ty : ThreadType}
      (hg : (s.thr t).state = .unborn ∧ ty ≠ .primary ∧ ty ≠ .sched ∧ s.wake w = .idle) :
      Step c s (.createTask w t p ty) { s with
        thr := Function.update s.thr t
          { Thread.fresh with type := ty, isTask := true, state := .ready, pool := p }
        wake := Function.update s.wake w (.push t p) }
  | awakenIfBlocked {w t : Nat} (hg : (s.thr t).state = .blocked ∧ s.wake w = .idle) :
      Step c s (.awakenIfBlocked w t) { s with
        thr := Function.update s.thr t { s.thr t with state := .ready }
        wake := Function.update s.wake w (.enter t) }
  | wakeCounted {w t : Nat} (hw : s.wake w = .enter t) (hc : (s.thr t).blockedCounted = true) :
      Step c s (.wakeExchange w) { s with
        thr := Function.update s.thr t { s.thr t with blockedCounted := false }
        wake := Function.update s.wake w (.sub t) }
  | wakePlain {w t : Nat} (hw : s.wake w = .enter t) (hc : ¬ (s.thr t).blockedCounted = true) :
      Step c s (.wakeExchange w) { s with wake := Function.update s.wake w (.migrate t) }
  | wakeSub {w t p : Nat} (hw : s.wake w = .sub t) (hp : (s.thr t).blockedPool = some p) :
      Step c s (.wakeSub w) { s with
        numBlocked := Function.update s.numBlocked p (s.numBlocked p - 1)
        wake := Function.update s.wake w (.migrate t) }
  | wakeMigrate {w t : Nat} (hw : s.wake w = .migrate t) :
      Step c s (.wakeMigrate w) { s with
        thr := Function.update s.thr t
          { s.thr t with pool := ((s.thr t).migrateTo).getD (s.thr t).pool, migrateTo := none }
        wake := Function.update s.wake w (.push t (((s.thr t).migrateTo).getD (s.thr t).pool)) }
  | pushUser {w t p : Nat} (hw : s.wake w = .push t p) (hu : c.user p = true) :
      Step c s (.pushEnter w) { s with wake := Function.update s.wake w (.link t p) }
  | pushTwice {w t p : Nat} (hw : s.wake w = .push t p) (hu : ¬ c.user p = true)
      (hin : (s.thr t).inPool = true) : Step c s (.pushEnter w) { s with aborted := true }
  | pushEnter {w t p : Nat} (hw : s.wake w = .push t p) (hu : ¬ c.user p = true)
      (hin : ¬ (s.thr t).inPool = true) :
      Step c s (.pushEnter w) { s with
        thr := Function.update s.thr t { s.thr t with inPool := true }
        wake := Function.update s.wake w (.link t p) }
  | pushLink {w t p : Nat} (hw : s.wake w = .link t p) :
      Step c s (.pushLink w) { s with
        queue := Function.update s.queue p (s.queue p ++ [t])
        wake := Function.update s.wake w (.count t p) }
  | pushCount {w t p : Nat} (hw : s.wake w = .count t p) :
      Step c s (.pushCount w) { s with
        count := State.addCount c s.count p 1
        wake := Function.update s.wake w .idle }
  | migrateToPool {t p : Nat} (hb : (s.thr t).state ≠ .unborn) :
      Step c s (.migrateToPool t p) { s with
        thr := Function.update s.thr t { s.thr t with migrateTo := some p } }
  | associate {t p : Nat} (hb : (s.thr t).state ≠ .unborn) :
      Step c s (.associate t p) { s with
        thr := Function.update s.thr t { s.thr t with pool := p } }
  | blockAdd {r t : Nat} (hpe : s.pe r = .running t)
      (hg : (s.thr t).isTask = false ∧ (s.thr t).blk = .out) :
      Step c s (.blockAdd r) { s with
        numBlocked := Function.update s.numBlocked (s.thr t).pool (s.numBlocked (s.thr t).pool + 1)
        thr := Function.update s.thr t { s.thr t with blk := .added (s.thr t).pool } }
  | blockPool {r t p : Nat} (hpe : s.pe r = .running t) (hblk : (s.thr t).blk = .added p) :
      Step c s (.blockPool r) { s with
        thr := Function.update s.thr t { s.thr t with blockedPool := some p, blk := .pooled p } }
  | blockFlag {r t p : Nat} (hpe : s.pe r = .running t) (hblk : (s.thr t).blk = .pooled p) :
      Step c s (.blockFlag r) { s with
        thr := Function.update s.thr t { s.thr t with blockedCounted := true, blk := .flagged } }
  | pollPop {r p i t : Nat} (hpe : s.pe r = .sched) (hi : (s.queue p)[i]? = some t)
      (hg : popTakes c s r p i = true) : Step c s (.pollPop r p i) (s.unlink c r p i t .poll)
  | popCount {r t p : Nat} {b : Caller} (hpe : s.pe r = .unlinked t p b) :
      Step c s (.popCount r) { s with
        count := State.addCount c s.count p (-1)
        pe := Function.update s.pe r (.popped t p b) }
  | putBack {r w t p : Nat} {b : Caller} (hpe : s.pe r = .popped t p b)
      (hg : pinnedElsewhere c s t r = true ∧ s.wake w = .idle) :
      Step c s (.putBack r w) { s with
        wake := Function.update s.wake w (.push t p)
        pe := Function.update s.pe r b.back }
  | takeHeld {r t : Nat} (hpe : s.pe r = .sched) (hh : s.held r = some t) :
      Step c s (.takeHeld r) { s with
        held := Function.update s.held r none
        pe := Function.update s.pe r (.popped t (s.thr t).pool .poll) }
  | runPopped {r t p : Nat} (hpe : s.pe r = .popped t p .poll)
      (hg : (s.thr t).state = .ready ∧ pinnedElsewhere c s t r = false) :
      Step c s (.runPopped r) { s with
        thr := Function.update s.thr t { s.thr t with state := .running, blk := .out }
        pe := Function.update s.pe r (.running t) }
  | taskExit {r t : Nat} (hpe : s.pe r = .running t) (ht : (s.thr t).isTask = true) :
      Step c s (.taskExit r) { s with
        thr := Function.update s.thr t { s.thr t with state := .terminated }
        pe := Function.update s.pe r .sched }
  | suspend {r t : Nat} {k : Susp} (hpe : s.pe r = .running t)
      (hg : (s.thr t).isTask = false ∧ ((k = .block ∧ (s.thr t).blk = .flagged) ∨
        (k ≠ .block ∧ (s.thr t).blk = .out ∧ (k = .exit → (s.thr t).type ≠ .primary)))) :
      Step c s (.suspend r k) { s with
        pe := Function.update s.pe r
          (if (s.thr t).type = .primary then .leaving t k none else .choosing t k) }
  | choosePop {r p i t u : Nat} {k : Susp} (hpe : s.pe r = .choosing u k)
      (hi : (s.queue p)[i]? = some t) (hg : popTakes c s r p i = true ∧ s.held r = none) :
      Step c s (.choosePop r p i) (s.unlink c r p i t (.choose u k))
  | chooseNone {r u : Nat} {k : Susp} (hpe : s.pe r = .choosing u k) :
      Step c s (.chooseNone r) { s with pe := Function.update s.pe r (.leaving u k none) }
  | choosePark {r t p u : Nat} {k : Susp} (hpe : s.pe r = .popped t p (.choose u k))
      (hg : s.held r = none ∧ pinnedElsewhere c s t r = false) :
      Step c s (.choosePark r) { s with
        held := Function.update s.held r (some t)
        pe := Function.update s.pe r (.leaving u k none) }
  | chooseDirect {r t p u : Nat} {k : Susp} (hpe : s.pe r = .popped t p (.choose u k))
      (ht : (s.thr t).isTask = false ∧ (s.thr t).type ≠ .primary) (hr : (s.thr t).state = .ready) :
      Step c s (.chooseDirect r) { s with
        thr := Function.update s.thr t { s.thr t with state := .running, blk := .out }
        pe := Function.update s.pe r (.leaving u k (some t)) }
  | chooseAbort {r t p u : Nat} {k : Susp} (hpe : s.pe r = .popped t p (.choose u k))
      (ht : (s.thr t).isTask = false ∧ (s.thr t).type ≠ .primary) (hr : ¬ (s.thr t).state = .ready) :
      Step c s (.chooseDirect r) { s with aborted := true }
  | postYield {r w t : Nat} {next : Option Nat} (hpe : s.pe r = .leaving t .yield next)
      (hw : s.wake w = .idle) :
      Step c s (.postYield r w) { s with
        thr := Function.update s.thr t { s.thr t with state := .ready }
        wake := Function.update s.wake w (.enter t)
        pe := Function.update s.pe r (State.resume next) }
  | postBlock {r t : Nat} {next : Option Nat} (hpe : s.pe r = .leaving t .block next) :
      Step c s (.postBlock r) { s with
        thr := Function.update s.thr t { s.thr t with state := .blocked }
        pe := Function.update s.pe r (State.resume next) }
  | postExit {r t : Nat} {next : Option Nat} (hpe : s.pe r = .leaving t .exit next) :
      Step c s (.postExit r) { s with
        thr := Function.update s.thr t { s.thr t with state := .terminated }
        pe := Function.update s.pe r (State.resume next) }

section

variable {c : Config} {s s' : State} {a : Act}

theorem create_cases (h : create s a = some s') : Step c s a s' := by
  cases a <;> simp only [create, reduceCtorEq] at h
  all_goals
    split at h <;> cases h
  exacts [.createUlt ‹_›, .createTask ‹_›]

theorem awaken_cases (h : awaken c s a = some s') : Step c s a s' := by
  cases a <;> simp only [awaken, reduceCtorEq] at h
  all_goals
    repeat' split at h
    all_goals cases h
  exacts [.awakenIfBlocked ‹_›, .wakeCounted ‹_› ‹_›, .wakePlain ‹_› ‹_›, .wakeSub ‹_› ‹_›,
    .wakeMigrate ‹_›, .pushUser ‹_› ‹_›, .pushTwice ‹_› ‹_› ‹_›, .pushEnter ‹_› ‹_› ‹_›,
    .pushLink ‹_›, .pushCount ‹_›]

theorem relocate_cases (h : relocate s a = some s') : Step c s a s' := by
  cases a <;> simp only [relocate, reduceCtorEq] at h
  all_goals
    split at h <;> cases h
  exacts [.migrateToPool ‹_›, .associate ‹_›]

theorem block_cases (h : block s a = some s') : Step c s a s' := by
  cases a <;> simp only [block, reduceCtorEq] at h
  all_goals
    repeat' split at h
    all_goals cases h
  exacts [.blockAdd ‹_› ‹_›, .blockPool ‹_› ‹_›, .blockFlag ‹_› ‹_›]

theorem poll_cases (h : poll c s a = some s') : Step c s a s' := by
  cases a <;> simp only [poll, reduceCtorEq] at h
  case putBack r w =>
    split at h
    · rename_i t p b hpe
      split at h <;> cases h
      cases b <;> exact .putBack hpe ‹_›
    · cases h
  all_goals
    repeat' split at h
    all_goals cases h
  exacts [.pollPop ‹_› ‹_› ‹_›, .popCount ‹_›, .takeHeld ‹_› ‹_›, .runPopped ‹_› ‹_›,
    .taskExit ‹_› ‹_›]

theorem choose_cases (h : choose c s a = some s') : Step c s a s' := by
  cases a <;> simp only [choose, reduceCtorEq] at h
  case suspend r k =>
    split at h
    · rename_i t hpe
      simp only [Option.ite_none_right_eq_some, Option.some.injEq] at h
      obtain ⟨hg, rfl⟩ := h
      exact .suspend hpe hg
    · cases h
  all_goals
    repeat' split at h
    all_goals cases h
  exacts [.choosePop ‹_› ‹_› ‹_›, .chooseNone ‹_›, .choosePark ‹_› ‹_›, .chooseDirect ‹_› ‹_› ‹_›,
    .chooseAbort ‹_› ‹_› ‹_›, .postYield ‹_› ‹_›, .postBlock ‹_›, .postExit ‹_›]

theorem step_cases (h : step c s a = some s') : Step c s a s' := by
  simp only [step] at h
  split at h
  · cases h
  split at h
  all_goals first
    | exact create_cases h
    | exact awaken_cases h
    | exact relocate_cases h
    | exact block_cases h
    | exact poll_cases h
    | exact choose_cases h

end

end Runtime
end AbtReconverse
