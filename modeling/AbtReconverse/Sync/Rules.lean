import AbtReconverse.Sync.Machine

/-!
# AbtReconverse.Sync.Rules

The steps of the machine as rules: one rule for each way through a section, with the tests that lead
there. `advance_cases` and `step_cases` are the inversion lemmas, so that a property of the steps is
proved by cases on the rules and the sections are not unfolded again.
-/

namespace AbtReconverse
namespace Sync

/-- The buffers after `ABT_eventual_set` of eventual `e`. -/
def State.valueSet (s : State) (e n : Nat) (v : Option (List UInt8)) : Nat → List UInt8 :=
  match v with
  | some b => Function.update s.value e (b.take n ++ (s.value e).drop n)
  | none => s.value

/-- A step of caller `t`. -/
inductive Advance (c : Config) (s : State) (t : Nat) : State → Prop where
  | lockFree {m k} (hpc : s.pc t = .lock m k) (hs : s.slock (.mutex m) = none)
      (hl : (s.mutex m).locked = false) :
      Advance c s t ((s.setMutex m ⟨true, 0, some t⟩).leave t k.exit)
  | lockAgain {m k} (hpc : s.pc t = .lock m k) (hs : s.slock (.mutex m) = none)
      (hl : ¬ (s.mutex m).locked = false) (hr : c.recursive m ∧ (s.mutex m).owner = some t) :
      Advance c s t ((s.setMutex m ⟨true, (s.mutex m).nesting + 1, some t⟩).leave t k.exit)
  | lockWait {m k} (hpc : s.pc t = .lock m k) (hs : s.slock (.mutex m) = none)
      (hl : ¬ (s.mutex m).locked = false) (hr : ¬ (c.recursive m ∧ (s.mutex m).owner = some t)) :
      Advance c s t
        ((s.push c t (.mutex m) false).leave t (.to (.hold (.mutex m) (.lock m k) false)))
  | spinFree {m} (hpc : s.pc t = .spinlock m) (hs : s.slock (.mutex m) = none)
      (hl : (s.mutex m).locked = false) :
      Advance c s t ((s.setMutex m ⟨true, 0, some t⟩).leave t (.user .success none))
  | spinAgain {m} (hpc : s.pc t = .spinlock m) (hs : s.slock (.mutex m) = none)
      (hl : ¬ (s.mutex m).locked = false) (hr : c.recursive m ∧ (s.mutex m).owner = some t) :
      Advance c s t
        ((s.setMutex m ⟨true, (s.mutex m).nesting + 1, some t⟩).leave t (.user .success none))
  | spinWait {m} (hpc : s.pc t = .spinlock m) (hs : s.slock (.mutex m) = none)
      (hl : ¬ (s.mutex m).locked = false) (hr : ¬ (c.recursive m ∧ (s.mutex m).owner = some t)) :
      Advance c s t (s.leave t (.to (.spinlock m)))
  | tryFree {m} (hpc : s.pc t = .trylock m) (hs : s.slock (.mutex m) = none)
      (hl : (s.mutex m).locked = false) :
      Advance c s t ((s.setMutex m ⟨true, 0, some t⟩).leave t (.user .success none))
  | tryAgain {m} (hpc : s.pc t = .trylock m) (hs : s.slock (.mutex m) = none)
      (hl : ¬ (s.mutex m).locked = false) (hr : c.recursive m ∧ (s.mutex m).owner = some t) :
      Advance c s t
        ((s.setMutex m ⟨true, (s.mutex m).nesting + 1, some t⟩).leave t (.user .success none))
  | tryFail {m} (hpc : s.pc t = .trylock m) (hs : s.slock (.mutex m) = none)
      (hl : ¬ (s.mutex m).locked = false) (hr : ¬ (c.recursive m ∧ (s.mutex m).owner = some t)) :
      Advance c s t (s.leave t (.user .mutexLocked none))
  | unlockNested {m k} (hpc : s.pc t = .unlock m k) (hs : s.slock (.mutex m) = none)
      (hn : 0 < (s.mutex m).nesting) :
      Advance c s t
        ((s.setMutex m { s.mutex m with nesting := (s.mutex m).nesting - 1 }).leave t k.exit)
  | unlockLast {m k} (hpc : s.pc t = .unlock m k) (hs : s.slock (.mutex m) = none)
      (hn : ¬ 0 < (s.mutex m).nesting) :
      Advance c s t
        ((s.setMutex m { s.mutex m with locked := false, owner := none }).pop t (.mutex m) k)
  | condEnter {co m tm} (hpc : s.pc t = .condEnter co m tm) (hs : s.slock (.cond co) = none)
      (hm : s.condMutex co = none ∨ s.condMutex co = some m) :
      Advance c s t
        ((({ s with condMutex := Function.update s.condMutex co (some m) } : State).push c t
          (.cond co) tm).leave t (.to (.unlock m (.cond co m tm))))
  | condRefuse {co m tm} (hpc : s.pc t = .condEnter co m tm) (hs : s.slock (.cond co) = none)
      (hm : ¬ (s.condMutex co = none ∨ s.condMutex co = some m)) :
      Advance c s t (s.leave t (.user .invMutex none))
  | signal {co} (hpc : s.pc t = .signal co) (hs : s.slock (.cond co) = none) :
      Advance c s t (s.pop t (.cond co) .user)
  | broadcast {co} (hpc : s.pc t = .broadcast co) (hs : s.slock (.cond co) = none) :
      Advance c s t (s.detach t (.cond co) .user)
  | eventualPass {e tm} (hpc : s.pc t = .eventualEnter e tm) (hs : s.slock (.eventual e) = none)
      (hr : s.ready e = true) :
      Advance c s t (s.leave t ((WaitRet.eventual e).exit c true))
  | eventualEnter {e tm} (hpc : s.pc t = .eventualEnter e tm) (hs : s.slock (.eventual e) = none)
      (hr : ¬ s.ready e = true) :
      Advance c s t
        ((s.push c t (.eventual e) tm).leave t (.to (.hold (.eventual e) (.eventual e) tm)))
  | eventualTest {e} (hpc : s.pc t = .eventualTest e) (hs : s.slock (.eventual e) = none) :
      Advance c s t
        (({ s with isReady := Function.update s.isReady t (s.ready e) } : State).leave t
          (.user .success (if s.ready e ∧ 0 < c.nbytes e then some e else none)))
  | eventualAgain {e n v} (hpc : s.pc t = .eventualSet e n v) (hs : s.slock (.eventual e) = none)
      (hr : s.ready e = true) : Advance c s t (s.leave t (.user .eventual none))
  | eventualLong {e n v} (hpc : s.pc t = .eventualSet e n v) (hs : s.slock (.eventual e) = none)
      (hr : ¬ s.ready e = true) (hn : c.nbytes e < n) :
      Advance c s t (s.leave t (.user .invEventual none))
  | eventualSet {e n v} (hpc : s.pc t = .eventualSet e n v) (hs : s.slock (.eventual e) = none)
      (hr : ¬ s.ready e = true) (hn : ¬ c.nbytes e < n) :
      Advance c s t
        (({ s with
          ready := Function.update s.ready e true
          value := s.valueSet e n v } : State).detach t (.eventual e) .user)
  | eventualReset {e} (hpc : s.pc t = .eventualReset e) (hs : s.slock (.eventual e) = none) :
      Advance c s t
        (({ s with ready := Function.update s.ready e false } : State).leave t (.user .success none))
  | holdTimed {o k} (hpc : s.pc t = .hold o k true) :
      Advance c s t
        (({ s with slock := Function.update s.slock o none } : State).leave t (.to (.timed o k)))
  | holdBlock {o k} (hpc : s.pc t = .hold o k false) (hult : c.ult t = true) :
      Advance c s t
        (({ s with
          slock := Function.update s.slock o (some (.callback t))
          blk := Function.update s.blk t true } : State).leave t (.to (.blocked o k)))
  | holdSpin {o k} (hpc : s.pc t = .hold o k false) (hult : ¬ c.ult t = true) :
      Advance c s t
        (({ s with slock := Function.update s.slock o none } : State).leave t (.to (.spin o k)))
  | blocked {o k} (hpc : s.pc t = .blocked o k) (hb : ¬ s.blk t = true) :
      Advance c s t (s.leave t (k.exit c true))
  | spin {o k} (hpc : s.pc t = .spin o k) (hsig : (s.waiter ⟨t, o.slot⟩).signaled = true) :
      Advance c s t (s.leave t (k.exit c true))
  | timed {o k} (hpc : s.pc t = .timed o k) (hsig : (s.waiter ⟨t, o.slot⟩).signaled = true) :
      Advance c s t
        (({ s with outcome := Function.update s.outcome t (some .signaled) } : State).leave t
          (k.exit c true))
  | wakeNext {w k} (hpc : s.pc t = .wakeNext w k) :
      Advance c s t (s.leave t (.to (.wakeThread w (s.next w) k)))
  | wakeThread {w rest k} (hpc : s.pc t = .wakeThread w rest k) :
      Advance c s t (s.leave t (.to (.wakeStore w (s.waiter w).thread rest k)))
  | wakeStore {w th rest k} (hpc : s.pc t = .wakeStore w th rest k) :
      Advance c s t
        (({ s with
          waiter := Function.update s.waiter w { s.waiter w with signaled := true } } : State).leave
          t (k.awaken w (s.waiter w).timed rest th))
  | wakeAwaken {u w tm rest k} (hpc : s.pc t = .wakeAwaken u w tm rest k) :
      Advance c s t
        (({ s with blk := Function.update s.blk u false } : State).leave t (k.wakeRest rest))

inductive Step (c : Config) (s : State) : Act → State → Prop where
  | call {t op} (hidle : s.pc t = .idle) :
      Step c s (.call t op)
        (({ s with op := Function.update s.op t (s.op t + 1) } : State).leave t (.to op.start))
  | go {t s'} (h : Advance c s t s') : Step c s (.go t) s'
  | timeoutSignaled {t fuel o k} (hpc : s.pc t = .timed o k) (hs : s.slock o = none)
      (hsig : (s.waiter ⟨t, o.slot⟩).signaled = true) :
      Step c s (.timeout t fuel)
        (({ s with outcome := Function.update s.outcome t (some .signaled) } : State).leave t
          (k.exit c true))
  | timeout {t fuel o k removed next wl} (hpc : s.pc t = .timed o k) (hs : s.slock o = none)
      (hsig : ¬ (s.waiter ⟨t, o.slot⟩).signaled = true)
      (hr : wlRemove s.next (s.wl o) ⟨t, o.slot⟩ fuel = some (removed, next, wl)) :
      Step c s (.timeout t fuel)
        (({ s with
          next := next
          wl := Function.update s.wl o wl
          waiter := if removed then Function.update s.waiter ⟨t, o.slot⟩
              { s.waiter ⟨t, o.slot⟩ with place := .off }
            else s.waiter
          outcome := Function.update s.outcome t
            (some (.timedOut removed (s.waiter ⟨t, o.slot⟩).place)) } : State).leave t
          (k.exit c false))
  | callback {o t} (hl : s.slock o = some (.callback t)) :
      Step c s (.callback o) { s with slock := Function.update s.slock o none }

section

variable {c : Config} {s s' : State} {t : Nat} {a : Act}

theorem advance_cases (hst : advance c s t = some s') : Advance c s t s' := by
  unfold advance at hst
  cases hpc : s.pc t <;>
    simp only [hpc, mutexStep, condStep, eventualStep, waitStep, wakeStep] at hst
  case idle => cases hst
  case hold o k tm =>
    cases tm <;> simp only [Bool.false_eq_true, if_false, if_true] at hst
    · split at hst <;> cases hst
      · exact .holdBlock hpc ‹_›
      · exact .holdSpin hpc ‹_›
    · cases hst
      exact .holdTimed hpc
  case eventualTest e =>
    split at hst <;> cases hst
    exact .eventualTest hpc ‹_›
  case eventualSet e n v =>
    split at hst
    · split at hst
      · cases hst
        exact .eventualAgain hpc ‹_› ‹_›
      · split at hst <;> cases hst
        · exact .eventualLong hpc ‹_› ‹_› ‹_›
        · exact .eventualSet hpc ‹_› ‹_› ‹_›
    · cases hst
  all_goals
    repeat' split at hst
    all_goals cases hst
  exacts [.lockFree hpc ‹_› ‹_›, .lockAgain hpc ‹_› ‹_› ‹_›, .lockWait hpc ‹_› ‹_› ‹_›,
    .spinFree hpc ‹_› ‹_›, .spinAgain hpc ‹_› ‹_› ‹_›, .spinWait hpc ‹_› ‹_› ‹_›,
    .tryFree hpc ‹_› ‹_›, .tryAgain hpc ‹_› ‹_› ‹_›, .tryFail hpc ‹_› ‹_› ‹_›,
    .unlockNested hpc ‹_› ‹_›, .unlockLast hpc ‹_› ‹_›, .condEnter hpc ‹_› ‹_›,
    .condRefuse hpc ‹_› ‹_›, .signal hpc ‹_›, .broadcast hpc ‹_›, .eventualPass hpc ‹_› ‹_›,
    .eventualEnter hpc ‹_› ‹_›, .eventualReset hpc ‹_›, .blocked hpc ‹_›, .spin hpc ‹_›,
    .timed hpc ‹_›, .wakeNext hpc, .wakeThread hpc, .wakeStore hpc, .wakeAwaken hpc]

theorem step_cases (hst : step c s a = some s') : Step c s a s' := by
  cases a with
  | go t => exact .go (advance_cases hst)
  | call t op =>
    simp only [step] at hst
    split at hst <;> cases hst
    exact .call ‹_›
  | timeout t fuel =>
    simp only [step, Sync.timeout] at hst
    split at hst
    · split at hst
      · split at hst
        · cases hst
          exact .timeoutSignaled ‹_› ‹_› ‹_›
        · split at hst <;> cases hst
          exact .timeout ‹_› ‹_› ‹_› ‹_›
      · cases hst
    · cases hst
  | callback o =>
    simp only [step] at hst
    split at hst <;> cases hst
    exact .callback ‹_›

end

end Sync
end AbtReconverse
