import AbtReconverse.Sync.Steps

/-!
# AbtReconverse.Sync.Timed

Timed waits against signal, broadcast and set. `TimeoutAtomic` says that a timed wait times out
only by taking its own record off the list, and that no waker touches the record of a wait that is
over. The code keeps it exactly as long as no deadline falls between the step that takes a record
off the list and the store to `signaled` (`RecordSettled`): `wait_on_timed` does not look at what
`wl_remove` answers (`signal_swallowed`).

The runs are those of timed waiters; mutexes are used freely. Whether the caller reports a timeout
is local to it (`CallerOk`); what wakers touch comes from the list invariant for the records of
slot `wait`.
-/

namespace AbtReconverse
namespace Sync

open Lts

/-- Condition variables and eventuals are waited on with a timeout. -/
def TimedCall : Act → Prop
  | .call _ (.condWait _ _ timed) | .call _ (.eventualWait _ timed) => timed = true
  | _ => True

instance (a : Act) : Decidable (TimedCall a) := by
  unfold TimedCall; split <;> infer_instance

/-- The side condition of a deadline; see `RecordSettled`. -/
def SettledAt (s : State) : Act → Prop
  | .timeout t _ => RecordSettled s t
  | _ => True

instance (s : State) (t : Nat) : Decidable (RecordSettled s t) := by
  unfold RecordSettled; split <;> infer_instance

instance (s : State) : (a : Act) → Decidable (SettledAt s a)
  | .timeout t _ => inferInstanceAs (Decidable (RecordSettled s t))
  | .call .. | .go _ | .callback _ => inferInstanceAs (Decidable True)

/-- The steps of `wake` and of the loop around it that read or write the record. -/
def Stage.touches : Stage → Bool
  | .next | .thread | .store _ => true
  | .awaken _ _ => false

structure TimeoutAtomic (s : State) : Prop where
  /-- `wait_on_timed` returned false: its `wl_remove` took the record off the list. -/
  removed : ∀ t removed place, s.outcome t = some (.timedOut removed place) →
    removed = true ∧ ∃ o, place = .listed o
  /-- A call returned `ABT_ERR_COND_TIMEDOUT`. -/
  reported : ∀ t out, s.pc t = .idle → s.ret t = some (.condTimedout, out) →
    ∃ o, s.outcome t = some (.timedOut true (.listed o))
  /-- A waker touches only a record it took itself, of a wait that is not over. -/
  waker : ∀ x st w rest, (s.pc x).wakes = some (st, w, rest) → st.touches = true →
    w.slot = .wait → (s.waiter w).place = .taken x (s.op x) ∧
      ∃ o md, o.slot = .wait ∧ (s.pc w.owner).wait = some (o, md)
  /-- So does a caller that walks a list under the spinlock. -/
  lists : ∀ o, o.slot = .wait → ∃ l, Rep s.next (s.wl o) l ∧
    ∀ w ∈ l, ∃ md, (s.pc w.owner).wait = some (o, md)

/-! ## What a caller reports -/

/-- `cond_wait_impl` locks the mutex again after a timeout. -/
def WaitRet.timesOut : WaitRet → Bool
  | .lock _ (.cond false) => true
  | _ => false

def Pc.timesOut : Pc → Bool
  | .lock m k => (WaitRet.lock m k).timesOut
  | .hold _ k _ | .blocked _ k | .spin _ k | .timed _ k => k.timesOut
  | _ => false

/-- The wait that goes on after a nested unlock has a timeout. -/
def UnlockRet.onlyTimed : UnlockRet → Prop
  | .user => True
  | .cond _ _ tm => tm = true

/-- No wait for a condition variable or an eventual without a timeout; `mutex_lock` has none. -/
def Pc.onlyTimed : Pc → Prop
  | .condEnter _ _ tm | .eventualEnter _ tm => tm = true
  | .hold o k tm => (o.slot = .wait → tm = true) ∧ (tm = true → k.timesOut = false)
  | .timed _ k => k.timesOut = false
  | .blocked o _ | .spin o _ => o.slot ≠ .wait
  | .unlock _ k | .wakeNext _ k | .wakeThread _ _ k | .wakeStore _ _ _ k
  | .wakeAwaken _ _ _ _ k => k.onlyTimed
  | _ => True

def Outcome.isTimeout : Option Outcome → Bool
  | some (.timedOut _ _) => true
  | _ => false

/-- A caller's own view: its program counter, its last return value, its last timed wait. -/
structure CallerOk (pc : Pc) (ret : Option (Code × Option Nat)) (out : Option Outcome) : Prop where
  timed : pc.onlyTimed
  relock : pc.timesOut = true → Outcome.isTimeout out = true
  ret : pc = .idle → ∀ o, ret = some (.condTimedout, o) → Outcome.isTimeout out = true

def CallersOk (s : State) : Prop := ∀ t, CallerOk (s.pc t) (s.ret t) (s.outcome t)

section

variable {c : Config} {s s' : State} {t : Nat}

theorem CallersOk.leave {e : Exit} (h : ∀ u, u ≠ t → CallerOk (s.pc u) (s.ret u) (s.outcome u))
    (he : CallerOk e.pc (e.ret.or (s.ret t)) (s.outcome t)) : CallersOk (s.leave t e) := by
  intro u
  by_cases hu : u = t
  · subst hu
    cases hr : e.ret with
    | none => rw [hr] at he; simpa [State.leave, hr] using he
    | some r => rw [hr] at he; simpa [State.leave, hr] using he
  · cases hr : e.ret with
    | none => simpa [State.leave, hr, hu] using h u hu
    | some r => simpa [State.leave, hr, hu] using h u hu

/-- A call that returns something else than a timeout. -/
theorem CallerOk.user {code : Code} {out : Option Nat} {r : Option (Code × Option Nat)}
    {o : Option Outcome} (hc : code ≠ .condTimedout) :
    CallerOk (Exit.user code out).pc ((Exit.user code out).ret.or r) o := by
  refine ⟨?_, ?_, ?_⟩
  · simp [Exit.user, Pc.onlyTimed]
  · simp [Exit.user, Pc.timesOut]
  · simp [Exit.user, hc]

/-- A caller that goes on to a program counter without a wait. -/
theorem CallerOk.to {pc : Pc} {r : Option (Code × Option Nat)} {o : Option Outcome}
    (ht : pc.onlyTimed) (hr : pc.timesOut = true → Outcome.isTimeout o = true) (hi : pc ≠ .idle) :
    CallerOk (Exit.to pc).pc ((Exit.to pc).ret.or r) o :=
  ⟨ht, hr, fun h => absurd h hi⟩

theorem Pc.onlyTimed.isTimed {pc : Pc} {o : Obj} {md : Mode} (h : pc.onlyTimed)
    (hw : pc.wait = some (o, md)) (ho : o.slot = .wait) : md.isTimed = true := by
  have hk : ∀ k : UnlockRet, k.onlyTimed → k.wait = some (o, md) → md.isTimed = true := by
    intro k hk hw
    cases k with
    | user => cases hw
    | cond co m tm => cases hw; exact hk
  cases pc <;> simp only [Pc.wait] at hw <;> try cases hw
  case hold => exact h.1 ho
  case timed => rfl
  case blocked => exact absurd ho h
  case spin => exact absurd ho h
  all_goals exact hk _ h hw

theorem unlockExit_ok {k : UnlockRet} {r : Option (Code × Option Nat)} {o : Option Outcome}
    (h : k.onlyTimed) : CallerOk k.exit.pc (k.exit.ret.or r) o := by
  cases k with
  | user => exact CallerOk.user (by simp)
  | cond co m b =>
    exact CallerOk.to ⟨fun _ => h, fun _ => rfl⟩ (by simp [Pc.timesOut, WaitRet.timesOut]) (by simp)

theorem wakeRest_ok {k : UnlockRet} {rest : Option Rec} {r : Option (Code × Option Nat)}
    {o : Option Outcome} (h : k.onlyTimed) :
    CallerOk (k.wakeRest rest).pc ((k.wakeRest rest).ret.or r) o := by
  cases rest with
  | none => exact unlockExit_ok h
  | some v => exact CallerOk.to h (by simp [Pc.timesOut]) (by simp)

theorem awaken_ok {k : UnlockRet} {w : Rec} {th : Option Nat} {rest : Option Rec} {tm : Bool}
    {r : Option (Code × Option Nat)} {o : Option Outcome} (h : k.onlyTimed) :
    CallerOk (k.awaken w tm rest th).pc ((k.awaken w tm rest th).ret.or r) o := by
  cases th with
  | none => exact wakeRest_ok h
  | some u => exact CallerOk.to h (by simp [Pc.timesOut]) (by simp)

/-- A wait ends signaled. -/
theorem waitExit_ok {k : WaitRet} {r : Option (Code × Option Nat)} {o : Option Outcome}
    (h : k.timesOut = true → Outcome.isTimeout o = true) :
    CallerOk (k.exit c true).pc ((k.exit c true).ret.or r) o := by
  cases k with
  | lock m k => exact CallerOk.to (by simp [Pc.onlyTimed]) h (by simp)
  | cond m =>
    exact CallerOk.to (by simp [Pc.onlyTimed]) (by simp [Pc.timesOut, WaitRet.timesOut]) (by simp)
  | eventual e => exact CallerOk.user (by simp)

/-- A wait ends by a timeout. -/
theorem timeoutExit_ok {k : WaitRet} {r : Option (Code × Option Nat)} {o : Option Outcome}
    (h : Outcome.isTimeout o = true) : CallerOk (k.exit c false).pc ((k.exit c false).ret.or r) o := by
  refine ⟨?_, fun _ => h, fun _ _ _ => h⟩
  cases k <;> simp [WaitRet.exit, Exit.to, Exit.user, Pc.onlyTimed]

theorem lockExit_ok {k : LockRet} {r : Option (Code × Option Nat)} {o : Option Outcome}
    (h : k = .cond false → Outcome.isTimeout o = true) :
    CallerOk k.exit.pc (k.exit.ret.or r) o := by
  rcases k with _ | (_ | _)
  · exact CallerOk.user (by simp)
  · exact ⟨by simp [LockRet.exit, Exit.user, Pc.onlyTimed], fun _ => h rfl, fun _ _ _ => h rfl⟩
  · exact CallerOk.user (by simp)

theorem CallersOk.pop (h : CallersOk s) {o : Obj} {k : UnlockRet} (hk : k.onlyTimed) :
    CallersOk (s.pop t o k) := by
  unfold State.pop
  split
  · exact CallersOk.leave (fun u _ => h u) (unlockExit_ok hk)
  · exact CallersOk.leave (fun u _ => h u) (CallerOk.to hk (by simp [Pc.timesOut]) (by simp))

theorem CallersOk.detach (h : CallersOk s) {o : Obj} {k : UnlockRet} (hk : k.onlyTimed) :
    CallersOk (s.detach t o k) :=
  CallersOk.leave (fun u _ => h u) (wakeRest_ok hk)

/-- `wait_on_timed` returns true. -/
theorem signaled_ok (h : CallersOk s) {k : WaitRet} (hk : k.timesOut = false) :
    CallersOk ((({ s with
      outcome := Function.update s.outcome t (some .signaled) } : State)).leave t (k.exit c true)) := by
  refine CallersOk.leave (fun u hu => ?_) (waitExit_ok (by simp [hk]))
  simpa only [Function.update_of_ne hu] using h u

theorem advance_callers (h : CallersOk s) (hst : Advance c s t s') : CallersOk s' := by
  have ht : ∀ {pc}, s.pc t = pc → CallerOk pc (s.ret t) (s.outcome t) := fun hpc => hpc ▸ h t
  have hlock : ∀ {m k}, s.pc t = .lock m k → k = .cond false →
      Outcome.isTimeout (s.outcome t) = true := by
    rintro m _ hpc rfl
    exact (ht hpc).relock rfl
  cases hst with
  | lockFree hpc | lockAgain hpc =>
    exact CallersOk.leave (fun u _ => h u) (lockExit_ok (hlock hpc))
  | lockWait hpc =>
    refine CallersOk.leave (fun u _ => h u) (CallerOk.to ?_ (ht hpc).relock (by simp))
    simp [Pc.onlyTimed, Obj.slot]
  | spinFree | spinAgain | tryFree | tryAgain | tryFail | condRefuse | eventualTest
  | eventualAgain | eventualLong | eventualReset =>
    exact CallersOk.leave (fun u _ => h u) (CallerOk.user (by simp))
  | spinWait =>
    exact CallersOk.leave (fun u _ => h u)
      (CallerOk.to (by simp [Pc.onlyTimed]) (by simp [Pc.timesOut]) (by simp))
  | unlockNested hpc =>
    exact CallersOk.leave (fun u _ => h u) (unlockExit_ok (ht hpc).timed)
  | @unlockLast m k hpc => exact CallersOk.pop (s := s.setMutex m _) h (ht hpc).timed
  | condEnter hpc | wakeNext hpc | wakeThread hpc =>
    exact CallersOk.leave (fun u _ => h u)
      (CallerOk.to (ht hpc).timed (by simp [Pc.timesOut]) (by simp))
  | signal => exact h.pop trivial
  | broadcast => exact h.detach trivial
  | eventualPass =>
    exact CallersOk.leave (fun u _ => h u) (waitExit_ok (by simp [WaitRet.timesOut]))
  | eventualEnter hpc =>
    exact CallersOk.leave (fun u _ => h u) (CallerOk.to ⟨fun _ => (ht hpc).timed, fun _ => rfl⟩
      (by simp [Pc.timesOut, WaitRet.timesOut]) (by simp))
  | eventualSet => exact CallersOk.detach (fun u => h u) trivial
  | holdTimed hpc =>
    exact CallersOk.leave (fun u _ => h u)
      (CallerOk.to ((ht hpc).timed.2 rfl) (ht hpc).relock (by simp))
  | @holdBlock o k hpc | @holdSpin o k hpc =>
    -- an untimed wait is one for a mutex
    have hno : o.slot ≠ .wait := fun ho => Bool.noConfusion ((ht hpc).timed.1 ho)
    exact CallersOk.leave (fun u _ => h u) (CallerOk.to hno (ht hpc).relock (by simp))
  | blocked hpc | spin hpc =>
    exact CallersOk.leave (fun u _ => h u) (waitExit_ok (ht hpc).relock)
  | timed hpc => exact signaled_ok h (ht hpc).timed
  | wakeStore hpc => exact CallersOk.leave (fun u _ => h u) (awaken_ok (ht hpc).timed)
  | wakeAwaken hpc => exact CallersOk.leave (fun u _ => h u) (wakeRest_ok (ht hpc).timed)

theorem step_callers {a : Act} (h : CallersOk s) (ha : TimedCall a) (hst : step c s a = some s') :
    CallersOk s' := by
  cases step_cases hst with
  | @call t op =>
    refine CallersOk.leave (fun u _ => h u) (CallerOk.to ?_ ?_ ?_)
    · cases op with
      | condWait | eventualWait => exact ha
      | _ => trivial
    · cases op <;> simp [Op.start, Pc.timesOut, WaitRet.timesOut]
    · cases op <;> simp [Op.start]
  | go hadv => exact advance_callers h hadv
  | @timeoutSignaled t _ _ _ hpc =>
    have ht := h t
    rw [hpc] at ht
    exact signaled_ok h ht.timed
  | timeout =>
    refine CallersOk.leave (fun u hu => ?_) (timeoutExit_ok ?_)
    · simpa only [Function.update_of_ne hu] using h u
    · simp [Outcome.isTimeout]
  | callback => exact fun u => h u

/-! ## Timeouts -/

theorem pop_outcome (s : State) (t : Nat) (o : Obj) (k : UnlockRet) :
    (s.pop t o k).outcome = s.outcome := by
  unfold State.pop
  split <;> rfl

theorem advance_outcome (hst : Advance c s t s') (u : Nat) :
    s'.outcome u = s.outcome u ∨ s'.outcome u = some .signaled := by
  cases hst with
  | unlockLast | signal => exact .inl (congrFun (pop_outcome ..) u)
  | timed =>
    by_cases hu : u = t
    · subst hu; exact .inr (Function.update_self ..)
    · exact .inl (Function.update_of_ne hu ..)
  | _ => exact .inl rfl

/-- A timed wait that times out under the side condition takes its record off the list. -/
theorem step_outcome {K : Slot → Prop} {q : Obj → List Rec} {ch : Nat → List Rec} {a : Act}
    (hinv : Inv c K s q ch) (hK : K .wait) (hset : SettledAt s a)
    (hst : step c s a = some s') (u : Nat) :
    s'.outcome u = s.outcome u ∨ s'.outcome u = some .signaled ∨
      ∃ o, s'.outcome u = some (.timedOut true (.listed o)) := by
  cases step_cases hst with
  | call | callback => exact .inl rfl
  | go hadv => exact (advance_outcome hadv u).imp_right .inl
  | @timeoutSignaled t =>
    by_cases hu : u = t
    · subst hu; exact .inr (.inl (Function.update_self ..))
    · exact .inl (Function.update_of_ne hu ..)
  | @timeout t _ o k _ _ _ hpc _ hsig hr =>
    by_cases hu : u = t
    case neg => exact .inl (Function.update_of_ne hu ..)
    subst hu
    have hwait : (s.pc u).wait = some (o, .timed) := by rw [hpc]; rfl
    have hslot : o.slot = .wait := (hinv.waits u).timedSlot o _ hwait rfl
    have hKo : K o.slot := by rw [hslot]; exact hK
    obtain hpl | ⟨_, x, n, hpl⟩ := ((hinv.waits u).record o _ hwait hKo).place
    · have hwk : (s.pc u).wakes = none := by rw [hpc]; rfl
      obtain ⟨rfl, _⟩ := hinv.remove s.outcome hKo hwait hwk hpl (e := k.exit c false) (by simp)
        (by simp) hr
      exact .inr (.inr ⟨o, by simp [State.leave, hpl]⟩)
    · rw [hslot] at hpl hsig
      simp only [SettledAt, RecordSettled, hpl] at hset
      exact absurd hset hsig

/-- The lists of the timed waits, the callers' own views, and how their last timed waits ended. -/
structure TimedInv (c : Config) (s : State) : Prop where
  lists : ∃ q ch, Inv c (· = .wait) s q ch
  callers : CallersOk s
  removed : ∀ t removed place, s.outcome t = some (.timedOut removed place) →
    removed = true ∧ ∃ o, place = .listed o

theorem timedInv_initial : TimedInv c (initial c) := by
  refine ⟨⟨_, _, .start⟩, fun t => ⟨trivial, ?_, ?_⟩, ?_⟩
  · simp [initial, Pc.timesOut]
  · simp [initial]
  · simp [initial]

theorem step_timedInv {a : Act} (h : TimedInv c s) (ha : TimedCall a) (hset : SettledAt s a)
    (hst : step c s a = some s') : TimedInv c s' := by
  obtain ⟨⟨q, ch, hinv⟩, hcall, hrem⟩ := h
  refine ⟨?_, step_callers hcall ha hst, ?_⟩
  · refine step_inv rfl hinv ?_ ?_ hst
    · rintro t fuel rfl; exact hset
    · -- nobody is blocked on a condition variable or an eventual
      intro t u w tm rest k _ _ _ o hu ho
      exact absurd ((hcall u).timed.isTimed hu ho) (by simp [Mode.isTimed])
  · intro u removed place hu
    obtain h' | h' | ⟨o, h'⟩ := step_outcome hinv rfl hset hst u
    · exact hrem u removed place (h' ▸ hu)
    · rw [h'] at hu; cases hu
    · rw [h'] at hu; cases hu; exact ⟨rfl, o, rfl⟩

theorem TimedInv.atomic (h : TimedInv c s) : TimeoutAtomic s := by
  obtain ⟨⟨q, ch, hinv⟩, hcall, hrem⟩ := h
  refine ⟨hrem, ?_, ?_, ?_⟩
  · intro t out hidle hret
    have hto := (hcall t).ret hidle out hret
    cases ho : s.outcome t with
    | none => rw [ho] at hto; cases hto
    | some oc =>
      cases oc with
      | signaled => rw [ho] at hto; cases hto
      | timedOut removed place =>
        obtain ⟨rfl, o, rfl⟩ := hrem t removed place ho
        exact ⟨o, rfl⟩
  · intro x st w rest hx hst hw
    have hmem : w ∈ ch x := by
      have hch := (hinv.wakes x).chain st w rest hx hw
      cases st with
      | next =>
        cases hl : ch x with
        | nil => rw [hl] at hch; cases hch
        | cons u l =>
          rw [hl] at hch
          cases hch.1
          exact List.mem_cons_self ..
      | thread | store th =>
        obtain ⟨l, hl, _⟩ := hch
        exact hl ▸ List.mem_cons_self ..
      | awaken th tm => cases hst
    obtain ⟨_, o, md, hm⟩ := (hinv.wakes x).chained w hmem
    exact ⟨hm.place, o, md, hm.slot.trans hw, hm.wait⟩
  · intro o ho
    refine ⟨q o, hinv.rep o ho, fun w hw => ?_⟩
    exact (hinv.onList o w ho ((hinv.listed o w ho).mp hw)).2

/-- A deadline that falls on a record which is taken and not signaled is reported as a timeout. -/
theorem not_atomic_of_not_settled {fuel : Nat} (hset : ¬ RecordSettled s t)
    (hslot : ∀ o md, (s.pc t).wait = some (o, md) → md.isTimed = true → o.slot = .wait)
    (hst : timeout c s t fuel = some s') : ¬ TimeoutAtomic s' := by
  intro h
  unfold RecordSettled at hset
  split at hset
  case h_2 => exact hset trivial
  rename_i x n hpl
  have hwait : ∀ {o k}, s.pc t = .timed o k → o.slot = .wait := fun hpc =>
    hslot _ .timed (by rw [hpc]; rfl) rfl
  cases step_cases (a := .timeout t fuel) hst with
  | timeoutSignaled hpc _ hsig =>
    rw [hwait hpc] at hsig
    exact hset hsig
  | @timeout _ _ _ _ removed _ _ hpc =>
    obtain ⟨_, o', ho'⟩ := h.removed t removed (.taken x n) (by simp [State.leave, hwait hpc, hpl])
    cases ho'

theorem reach_timedInv (h : Reach (system c) (fun s a => TimedCall a ∧ SettledAt s a) s) :
    TimedInv c s := by
  refine Reach.invariant ?_ ?_ h
  · rintro _ rfl; exact timedInv_initial
  · intro s a s' _ hinv hg hst; exact step_timedInv hinv hg.1 hg.2 hst

/-- Timeouts are atomic in every run of timed waiters in which no deadline meets a record that is
taken off its list and not signaled, and the first deadline that does breaks it. -/
theorem timeout_atomic (h : Reach (system c) (fun s a => TimedCall a ∧ SettledAt s a) s) :
    TimeoutAtomic s ∧ ∀ a s', TimedCall a → step c s a = some s' →
      (TimeoutAtomic s' ↔ SettledAt s a) := by
  have hinv := reach_timedInv h
  refine ⟨hinv.atomic, fun a s' ha hst => ⟨fun hat => ?_, fun hset => ?_⟩⟩
  · obtain ⟨⟨q, ch, hl⟩, _⟩ := hinv
    cases a with
    | timeout t fuel =>
      by_contra hset
      exact not_atomic_of_not_settled hset (hl.waits t).timedSlot hst hat
    | call t op => trivial
    | go t => trivial
    | callback o => trivial
  · exact (step_timedInv hinv ha hset hst).atomic

end

/-- One condition variable with its mutex; all callers are ULTs. -/
def demo : Config := ⟨fun _ => true, fun _ => false, fun _ => 0⟩

/-- Caller 0 waits with a timeout, caller 1 takes its record off the list. -/
def timedWait : List Act :=
  [.call 0 (.lock 0), .go 0, .call 0 (.condWait 0 0 true), .go 0, .go 0, .go 0,
    .call 1 (.signal 0), .go 1]

/-- The signal has the record; the deadline passes; the wait reports a timeout and is over, and the
signaller goes on to read and write the record. -/
theorem signal_swallowed : ∃ s, Reach (system demo) (fun _ a => TimedCall a) s ∧
    ¬ TimeoutAtomic s ∧ s.pc 0 = .idle ∧ s.ret 0 = some (.condTimedout, none) ∧
    s.pc 1 = .wakeThread ⟨0, .wait⟩ none .user := by
  obtain ⟨s, hr, hidle, hret, hwk⟩ := Reach.exists_run (.start rfl : Reach (system demo)
      (fun _ a => TimedCall a) (initial demo))
    (fun s => s.pc 0 = .idle ∧ s.ret 0 = some (.condTimedout, none) ∧
      s.pc 1 = .wakeThread ⟨0, .wait⟩ none .user)
    (timedWait ++ [Act.timeout 0 2, .go 0]) (by decide)
  refine ⟨s, hr, fun h => ?_, hidle, hret, hwk⟩
  obtain ⟨_, o, md, _, hw⟩ := h.waker 1 .thread ⟨0, .wait⟩ none (by rw [hwk]; rfl) rfl rfl
  rw [show (⟨0, .wait⟩ : Rec).owner = 0 from rfl, hidle] at hw
  cases hw

/-- With the deadline after the store the same wait is signaled. -/
theorem timeout_atomic_signaled : ∃ s, Reach (system demo)
      (fun s a => TimedCall a ∧ SettledAt s a) s ∧ s.outcome 0 = some .signaled ∧
    TimeoutAtomic s := by
  obtain ⟨s, hr, hout⟩ := Reach.exists_run (.start rfl : Reach (system demo)
      (fun s a => TimedCall a ∧ SettledAt s a) (initial demo))
    (fun s => s.outcome 0 = some .signaled)
    (timedWait ++ [Act.go 1, .go 1, .timeout 0 2]) (by decide)
  exact ⟨s, hr, hout, (timeout_atomic hr).1⟩

end Sync
end AbtReconverse
