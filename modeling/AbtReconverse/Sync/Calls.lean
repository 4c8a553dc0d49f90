import AbtReconverse.Sync.Mutex

/-!
# AbtReconverse.Sync.Calls

Which call a caller is in the middle of. The program counters are shared: `mutex_lock` runs for
`ABT_mutex_lock` and at the end of a condition wait, the waking loop for five of the calls.
`Pc.within op` are the program counters that a call of `op` goes through, and a step takes a caller
to the next of them or back to the user (`advance_within`).
-/

namespace AbtReconverse
namespace Sync

open Lts

/-- `mutex_lock` of `m`, returning to `k`. -/
def LockRet.within (op : Op) (m : Nat) : LockRet → Prop
  | .user => op = .lock m
  | .cond _ => ∃ co tm, op = .condWait co m tm

/-- A wait on `o`, returning to `k`. -/
def WaitRet.within (op : Op) (o : Obj) : WaitRet → Prop
  | .lock m k => o = .mutex m ∧ k.within op m
  | .cond m => ∃ co tm, o = .cond co ∧ op = .condWait co m tm
  | .eventual e => o = .eventual e ∧ ∃ tm, op = .eventualWait e tm

/-- The waking of records, returning to `k`. -/
def UnlockRet.within (op : Op) : UnlockRet → Prop
  | .user => match op with
    | .unlock _ | .signal _ | .broadcast _ | .eventualSet .. => True
    | _ => False
  | .cond co m tm => op = .condWait co m tm

/-- The program counters of a call of `op`. -/
def Pc.within (op : Op) : Pc → Prop
  | .idle => False
  | .lock m k => k.within op m
  | .spinlock m => op = .spinlock m
  | .trylock m => op = .trylock m
  | .unlock m .user => op = .unlock m
  | .unlock m (.cond co m' tm) => m' = m ∧ op = .condWait co m tm
  | .condEnter co m tm => op = .condWait co m tm
  | .signal co => op = .signal co
  | .broadcast co => op = .broadcast co
  | .eventualEnter e tm => op = .eventualWait e tm
  | .eventualTest e => op = .eventualTest e
  | .eventualSet e n v => op = .eventualSet e n v
  | .eventualReset e => op = .eventualReset e
  | .hold o k _ | .blocked o k | .spin o k | .timed o k => k.within op o
  | .wakeNext _ k | .wakeThread _ _ k | .wakeStore _ _ _ k | .wakeAwaken _ _ _ _ k => k.within op

section

variable {c : Config} {s s' : State} {t : Nat} {op : Op}

theorem start_within (op : Op) : op.start.within op := by cases op <;> exact rfl

/-- Where the call goes on: back to the user, or to one of its own program counters. -/
def Pc.goesOn (op : Op) (pc : Pc) : Prop := pc = .idle ∨ pc.within op

theorem lockExit_goesOn (k : LockRet) : k.exit.pc.goesOn op := .inl (lockExit_pc k)

theorem exit_goesOn {k : UnlockRet} (hk : k.within op) : k.exit.pc.goesOn op := by
  cases k with
  | user => exact .inl rfl
  | cond co m tm => exact .inr ⟨co, tm, rfl, hk⟩

theorem wakeRest_goesOn {k : UnlockRet} (hk : k.within op) (r : Option Rec) :
    (k.wakeRest r).pc.goesOn op := by
  cases r with
  | none => exact exit_goesOn hk
  | some w => exact .inr hk

theorem awaken_goesOn {k : UnlockRet} (hk : k.within op) (w : Rec) (tm : Bool) (r : Option Rec)
    (th : Option Nat) : (k.awaken w tm r th).pc.goesOn op := by
  cases th with
  | none => exact wakeRest_goesOn hk r
  | some u => exact .inr hk

theorem waitExit_goesOn {k : WaitRet} {o : Obj} (hk : k.within op o) (b : Bool) :
    (k.exit c b).pc.goesOn op := by
  cases k with
  | lock m k => exact .inr hk.2
  | cond m =>
    obtain ⟨co, tm, _, rfl⟩ := hk
    exact .inr ⟨co, tm, rfl⟩
  | eventual e => cases b <;> exact .inl rfl

theorem unlock_within {m : Nat} {k : UnlockRet} (h : (Pc.unlock m k).within op) : k.within op := by
  cases k with
  | user => obtain rfl : op = .unlock m := h; exact trivial
  | cond co m' tm => obtain ⟨rfl, rfl⟩ := h; exact rfl

theorem detach_goesOn (s : State) (t : Nat) (o : Obj) (hk : UnlockRet.user.within op) :
    ((s.detach t o .user).pc t).goesOn op := by
  unfold State.detach
  rw [leave_self]
  exact wakeRest_goesOn hk _

theorem pop_goesOn (s : State) (t : Nat) (o : Obj) {k : UnlockRet} (hk : k.within op) :
    ((s.pop t o k).pc t).goesOn op := by
  unfold State.pop
  split
  · rw [leave_self]; exact exit_goesOn hk
  · rw [leave_self]; exact .inr hk

/-- A step of a caller stays within its call or ends it. -/
theorem advance_within (h : (s.pc t).within op) (hst : advance c s t = some s') :
    s'.pc t = .idle ∨ (s'.pc t).within op := by
  have hto : ∀ {s₁ : State} {e : Exit}, e.pc.goesOn op → ((s₁.leave t e).pc t).goesOn op := by
    intro s₁ e he
    rw [leave_self]
    exact he
  cases advance_cases hst with
  | lockFree | lockAgain => exact hto (lockExit_goesOn _)
  | lockWait hpc => rw [hpc] at h; exact hto (.inr ⟨rfl, h⟩)
  | spinWait hpc => rw [hpc] at h; exact hto (.inr h)
  | spinFree | spinAgain | tryFree | tryAgain | tryFail | condRefuse | eventualTest
  | eventualAgain | eventualLong | eventualReset => exact hto (.inl rfl)
  | unlockNested hpc => rw [hpc] at h; exact hto (exit_goesOn (unlock_within h))
  | unlockLast hpc => rw [hpc] at h; exact pop_goesOn _ t _ (unlock_within h)
  | condEnter hpc => rw [hpc] at h; exact hto (.inr ⟨rfl, h⟩)
  | @signal co hpc =>
    rw [hpc] at h
    obtain rfl : op = .signal co := h
    exact pop_goesOn _ t _ trivial
  | @broadcast co hpc =>
    rw [hpc] at h
    obtain rfl : op = .broadcast co := h
    exact detach_goesOn _ t _ trivial
  | @eventualPass e tm hpc =>
    rw [hpc] at h
    obtain rfl : op = .eventualWait e tm := h
    exact hto (waitExit_goesOn (k := .eventual e) (o := .eventual e) ⟨rfl, tm, rfl⟩ true)
  | @eventualEnter e tm hpc =>
    rw [hpc] at h
    obtain rfl : op = .eventualWait e tm := h
    exact hto (.inr ⟨rfl, tm, rfl⟩)
  | @eventualSet e n v hpc =>
    rw [hpc] at h
    obtain rfl : op = .eventualSet e n v := h
    exact detach_goesOn _ t _ trivial
  | holdTimed hpc | holdBlock hpc | holdSpin hpc | wakeNext hpc | wakeThread hpc =>
    rw [hpc] at h; exact hto (.inr h)
  | blocked hpc | spin hpc | timed hpc => rw [hpc] at h; exact hto (waitExit_goesOn h true)
  | wakeStore hpc => rw [hpc] at h; exact hto (awaken_goesOn h ..)
  | wakeAwaken hpc => rw [hpc] at h; exact hto (wakeRest_goesOn h _)

end

end Sync
end AbtReconverse
