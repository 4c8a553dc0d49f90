import AbtReconverse.Sync.Calls
import AbtReconverse.Sync.Moves

/-!
# AbtReconverse.Sync.Untimed

Runs without timed waits. There the wait lists and the wakers' chains need no side condition:
`Plain` holds in every state of such a run, with the lists and chains that `listsAfter` and
`wakersAfter` compute along it.
-/

namespace AbtReconverse
namespace Sync

open Lts

/-- No timed wait is begun. -/
def Untimed (_ : State) : Act → Prop
  | .call _ (.condWait _ _ tm) | .call _ (.eventualWait _ tm) => tm = false
  | .timeout .. => False
  | _ => True

instance (s : State) : (a : Act) → Decidable (Untimed s a)
  | .call _ (.condWait _ _ tm) | .call _ (.eventualWait _ tm) =>
    inferInstanceAs (Decidable (tm = false))
  | .timeout .. => inferInstanceAs (Decidable False)
  | .call _ (.lock _) | .call _ (.spinlock _) | .call _ (.trylock _) | .call _ (.unlock _)
  | .call _ (.signal _) | .call _ (.broadcast _) | .call _ (.eventualTest _)
  | .call _ (.eventualSet _ _ _) | .call _ (.eventualReset _) | .go _ | .callback _ =>
    inferInstanceAs (Decidable True)

def UnlockRet.untimed : UnlockRet → Prop
  | .user => True
  | .cond _ _ tm => tm = false

/-- The relocking of a condition wait that was signaled. -/
def LockRet.untimed : LockRet → Prop
  | .user => True
  | .cond b => b = true

def WaitRet.untimed : WaitRet → Prop
  | .lock _ k => k.untimed
  | _ => True

/-- The caller is in no timed call and wakes no timed waiter. -/
def Pc.untimed : Pc → Prop
  | .lock _ k => k.untimed
  | .condEnter _ _ tm | .eventualEnter _ tm => tm = false
  | .hold _ k tm => tm = false ∧ k.untimed
  | .blocked _ k | .spin _ k => k.untimed
  | .timed .. => False
  | .unlock _ k | .wakeNext _ k | .wakeThread _ _ k | .wakeStore _ _ _ k => k.untimed
  | .wakeAwaken _ _ tm _ k => tm = false ∧ k.untimed
  | _ => True

/-- The lists after a step. -/
def listsAfter (c : Config) (s : State) (q : Obj → List Rec) : Act → Obj → List Rec
  | .go t => queueAfter c s t q
  | _ => q

/-- What the callers have to wake after a step. -/
def wakersAfter (c : Config) (s : State) (q : Obj → List Rec) (ch : Nat → List Rec) :
    Act → Nat → List Rec
  | .go t => chainsAfter c s t q ch
  | _ => ch

/-- The invariant of untimed runs. -/
structure Plain (c : Config) (s : State) (q : Obj → List Rec) (ch : Nat → List Rec) : Prop where
  pcs : ∀ t, (s.pc t).untimed
  calls : ∀ t, s.pc t = .idle ∨ ∃ op, (s.pc t).within op
  recs : ∀ w, (s.waiter w).timed = false
  lists : Inv c (fun _ => True) s q ch
  pending : Pending s ch

section

variable {c : Config} {s s' : State} {q : Obj → List Rec} {ch : Nat → List Rec} {t : Nat} {a : Act}

@[simp] theorem exit_untimed (k : UnlockRet) : k.exit.pc.untimed ↔ k.untimed := by
  cases k with
  | user => exact Iff.rfl
  | cond co m tm => exact ⟨fun h => h.1, fun h => ⟨h, trivial⟩⟩

@[simp] theorem wakeRest_untimed (k : UnlockRet) (r : Option Rec) :
    (k.wakeRest r).pc.untimed ↔ k.untimed := by
  cases r with
  | none => exact exit_untimed k
  | some w => exact Iff.rfl

@[simp] theorem lockExit_untimed (k : LockRet) : k.exit.pc.untimed := by
  rw [lockExit_pc]; exact trivial

theorem waitExit_untimed {k : WaitRet} (hk : k.untimed) : (k.exit c true).pc.untimed := by
  cases k with
  | lock m k => exact hk
  | cond m => exact rfl
  | eventual e => exact trivial

theorem awaken_untimed {k : UnlockRet} (hk : k.untimed) (w : Rec) (r : Option Rec)
    (th : Option Nat) : (k.awaken w false r th).pc.untimed := by
  cases th with
  | none => exact (wakeRest_untimed k r).mpr hk
  | some u => exact ⟨rfl, hk⟩

theorem pop_untimed (s : State) (t : Nat) (o : Obj) {k : UnlockRet} (hk : k.untimed) :
    ((s.pop t o k).pc t).untimed := by
  unfold State.pop
  split
  · rw [leave_self]; exact (exit_untimed k).mpr hk
  · rw [leave_self]; exact hk

/-- The caller that moves is the only one whose program counter changes. -/
theorem advance_other (hst : advance c s t = some s') (u : Nat) (hu : u ≠ t) :
    s'.pc u = s.pc u := by
  obtain ⟨pc, hpc, _⟩ := advance_pc hst
  rw [hpc, Function.update_of_ne hu]

theorem pop_op (s : State) (t : Nat) (o : Obj) (k : UnlockRet) : (s.pop t o k).op = s.op := by
  unfold State.pop; split <;> rfl

theorem advance_op (hst : advance c s t = some s') : s'.op = s.op := by
  cases advance_cases hst with
  | unlockLast | signal => exact pop_op ..
  | _ => rfl

theorem advance_untimed (h : ∀ w, (s.waiter w).timed = false) (ht : (s.pc t).untimed)
    (hst : advance c s t = some s') : (s'.pc t).untimed := by
  have hto : ∀ {s₁ : State} {e : Exit}, e.pc.untimed → ((s₁.leave t e).pc t).untimed := by
    intro s₁ e he
    rw [leave_self]
    exact he
  cases advance_cases hst with
  | lockFree | lockAgain => exact hto (lockExit_untimed _)
  | lockWait hpc => rw [hpc] at ht; exact hto ⟨rfl, ht⟩
  | spinFree | spinAgain | spinWait | tryFree | tryAgain | tryFail | condRefuse | eventualTest
  | eventualAgain | eventualLong | eventualReset => exact hto trivial
  | unlockNested hpc => rw [hpc] at ht; exact hto ((exit_untimed _).mpr ht)
  | unlockLast hpc => rw [hpc] at ht; exact pop_untimed _ _ _ ht
  | condEnter hpc => rw [hpc] at ht; exact hto ht
  | signal => exact pop_untimed _ _ _ trivial
  | broadcast | eventualSet => exact hto ((wakeRest_untimed _ _).mpr trivial)
  | eventualPass => exact hto (waitExit_untimed (k := .eventual _) trivial)
  | eventualEnter hpc => rw [hpc] at ht; exact hto ⟨ht, trivial⟩
  | holdTimed hpc => rw [hpc] at ht; cases ht.1
  | holdBlock hpc | holdSpin hpc => rw [hpc] at ht; exact hto ht.2
  | blocked hpc | spin hpc => rw [hpc] at ht; exact hto (waitExit_untimed ht)
  | timed hpc => rw [hpc] at ht; exact absurd ht id
  | wakeNext hpc | wakeThread hpc => rw [hpc] at ht; exact hto ht
  | wakeStore hpc => rw [hpc] at ht; rw [h]; exact hto (awaken_untimed ht ..)
  | wakeAwaken hpc => rw [hpc] at ht; exact hto ((wakeRest_untimed _ _).mpr ht.2)

/-- A step is a call, a step of a caller, or a callback. -/
theorem step_untimed (hg : Untimed s a) (hst : step c s a = some s') :
    (∃ t op, a = .call t op ∧ s.pc t = .idle ∧ s' = ({ s with
      op := Function.update s.op t (s.op t + 1) } : State).leave t (.to op.start)) ∨
    (∃ t, a = .go t ∧ advance c s t = some s') ∨
    ∃ o t, a = .callback o ∧ s.slock o = some (.callback t) ∧
      s' = { s with slock := Function.update s.slock o none } := by
  cases step_cases hst with
  | call hidle => exact .inl ⟨_, _, rfl, hidle, rfl⟩
  | go => exact .inr (.inl ⟨_, rfl, hst⟩)
  | timeoutSignaled | timeout => exact absurd hg id
  | callback hl => exact .inr (.inr ⟨_, _, rfl, hl, rfl⟩)

theorem start_untimed {t : Nat} {op : Op} (hg : Untimed s (.call t op)) : op.start.untimed := by
  cases op <;> first | exact trivial | exact hg

theorem Plain.initial : Plain c (initial c) (fun _ => []) fun _ => [] :=
  ⟨fun _ => trivial, fun _ => .inl rfl, fun _ => rfl, .start, .initial⟩

theorem Plain.move (h : Plain c s q ch) (hst : advance c s t = some s') :
    Move c s q ch t s' (queueAfter c s t q) (chainsAfter c s t q ch) :=
  h.lists.advance_move hst

/-- The wait of a caller that no step of its own or of another one ends. -/
theorem Pending.call (hp : Pending s ch) (h : Inv c (fun _ => True) s q ch) (op : Op)
    (hidle : s.pc t = .idle) : Pending (({ s with
      op := Function.update s.op t (s.op t + 1) } : State).leave t (.to op.start)) ch := by
  have hcht : ch t = [] := h.no_chain (by rw [hidle]; rfl)
  intro u
  refine (hp u).frame ?_ (fun _ _ _ => rfl) (fun x sl hm => ⟨hm, ?_⟩) id fun x w rest _ hx => ?_
  · by_cases hut : u = t
    · subst hut
      rw [leave_self, hidle]
      cases op <;> rfl
    · rw [leave_pc, Function.update_of_ne hut]
  · have hxt : x ≠ t := by rintro rfl; rw [hcht] at hm; cases hm
    exact Function.update_of_ne hxt _ _
  · have hxt : x ≠ t := by rintro rfl; rw [hidle] at hx; cases hx
    rw [leave_pc, Function.update_of_ne hxt]; exact hx

theorem Plain.call (h : Plain c s q ch) {op : Op} (hg : Untimed s (.call t op))
    (hidle : s.pc t = .idle) : Plain c (({ s with
      op := Function.update s.op t (s.op t + 1) } : State).leave t (.to op.start)) q ch := by
  refine ⟨fun u => ?_, fun u => ?_, h.recs, h.lists.call hidle, h.pending.call h.lists op hidle⟩
  all_goals
    rw [leave_pc]
    by_cases hut : u = t
  · subst hut; rw [Function.update_self]; exact start_untimed hg
  · rw [Function.update_of_ne hut]; exact h.pcs u
  · subst hut; rw [Function.update_self]; exact .inr ⟨op, start_within op⟩
  · rw [Function.update_of_ne hut]; exact h.calls u

theorem untimed_wait {pc : Pc} (h : pc.untimed) {o : Obj} {md : Mode} (hw : pc.wait = some (o, md)) :
    md.isTimed = false := by
  have hk : ∀ k : UnlockRet, k.untimed → k.wait = some (o, md) → md.isTimed = false := by
    rintro (_ | ⟨co, m, tm⟩) hk hw
    · cases hw
    · cases hw; exact hk
  cases pc <;> simp only [Pc.wait, reduceCtorEq] at hw
  case hold => cases hw; exact h.1
  case blocked | spin => cases hw; rfl
  case timed => exact absurd h id
  case wakeAwaken => exact hk _ h.2 hw
  all_goals exact hk _ h hw

/-- No step makes a record that of a timed wait. -/
theorem Move.untimed {q' : Obj → List Rec} {ch' : Nat → List Rec} (hmv : Move c s q ch t s' q' ch')
    (h : ∀ w, (s.waiter w).timed = false) (ht : (s'.pc t).untimed) (w : Rec) :
    (s'.waiter w).timed = false := by
  have hw := h w
  cases hmv with
  | keep _ _ hwaiter _ => rw [hwaiter]; exact hw
  | push o tm hpc hwait hwakes hwait' hwaiter hblk =>
    rw [hwaiter, Function.update_apply]
    split
    · exact untimed_wait ht hwait'
    · exact hw
  | take o d l hpc hlock hq hwait hwakes hwaiter hblk =>
    rw [hwaiter]; split <;> exact hw
  | release _ _ _ _ _ _ _ hwaiter _ => rw [hwaiter]; exact hw
  | leave _ _ _ _ _ _ hwaiter _ => rw [hwaiter]; exact hw
  | store w' th rest _ _ _ hwaiter _ =>
    rw [hwaiter, Function.update_apply]
    split
    · exact h w'
    · exact hw
  | awaken _ _ _ _ _ _ hwaiter _ => rw [hwaiter]; exact hw

theorem Plain.go (h : Plain c s q ch) (hst : advance c s t = some s') :
    Plain c s' (queueAfter c s t q) (chainsAfter c s t q ch) := by
  have hpc : ∀ u, (s'.pc u).untimed := by
    intro u
    by_cases hut : u = t
    · subst hut; exact advance_untimed h.recs (h.pcs u) hst
    · rw [advance_other hst u hut]; exact h.pcs u
  have hcalls : ∀ u, s'.pc u = .idle ∨ ∃ op, (s'.pc u).within op := by
    intro u
    by_cases hut : u = t
    · subst hut
      obtain hidle | ⟨op, hop⟩ := h.calls u
      · simp [advance, hidle] at hst
      · exact (advance_within hop hst).imp id fun hw => ⟨op, hw⟩
    · rw [advance_other hst u hut]; exact h.calls u
  have hlate : ∀ u w tm rest k, s.pc t = .wakeAwaken u w tm rest k → tm = true ∨ ¬ True →
      ∀ o, (s.pc u).wait = some (o, .blocked) → True → s.blk u = false := by
    intro u w tm rest k hpc' hlate
    have ht := h.pcs t
    rw [hpc'] at ht
    obtain ⟨rfl, _⟩ := ht
    simp at hlate
  have hmv := h.move hst
  refine ⟨hpc, hcalls, hmv.untimed h.recs (hpc t), ?_,
    h.pending.move h.lists hmv (advance_other hst) (advance_op hst)⟩
  obtain ⟨ch', hinv, hch⟩ := h.lists.go hlate hst
  rw [← hch fun _ => trivial]
  exact hinv

theorem Plain.step (h : Plain c s q ch) (hg : Untimed s a) (hst : step c s a = some s') :
    Plain c s' (listsAfter c s q a) (wakersAfter c s q ch a) := by
  obtain ⟨t, op, rfl, hidle, rfl⟩ | ⟨t, rfl, hst⟩ | ⟨o, t, rfl, hl, rfl⟩ := step_untimed hg hst
  · exact h.call hg hidle
  · exact h.go hst
  · exact ⟨h.pcs, h.calls, h.recs, h.lists.callback hl, fun u => (h.pending u).frame rfl
      (fun _ _ _ => rfl) (fun _ _ hm => ⟨hm, rfl⟩) id fun _ _ _ _ hx => hx⟩

end

end Sync
end AbtReconverse
