import AbtReconverse.Sync.Timed

/-!
# AbtReconverse.Sync.Wake

Who readies a ULT that is blocked on a wait list. `wake` publishes `signaled` before it calls
`CthAwakenIfBlocked` on a thread it knows by handle only. A blocked waiter cannot leave in between;
a polling timed waiter can, and may be blocked on another object by the time the call is made
(`late_awaken`): it is readied by an operation that never took its record, and pushes a record that
is still listed a second time.

`wake_precise`: this is all that can go wrong. When no ULT suspends while a wake-up for one of its
timed waits is still to come (`NoWakePending`), and no deadline meets a record that is taken and not
signaled, every list is a chain of records of callers that wait on it and every blocked ULT is
readied by the operation that took its record.
-/

namespace AbtReconverse
namespace Sync

open Lts

/-- No caller is between the store to `signaled` and the `CthAwakenIfBlocked` for a timed wait
of `t`. -/
def NoWakePending (s : State) (t : Nat) : Prop :=
  ∀ x w rest k, s.pc x ≠ .wakeAwaken t w true rest k

/-- The side condition of a step: of a deadline, and of `CthSuspendBlocked` in `wait_on`. -/
def QuietAt (s : State) : Act → Prop
  | .timeout t _ => RecordSettled s t
  | .go t => match s.pc t with
    | .hold _ _ false => NoWakePending s t
    | _ => True
  | _ => True

/-- Every wait list is a chain without repetition, of the records of callers that wait on it. -/
def ListsSound (s : State) : Prop :=
  ∀ o, ∃ l, l.Nodup ∧ Rep s.next (s.wl o) l ∧
    ∀ w ∈ l, w.slot = o.slot ∧ ∃ md, (s.pc w.owner).wait = some (o, md)

/-- A ULT that the step makes ready was blocked by `wait_on` on some `o`, and the caller that makes
the step took its record off that list in the operation it is in. -/
def WakesOwn (s : State) (a : Act) (s' : State) : Prop :=
  ∀ t, s.blk t = true → s'.blk t = false → ∃ x o, a = .go x ∧
    (s.pc t).wait = some (o, .blocked) ∧ (s.waiter ⟨t, o.slot⟩).place = .taken x (s.op x)

section

variable {c : Config} {s s' : State} {t : Nat}

/-! ## Where a step blocks, readies, and gets ready to wake -/

theorem pop_blk (s : State) (t : Nat) (o : Obj) (k : UnlockRet) : (s.pop t o k).blk = s.blk := by
  unfold State.pop; split <;> rfl

/-- A step changes `CTH_STATE_BLOCKED` by suspending its caller or by `CthAwakenIfBlocked`. -/
theorem step_blk {a : Act} (hst : step c s a = some s') :
    s'.blk = s.blk ∨
    (∃ t o k, a = .go t ∧ s.pc t = .hold o k false ∧ s'.blk = Function.update s.blk t true) ∨
    ∃ x u w tm rest k, a = .go x ∧ s.pc x = .wakeAwaken u w tm rest k ∧
      s'.blk = Function.update s.blk u false := by
  cases step_cases hst with
  | go hadv =>
    cases hadv with
    | holdBlock hpc => exact .inr (.inl ⟨_, _, _, rfl, hpc, rfl⟩)
    | wakeAwaken hpc => exact .inr (.inr ⟨_, _, _, _, _, _, rfl, hpc, rfl⟩)
    | unlockLast | signal => exact .inl (pop_blk ..)
    | _ => exact .inl rfl
  | _ => exact .inl rfl

/-- What a caller that takes no record, or has just taken one, is waking. -/
def Awakens (pc : Pc) : Prop := ∃ u tm w rest, pc.wakes = some (.awaken u tm, w, rest)

theorem not_awakens_of_none {pc : Pc} (h : pc.wakes = none) : ¬ Awakens pc := by
  rintro ⟨u, tm, w, rest, h'⟩; rw [h] at h'; cases h'

theorem not_awakens_exit (k : UnlockRet) : ¬ Awakens k.exit.pc := by
  rintro ⟨u, tm, w, rest, h⟩; simp at h

theorem not_awakens_wakeRest (k : UnlockRet) (r : Option Rec) : ¬ Awakens (k.wakeRest r).pc := by
  rintro ⟨u, tm, w, rest, h⟩; cases r <;> simp at h

theorem pop_pc (s : State) (t : Nat) (o : Obj) (k : UnlockRet) :
    ∃ pc, ¬ Awakens pc ∧ (s.pop t o k).pc = Function.update s.pc t pc := by
  unfold State.pop
  split
  · exact ⟨_, not_awakens_exit k, rfl⟩
  · refine ⟨_, ?_, rfl⟩
    rintro ⟨u, tm, w, rest, h⟩
    simp [Exit.to, Pc.wakes] at h

theorem detach_pc (s : State) (t : Nat) (o : Obj) (k : UnlockRet) :
    (s.detach t o k).pc = Function.update s.pc t (k.wakeRest (s.wl o).head).pc := rfl

/-- Only the store to `signaled` leads to a `CthAwakenIfBlocked`. -/
theorem advance_pc (hst : advance c s t = some s') :
    ∃ pc, s'.pc = Function.update s.pc t pc ∧ (¬ Awakens pc ∨
      ∃ w th rest k, s.pc t = .wakeStore w th rest k ∧
        pc = (k.awaken w (s.waiter w).timed rest th).pc) := by
  cases advance_cases hst with
  | lockFree | lockAgain => exact ⟨_, rfl, .inl (not_awakens_of_none (lockExit_wakes _))⟩
  | unlockNested => exact ⟨_, rfl, .inl (not_awakens_exit _)⟩
  | unlockLast | signal =>
    obtain ⟨pc, h, h'⟩ := pop_pc _ t _ _
    exact ⟨pc, h', .inl h⟩
  | broadcast | eventualSet | wakeAwaken => exact ⟨_, rfl, .inl (not_awakens_wakeRest _ _)⟩
  | eventualPass | blocked | spin | timed =>
    exact ⟨_, rfl, .inl (not_awakens_of_none (waitExit_wakes ..))⟩
  | wakeNext | wakeThread =>
    refine ⟨_, rfl, .inl ?_⟩
    rintro ⟨u, tm, w, rest, h⟩
    simp [Exit.to, Pc.wakes] at h
  | wakeStore hpc => exact ⟨_, rfl, .inr ⟨_, _, _, _, hpc, rfl⟩⟩
  | _ => exact ⟨_, rfl, .inl (not_awakens_of_none rfl)⟩

/-! ## The invariant of quiet runs -/

/-- The lists, and: a wake-up still to come for a timed wait finds its thread not blocked. -/
structure WakeInv (c : Config) (s : State) : Prop where
  lists : ∃ q ch, Inv c (fun _ => True) s q ch
  late : ∀ x u w rest, (s.pc x).wakes = some (.awaken u true, w, rest) → s.blk u = false

theorem wakeInv_initial : WakeInv c (initial c) :=
  ⟨⟨_, _, .start⟩, fun _ _ _ _ _ => rfl⟩

theorem wakes_awaken {pc : Pc} {u : Nat} {tm : Bool} {w : Rec} {rest : Option Rec}
    (h : pc.wakes = some (.awaken u tm, w, rest)) : ∃ k, pc = .wakeAwaken u w tm rest k := by
  cases pc <;> simp only [Pc.wakes] at h <;> cases h
  exact ⟨_, rfl⟩

/-- The thread of a record that is being signaled for a timed wait still polls. -/
theorem Inv.store_polls {q : Obj → List Rec} {ch : Nat → List Rec} {x u : Nat} {w : Rec}
    {rest : Option Rec} (h : Inv c (fun _ => True) s q ch)
    (hx : (s.pc x).wakes = some (.store (some u), w, rest)) (ht : (s.waiter w).timed = true) :
    s.blk u = false := by
  obtain ⟨_, o, md, hm⟩ := (h.wakes x).store_hands hx trivial
  have hok := (h.waits w.owner).record o md hm.wait trivial
  have hw : (⟨w.owner, o.slot⟩ : Rec) = w := by rw [hm.slot]
  have hth := (h.wakes x).stored _ w rest hx trivial
  rw [← hw, hok.thread] at hth
  have hu : u = w.owner := by
    split at hth <;> cases hth
    rfl
  cases hb : s.blk u with
  | false => rfl
  | true =>
    obtain ⟨o', ho'⟩ := (h.waits u).blocked hb
    rw [hu, hm.wait] at ho'
    obtain ⟨_, rfl⟩ := Prod.mk.inj (Option.some.inj ho')
    have := hok.timed
    rw [hw, ht] at this
    cases this

/-- Where a caller that is about to make a timed wake-up was before the step. -/
theorem step_awaken {a : Act} {x u : Nat} {tm : Bool} {w : Rec} {rest : Option Rec}
    (hst : step c s a = some s') (hx : (s'.pc x).wakes = some (.awaken u tm, w, rest)) :
    (s.pc x).wakes = some (.awaken u tm, w, rest) ∨
    (a = .go x ∧ (s.pc x).wakes = some (.store (some u), w, rest) ∧ tm = (s.waiter w).timed) := by
  -- the caller that moves is the only one whose program counter changes
  have hother : ∀ t pc, s'.pc = Function.update s.pc t pc → ¬ Awakens pc →
      (s.pc x).wakes = some (.awaken u tm, w, rest) := by
    intro t pc hpc hn
    rw [hpc] at hx
    by_cases hxt : x = t
    · subst hxt
      rw [Function.update_self] at hx
      exact absurd ⟨u, tm, w, rest, hx⟩ hn
    · rwa [Function.update_of_ne hxt] at hx
  cases a with
  | go t =>
    obtain ⟨pc, hpc, hn | ⟨w', th, rest', k, hpt, rfl⟩⟩ := advance_pc hst
    · exact .inl (hother t pc hpc hn)
    · by_cases hxt : x = t
      · subst hxt
        rw [hpc, Function.update_self] at hx
        cases th with
        | none => exact absurd ⟨u, tm, w, rest, hx⟩ (not_awakens_wakeRest k rest')
        | some v =>
          cases hx
          exact .inr ⟨rfl, by rw [hpt]; rfl, rfl⟩
      · rw [hpc, Function.update_of_ne hxt] at hx
        exact .inl hx
  | call t op =>
    cases step_cases hst
    exact .inl (hother t op.start rfl (not_awakens_of_none (by cases op <;> rfl)))
  | timeout t fuel =>
    cases step_cases hst <;>
      exact .inl (hother t _ rfl (not_awakens_of_none (waitExit_wakes ..)))
  | callback o =>
    cases step_cases hst
    exact .inl hx

theorem step_wakeInv {a : Act} (h : WakeInv c s) (hq : QuietAt s a) (hst : step c s a = some s') :
    WakeInv c s' := by
  obtain ⟨⟨q, ch, hinv⟩, hlate⟩ := h
  refine ⟨step_inv trivial hinv ?_ ?_ hst, ?_⟩
  · rintro t fuel rfl; exact hq
  · intro t u w tm rest k _ hpc ht o _ _
    have htm : tm = true := by simpa using ht
    exact hlate t u w rest (by rw [hpc, htm]; rfl)
  · intro x u w rest hx
    have hx' := step_awaken hst hx
    -- before the step the thread was not blocked
    have hpre : s.blk u = false := by
      obtain hx' | ⟨_, hx', htm⟩ := hx'
      · exact hlate x u w rest hx'
      · exact hinv.store_polls hx' htm.symm
    obtain hb | ⟨t, o, k, rfl, hpc, hb⟩ | ⟨y, v, w', tm, rest', k, rfl, hpc, hb⟩ := step_blk hst
    · rw [hb]; exact hpre
    · rw [hb]
      by_cases hut : u = t
      · subst hut
        simp only [QuietAt, hpc] at hq
        obtain hx' | ⟨he, hx', _⟩ := hx'
        · obtain ⟨k', hk'⟩ := wakes_awaken hx'
          exact absurd hk' (hq x w rest k')
        · cases he; rw [hpc] at hx'; cases hx'
      · rw [Function.update_of_ne hut]; exact hpre
    · rw [hb, Function.update_apply]
      split
      · rfl
      · exact hpre

theorem reach_wakeInv (h : Reach (system c) QuietAt s) : WakeInv c s := by
  refine Reach.invariant ?_ ?_ h
  · rintro _ rfl; exact wakeInv_initial
  · intro s a s' _ hinv hq hst; exact step_wakeInv hinv hq hst

theorem WakeInv.sound (h : WakeInv c s) : ListsSound s := by
  obtain ⟨⟨q, ch, hinv⟩, _⟩ := h
  intro o
  refine ⟨q o, (hinv.rep o trivial).path.nodup, hinv.rep o trivial, fun w hw => ?_⟩
  have hpl := (hinv.listed o w trivial).mp hw
  exact ⟨hinv.typedPlace o w hpl, (hinv.onList o w trivial hpl).2⟩

theorem WakeInv.wakesOwn {a : Act} (h : WakeInv c s) (hst : step c s a = some s') :
    WakesOwn s a s' := by
  obtain ⟨⟨q, ch, hinv⟩, hlate⟩ := h
  intro t hblk hblk'
  obtain hb | ⟨u, o, k, rfl, _, hb⟩ | ⟨x, u, w, tm, rest, k, rfl, hpc, hb⟩ := step_blk hst
  · rw [hb, hblk] at hblk'; cases hblk'
  · rw [hb, Function.update_apply] at hblk'
    split at hblk'
    · cases hblk'
    · rw [hblk] at hblk'; cases hblk'
  · obtain rfl : t = u := by
      by_contra hne
      rw [hb, Function.update_of_ne hne, hblk] at hblk'
      cases hblk'
    have hwk : (s.pc x).wakes = some (.awaken t tm, w, rest) := by rw [hpc]; rfl
    cases tm with
    | true => have := hlate x t w rest hwk; rw [hblk] at this; cases this
    | false =>
      obtain ⟨hown, _, _, o, hm⟩ := (hinv.wakes x).awaken t w rest hwk trivial
      have hw : (⟨t, o.slot⟩ : Rec) = w := by rw [← hown, hm.slot]
      exact ⟨x, o, rfl, hown ▸ hm.wait, hw ▸ hm.place⟩

/-- In a quiet run the lists are sound, and whichever step makes a blocked ULT ready is made by the
operation that took its record off the list. -/
theorem wake_precise (h : Reach (system c) QuietAt s) :
    ListsSound s ∧ ∀ a s', step c s a = some s' → WakesOwn s a s' :=
  ⟨(reach_wakeInv h).sound, fun _ _ hst => (reach_wakeInv h).wakesOwn hst⟩

end

/-- Caller 1 signals the timed wait of caller 0; before it makes its `CthAwakenIfBlocked`, caller 0
leaves the wait and blocks in the lock of the mutex, which caller 2 has. -/
def lateAwaken : List Act :=
  timedWait ++ [Act.call 2 (.lock 0), .go 2, .go 1, .go 1, .go 0, .go 0, .go 0, .callback (.mutex 0)]

/-- The wake-up readies caller 0, whose record is still on the list of the mutex; caller 0 finds the
mutex locked and pushes the record again, which then points to itself. -/
theorem late_awaken :
    (∃ s s', Reach (system demo) SettledAt s ∧ step demo s (.go 1) = some s' ∧
      ¬ WakesOwn s (.go 1) s') ∧
    ∃ s, Reach (system demo) SettledAt s ∧ s.next ⟨0, .lock⟩ = some ⟨0, .lock⟩ ∧
      ¬ ListsSound s := by
  have h0 : Reach (system demo) SettledAt (initial demo) := .start rfl
  constructor
  · obtain ⟨s, hr, hblk, hpl, hw, hst⟩ := h0.exists_run
      (fun s => s.blk 0 = true ∧ (s.waiter ⟨0, .lock⟩).place = .listed (.mutex 0) ∧
        (s.pc 0).wait = some (.mutex 0, .blocked) ∧
        (step demo s (.go 1)).any (fun s' => s'.blk 0 = false) = true) lateAwaken (by decide)
    obtain ⟨s', hs', hblk'⟩ := (Option.any_eq_true _ _).mp hst
    refine ⟨s, s', hr, hs', fun h => ?_⟩
    obtain ⟨x, o, _, ho, hplace⟩ := h 0 hblk (of_decide_eq_true hblk')
    rw [hw] at ho
    cases ho
    rw [show (Obj.mutex 0).slot = .lock from rfl, hpl] at hplace
    cases hplace
  · obtain ⟨s, hr, hhead, hnext⟩ := h0.exists_run
      (fun s => (s.wl (.mutex 0)).head = some ⟨0, .lock⟩ ∧
        s.next ⟨0, .lock⟩ = some ⟨0, .lock⟩) (lateAwaken ++ [Act.go 1, .go 0, .go 0]) (by decide)
    refine ⟨s, hr, hnext, fun h => ?_⟩
    obtain ⟨l, hnd, hrep, _⟩ := h (.mutex 0)
    have hp := hrep.path
    rw [hhead] at hp
    cases l with
    | nil => cases hp
    | cons w l =>
      obtain ⟨hw, hp⟩ := hp
      cases hw
      rw [hnext] at hp
      cases l with
      | nil => cases hp
      | cons w l => cases hp.1; simp at hnd

/-- ULT 0 blocks on an eventual; caller 1 sets it, takes the record and readies ULT 0. -/
theorem wake_precise_set : ∃ s s', Reach (system demo) QuietAt s ∧
    step demo s (.go 1) = some s' ∧ (s.blk 0 = true ∧ s'.blk 0 = false) ∧ ListsSound s ∧
    WakesOwn s (.go 1) s' := by
  have h1 := Reach.next (.start rfl : Reach (system demo) QuietAt (initial demo))
    (a := Act.call 0 (.eventualWait 0 false)) trivial rfl
  have h2 := h1.next (a := Act.go 0) trivial rfl
  have hpc : ∀ x w rest k, Function.update (Function.update (initial demo).pc 0
      (.eventualEnter 0 false)) 0 (.hold (.eventual 0) (.eventual 0) false) x ≠
      .wakeAwaken 0 w true rest k := by
    intro x w rest k
    by_cases hx : x = 0
    · subst hx; simp
    · simp [hx, initial]
  have h3 := h2.next (a := Act.go 0) hpc rfl
  have h4 := h3.next (a := Act.callback (.eventual 0)) trivial rfl
  have h5 := h4.next (a := Act.call 1 (.eventualSet 0 0 none)) trivial rfl
  have h6 := h5.next (a := Act.go 1) trivial rfl
  have h7 := h6.next (a := Act.go 1) trivial rfl
  have h8 := h7.next (a := Act.go 1) trivial rfl
  have h9 := h8.next (a := Act.go 1) trivial rfl
  exact ⟨_, _, h9, rfl, ⟨rfl, rfl⟩, (wake_precise h9).1, (wake_precise h9).2 _ _ rfl⟩

end Sync
end AbtReconverse
