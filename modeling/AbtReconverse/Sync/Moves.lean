import AbtReconverse.Sync.Mutex
import AbtReconverse.Sync.Wake

/-!
# AbtReconverse.Sync.Moves

What a step of a caller does to the waiter records, the wait lists and the wakers' chains, in seven
kinds (`Move`); `advance_move` says that every step is one of them. The results on mutexes,
condition variables and eventuals are proved by cases on the kind, not on the program counter.

`Pending` is the first of them: a record that was taken off a list and is not signaled is still in
the hands of the operation that took it, and the blocked owner of a signaled one is about to be
readied by that operation.
-/

namespace AbtReconverse
namespace Sync

open Lts

/-- The caller is at a section that takes records off the list of `o`. -/
def Pc.takes (o : Obj) : Pc → Prop
  | .unlock m _ => o = .mutex m
  | .signal co | .broadcast co => o = .cond co
  | .eventualSet e _ _ => o = .eventual e
  | _ => False

/-- The caller is at a section that may put its record on the list of `o`. -/
def Pc.pushes (o : Obj) : Pc → Prop
  | .lock m _ => o = .mutex m
  | .condEnter co _ _ => o = .cond co
  | .eventualEnter e _ => o = .eventual e
  | _ => False

/-- A step of `t`, with the lists and the chains after it. -/
inductive Move (c : Config) (s : State) (q : Obj → List Rec) (ch : Nat → List Rec) (t : Nat)
    (s' : State) : (Obj → List Rec) → (Nat → List Rec) → Prop where
  | keep (hwait : (s'.pc t).wait = (s.pc t).wait) (hwakes : ¬ Awakens (s.pc t))
      (hwaiter : s'.waiter = s.waiter) (hblk : s'.blk = s.blk) : Move c s q ch t s' q ch
  | push (o : Obj) (tm : Bool) (hpc : (s.pc t).pushes o) (hwait : (s.pc t).wait = none)
      (hwakes : (s.pc t).wakes = none)
      (hwait' : (s'.pc t).wait = some (o, .held tm))
      (hwaiter : s'.waiter = Function.update s.waiter ⟨t, o.slot⟩
        ⟨if c.ult t then some t else none, false, tm, .listed o⟩)
      (hblk : s'.blk = s.blk) : Move c s q ch t s' (enqueue q t o) ch
  | take (o : Obj) (d l : List Rec) (hpc : (s.pc t).takes o) (hlock : s.slock o = none)
      (hq : q o = d ++ l) (hwait : (s'.pc t).wait = (s.pc t).wait)
      (hwakes : (s.pc t).wakes = none)
      (hwaiter : ∀ w, s'.waiter w =
        if w ∈ d then { s.waiter w with place := .taken t (s.op t) } else s.waiter w)
      (hblk : s'.blk = s.blk) :
      Move c s q ch t s' (Function.update q o l) (Function.update ch t d)
  | release (o : Obj) (tm : Bool) (md : Mode) (hwait : (s.pc t).wait = some (o, .held tm))
      (hwakes : (s.pc t).wakes = none) (hwait' : (s'.pc t).wait = some (o, md))
      (hmd : md.isHeld = false) (hwaiter : s'.waiter = s.waiter)
      (hblk : ∀ u, u ≠ t → s'.blk u = s.blk u) : Move c s q ch t s' q ch
  | leave (o : Obj) (md : Mode) (hwait : (s.pc t).wait = some (o, md))
      (hwakes : (s.pc t).wakes = none) (hwait' : (s'.pc t).wait = none)
      (hsig : (s.waiter ⟨t, o.slot⟩).signaled = true) (hwaiter : s'.waiter = s.waiter)
      (hblk : s'.blk = s.blk) : Move c s q ch t s' q ch
  | store (w : Rec) (th : Option Nat) (rest : Option Rec)
      (hwakes : (s.pc t).wakes = some (.store th, w, rest))
      (hwait : (s'.pc t).wait = (s.pc t).wait)
      (hwakes' : ∀ u, th = some u →
        (s'.pc t).wakes = some (.awaken u (s.waiter w).timed, w, rest))
      (hwaiter : s'.waiter = Function.update s.waiter w { s.waiter w with signaled := true })
      (hblk : s'.blk = s.blk) : Move c s q ch t s' q (Function.update ch t (ch t).tail)
  | awaken (u : Nat) (tm : Bool) (w : Rec) (rest : Option Rec)
      (hwakes : (s.pc t).wakes = some (.awaken u tm, w, rest))
      (hwait : (s'.pc t).wait = (s.pc t).wait) (hwaiter : s'.waiter = s.waiter)
      (hblk : s'.blk = Function.update s.blk u false) : Move c s q ch t s' q ch

section

variable {c : Config} {s s' : State} {q : Obj → List Rec} {ch : Nat → List Rec} {t : Nat}

/-- A step to a program counter that waits on the same object. -/
theorem Move.of_leave {s₁ : State} {e : Exit} (hwait : e.pc.wait = (s.pc t).wait)
    (hwakes : (s.pc t).wakes = none) (hwaiter : s₁.waiter = s.waiter) (hblk : s₁.blk = s.blk) :
    Move c s q ch t (s₁.leave t e) q ch := by
  refine .keep ?_ (not_awakens_of_none hwakes) hwaiter hblk
  rw [leave_self, hwait]

theorem pop_wait (s : State) (t : Nat) (o : Obj) (k : UnlockRet) :
    ((s.pop t o k).pc t).wait = k.wait := by
  unfold State.pop
  split
  · simp [State.leave]
  · simp [State.leave, Exit.to, Pc.wait]

/-- The records after `wl_pop`: the first one is taken. -/
theorem pop_waiter (s : State) (t : Nat) (o : Obj) (k : UnlockRet) {l : List Rec}
    (hrep : Rep s.next (s.wl o) l) (w : Rec) :
    (s.pop t o k).waiter w =
      if w ∈ l.take 1 then { s.waiter w with place := .taken t (s.op t) } else s.waiter w := by
  unfold State.pop
  cases l with
  | nil => rw [rep_pop_nil hrep]; rfl
  | cons v l =>
    have hpop := (rep_pop hrep).1
    cases hv : wlPop s.next (s.wl o) with
    | mk r wl =>
      rw [hv] at hpop
      obtain rfl : r = some v := hpop
      by_cases hw : w = v
      · subst hw; simp [State.leave]
      · simp [State.leave, hw]

/-- A step that pops the first record of the list of `o`. -/
theorem Inv.pop_move {o : Obj} {k : UnlockRet} {s₁ : State} (h : Inv c (fun _ => True) s q ch)
    (hpc : (s.pc t).takes o) (hlock : s.slock o = none) (hwait : (s.pc t).wait = k.wait)
    (hwakes : (s.pc t).wakes = none) (hnext : s₁.next = s.next) (hwl : s₁.wl = s.wl)
    (hwaiter : s₁.waiter = s.waiter) (hop : s₁.op = s.op) (hblk : s₁.blk = s.blk) :
    Move c s q ch t (s₁.pop t o k) (Function.update q o (q o).tail)
      (Function.update ch t ((q o).take 1)) := by
  have hrep : Rep s₁.next (s₁.wl o) (q o) := by rw [hnext, hwl]; exact h.rep o trivial
  refine .take o _ _ hpc hlock ?_ ?_ hwakes (fun w => ?_) ?_
  · rw [← List.drop_one, List.take_append_drop]
  · rw [pop_wait, hwait]
  · rw [pop_waiter s₁ t o k hrep, hwaiter, hop]
  · rw [pop_blk, hblk]

/-- A step that detaches the list of `o`. -/
theorem Inv.detach_move {o : Obj} {s₁ : State} (h : Inv c (fun _ => True) s q ch)
    (hpc : (s.pc t).takes o) (hlock : s.slock o = none) (hwait : (s.pc t).wait = none)
    (hwakes : (s.pc t).wakes = none) (hwaiter : s₁.waiter = s.waiter) (hop : s₁.op = s.op)
    (hblk : s₁.blk = s.blk) :
    Move c s q ch t (s₁.detach t o .user) (Function.update q o []) (Function.update ch t (q o)) := by
  refine .take o _ _ hpc hlock (List.append_nil _).symm ?_ hwakes (fun w => ?_) hblk
  · rw [detach_pc, Function.update_self, wakeRest_wait, hwait]; rfl
  · simp only [State.detach, State.leave, hwaiter, hop, h.listed o w trivial]

theorem Inv.advance_move (h : Inv c (fun _ => True) s q ch) (hst : advance c s t = some s') :
    Move c s q ch t s' (queueAfter c s t q) (chainsAfter c s t q ch) := by
  cases advance_cases hst with
  | lockFree hpc _ hl =>
    simp only [queueAfter, chainsAfter, hpc, if_pos hl]
    exact .of_leave (by rw [lockExit_wait, hpc]; rfl) (by rw [hpc]; rfl) rfl rfl
  | lockAgain hpc _ hl hr =>
    simp only [queueAfter, chainsAfter, hpc, if_neg hl, if_pos hr]
    exact .of_leave (by rw [lockExit_wait, hpc]; rfl) (by rw [hpc]; rfl) rfl rfl
  | lockWait hpc _ hl hr =>
    simp only [queueAfter, chainsAfter, hpc, if_neg hl, if_neg hr]
    exact .push _ _ (by rw [hpc]; rfl) (by rw [hpc]; rfl) (by rw [hpc]; rfl)
      (by simp [State.leave, Exit.to, Pc.wait]) rfl rfl
  | spinFree hpc | spinAgain hpc | spinWait hpc | tryFree hpc | tryAgain hpc | tryFail hpc
  | eventualTest hpc | eventualReset hpc =>
    simp only [queueAfter, chainsAfter, hpc]
    exact .of_leave (by rw [hpc]; rfl) (by rw [hpc]; rfl) rfl rfl
  | unlockNested hpc _ hn =>
    simp only [queueAfter, chainsAfter, takenOff, hpc, if_pos hn,
      h.update_nil (show (s.pc t).wakes = none by rw [hpc]; rfl)]
    exact .of_leave (by rw [exit_wait, hpc]; rfl) (by rw [hpc]; rfl) rfl rfl
  | unlockLast hpc hs hn =>
    simp only [queueAfter, chainsAfter, takenOff, hpc, if_neg hn]
    exact h.pop_move (by rw [hpc]; rfl) hs (by rw [hpc]; rfl) (by rw [hpc]; rfl) rfl rfl rfl rfl rfl
  | condEnter hpc _ hm =>
    simp only [queueAfter, chainsAfter, hpc, if_pos hm]
    exact .push _ _ (by rw [hpc]; rfl) (by rw [hpc]; rfl) (by rw [hpc]; rfl)
      (by simp [State.leave, Exit.to, Pc.wait, UnlockRet.wait]) rfl rfl
  | condRefuse hpc _ hm =>
    simp only [queueAfter, chainsAfter, hpc, if_neg hm]
    exact .of_leave (by rw [hpc]; rfl) (by rw [hpc]; rfl) rfl rfl
  | signal hpc hs =>
    simp only [queueAfter, chainsAfter, takenOff, hpc]
    exact h.pop_move (by rw [hpc]; rfl) hs (by rw [hpc]; rfl) (by rw [hpc]; rfl) rfl rfl rfl rfl rfl
  | broadcast hpc hs =>
    simp only [queueAfter, chainsAfter, takenOff, hpc]
    exact h.detach_move (by rw [hpc]; rfl) hs (by rw [hpc]; rfl) (by rw [hpc]; rfl) rfl rfl rfl
  | eventualPass hpc _ hr =>
    simp only [queueAfter, chainsAfter, hpc, if_pos hr]
    exact .of_leave (by rw [waitExit_wait, hpc]; rfl) (by rw [hpc]; rfl) rfl rfl
  | eventualEnter hpc _ hr =>
    simp only [queueAfter, chainsAfter, hpc, if_neg hr]
    exact .push _ _ (by rw [hpc]; rfl) (by rw [hpc]; rfl) (by rw [hpc]; rfl)
      (by simp [State.leave, Exit.to, Pc.wait]) rfl rfl
  | eventualAgain hpc _ hr =>
    simp only [queueAfter, chainsAfter, takenOff, hpc, if_pos hr,
      h.update_nil (show (s.pc t).wakes = none by rw [hpc]; rfl)]
    exact .of_leave (by rw [hpc]; rfl) (by rw [hpc]; rfl) rfl rfl
  | eventualLong hpc _ hr hn =>
    simp only [queueAfter, chainsAfter, takenOff, hpc, if_neg hr, if_pos hn,
      h.update_nil (show (s.pc t).wakes = none by rw [hpc]; rfl)]
    exact .of_leave (by rw [hpc]; rfl) (by rw [hpc]; rfl) rfl rfl
  | eventualSet hpc hs hr hn =>
    simp only [queueAfter, chainsAfter, takenOff, hpc, if_neg hr, if_neg hn]
    exact h.detach_move (by rw [hpc]; rfl) hs (by rw [hpc]; rfl) (by rw [hpc]; rfl) rfl rfl rfl
  | holdTimed hpc =>
    simp only [queueAfter, chainsAfter, hpc]
    exact .release _ _ .timed (by rw [hpc]; rfl) (by rw [hpc]; rfl)
      (by simp [State.leave, Exit.to, Pc.wait]) rfl rfl fun _ _ => rfl
  | holdBlock hpc =>
    simp only [queueAfter, chainsAfter, hpc]
    exact .release _ _ .blocked (by rw [hpc]; rfl) (by rw [hpc]; rfl)
      (by simp [State.leave, Exit.to, Pc.wait]) rfl rfl fun u hu => Function.update_of_ne hu _ _
  | holdSpin hpc =>
    simp only [queueAfter, chainsAfter, hpc]
    exact .release _ _ .spin (by rw [hpc]; rfl) (by rw [hpc]; rfl)
      (by simp [State.leave, Exit.to, Pc.wait]) rfl rfl fun _ _ => rfl
  | @blocked o k hpc hb =>
    have hwait : (s.pc t).wait = some (o, .blocked) := by rw [hpc]; rfl
    have hsig := (((h.waits t).record o _ hwait trivial).blocked rfl).2 (by simpa using hb)
    simp only [queueAfter, chainsAfter, hpc]
    exact .leave o _ hwait (by rw [hpc]; rfl) (by simp [State.leave]) hsig rfl rfl
  | spin hpc hsig | timed hpc hsig =>
    simp only [queueAfter, chainsAfter, hpc]
    exact .leave _ _ (by rw [hpc]; rfl) (by rw [hpc]; rfl) (by simp [State.leave]) hsig rfl rfl
  | wakeNext hpc | wakeThread hpc =>
    simp only [queueAfter, chainsAfter, hpc]
    refine .keep (by simp [State.leave, hpc, Exit.to, Pc.wait]) ?_ rfl rfl
    rintro ⟨u, tm, w, rest, h'⟩
    rw [hpc] at h'
    cases h'
  | wakeStore hpc =>
    simp only [queueAfter, chainsAfter, hpc]
    refine .store _ _ _ (by rw [hpc]; rfl) ?_ ?_ rfl rfl
    · rw [leave_self, awaken_wait, hpc]; rfl
    · rintro u rfl
      simp [UnlockRet.awaken, Exit.to, Pc.wakes]
  | wakeAwaken hpc =>
    simp only [queueAfter, chainsAfter, hpc]
    refine .awaken _ _ _ _ (by rw [hpc]; rfl) ?_ rfl rfl
    rw [leave_self, wakeRest_wait, hpc]; rfl

/-! ## From the list to the waker -/

section

variable {q' : Obj → List Rec} {ch' : Nat → List Rec}

/-- A listed record stays so, or a step at a section that takes records off the list takes it, and
its owner goes on waiting. -/
theorem Move.listed (hmv : Move c s q ch t s' q' ch') (h : Inv c (fun _ => True) s q ch)
    (hother : ∀ u, u ≠ t → s'.pc u = s.pc u) {w : Rec} {o : Obj}
    (hpl : (s.waiter w).place = .listed o) :
    (s'.waiter w).place = .listed o ∨
    ((s'.waiter w).place = .taken t (s.op t) ∧ (s.pc t).takes o ∧
      (s'.pc w.owner).wait = (s.pc w.owner).wait) := by
  cases hmv with
  | keep _ _ hwaiter _ => exact .inl (by rw [hwaiter]; exact hpl)
  | push o' tm hpc hwait hwakes hwait' hwaiter hblk =>
    refine .inl ?_
    obtain ⟨_, md, hmd⟩ := h.onList o w trivial hpl
    have hne : w ≠ ⟨t, o'.slot⟩ := by
      rintro rfl
      rw [hwait] at hmd; cases hmd
    rw [hwaiter, Function.update_of_ne hne]; exact hpl
  | take o' d l hpc hlock hq hwait hwakes hwaiter hblk =>
    by_cases hd : w ∈ d
    · have hm : w ∈ q o' := by rw [hq]; exact List.mem_append_left _ hd
      have ho : o' = o := by
        have := (h.listed o' w trivial).mp hm
        rw [hpl] at this
        exact (Place.listed.inj this).symm
      subst ho
      refine .inr ⟨by rw [hwaiter, if_pos hd], hpc, ?_⟩
      by_cases hwt : w.owner = t
      · rw [hwt, hwait]
      · rw [hother _ hwt]
    · exact .inl (by rw [hwaiter, if_neg hd]; exact hpl)
  | release _ _ _ _ _ _ _ hwaiter _ => exact .inl (by rw [hwaiter]; exact hpl)
  | leave _ _ _ _ _ _ hwaiter _ => exact .inl (by rw [hwaiter]; exact hpl)
  | store w' th rest _ _ _ hwaiter _ =>
    refine .inl ?_
    rw [hwaiter, Function.update_apply]
    split
    · rename_i he; subst he; exact hpl
    · exact hpl
  | awaken _ _ _ _ _ _ hwaiter _ => exact .inl (by rw [hwaiter]; exact hpl)

/-- A record gets on a list by the section that its owner is at. -/
theorem Move.listed_from (hmv : Move c s q ch t s' q' ch') {w : Rec} {o : Obj}
    (hpl : (s'.waiter w).place = .listed o) :
    (s.waiter w).place = .listed o ∨ (w = ⟨t, o.slot⟩ ∧ (s.pc t).pushes o) := by
  cases hmv with
  | keep _ _ hwaiter _ => rw [hwaiter] at hpl; exact .inl hpl
  | push o' tm hpc hwait hwakes hwait' hwaiter hblk =>
    rw [hwaiter, Function.update_apply] at hpl
    split at hpl
    · rename_i he
      cases hpl
      exact .inr ⟨he, hpc⟩
    · exact .inl hpl
  | take o' d l hpc hlock hq hwait hwakes hwaiter hblk =>
    rw [hwaiter] at hpl
    split at hpl
    · cases hpl
    · exact .inl hpl
  | release _ _ _ _ _ _ _ hwaiter _ => rw [hwaiter] at hpl; exact .inl hpl
  | leave _ _ _ _ _ _ hwaiter _ => rw [hwaiter] at hpl; exact .inl hpl
  | store w' th rest _ _ _ hwaiter _ =>
    rw [hwaiter, Function.update_apply] at hpl
    split at hpl
    · rename_i he; subst he; exact .inl hpl
    · exact .inl hpl
  | awaken _ _ _ _ _ _ hwaiter _ => rw [hwaiter] at hpl; exact .inl hpl

/-- A caller that waits after the step waited before, or has just put its record on the list. -/
theorem Move.wait_from (hmv : Move c s q ch t s' q' ch')
    (hother : ∀ u, u ≠ t → s'.pc u = s.pc u) {u : Nat} {o : Obj} {md : Mode}
    (hu : (s'.pc u).wait = some (o, md)) :
    (∃ md', (s.pc u).wait = some (o, md')) ∨ (s'.waiter ⟨u, o.slot⟩).place = .listed o := by
  by_cases hut : u = t
  · subst hut
    cases hmv with
    | keep hwait _ _ _ => exact .inl ⟨md, hwait ▸ hu⟩
    | push o' tm hpc hwait hwakes hwait' hwaiter hblk =>
      rw [hwait'] at hu
      obtain ⟨rfl, _⟩ := Prod.mk.inj (Option.some.inj hu)
      exact .inr (by rw [hwaiter, Function.update_self])
    | take o' d l hpc hlock hq hwait hwakes hwaiter hblk => exact .inl ⟨md, hwait ▸ hu⟩
    | release o' tm md' hwait hwakes hwait' hmd hwaiter hblk =>
      rw [hwait'] at hu
      obtain ⟨rfl, _⟩ := Prod.mk.inj (Option.some.inj hu)
      exact .inl ⟨_, hwait⟩
    | leave o' md' hwait hwakes hwait' hsig hwaiter hblk => rw [hwait'] at hu; cases hu
    | store w' th rest _ hwait _ hwaiter _ => exact .inl ⟨md, hwait ▸ hu⟩
    | awaken _ _ _ _ _ hwait hwaiter _ => exact .inl ⟨md, hwait ▸ hu⟩
  · rw [hother u hut] at hu
    exact .inl ⟨md, hu⟩

/-- A list after the step: one record more at the end, or some records less at the front. -/
theorem Move.queue (hmv : Move c s q ch t s' q' ch') (o : Obj) :
    (q' o = q o ++ [⟨t, o.slot⟩] ∧ (s'.waiter ⟨t, o.slot⟩).place = .listed o ∧
      (s.pc t).wait = none) ∨ ∃ d, q o = d ++ q' o := by
  cases hmv with
  | push o' tm hpc hwait hwakes hwait' hwaiter hblk =>
    by_cases ho : o = o'
    · subst ho
      refine .inl ⟨?_, by rw [hwaiter, Function.update_self], hwait⟩
      rw [enqueue, Function.update_self]
    · exact .inr ⟨[], by rw [enqueue, Function.update_of_ne ho]; rfl⟩
  | take o' d l hpc hlock hq hwait hwakes hwaiter hblk =>
    by_cases ho : o = o'
    · subst ho; exact .inr ⟨d, by rw [Function.update_self]; exact hq⟩
    · exact .inr ⟨[], by rw [Function.update_of_ne ho]; rfl⟩
  | keep | release | leave | store | awaken => exact .inr ⟨[], rfl⟩

/-- A record that was taken off stays so while its owner waits; the wait ends by a step of the
owner, once the record is signaled. -/
theorem Move.taken (hmv : Move c s q ch t s' q' ch') (h : Inv c (fun _ => True) s q ch)
    (hother : ∀ u, u ≠ t → s'.pc u = s.pc u) {u x n : Nat} {o : Obj} {md : Mode}
    (hu : (s.pc u).wait = some (o, md)) (hpl : (s.waiter ⟨u, o.slot⟩).place = .taken x n) :
    ((s'.pc u).wait = some (o, md) ∧ (s'.waiter ⟨u, o.slot⟩).place = .taken x n) ∨
    (u = t ∧ (s'.pc u).wait = none ∧ (s.waiter ⟨u, o.slot⟩).signaled = true ∧
      s'.waiter = s.waiter) := by
  have hwait_all : (s'.pc t).wait = (s.pc t).wait → (s'.pc u).wait = some (o, md) := by
    intro hwait
    by_cases hut : u = t
    · rw [hut, hwait, ← hut]; exact hu
    · rw [hother u hut]; exact hu
  cases hmv with
  | keep hwait _ hwaiter _ => exact .inl ⟨hwait_all hwait, by rw [hwaiter]; exact hpl⟩
  | push o' tm hpc hwait hwakes hwait' hwaiter hblk =>
    have hut : u ≠ t := by rintro rfl; rw [hwait] at hu; cases hu
    refine .inl ⟨by rw [hother u hut]; exact hu, ?_⟩
    rw [hwaiter, Function.update_of_ne fun he => hut (Rec.mk.inj he).1]; exact hpl
  | take o' d l hpc hlock hq hwait hwakes hwaiter hblk =>
    refine .inl ⟨hwait_all hwait, ?_⟩
    have hd : (⟨u, o.slot⟩ : Rec) ∉ d := by
      intro hd
      have hm : (⟨u, o.slot⟩ : Rec) ∈ q o' := by rw [hq]; exact List.mem_append_left _ hd
      rw [(h.listed o' _ trivial).mp hm] at hpl; cases hpl
    rw [hwaiter, if_neg hd]; exact hpl
  | release o' tm md' hwait hwakes hwait' hmd hwaiter hblk =>
    have hut : u ≠ t := by
      rintro rfl
      rw [hwait] at hu
      obtain ⟨rfl, rfl⟩ := Prod.mk.inj (Option.some.inj hu)
      obtain hl | ⟨hh, _⟩ := ((h.waits u).record o' _ hwait trivial).place
      · rw [hl] at hpl; cases hpl
      · cases hh
    exact .inl ⟨by rw [hother u hut]; exact hu, by rw [hwaiter]; exact hpl⟩
  | leave o' md' hwait hwakes hwait' hsig hwaiter hblk =>
    by_cases hut : u = t
    · subst hut
      rw [hwait] at hu
      obtain ⟨rfl, _⟩ := Prod.mk.inj (Option.some.inj hu)
      exact .inr ⟨rfl, hwait', hsig, hwaiter⟩
    · exact .inl ⟨by rw [hother u hut]; exact hu, by rw [hwaiter]; exact hpl⟩
  | store w' th rest _ hwait _ hwaiter _ =>
    refine .inl ⟨hwait_all hwait, ?_⟩
    rw [hwaiter, Function.update_apply]
    split
    · rename_i he; rw [he] at hpl; exact hpl
    · exact hpl
  | awaken _ _ _ _ _ hwait hwaiter _ => exact .inl ⟨hwait_all hwait, by rw [hwaiter]; exact hpl⟩

end

/-! ## Records on their way to being signaled -/

/-- What is to come for the wait of `u`. -/
structure PendingOf (s : State) (ch : Nat → List Rec) (u : Nat) : Prop where
  unsignaled : ∀ o md x n, (s.pc u).wait = some (o, md) →
    (s.waiter ⟨u, o.slot⟩).place = .taken x n → (s.waiter ⟨u, o.slot⟩).signaled = false →
    ⟨u, o.slot⟩ ∈ ch x ∧ n = s.op x
  readied : ∀ o x n, (s.pc u).wait = some (o, .blocked) →
    (s.waiter ⟨u, o.slot⟩).place = .taken x n → (s.waiter ⟨u, o.slot⟩).signaled = true →
    s.blk u = true → ∃ rest, (s.pc x).wakes = some (.awaken u false, ⟨u, o.slot⟩, rest)

def Pending (s : State) (ch : Nat → List Rec) : Prop := ∀ u, PendingOf s ch u

theorem Pending.initial : Pending (initial c) fun _ => [] := by
  intro u
  constructor <;> intro o <;> intros <;> simp [Sync.initial, Pc.wait] at *

/-- A caller whose wait the step leaves alone, if it takes the record out of no chain and readies
the caller only where a waker was about to. -/
theorem PendingOf.frame {ch' : Nat → List Rec} {u : Nat} (hp : PendingOf s ch u)
    (hwait : (s'.pc u).wait = (s.pc u).wait)
    (hwaiter : ∀ o md, (s.pc u).wait = some (o, md) → s'.waiter ⟨u, o.slot⟩ = s.waiter ⟨u, o.slot⟩)
    (hch : ∀ x sl, ⟨u, sl⟩ ∈ ch x → ⟨u, sl⟩ ∈ ch' x ∧ s'.op x = s.op x)
    (hblk : s'.blk u = true → s.blk u = true)
    (hwakes : ∀ x w rest, s'.blk u = true → (s.pc x).wakes = some (.awaken u false, w, rest) →
      (s'.pc x).wakes = some (.awaken u false, w, rest)) : PendingOf s' ch' u := by
  refine ⟨fun o md x n hw hpl hsig => ?_, fun o x n hw hpl hsig hb => ?_⟩
  all_goals
    rw [hwait] at hw
    rw [hwaiter o _ hw] at hpl hsig
  · obtain ⟨hm, hn⟩ := hp.unsignaled o md x n hw hpl hsig
    obtain ⟨hm', hop⟩ := hch x _ hm
    exact ⟨hm', hn.trans hop.symm⟩
  · obtain ⟨rest, hx⟩ := hp.readied o x n hw hpl hsig (hblk hb)
    exact ⟨rest, hwakes x _ rest hb hx⟩

/-- A caller whose record is listed, or that does not wait. -/
theorem PendingOf.of_listed {u : Nat} (h : ∀ o md, (s.pc u).wait = some (o, md) →
    (s.waiter ⟨u, o.slot⟩).place = .listed o) : PendingOf s ch u := by
  refine ⟨fun o md x n hw hpl => ?_, fun o x n hw hpl => ?_⟩
  all_goals rw [h o _ hw] at hpl; cases hpl

/-- The waker has stored `signaled`: if the caller is blocked, it is readied next. -/
theorem PendingOf.store {ch' : Nat → List Rec} {u : Nat} {o : Obj} {md : Mode} {th : Option Nat}
    {rest : Option Rec} (h : Inv c (fun _ => True) s q ch)
    (hwakes : (s.pc t).wakes = some (.store th, ⟨u, o.slot⟩, rest))
    (hu : (s.pc u).wait = some (o, md)) (hu' : (s'.pc u).wait = (s.pc u).wait)
    (hwakes' : ∀ v, th = some v →
      (s'.pc t).wakes = some (.awaken v (s.waiter ⟨u, o.slot⟩).timed, ⟨u, o.slot⟩, rest))
    (hwaiter : s'.waiter = Function.update s.waiter ⟨u, o.slot⟩
      { s.waiter ⟨u, o.slot⟩ with signaled := true }) : PendingOf s' ch' u := by
  have hwait : ∀ o' md', (s'.pc u).wait = some (o', md') → o' = o ∧ md' = md := by
    intro o' md' hw
    rw [hu', hu] at hw
    obtain ⟨rfl, rfl⟩ := Prod.mk.inj (Option.some.inj hw)
    exact ⟨rfl, rfl⟩
  refine ⟨fun o' md' x n hw hpl hsig => ?_, fun o' x n hw hpl hsig hb => ?_⟩
  all_goals
    obtain ⟨rfl, rfl⟩ := hwait o' _ hw
    rw [hwaiter, Function.update_self] at hpl hsig
  · cases hsig
  · have hok := (h.waits u).record _ _ hu trivial
    obtain rfl : x = t := by
      obtain ⟨_, _, _, hm⟩ := (h.wakes t).store_hands hwakes trivial
      rw [hm.place] at hpl
      exact (Place.taken.inj hpl).1.symm
    have hth := (h.wakes x).stored th _ rest hwakes trivial
    rw [hok.thread, if_pos (hok.blocked rfl).1] at hth
    have := hwakes' u hth
    rw [hok.timed] at this
    exact ⟨rest, this⟩

theorem Pending.move {q' : Obj → List Rec} {ch' : Nat → List Rec} (hp : Pending s ch)
    (h : Inv c (fun _ => True) s q ch) (hmv : Move c s q ch t s' q' ch')
    (hother : ∀ u, u ≠ t → s'.pc u = s.pc u) (hop : s'.op = s.op) : Pending s' ch' := by
  -- the wakers other than `t` stay where they are
  have hwk : ¬ Awakens (s.pc t) → ∀ u x w rest, s'.blk u = true →
      (s.pc x).wakes = some (.awaken u false, w, rest) →
      (s'.pc x).wakes = some (.awaken u false, w, rest) := by
    intro hn u x w rest _ hx
    have hxt : x ≠ t := by rintro rfl; exact hn ⟨u, false, w, rest, hx⟩
    rw [hother x hxt]; exact hx
  have hwait_all : (s'.pc t).wait = (s.pc t).wait → ∀ u, (s'.pc u).wait = (s.pc u).wait := by
    intro hwait u
    by_cases hut : u = t
    · rw [hut, hwait]
    · rw [hother u hut]
  have hsame : ∀ u x sl, (⟨u, sl⟩ : Rec) ∈ ch x → ⟨u, sl⟩ ∈ ch x ∧ s'.op x = s.op x :=
    fun u x sl hm => ⟨hm, by rw [hop]⟩
  intro u
  cases hmv with
  | keep hwait hwakes hwaiter hblk =>
    exact (hp u).frame (hwait_all hwait u) (fun o md _ => by rw [hwaiter]) (hsame u)
      (by rw [hblk]; exact id) (hwk hwakes u)
  | push o tm hpc hwait hwakes hwait' hwaiter hblk =>
    by_cases hut : u = t
    · subst hut
      refine .of_listed fun o' md hw => ?_
      rw [hwait'] at hw
      obtain ⟨rfl, _⟩ := Prod.mk.inj (Option.some.inj hw)
      rw [hwaiter, Function.update_self]
    · refine (hp u).frame (by rw [hother u hut]) (fun o' md _ => ?_) (hsame u)
        (by rw [hblk]; exact id) (hwk (not_awakens_of_none hwakes) u)
      rw [hwaiter, Function.update_of_ne]
      exact fun he => hut (Rec.mk.inj he).1
  | take o d l hpc hlock hq hwait hwakes hwaiter hblk =>
    have hcht : ch t = [] := h.no_chain hwakes
    by_cases hd : ∃ o' md, (s.pc u).wait = some (o', md) ∧ ⟨u, o'.slot⟩ ∈ d
    · obtain ⟨o', md, hu, hd⟩ := hd
      have hsig : (s.waiter ⟨u, o'.slot⟩).signaled = false := by
        have hm : (⟨u, o'.slot⟩ : Rec) ∈ q o := by rw [hq]; exact List.mem_append_left _ hd
        exact (h.onList o _ trivial ((h.listed o _ trivial).mp hm)).1
      refine ⟨fun o'' md'' x n hw hpl _ => ?_, fun o'' x n hw hpl hs => ?_⟩
      all_goals
        rw [hwait_all hwait u, hu] at hw
        obtain ⟨rfl, _⟩ := Prod.mk.inj (Option.some.inj hw)
        rw [hwaiter, if_pos hd] at hpl
      · obtain ⟨rfl, rfl⟩ := Place.taken.inj hpl
        rw [Function.update_self]
        exact ⟨hd, by rw [hop]⟩
      · rw [hwaiter, if_pos hd, hsig] at hs; cases hs
    · refine (hp u).frame (hwait_all hwait u) (fun o' md hu => ?_) (fun x sl hm => ?_)
        (by rw [hblk]; exact id) (hwk (not_awakens_of_none hwakes) u)
      · rw [hwaiter, if_neg fun hm => hd ⟨o', md, hu, hm⟩]
      · have hxt : x ≠ t := by rintro rfl; rw [hcht] at hm; cases hm
        rw [Function.update_of_ne hxt]
        exact hsame u x sl hm
  | release o tm md hwait hwakes hwait' hmd hwaiter hblk =>
    by_cases hut : u = t
    · subst hut
      refine .of_listed fun o' md' hw => ?_
      rw [hwait'] at hw
      obtain ⟨rfl, _⟩ := Prod.mk.inj (Option.some.inj hw)
      rw [hwaiter]
      obtain hpl | ⟨hh, _⟩ := ((h.waits u).record o _ hwait trivial).place
      · exact hpl
      · cases hh
    · exact (hp u).frame (by rw [hother u hut]) (fun o' md _ => by rw [hwaiter]) (hsame u)
        (by rw [hblk u hut]; exact id) (hwk (not_awakens_of_none hwakes) u)
  | leave o md hwait hwakes hwait' hsig hwaiter hblk =>
    by_cases hut : u = t
    · subst hut
      refine .of_listed fun o' md' hw => ?_
      rw [hwait'] at hw; cases hw
    · exact (hp u).frame (by rw [hother u hut]) (fun o' md _ => by rw [hwaiter]) (hsame u)
        (by rw [hblk]; exact id) (hwk (not_awakens_of_none hwakes) u)
  | store w th rest hwakes hwait hwakes' hwaiter hblk =>
    have hn : ¬ Awakens (s.pc t) := by
      rintro ⟨v, tm, w', rest', h'⟩; rw [hwakes] at h'; cases h'
    by_cases hd : ∃ o md, (s.pc u).wait = some (o, md) ∧ ⟨u, o.slot⟩ = w
    · obtain ⟨o, md, hu, rfl⟩ := hd
      exact .store h hwakes hu (hwait_all hwait u) hwakes' hwaiter
    · have hne : ∀ x sl, (⟨u, sl⟩ : Rec) ∈ ch x → ⟨u, sl⟩ ≠ w := by
        rintro x sl hm rfl
        obtain ⟨_, o, md, hu⟩ := (h.wakes x).chained _ hm
        exact hd ⟨o, md, hu.wait, by rw [hu.slot]⟩
      refine (hp u).frame (hwait_all hwait u) (fun o md hu => ?_) (fun x sl hm => ?_)
        (by rw [hblk]; exact id) (hwk hn u)
      · rw [hwaiter, Function.update_of_ne fun he => hd ⟨o, md, hu, he⟩]
      · refine ⟨?_, by rw [hop]⟩
        by_cases hxt : x = t
        · subst hxt
          obtain ⟨l, hl, _⟩ := (h.wakes x).chain _ w rest hwakes trivial
          rw [hl] at hm
          rw [Function.update_self, hl]
          exact (List.mem_cons.mp hm).resolve_left (hne x sl (hl ▸ hm))
        · rw [Function.update_of_ne hxt]; exact hm
  | awaken v tm w rest hwakes hwait hwaiter hblk =>
    refine (hp u).frame (hwait_all hwait u) (fun o md _ => by rw [hwaiter]) (hsame u)
      (fun hb => ?_) fun x w' rest' hb hx => ?_
    · rw [hblk, Function.update_apply] at hb
      split at hb
      · cases hb
      · exact hb
    · have hxt : x ≠ t := by
        rintro rfl
        rw [hwakes] at hx
        cases hx
        rw [hblk, Function.update_self] at hb
        cases hb
      rw [hother x hxt]; exact hx

end

end Sync
end AbtReconverse
