import AbtReconverse.Sync.Lists
import AbtReconverse.Sync.Rules

/-!
# AbtReconverse.Sync.Steps

What a step does to the wait lists. `queueAfter` gives the lists after a step of a caller, by its
program counter, and `chainsAfter` what each waker then still has to wake; `step_inv` is the step
lemma of the invariant with these values.

The two side conditions are those of the deadline branch: the record it removes is listed or
signaled, and a late `CthAwakenIfBlocked` finds its thread not blocked.
-/

namespace AbtReconverse
namespace Sync

open Lts

/-- The caller's record goes to the end of the list of `o`. -/
def enqueue (q : Obj → List Rec) (t : Nat) (o : Obj) : Obj → List Rec :=
  Function.update q o (q o ++ [⟨t, o.slot⟩])

/-- The lists after a step of `t`. -/
def queueAfter (c : Config) (s : State) (t : Nat) (q : Obj → List Rec) : Obj → List Rec :=
  match s.pc t with
  | .lock m _ =>
    if (s.mutex m).locked = false then q
    else if c.recursive m ∧ (s.mutex m).owner = some t then q
    else enqueue q t (.mutex m)
  | .unlock m _ =>
    if 0 < (s.mutex m).nesting then q else Function.update q (.mutex m) (q (.mutex m)).tail
  | .condEnter co m _ =>
    if s.condMutex co = none ∨ s.condMutex co = some m then enqueue q t (.cond co) else q
  | .signal co => Function.update q (.cond co) (q (.cond co)).tail
  | .broadcast co => Function.update q (.cond co) []
  | .eventualEnter e _ => if s.ready e then q else enqueue q t (.eventual e)
  | .eventualSet e n _ =>
    if s.ready e then q else if c.nbytes e < n then q else Function.update q (.eventual e) []
  | _ => q

/-- The records that a step of `t` takes off a list. -/
def takenOff (c : Config) (s : State) (t : Nat) (q : Obj → List Rec) : List Rec :=
  match s.pc t with
  | .unlock m _ => if 0 < (s.mutex m).nesting then [] else (q (.mutex m)).take 1
  | .signal co => (q (.cond co)).take 1
  | .broadcast co => q (.cond co)
  | .eventualSet e n _ => if s.ready e then [] else if c.nbytes e < n then [] else q (.eventual e)
  | _ => []

/-- What the callers have to wake after a step of `t`. -/
def chainsAfter (c : Config) (s : State) (t : Nat) (q : Obj → List Rec) (ch : Nat → List Rec) :
    Nat → List Rec :=
  match s.pc t with
  | .unlock .. | .signal _ | .broadcast _ | .eventualSet .. =>
    Function.update ch t (takenOff c s t q)
  | .wakeStore .. => Function.update ch t (ch t).tail
  | _ => ch

namespace Inv

variable {c : Config} {K : Slot → Prop} {s s' : State} {q : Obj → List Rec} {ch : Nat → List Rec}
  {t : Nat}

/-- `Inv` of the lists and chains after a step of `t`. -/
def After (c : Config) (K : Slot → Prop) (s : State) (t : Nat) (q : Obj → List Rec)
    (ch : Nat → List Rec) (s' : State) : Prop :=
  ∃ ch', Inv c K s' (queueAfter c s t q) ch' ∧ ((∀ sl, K sl) → ch' = chainsAfter c s t q ch)

/-- A step that takes nothing off a list and signals no record. -/
theorem after_same (hinv : Inv c K s' (queueAfter c s t q) ch)
    (hch : chainsAfter c s t q ch = ch) : After c K s t q ch s' :=
  ⟨ch, hinv, fun _ => hch.symm⟩

/-- A step of a caller that goes on to wake the records it took off. -/
theorem after_take {d : List Rec} {o : Obj}
    (hinv : Inv c K s' (queueAfter c s t q) (Function.update ch t d))
    (hd : K o.slot → d = takenOff c s t q)
    (hch : chainsAfter c s t q ch = Function.update ch t (takenOff c s t q)) :
    After c K s t q ch s' :=
  ⟨_, hinv, fun hK => by rw [hch, hd (hK _)]⟩

/-- A step that leaves the lists, too. -/
theorem after_still (hinv : Inv c K s' q ch) (hq : queueAfter c s t q = q)
    (hch : chainsAfter c s t q ch = ch) : After c K s t q ch s' :=
  after_same (by rw [hq]; exact hinv) hch

/-- A step to a program counter with the same wait and the same record to wake. -/
theorem after_goto {s₁ : State} {e : Exit} (h : Inv c K s₁ q ch) (hpc : s₁.pc = s.pc)
    (hwait : e.pc.wait = (s.pc t).wait) (hwakes : e.pc.wakes = (s.pc t).wakes)
    (hq : queueAfter c s t q = q) (hch : chainsAfter c s t q ch = ch) :
    After c K s t q ch (s₁.leave t e) :=
  after_still (h.goto (by rw [hpc]; exact hwait) (by rw [hpc]; exact hwakes)) hq hch

theorem after_pop {s₁ : State} {o : Obj} {k : UnlockRet} (h : Inv c K s₁ q ch)
    (hpc : s₁.pc = s.pc) (hlock : s₁.slock o = none) (hwait : (s.pc t).wait = k.wait)
    (hq : queueAfter c s t q = Function.update q o (q o).tail)
    (htake : takenOff c s t q = (q o).take 1)
    (hch : chainsAfter c s t q ch = Function.update ch t (takenOff c s t q)) :
    After c K s t q ch (s₁.pop t o k) := by
  obtain ⟨d, hd, hinv⟩ := h.pop (t := t) (k := k) hlock (by rw [hpc]; exact hwait)
  refine after_take (d := d) (o := o) ?_ ?_ hch
  · rw [hq]; exact hinv
  · rw [htake]; exact hd

theorem after_detach {s₁ : State} {o : Obj} (h : Inv c K s₁ q ch) (hpc : s₁.pc = s.pc)
    (hlock : s₁.slock o = none) (hwait : (s.pc t).wait = none)
    (hq : queueAfter c s t q = Function.update q o []) (htake : takenOff c s t q = q o)
    (hch : chainsAfter c s t q ch = Function.update ch t (takenOff c s t q)) :
    After c K s t q ch (s₁.detach t o .user) := by
  obtain ⟨d, hd, hinv⟩ := h.detach (t := t) (k := .user) hlock (by rw [hpc]; exact hwait)
  refine after_take (d := d) (o := o) ?_ ?_ hch
  · rw [hq]; exact hinv
  · rw [htake]; exact hd

theorem wakeNext (h : Inv c K s q ch) {w : Rec} {k : UnlockRet} (hpc : s.pc t = .wakeNext w k) :
    Inv c K (s.leave t (.to (.wakeThread w (s.next w) k))) q ch := by
  have hwk : (s.pc t).wakes = some (.next, w, none) := by rw [hpc]; rfl
  refine h.read ?_ hwk rfl ?_ (fun v hv => h.typedNext w v hv) (.inl rfl)
  · rw [hpc]; rfl
  · intro _ hp
    cases hl : ch t with
    | nil => rw [hl] at hp; cases hp
    | cons u l =>
      have hnd := Path.nodup (show Path s.next (some w) (ch t) from hp)
      rw [hl] at hp hnd
      obtain ⟨hw, hp'⟩ := hp
      cases hw
      exact ⟨l, rfl, (List.nodup_cons.mp hnd).1, hp'⟩

/-- A step of a caller. -/
theorem go (h : Inv c K s q ch)
    (hlate : ∀ u w tm rest k, s.pc t = .wakeAwaken u w tm rest k → tm = true ∨ ¬ K w.slot →
      ∀ o, (s.pc u).wait = some (o, .blocked) → K o.slot → s.blk u = false)
    (hst : advance c s t = some s') : After c K s t q ch s' := by
  cases advance_cases hst with
  | lockFree hpc hs hl | lockAgain hpc hs hl hr =>
    exact after_goto (h.setMutex ..) rfl (by rw [lockExit_wait, hpc]; rfl)
      (by rw [lockExit_wakes, hpc]; rfl) (by simp_all [queueAfter]) (by simp only [chainsAfter, hpc])
  | lockWait hpc hs hl hr =>
    refine after_same ?_ (by simp only [chainsAfter, hpc])
    simp only [queueAfter, hpc, if_neg hl, if_neg hr]
    exact h.push hs (by rw [hpc]; rfl) (by rw [hpc]; rfl) rfl rfl (by simp)
  | spinFree hpc | spinAgain hpc | tryFree hpc | tryAgain hpc =>
    exact after_goto (h.setMutex ..) rfl (by rw [hpc]; rfl) (by rw [hpc]; rfl)
      (by simp only [queueAfter, hpc]) (by simp only [chainsAfter, hpc])
  | spinWait hpc | tryFail hpc =>
    exact after_goto h rfl (by rw [hpc]; rfl) (by rw [hpc]; rfl)
      (by simp only [queueAfter, hpc]) (by simp only [chainsAfter, hpc])
  | unlockNested hpc hs hn =>
    refine after_goto (h.setMutex ..) rfl (by rw [exit_wait, hpc]; rfl)
      (by rw [exit_wakes, hpc]; rfl) (by simp only [queueAfter, hpc, if_pos hn]) ?_
    simp only [chainsAfter, takenOff, hpc, if_pos hn]
    exact h.update_nil (by rw [hpc]; rfl)
  | unlockLast hpc hs hn =>
    exact after_pop (h.setMutex ..) rfl hs (by rw [hpc]; rfl)
      (by simp only [queueAfter, hpc, if_neg hn]) (by simp only [takenOff, hpc, if_neg hn])
      (by simp only [chainsAfter, hpc])
  | condEnter hpc hs hm =>
    refine after_same ?_ (by simp only [chainsAfter, hpc])
    simp only [queueAfter, hpc, if_pos hm]
    refine Inv.push (q := q) ?_ hs (by rw [hpc]; rfl) (by rw [hpc]; rfl) rfl rfl fun _ => rfl
    exact h.same rfl rfl rfl rfl rfl rfl (fun _ => rfl) fun _ => rfl
  | condRefuse hpc hs hm =>
    exact after_goto h rfl (by rw [hpc]; rfl) (by rw [hpc]; rfl)
      (by simp only [queueAfter, hpc, if_neg hm]) (by simp only [chainsAfter, hpc])
  | signal hpc hs =>
    exact after_pop h rfl hs (by rw [hpc]; rfl) (by simp only [queueAfter, hpc])
      (by simp only [takenOff, hpc]) (by simp only [chainsAfter, hpc])
  | broadcast hpc hs =>
    exact after_detach h rfl hs (by rw [hpc]; rfl)
      (by simp only [queueAfter, hpc]) (by simp only [takenOff, hpc]) (by simp only [chainsAfter, hpc])
  | eventualPass hpc hs hr =>
    exact after_goto h rfl (by rw [waitExit_wait, hpc]; rfl) (by rw [waitExit_wakes, hpc]; rfl)
      (by simp only [queueAfter, hpc, if_pos hr]) (by simp only [chainsAfter, hpc])
  | eventualEnter hpc hs hr =>
    refine after_same ?_ (by simp only [chainsAfter, hpc])
    simp only [queueAfter, hpc, if_neg hr]
    exact h.push hs (by rw [hpc]; rfl) (by rw [hpc]; rfl) rfl rfl fun _ => rfl
  | eventualTest hpc =>
    refine after_goto ?_ rfl (by rw [hpc]; rfl) (by rw [hpc]; rfl)
      (by simp only [queueAfter, hpc]) (by simp only [chainsAfter, hpc])
    exact h.same rfl rfl rfl rfl rfl rfl (fun _ => rfl) fun _ => rfl
  | eventualAgain hpc hs hr =>
    refine after_goto h rfl (by rw [hpc]; rfl) (by rw [hpc]; rfl)
      (by simp only [queueAfter, hpc, if_pos hr]) ?_
    simp only [chainsAfter, takenOff, hpc, if_pos hr]
    exact h.update_nil (by rw [hpc]; rfl)
  | eventualLong hpc hs hr hn =>
    refine after_goto h rfl (by rw [hpc]; rfl) (by rw [hpc]; rfl)
      (by simp only [queueAfter, hpc, if_neg hr, if_pos hn]) ?_
    simp only [chainsAfter, takenOff, hpc, if_neg hr, if_pos hn]
    exact h.update_nil (by rw [hpc]; rfl)
  | eventualSet hpc hs hr hn =>
    exact after_detach (h.setEventual ..) rfl hs (by rw [hpc]; rfl)
      (by simp only [queueAfter, hpc, if_neg hr, if_neg hn])
      (by simp only [takenOff, hpc, if_neg hr, if_neg hn]) (by simp only [chainsAfter, hpc])
  | eventualReset hpc =>
    exact after_goto (h.setEventual ..) rfl (by rw [hpc]; rfl) (by rw [hpc]; rfl)
      (by simp only [queueAfter, hpc]) (by simp only [chainsAfter, hpc])
  | wakeStore hpc =>
    obtain ⟨l, hl, hinv⟩ := h.store hpc
    refine ⟨_, by simpa only [queueAfter, hpc] using hinv, fun hK => ?_⟩
    simp only [chainsAfter, hpc, hl (hK _)]
  -- the other steps leave the lists and the chains
  | holdTimed hpc =>
    refine after_still ?_ (by simp only [queueAfter, hpc]) (by simp only [chainsAfter, hpc])
    exact h.release .timed (by rw [hpc]; rfl) (by rw [hpc]; rfl) rfl rfl rfl rfl (by simp) (by simp)
      (by simp)
  | holdBlock hpc hult =>
    refine after_still ?_ (by simp only [queueAfter, hpc]) (by simp only [chainsAfter, hpc])
    exact h.release .blocked (by rw [hpc]; rfl) (by rw [hpc]; rfl) rfl rfl rfl rfl (fun _ => hult)
      (by simp) (by simp)
  | holdSpin hpc hult =>
    refine after_still ?_ (by simp only [queueAfter, hpc]) (by simp only [chainsAfter, hpc])
    exact h.release .spin (by rw [hpc]; rfl) (by rw [hpc]; rfl) rfl rfl rfl rfl (by simp)
      (fun _ => by simpa using hult) (by simp)
  | @blocked o k hpc hb =>
    have hwait : (s.pc t).wait = some (o, .blocked) := by rw [hpc]; rfl
    have hblk : s.blk t = false := by simpa using hb
    refine after_still ?_ (by simp only [queueAfter, hpc]) (by simp only [chainsAfter, hpc])
    exact h.leave hwait (by rw [hpc]; rfl)
      (fun hK => (((h.waits t).record o _ hwait hK).blocked rfl).2 hblk) hblk (by simp) (by simp)
  | @spin o k hpc hsig =>
    have hwait : (s.pc t).wait = some (o, .spin) := by rw [hpc]; rfl
    refine after_still ?_ (by simp only [queueAfter, hpc]) (by simp only [chainsAfter, hpc])
    exact h.leave hwait (by rw [hpc]; rfl) (fun _ => hsig) (h.not_blk (by simp [hwait])) (by simp)
      (by simp)
  | @timed o k hpc hsig =>
    have hwait : (s.pc t).wait = some (o, .timed) := by rw [hpc]; rfl
    refine after_still ?_ (by simp only [queueAfter, hpc]) (by simp only [chainsAfter, hpc])
    refine Inv.leave ?_ hwait (by rw [hpc]; rfl) (fun _ => hsig) (h.not_blk (by simp [hwait]))
      (by simp) (by simp)
    exact h.same rfl rfl rfl rfl rfl rfl (fun _ => rfl) fun _ => rfl
  | wakeNext hpc =>
    refine after_still ?_ (by simp only [queueAfter, hpc]) (by simp only [chainsAfter, hpc])
    exact h.wakeNext hpc
  | @wakeThread w rest k hpc =>
    have hwk : (s.pc t).wakes = some (.thread, w, rest) := by rw [hpc]; rfl
    refine after_still ?_ (by simp only [queueAfter, hpc]) (by simp only [chainsAfter, hpc])
    refine h.read ?_ hwk rfl (fun _ hp => hp) (fun v hv => ?_) (.inr rfl)
    · rw [hpc]; rfl
    · exact (h.wakes t).typedRest _ w v (hv ▸ hwk)
  | wakeAwaken hpc =>
    refine after_still ?_ (by simp only [queueAfter, hpc]) (by simp only [chainsAfter, hpc])
    exact h.awaken_step hpc (hlate _ _ _ _ _ hpc)

/-- At a deadline the record is still listed, unless it is signaled, if the caller never meets one
that is taken and not signaled. -/
theorem timeout (h : Inv c K s q ch) (hK : K .wait) {fuel : Nat}
    (hset : ∀ x n, (s.waiter ⟨t, .wait⟩).place = .taken x n →
      (s.waiter ⟨t, .wait⟩).signaled = true)
    (hst : timeout c s t fuel = some s') : ∃ q', Inv c K s' q' ch := by
  have hv : ∀ {o k}, s.pc t = .timed o k → (s.pc t).wait = some (o, .timed) ∧
      (s.pc t).wakes = none := fun hpc => by rw [hpc]; exact ⟨rfl, rfl⟩
  cases step_cases (a := .timeout t fuel) hst with
  | timeoutSignaled hpc hs hsig =>
    obtain ⟨hwait, hwakes⟩ := hv hpc
    refine ⟨q, Inv.leave ?_ hwait hwakes (fun _ => hsig) (h.not_blk (by simp [hwait])) (by simp)
      (by simp)⟩
    exact h.same rfl rfl rfl rfl rfl rfl (fun _ => rfl) fun _ => rfl
  | @timeout _ _ o k _ _ _ hpc hs hsig hr =>
    obtain ⟨hwait, hwakes⟩ := hv hpc
    have hslot : o.slot = .wait := (h.waits t).timedSlot o _ hwait rfl
    have hKo : K o.slot := by rw [hslot]; exact hK
    obtain hpl | ⟨_, x, n, hpl⟩ := ((h.waits t).record o _ hwait hKo).place
    · exact (h.remove _ hKo hwait hwakes hpl (e := k.exit c false) (by simp) (by simp) hr).2
    · rw [hslot] at hpl hsig
      exact absurd (hset x n hpl) hsig

end Inv

/-- A deadline is met only by a record that is listed or signaled. -/
def RecordSettled (s : State) (t : Nat) : Prop :=
  match (s.waiter ⟨t, .wait⟩).place with
  | .taken _ _ => (s.waiter ⟨t, .wait⟩).signaled = true
  | _ => True

/-- The step lemma of the invariant. The late wake-ups it excludes are those for the records of
timed waits, and for records outside `K`. -/
theorem step_inv {c : Config} {K : Slot → Prop} {s s' : State} {q : Obj → List Rec}
    {ch : Nat → List Rec} {a : Act} (hK : K .wait) (h : Inv c K s q ch)
    (hset : ∀ t fuel, a = .timeout t fuel → RecordSettled s t)
    (hlate : ∀ t u w tm rest k, a = .go t → s.pc t = .wakeAwaken u w tm rest k →
      tm = true ∨ ¬ K w.slot →
      ∀ o, (s.pc u).wait = some (o, .blocked) → K o.slot → s.blk u = false)
    (hst : step c s a = some s') : ∃ q' ch', Inv c K s' q' ch' := by
  cases a with
  | call t op =>
    cases step_cases hst with
    | call hidle => exact ⟨q, ch, h.call hidle⟩
  | go t =>
    obtain ⟨ch', hinv, _⟩ := h.go (fun u w tm rest k => hlate t u w tm rest k rfl) hst
    exact ⟨_, ch', hinv⟩
  | timeout t fuel =>
    have hplace : ∀ x n, (s.waiter ⟨t, .wait⟩).place = .taken x n →
        (s.waiter ⟨t, .wait⟩).signaled = true := by
      intro x n hpl
      have := hset t fuel rfl
      simpa only [RecordSettled, hpl] using this
    obtain ⟨q', hinv⟩ := h.timeout hK hplace hst
    exact ⟨q', ch, hinv⟩
  | callback o =>
    cases step_cases hst with
    | callback hl => exact ⟨q, ch, h.callback hl⟩

end Sync
end AbtReconverse
