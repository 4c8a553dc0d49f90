import AbtReconverse.Sync.Untimed

/-!
# AbtReconverse.Sync.Cond

Condition variables. A wait puts its record on the list before it unlocks the mutex, and the
spinlock of the condition variable is not released before the caller sleeps; so from the unlock on
the record is on the list until a signal or a broadcast takes it, and only then does the wait
return, with the mutex locked again.

`CondLog` is the history of one condition variable: when each caller got on the list, which call it
is in, and which operation took its record off in this call. `CondUse` is what the callers have to
do: a mutex is given up by its owner, and a wait on the condition variable is made by a caller that
holds the mutex exactly once. `cond_wait_sound` collects the results.
-/

namespace AbtReconverse
namespace Sync

open Lts

/-- The record of `t` is on the list of condition variable `co`. -/
def OnList (s : State) (co t : Nat) : Prop := (s.waiter ⟨t, .wait⟩).place = .listed (.cond co)

instance (s : State) (co t : Nat) : Decidable (OnList s co t) := by unfold OnList; infer_instance

structure CondLog where
  /-- Number of steps made. -/
  clock : Nat
  /-- When the caller's record was put on the list last. -/
  since : Nat → Nat
  /-- The call the caller made last. -/
  cur : Nat → Option Op
  /-- The operation that took the caller's record off in its present call. -/
  woken : Nat → Option (Nat × Op)

/-- The operations whose section takes records off a condition variable. -/
def Pc.wakeOp : Pc → Option Op
  | .signal co => some (.signal co)
  | .broadcast co => some (.broadcast co)
  | _ => none

namespace CondLog

def empty : CondLog := ⟨0, fun _ => 0, fun _ => none, fun _ => none⟩

def after (co : Nat) (s : State) (a : Act) (s' : State) (h : CondLog) : CondLog where
  clock := h.clock + 1
  since t := if OnList s' co t ∧ ¬ OnList s co t then h.clock else h.since t
  cur := match a with
    | .call t op => Function.update h.cur t (some op)
    | _ => h.cur
  woken t := match a with
    | .call u _ => if t = u then none else h.woken t
    | .go x =>
      if OnList s co t ∧ ¬ OnList s' co t then (s.pc x).wakeOp.map fun op => (x, op) else h.woken t
    | _ => h.woken t

/-- A signal or a broadcast took the record of `t` off in its present call. -/
def WokenBy (h : CondLog) (co t : Nat) : Prop :=
  ∃ x op, h.woken t = some (x, op) ∧ (op = .signal co ∨ op = .broadcast co)

end CondLog

def condLogged (c : Config) (co : Nat) : System (State × CondLog) Act :=
  (system c).withHistory .empty (CondLog.after co)

/-- Untimed calls; an unlock or a wait is made by the owner of the mutex, a wait on `co` by one that
holds it once. -/
def CondUse (co : Nat) (s : State) (a : Act) : Prop :=
  Untimed s a ∧ match a with
    | .call t (.unlock m) => (s.mutex m).owner = some t
    | .call t (.condWait co' m _) =>
      (s.mutex m).owner = some t ∧ (co' = co → (s.mutex m).nesting = 0)
    | _ => True

instance (co : Nat) (s : State) (a : Act) : Decidable (CondUse co s a) :=
  @instDecidableAnd (Untimed s a) _ inferInstance <| match a with
    | .call t (.unlock m) => inferInstanceAs (Decidable ((s.mutex m).owner = some t))
    | .call t (.condWait co' m _) => inferInstanceAs (Decidable ((s.mutex m).owner = some t ∧
        (co' = co → (s.mutex m).nesting = 0)))
    | .call _ (.lock _) | .call _ (.spinlock _) | .call _ (.trylock _) | .call _ (.signal _)
    | .call _ (.broadcast _) | .call _ (.eventualWait _ _) | .call _ (.eventualTest _)
    | .call _ (.eventualSet _ _ _) | .call _ (.eventualReset _) | .go _ | .timeout ..
    | .callback _ => inferInstanceAs (Decidable True)

section

variable {c : Config} {s s' : State} {q : Obj → List Rec} {ch : Nat → List Rec} {t co : Nat}
  {a : Act} {h : CondLog}

/-! ## The mutexes of the waiters -/

/-- The caller is about to wait on `co` and has still to unlock `m`. -/
def Pc.waitsWith (co m : Nat) : Pc → Prop
  | .condEnter co' m' _ => co' = co ∧ m' = m
  | .unlock m' (.cond co' _ _) => co' = co ∧ m' = m
  | _ => False

theorem releases_of_waitsWith {pc : Pc} {m : Nat} (h : pc.waitsWith co m) : pc.releases m := by
  cases pc with
  | condEnter co' m' tm => exact h.2
  | unlock m' k =>
    cases k with
    | user => exact absurd h id
    | cond co' m'' tm => exact h.2
  | _ => exact absurd h id

/-- Callers that give a mutex up own it, and those that wait on `co` hold it once. -/
structure Proper (co : Nat) (s : State) : Prop where
  locked : ∀ m, (s.mutex m).locked = (s.mutex m).owner.isSome
  leaving : ∀ m t, (s.pc t).releases m → (s.mutex m).owner = some t
  once : ∀ m t, (s.pc t).waitsWith co m → (s.mutex m).nesting = 0

theorem Proper.initial : Proper co (initial c) :=
  ⟨fun _ => rfl, fun _ _ h => absurd h id, fun _ _ h => absurd h id⟩

theorem CondUse.releases {op : Op} (hg : CondUse co s (.call t op)) {m : Nat} (hop : op.releases m) :
    (s.mutex m).owner = some t := by
  cases op with
  | unlock m' => obtain rfl : m' = m := hop; exact hg.2
  | condWait co' m' tm => obtain rfl : m' = m := hop; exact hg.2.1
  | _ => exact absurd hop id

/-- A caller that has still to unlock the mutex of its wait has just put its record on the list. -/
theorem advance_waitsWith (hst : advance c s t = some s') {m : Nat}
    (hu : (s'.pc t).waitsWith co m) :
    ∃ tm, s.pc t = .condEnter co m tm ∧ s'.pc t = .unlock m (.cond co m tm) := by
  obtain hrel | ⟨op, ha, _⟩ := step_releases (a := .go t) hst (releases_of_waitsWith hu)
  swap
  · cases ha
  unfold advance at hst
  cases hpc : s.pc t <;> rw [hpc] at hrel <;> simp only [hpc] at hst
  case condEnter co' m' tm =>
    simp only [condStep] at hst
    repeat' split at hst
    all_goals cases hst
    all_goals rw [leave_self] at hu ⊢
    · obtain ⟨rfl, rfl⟩ := hu
      exact ⟨tm, rfl, rfl⟩
    · exact absurd hu id
  case unlock m' k =>
    simp only [mutexStep] at hst
    repeat' split at hst
    all_goals cases hst
    · rw [leave_self] at hu
      exact absurd (releases_of_waitsWith hu) (not_releases_exit k)
    · exact absurd (releases_of_waitsWith hu) (not_releases_pop _ _ _ _)
  all_goals exact absurd hrel id

theorem Proper.call (hp : Proper co s) {op : Op} (hg : CondUse co s (.call t op)) {n : Nat → Nat} :
    Proper co (({ s with op := n } : State).leave t (.to op.start)) := by
  refine ⟨hp.locked, fun m u hu => ?_, fun m u hu => ?_⟩
  all_goals
    rw [leave_pc, Function.update_apply] at hu
    split at hu
  · rename_i hut; subst hut
    exact hg.releases ((start_releases op).mp hu)
  · exact hp.leaving m u hu
  · rename_i hut; subst hut
    cases op with
    | condWait co' m' tm => obtain ⟨rfl, rfl⟩ := hu; exact hg.2.2 rfl
    | _ => exact absurd hu id
  · exact hp.once m u hu

theorem Proper.go (hp : Proper co s) (hst : advance c s t = some s') : Proper co s' := by
  have hrel : ∀ m u, (s'.pc u).releases m → (s.pc u).releases m := by
    intro m u hu
    obtain hu | ⟨op, ha, _⟩ := step_releases (a := .go t) hst hu
    · exact hu
    · cases ha
  have hww : ∀ m u, (s'.pc u).waitsWith co m → (s.pc u).waitsWith co m := by
    intro m u hu
    by_cases hut : u = t
    · subst hut
      obtain ⟨tm, hpc, _⟩ := advance_waitsWith hst hu
      rw [hpc]; exact ⟨rfl, rfl⟩
    · rw [advance_other hst u hut] at hu; exact hu
  -- a mutex that a caller is about to give up is its own, and no other step touches it
  have hstep := fun m => step_mutex (m := m) (a := .go t) hst
  refine ⟨fun m => ?_, fun m u hu => ?_, fun m u hu => ?_⟩
  · obtain ⟨hm, _⟩ | ⟨_, _, _, _, hm, _⟩ | ⟨_, _, _, _, _, hm, _⟩ := hstep m
    · rw [hm]; exact hp.locked m
    · rw [hm]; rfl
    · rw [hm]
      split
      · exact hp.locked m
      · rfl
  · have ho := hp.leaving m u (hrel m u hu)
    obtain ⟨hm, _⟩ | ⟨v, ha, hpc, hg, hm, _⟩ | ⟨v, k, ha, hpc, hpc', hm, _⟩ := hstep m
    · rw [hm]; exact ho
    · cases ha
      have hl : (s.mutex m).locked = true := by rw [hp.locked, ho]; rfl
      obtain hl' | ⟨_, ho'⟩ := hg
      · rw [hl] at hl'; cases hl'
      · rw [hm, ← ho', ho]
    · cases ha
      have hut : u = t := by
        have := hp.leaving m t (by rw [hpc]; rfl)
        rw [ho] at this
        exact Option.some.inj this
      rw [hut] at hu
      exact absurd hu hpc'
  · have hwu := hww m u hu
    have ho := hp.leaving m u (releases_of_waitsWith hwu)
    obtain ⟨hm, _⟩ | ⟨v, ha, hpc, hg, hm, _⟩ | ⟨v, k, ha, hpc, hpc', hm, _⟩ := hstep m
    · rw [hm]; exact hp.once m u hwu
    · cases ha
      have hl : (s.mutex m).locked = true := by rw [hp.locked, ho]; rfl
      obtain hl' | ⟨_, ho'⟩ := hg
      · rw [hl] at hl'; cases hl'
      · rw [ho] at ho'
        obtain rfl := Option.some.inj ho'
        exact absurd (releases_of_waitsWith hwu) (hpc m)
    · have hn := hp.once m u hwu
      rw [hm, if_neg (by rw [hn]; omega)]
      exact hn

/-! ## Waiters -/

def WaitRet.relocks : WaitRet → Prop
  | .lock _ (.cond _) => True
  | _ => False

/-- The caller's wait is over and it locks the mutex again. -/
def Pc.relocks : Pc → Prop
  | .lock m k => (WaitRet.lock m k).relocks
  | .hold _ k _ | .blocked _ k | .spin _ k | .timed _ k => k.relocks
  | _ => False

theorem within_wait_cond {pc : Pc} {m co' : Nat} {tm : Bool} {md : Mode}
    (hp : pc.within (.condWait co m tm)) (hw : pc.wait = some (.cond co', md)) : co' = co := by
  have hk : ∀ k : UnlockRet, k.within (.condWait co m tm) → k.wait = some (.cond co', md) →
      co' = co := by
    rintro (_ | ⟨co'', m', tm'⟩) hk hw
    · cases hw
    · cases hw; cases hk; rfl
  have hr : ∀ k : WaitRet, k.within (.condWait co m tm) (.cond co') → co' = co := by
    rintro (⟨m', k⟩ | m' | e) hk
    · cases hk.1
    · obtain ⟨_, _, ho, hop⟩ := hk; cases ho; cases hop; rfl
    · cases hk.1
  cases pc <;> simp only [Pc.wait, reduceCtorEq] at hw
  case unlock => exact hk _ (unlock_within hp) hw
  case hold | blocked | spin | timed => cases hw; exact hr _ hp
  all_goals exact hk _ hp hw

theorem not_relocks_exit (k : UnlockRet) : ¬ k.exit.pc.relocks := by cases k <;> exact id

theorem not_relocks_wakeRest (k : UnlockRet) (r : Option Rec) : ¬ (k.wakeRest r).pc.relocks := by
  cases r with
  | none => exact not_relocks_exit k
  | some w => exact id

theorem not_relocks_awaken (k : UnlockRet) (w : Rec) (tm : Bool) (r : Option Rec)
    (th : Option Nat) : ¬ (k.awaken w tm r th).pc.relocks := by
  cases th with
  | none => exact not_relocks_wakeRest k r
  | some u => exact id

theorem not_relocks_pop (s : State) (t : Nat) (o : Obj) (k : UnlockRet) :
    ¬ ((s.pop t o k).pc t).relocks := by
  unfold State.pop
  split
  · rw [leave_self]; exact not_relocks_exit k
  · rw [leave_self]; exact id

/-- A caller gets to lock the mutex again when its wait on the condition variable is over. -/
theorem advance_relocks {op : Op} (hop : (s.pc t).within op) (hst : advance c s t = some s')
    (hu : (s'.pc t).relocks) :
    (s.pc t).relocks ∨ ∃ co' md, (s.pc t).wait = some (.cond co', md) ∧ (s'.pc t).wait = none := by
  -- where a wait goes when it is over
  have hexit : ∀ o (k : WaitRet), k.within op o → (k.exit c true).pc.relocks →
      k.relocks ∨ ∃ co', o = .cond co' := by
    rintro o (⟨m, k⟩ | m | e) hk hr
    · exact .inl hr
    · obtain ⟨co', _, rfl, _⟩ := hk
      exact .inr ⟨co', rfl⟩
    · exact absurd hr id
  have hto : ∀ {s₁ : State} {e : Exit}, ((s₁.leave t e).pc t).relocks → e.pc.relocks := by
    intro s₁ e he
    rw [leave_self] at he
    exact he
  cases advance_cases hst with
  | lockFree | lockAgain =>
    rw [leave_self, lockExit_pc] at hu
    exact absurd hu id
  | lockWait hpc | holdTimed hpc | holdBlock hpc | holdSpin hpc =>
    rw [hpc]
    exact .inl (hto hu)
  | blocked hpc | spin hpc | timed hpc =>
    rw [hpc] at hop ⊢
    obtain hr | ⟨co', rfl⟩ := hexit _ _ hop (hto hu)
    · exact .inl hr
    · refine .inr ⟨co', _, rfl, ?_⟩
      rw [leave_self, waitExit_wait]
  | unlockNested => exact absurd (hto hu) (not_relocks_exit _)
  | unlockLast | signal => exact absurd hu (not_relocks_pop _ _ _ _)
  | broadcast | eventualSet | wakeAwaken => exact absurd (hto hu) (not_relocks_wakeRest _ _)
  | wakeStore => exact absurd (hto hu) (not_relocks_awaken _ _ _ _ _)
  | _ => exact absurd (hto hu) id

structure CondInv (c : Config) (co : Nat) (s : State) (h : CondLog) (q : Obj → List Rec)
    (ch : Nat → List Rec) : Prop where
  plain : Plain c s q ch
  proper : Proper co s
  cur : ∀ t, s.pc t = .idle ∨ ∃ op, h.cur t = some op ∧ (s.pc t).within op
  enter : ∀ t m tm, s.pc t = .condEnter co m tm → h.woken t = none
  listed : ∀ t, OnList s co t → h.woken t = none
  off : ∀ t md, (s.pc t).wait = some (.cond co, md) → OnList s co t ∨ h.WokenBy co t
  relock : ∀ t m tm, h.cur t = some (.condWait co m tm) → (s.pc t).relocks → h.WokenBy co t
  order : (q (.cond co)).Pairwise fun v w => h.since v.owner < h.since w.owner
  past : ∀ w ∈ q (.cond co), h.since w.owner < h.clock

theorem CondInv.initial : CondInv c co (initial c) .empty (fun _ => []) fun _ => [] := by
  refine ⟨.initial, .initial, fun _ => .inl rfl, fun _ _ _ _ => rfl, fun _ _ => rfl,
    fun _ _ hw => (by cases hw), fun _ _ _ hc => (by cases hc), .nil, fun _ hw => (by cases hw)⟩

theorem CondInv.onList (hi : CondInv c co s h q ch) {w : Rec} (hw : w ∈ q (.cond co)) :
    w.slot = .wait ∧ OnList s co w.owner := by
  have hl := (hi.plain.lists.listed _ w trivial).mp hw
  have hs : w.slot = .wait := hi.plain.lists.typedPlace _ w hl
  have he : (⟨w.owner, .wait⟩ : Rec) = w := by rw [← hs]
  exact ⟨hs, by unfold OnList; rw [he]; exact hl⟩

/-- The order of the list is kept: a new record comes last and is the youngest. -/
theorem CondInv.ordered {q' : Obj → List Rec} {ch' : Nat → List Rec} (hi : CondInv c co s h q ch)
    (hmv : Move c s q ch t s' q' ch') :
    ((q' (.cond co)).Pairwise fun v w =>
      (CondLog.after co s a s' h).since v.owner < (CondLog.after co s a s' h).since w.owner) ∧
    ∀ w ∈ q' (.cond co), (CondLog.after co s a s' h).since w.owner < h.clock + 1 := by
  have hsince : ∀ w ∈ q (.cond co), (CondLog.after co s a s' h).since w.owner = h.since w.owner := by
    intro w hw
    have hl := (hi.onList hw).2
    simp only [CondLog.after, hl, not_true, and_false, if_false]
  have hold : (q (.cond co)).Pairwise fun v w =>
      (CondLog.after co s a s' h).since v.owner < (CondLog.after co s a s' h).since w.owner := by
    refine hi.order.imp_of_mem fun hv hw hlt => ?_
    rw [hsince _ hv, hsince _ hw]; exact hlt
  obtain ⟨hq, hl', hw⟩ | ⟨d, hd⟩ := hmv.queue (.cond co)
  · have hl : ¬ OnList s co t := by
      intro hl
      obtain ⟨_, md, hmd⟩ := hi.plain.lists.onList _ _ trivial hl
      rw [hw] at hmd; cases hmd
    have hlast : (CondLog.after co s a s' h).since t = h.clock := by
      simp only [CondLog.after, hl, not_false_iff, and_true]
      exact if_pos hl'
    rw [hq]
    refine ⟨List.pairwise_append.mpr ⟨hold, List.pairwise_singleton _ _, ?_⟩, ?_⟩
    · intro v hv w hw
      obtain rfl := List.mem_singleton.mp hw
      rw [hsince v hv, hlast]
      exact hi.past v hv
    · intro w hw
      obtain hw | hw := List.mem_append.mp hw
      · rw [hsince w hw]; exact Nat.lt_succ_of_lt (hi.past w hw)
      · obtain rfl := List.mem_singleton.mp hw
        rw [hlast]; exact Nat.lt_succ_self _
  · rw [hd] at hold
    refine ⟨(List.pairwise_append.mp hold).2.1, fun w hw => ?_⟩
    have hw' : w ∈ q (.cond co) := by rw [hd]; exact List.mem_append_right _ hw
    rw [hsince w hw']
    exact Nat.lt_succ_of_lt (hi.past w hw')

/-- A step that changes no record and no list. -/
theorem CondInv.frame (hi : CondInv c co s h q ch) (hplain : Plain c s' q ch)
    (hproper : Proper co s') (hwaiter : s'.waiter = s.waiter)
    (hcur : ∀ u, s'.pc u = .idle ∨ ∃ op, (CondLog.after co s a s' h).cur u = some op ∧
      (s'.pc u).within op)
    (hpc : ∀ u, (s'.pc u = s.pc u ∧ (CondLog.after co s a s' h).cur u = h.cur u ∧
        (CondLog.after co s a s' h).woken u = h.woken u) ∨
      (s.pc u = .idle ∧ (CondLog.after co s a s' h).woken u = none ∧ (s'.pc u).wait = none ∧
        ¬ (s'.pc u).relocks)) :
    CondInv c co s' (CondLog.after co s a s' h) q ch := by
  have hon : ∀ u, OnList s' co u ↔ OnList s co u := by
    intro u; unfold OnList; rw [hwaiter]
  have hsince : (CondLog.after co s a s' h).since = h.since := by
    funext u
    simp only [CondLog.after, hon, and_not_self, if_false]
  have hwoken : ∀ u, (CondLog.after co s a s' h).woken u = h.woken u → h.WokenBy co u →
      (CondLog.after co s a s' h).WokenBy co u := by
    rintro u hu ⟨x, op, hw, hop⟩
    exact ⟨x, op, hu.trans hw, hop⟩
  refine ⟨hplain, hproper, hcur, fun u m tm hu => ?_, fun u hu => ?_, fun u md hu => ?_,
    fun u m tm hc hu => ?_, by rw [hsince]; exact hi.order, fun w hw => ?_⟩
  · obtain ⟨hp, _, hw⟩ | ⟨_, hw, _⟩ := hpc u
    · rw [hw]; exact hi.enter u m tm (hp ▸ hu)
    · exact hw
  · obtain ⟨_, _, hw⟩ | ⟨_, hw, _⟩ := hpc u
    · rw [hw]; exact hi.listed u ((hon u).mp hu)
    · exact hw
  · obtain ⟨hp, _, hw⟩ | ⟨_, _, hwt, _⟩ := hpc u
    · exact (hi.off u md (hp ▸ hu)).imp (hon u).mpr (hwoken u hw)
    · rw [hwt] at hu; cases hu
  · obtain ⟨hp, hcu, hw⟩ | ⟨_, _, _, hr⟩ := hpc u
    · exact hwoken u hw (hi.relock u m tm (hcu ▸ hc) (hp ▸ hu))
    · exact absurd hu hr
  · rw [hsince]; exact Nat.lt_succ_of_lt (hi.past w hw)

theorem CondInv.call {op : Op} (hi : CondInv c co s h q ch) (hg : CondUse co s (.call t op))
    (hidle : s.pc t = .idle) (hs' : s' = ({ s with
      op := Function.update s.op t (s.op t + 1) } : State).leave t (.to op.start)) :
    CondInv c co s' (CondLog.after co s (.call t op) s' h) q ch := by
  have hpc : s'.pc = Function.update s.pc t op.start := by rw [hs']; rfl
  refine hi.frame (by rw [hs']; exact hi.plain.call hg.1 hidle) (by rw [hs']; exact hi.proper.call hg)
    (by rw [hs']; rfl) (fun u => ?_) fun u => ?_
  all_goals
    simp only [hpc, CondLog.after]
    by_cases hut : u = t
  · subst hut
    rw [Function.update_self, Function.update_self]
    exact .inr ⟨op, rfl, start_within op⟩
  · rw [Function.update_of_ne hut, Function.update_of_ne hut]
    exact hi.cur u
  · subst hut
    refine .inr ⟨hidle, if_pos rfl, ?_, ?_⟩
    all_goals rw [Function.update_self]; cases op <;> first | rfl | exact id
  · exact .inl ⟨by rw [Function.update_of_ne hut], by rw [Function.update_of_ne hut], if_neg hut⟩

theorem CondInv.go (hi : CondInv c co s h q ch) (hst : advance c s t = some s') :
    CondInv c co s' (CondLog.after co s (.go t) s' h) (queueAfter c s t q)
      (chainsAfter c s t q ch) := by
  have hinv := hi.plain.lists
  have hmv := hi.plain.move hst
  have hother := advance_other hst
  have hplain := hi.plain.go hst
  -- what took a record off the list is a signal or a broadcast
  have htaken : ∀ u, OnList s co u → ¬ OnList s' co u →
      (CondLog.after co s (.go t) s' h).WokenBy co u := by
    intro u hl hl'
    obtain hl'' | ⟨_, htk, _⟩ := hmv.listed hinv hother hl
    · exact absurd hl'' hl'
    · unfold CondLog.WokenBy
      simp only [CondLog.after, if_pos (⟨hl, hl'⟩ : OnList s co u ∧ ¬ OnList s' co u)]
      cases hpc : s.pc t <;> rw [hpc] at htk
      case signal co' => obtain rfl := Obj.cond.inj htk; exact ⟨t, _, rfl, .inl rfl⟩
      case broadcast co' => obtain rfl := Obj.cond.inj htk; exact ⟨t, _, rfl, .inr rfl⟩
      case unlock | eventualSet => cases htk
      all_goals exact absurd htk id
  have hkeep : ∀ u, ¬ (OnList s co u ∧ ¬ OnList s' co u) →
      (CondLog.after co s (.go t) s' h).woken u = h.woken u := by
    intro u hn
    simp only [CondLog.after, if_neg hn]
  have hwoken : ∀ u, h.WokenBy co u → (CondLog.after co s (.go t) s' h).WokenBy co u := by
    rintro u ⟨x, op, hw, hop⟩
    refine ⟨x, op, ?_, hop⟩
    rw [hkeep u fun hn => ?_]
    · exact hw
    · rw [hi.listed u hn.1] at hw; cases hw
  refine ⟨hplain, hi.proper.go hst, fun u => ?_, fun u m tm hu => ?_, fun u hu => ?_,
    fun u md hu => ?_, fun u m tm hc hu => ?_, ?_, ?_⟩
  · by_cases hut : u = t
    · subst hut
      obtain hidle | ⟨op, hc, hop⟩ := hi.cur u
      · simp [advance, hidle] at hst
      · exact (advance_within hop hst).imp id fun hw => ⟨op, hc, hw⟩
    · rw [hother u hut]; exact hi.cur u
  · have hut : u ≠ t := by
      rintro rfl
      have hw : (s'.pc u).waitsWith co m := by rw [hu]; exact ⟨rfl, rfl⟩
      obtain ⟨_, _, hpc⟩ := advance_waitsWith hst hw
      rw [hu] at hpc; cases hpc
    rw [hother u hut] at hu
    rw [hkeep u fun hn => ?_]
    · exact hi.enter u m tm hu
    · obtain ⟨_, md, hw⟩ := hinv.onList _ _ trivial hn.1
      rw [hu] at hw; cases hw
  · rw [hkeep u fun hn => hn.2 hu]
    obtain hl | ⟨he, hpush⟩ := hmv.listed_from hu
    · exact hi.listed u hl
    · obtain rfl : u = t := (Rec.mk.inj he).1
      cases hpc : s.pc u <;> rw [hpc] at hpush
      case condEnter co' m tm =>
        obtain rfl := Obj.cond.inj hpush
        exact hi.enter u m tm hpc
      case lock | eventualEnter => cases hpush
      all_goals exact absurd hpush id
  · obtain ⟨md', hu'⟩ | hl := hmv.wait_from hother hu
    · obtain hl | hw := hi.off u md' hu'
      · by_cases hl' : OnList s' co u
        · exact .inl hl'
        · exact .inr (htaken u hl hl')
      · exact .inr (hwoken u hw)
    · exact .inl hl
  · have hc' : h.cur u = some (.condWait co m tm) := hc
    by_cases hut : u = t
    · subst hut
      obtain hidle | ⟨op, hc'', hop⟩ := hi.cur u
      · simp [advance, hidle] at hst
      · rw [hc'] at hc''
        obtain rfl := Option.some.inj hc''
        obtain hr | ⟨co', md, hw, hw'⟩ := advance_relocks hop hst hu
        · exact hwoken u (hi.relock u m tm hc' hr)
        · obtain rfl := within_wait_cond hop hw
          obtain hl | hwk := hi.off u md hw
          · refine htaken u hl fun hl' => ?_
            obtain ⟨_, md', hw''⟩ := hplain.lists.onList _ _ trivial hl'
            rw [hw'] at hw''; cases hw''
          · exact hwoken u hwk
    · rw [hother u hut] at hu
      exact hwoken u (hi.relock u m tm hc' hu)
  · exact (hi.ordered hmv).1
  · exact (hi.ordered hmv).2

theorem CondInv.step (hi : CondInv c co s h q ch) (hg : CondUse co s a)
    (hst : step c s a = some s') :
    CondInv c co s' (CondLog.after co s a s' h) (listsAfter c s q a) (wakersAfter c s q ch a) := by
  have hplain := hi.plain.step hg.1 hst
  obtain ⟨t, op, rfl, hidle, hs'⟩ | ⟨t, rfl, hst⟩ | ⟨o, t, rfl, hl, rfl⟩ := step_untimed hg.1 hst
  · exact hi.call hg hidle hs'
  · exact hi.go hst
  · exact hi.frame hplain ⟨hi.proper.locked, hi.proper.leaving, hi.proper.once⟩ rfl hi.cur
      fun u => .inl ⟨rfl, rfl, rfl⟩

theorem reach_condInv {x : State × CondLog}
    (hr : Reach (condLogged c co) (fun x a => CondUse co x.1 a) x) :
    ∃ q ch, CondInv c co x.1 x.2 q ch := by
  refine hr.historyInvariant (I := fun s h => ∃ q ch, CondInv c co s h q ch) ?_ ?_
  · rintro s rfl; exact ⟨_, _, .initial⟩
  · rintro s h a s' _ ⟨q, ch, hi⟩ hg hst; exact ⟨_, _, hi.step hg hst⟩

/-! ## Results -/

/-- The stages of a wait: the caller has still to enter and holds the mutex, its wait is not over, or
it locks the mutex again. -/
theorem within_condWait {pc : Pc} {m : Nat} {tm : Bool} (hp : pc.within (.condWait co m tm)) :
    pc = .condEnter co m tm ∨ (∃ md, pc.wait = some (.cond co, md)) ∨ pc.relocks := by
  have hk : ∀ k : UnlockRet, k.within (.condWait co m tm) → ∃ md, k.wait = some (.cond co, md) := by
    rintro (_ | ⟨co', m', tm'⟩) hk
    · exact absurd hk id
    · cases hk; exact ⟨_, rfl⟩
  have hr : ∀ (o : Obj) (k : WaitRet) (md : Mode), k.within (.condWait co m tm) o →
      (∃ md', some (o, md) = some (Obj.cond co, md')) ∨ k.relocks := by
    rintro o (⟨m', (_ | b)⟩ | m' | e) md hk
    · cases hk.2
    · exact .inr trivial
    · obtain ⟨co', tm', rfl, hop⟩ := hk; cases hop; exact .inl ⟨md, rfl⟩
    · obtain ⟨_, _, hop⟩ := hk; cases hop
  cases pc with
  | idle => exact absurd hp id
  | lock m' k =>
    cases k with
    | user => cases hp
    | cond b => exact .inr (.inr trivial)
  | condEnter co' m' tm' => cases hp; exact .inl rfl
  | unlock m' k => exact .inr (.inl (hk k (unlock_within hp)))
  | hold o k tm' => exact .inr (hr o k _ hp)
  | blocked o k => exact .inr (hr o k _ hp)
  | spin o k => exact .inr (hr o k _ hp)
  | timed o k => exact .inr (hr o k _ hp)
  | wakeNext w k => exact .inr (.inl (hk k hp))
  | wakeThread w r k => exact .inr (.inl (hk k hp))
  | wakeStore w th r k => exact .inr (.inl (hk k hp))
  | wakeAwaken th w tm' r k => exact .inr (.inl (hk k hp))
  | _ => cases hp

/-- Where a wait on `co` with mutex `m` is: not taken off and about to enter with the mutex, not
taken off and on the list, or taken off by a signal or a broadcast. -/
def Waits (s : State) (h : CondLog) (co m t : Nat) : Prop :=
  (h.woken t = none ∧ ((s.pc t = .condEnter co m false ∧ s.mutex m = ⟨true, 0, some t⟩) ∨
    (OnList s co t ∧ ∃ l, Rep s.next (s.wl (.cond co)) l ∧ ⟨t, .wait⟩ ∈ l))) ∨
  h.WokenBy co t

theorem Proper.heldOnce (hp : Proper co s) {m : Nat} (hu : (s.pc t).waitsWith co m) :
    s.mutex m = ⟨true, 0, some t⟩ := by
  have ho := hp.leaving m t (releases_of_waitsWith hu)
  have hl := hp.locked m
  have hn := hp.once m t hu
  cases hm : s.mutex m with
  | mk locked nesting owner =>
    rw [hm] at ho hl hn
    subst ho hn
    rw [show locked = true from hl]

theorem CondInv.waits (hi : CondInv c co s h q ch) {m : Nat}
    (hc : h.cur t = some (.condWait co m false)) (hne : s.pc t ≠ .idle) : Waits s h co m t := by
  obtain hidle | ⟨op, hc', hop⟩ := hi.cur t
  · exact absurd hidle hne
  rw [hc] at hc'
  obtain rfl := Option.some.inj hc'
  obtain hpc | ⟨md, hw⟩ | hr := within_condWait hop
  · exact .inl ⟨hi.enter t m false hpc, .inl ⟨hpc, hi.proper.heldOnce (by rw [hpc]; exact ⟨rfl, rfl⟩)⟩⟩
  · refine (hi.off t md hw).imp (fun hl => ⟨hi.listed t hl, .inr ⟨hl, q (.cond co), ?_, ?_⟩⟩) id
    · exact hi.plain.lists.rep _ trivial
    · exact (hi.plain.lists.listed (.cond co) _ trivial).mpr hl
  · exact .inr (hi.relock t m false hc hr)

theorem condExit_ne_idle {co m : Nat} {tm : Bool} {k : UnlockRet} (hk : k.within (.condWait co m tm)) :
    k.exit.pc ≠ .idle := by
  cases k with
  | user => exact absurd hk id
  | cond co' m' tm' => simp [UnlockRet.exit, Exit.to]

theorem condWakeRest_ne_idle {co m : Nat} {tm : Bool} {k : UnlockRet}
    (hk : k.within (.condWait co m tm)) (r : Option Rec) : (k.wakeRest r).pc ≠ .idle := by
  cases r with
  | none => exact condExit_ne_idle hk
  | some w => simp [UnlockRet.wakeRest, Exit.to]

/-- A wait ends at the section that refuses another mutex, or by locking the mutex. -/
theorem condWait_ends {m : Nat} {tm : Bool} (hop : (s.pc t).within (.condWait co m tm))
    (hst : advance c s t = some s') (hidle : s'.pc t = .idle) :
    s.pc t = .condEnter co m tm ∨ ∃ b, s.pc t = .lock m (.cond b) := by
  unfold advance at hst
  cases hpc : s.pc t <;> rw [hpc] at hop <;>
    simp only [hpc, mutexStep, condStep, waitStep, wakeStep] at hst
  case lock m' k =>
    cases k with
    | user => cases hop
    | cond b => obtain ⟨co', tm', hop⟩ := hop; cases hop; exact .inr ⟨b, rfl⟩
  case condEnter co' m' tm' => cases hop; exact .inl rfl
  case unlock m' k =>
    exfalso
    have hk := unlock_within hop
    repeat' split at hst
    all_goals cases hst
    · rw [leave_self] at hidle; exact condExit_ne_idle hk hidle
    · unfold State.pop at hidle
      split at hidle
      · rw [leave_self] at hidle; exact condExit_ne_idle hk hidle
      · rw [leave_self] at hidle; cases hidle
  case hold o k tm' =>
    repeat' split at hst
    all_goals cases hst
    all_goals rw [leave_self] at hidle; cases hidle
  case blocked o k | spin o k | timed o k =>
    split at hst <;> cases hst
    rw [leave_self] at hidle
    cases k with
    | lock m' k => cases hidle
    | cond m' => cases hidle
    | eventual e => obtain ⟨_, _, hop⟩ := hop; cases hop
  case wakeNext | wakeThread => cases hst; rw [leave_self] at hidle; cases hidle
  case wakeStore w th r k =>
    cases hst
    rw [leave_self] at hidle
    cases th with
    | none => exact absurd hidle (condWakeRest_ne_idle hop r)
    | some u => cases hidle
  case wakeAwaken th w tm' r k =>
    cases hst
    rw [leave_self] at hidle
    exact absurd hidle (condWakeRest_ne_idle hop r)
  all_goals cases hop

/-- A wait comes back with success only by locking the mutex. -/
theorem CondInv.returns (hi : CondInv c co s h q ch) {m : Nat}
    (hc : h.cur t = some (.condWait co m false)) (hst : advance c s t = some s')
    (hidle : s'.pc t = .idle) (hret : s'.ret t = some (.success, none)) :
    (s'.mutex m).locked = true ∧ (s'.mutex m).owner = some t ∧ h.WokenBy co t := by
  obtain hidle' | ⟨op, hc', hop⟩ := hi.cur t
  · simp [advance, hidle'] at hst
  rw [hc] at hc'
  obtain rfl := Option.some.inj hc'
  obtain hpc | ⟨b, hpc⟩ := condWait_ends hop hst hidle
  all_goals simp only [advance, hpc, condStep, mutexStep] at hst
  · exfalso
    repeat' split at hst
    all_goals cases hst
    · rw [leave_self] at hidle; cases hidle
    · simp [State.leave, Exit.user] at hret
  · have hw := hi.relock t m false hc (by rw [hpc]; exact trivial)
    repeat' split at hst
    all_goals cases hst
    · simp [State.setMutex, hw]
    · simp [State.setMutex, hw]
    · rw [leave_self] at hidle; cases hidle

/-- The signal takes off the record that is longest on the list, if there is one, and no other. -/
def TakesOldest (co : Nat) (s : State) (h : CondLog) (y : Nat) (s' : State) : Prop :=
  ((∀ u, ¬ OnList s co u) → s'.waiter = s.waiter) ∧
  ((∃ u, OnList s co u) → ∃ u, OnList s co u ∧ (∀ v, OnList s co v → v ≠ u → h.since u < h.since v) ∧
    (s'.waiter ⟨u, .wait⟩).place = .taken y (s.op y) ∧
    ∀ w, w ≠ ⟨u, .wait⟩ → s'.waiter w = s.waiter w)

theorem CondInv.signal (hi : CondInv c co s h q ch) {y : Nat} (hpc : s.pc y = .signal co)
    (hst : advance c s y = some s') : TakesOldest co s h y s' := by
  simp only [advance, hpc, condStep] at hst
  split at hst <;> cases hst
  have hwaiter := pop_waiter s y (.cond co) .user (hi.plain.lists.rep (.cond co) trivial)
  have hmem : ∀ u, OnList s co u ↔ ⟨u, .wait⟩ ∈ q (.cond co) := fun u =>
    (hi.plain.lists.listed (.cond co) _ trivial).symm
  cases hq : q (.cond co) with
  | nil =>
    refine ⟨fun _ => ?_, fun hu => ?_⟩
    · funext w; rw [hwaiter, hq]; rfl
    · obtain ⟨u, hu⟩ := hu
      rw [hmem, hq] at hu; cases hu
  | cons w l =>
    obtain ⟨hs, hl⟩ := hi.onList (w := w) (by rw [hq]; exact List.mem_cons_self ..)
    have hw : (⟨w.owner, .wait⟩ : Rec) = w := by rw [← hs]
    refine ⟨fun hn => absurd hl (hn _), fun _ => ⟨w.owner, hl, fun v hv hne => ?_, ?_, ?_⟩⟩
    · have hv' := (hmem v).mp hv
      rw [hq] at hv'
      obtain he | hv' := List.mem_cons.mp hv'
      · rw [← he] at hne; exact absurd rfl hne
      · have ho := hi.order
        rw [hq] at ho
        exact (List.pairwise_cons.mp ho).1 _ hv'
    · rw [hw, hwaiter, hq]; simp
    · intro w' hne
      rw [hw] at hne
      rw [hwaiter, hq, if_neg (by simpa using hne)]

/-- The broadcast takes off the records that are on the list, and no others. -/
def TakesAll (co : Nat) (s : State) (y : Nat) (s' : State) : Prop :=
  ∀ w, (s'.waiter w).place = (if (s.waiter w).place = .listed (.cond co)
    then .taken y (s.op y) else (s.waiter w).place)

theorem broadcast_takesAll {y : Nat} (hpc : s.pc y = .broadcast co)
    (hst : advance c s y = some s') : TakesAll co s y s' := by
  simp only [advance, hpc, condStep] at hst
  split at hst <;> cases hst
  intro w
  simp only [State.detach, State.leave]
  split <;> rfl

/-- Condition variables: in every run with the uses `CondUse`,
* a wait that has not been taken off holds the mutex or is on the list, so whoever has the mutex
  after the waiter finds its record or comes after the operation that took it;
* a wait returns success only with the mutex, and after a signal or broadcast took its record off;
* a signal takes off the oldest record, a broadcast all of them;
* a wait with another mutex than the first one is refused, with the mutex still held and nothing
  else changed. -/
theorem cond_wait_sound {x : State × CondLog}
    (hr : Reach (condLogged c co) (fun x a => CondUse co x.1 a) x) :
    (∀ t m, x.2.cur t = some (.condWait co m false) → x.1.pc t ≠ .idle →
      Waits x.1 x.2 co m t ∧
      ∀ y, y ≠ t → (x.1.mutex m).owner = some y → OnList x.1 co t ∨ x.2.WokenBy co t) ∧
    (∀ t m s', x.2.cur t = some (.condWait co m false) → step c x.1 (.go t) = some s' →
      s'.pc t = .idle → s'.ret t = some (.success, none) →
      (s'.mutex m).locked = true ∧ (s'.mutex m).owner = some t ∧ x.2.WokenBy co t) ∧
    (∀ y s', x.1.pc y = .signal co → step c x.1 (.go y) = some s' →
      TakesOldest co x.1 x.2 y s') ∧
    (∀ y s', x.1.pc y = .broadcast co → step c x.1 (.go y) = some s' → TakesAll co x.1 y s') ∧
    ∀ t m m' tm s', x.1.pc t = .condEnter co m tm → x.1.condMutex co = some m' → m' ≠ m →
      step c x.1 (.go t) = some s' →
      s' = x.1.leave t (.user .invMutex none) ∧ s'.mutex m = ⟨true, 0, some t⟩ := by
  obtain ⟨q, ch, hi⟩ := reach_condInv hr
  refine ⟨fun t m hc hne => ?_, fun t m s' hc hst => hi.returns hc hst,
    fun y s' hpc hst => hi.signal hpc hst, fun y s' hpc hst => broadcast_takesAll hpc hst, ?_⟩
  · have hw := hi.waits hc hne
    refine ⟨hw, fun y hy ho => ?_⟩
    obtain ⟨_, ⟨_, hm⟩ | ⟨hl, _⟩⟩ | hw := hw
    · rw [hm] at ho; exact absurd (Option.some.inj ho).symm hy
    · exact .inl hl
    · exact .inr hw
  · intro t m m' tm s' hpc hcm hne hst
    have hheld := hi.proper.heldOnce (t := t) (m := m) (by rw [hpc]; exact ⟨rfl, rfl⟩)
    simp only [step, advance, hpc, condStep, hcm] at hst
    split at hst
    case isFalse => cases hst
    rw [if_neg (by simpa using hne)] at hst
    cases hst
    exact ⟨rfl, hheld⟩

end

/-- Callers 0 and 1 wait on condition variable 0; caller 2 has the mutex and has signaled it: the
record of caller 0 is taken off. -/
def twoWaiters : List Act :=
  [.call 0 (.lock 0), .go 0, .call 0 (.condWait 0 0 false), .go 0, .go 0, .go 0,
    .callback (.cond 0), .call 1 (.lock 0), .go 1, .call 1 (.condWait 0 0 false), .go 1, .go 1, .go 1,
    .callback (.cond 0), .call 2 (.lock 0), .go 2, .call 2 (.signal 0), .go 2]

theorem cond_wait_sound_two : ∃ x, Reach (condLogged demo 0) (fun x a => CondUse 0 x.1 a) x ∧
    (x.2.cur 1 = some (.condWait 0 0 false) ∧ x.1.pc 1 ≠ .idle ∧ OnList x.1 0 1 ∧
      x.2.woken 0 = some (2, .signal 0)) ∧ Waits x.1 x.2 0 0 1 := by
  obtain ⟨x, hr, hx⟩ := (Reach.start ⟨rfl, rfl⟩ : Reach (condLogged demo 0)
    (fun x a => CondUse 0 x.1 a) (initial demo, .empty)).exists_run
    (fun x => x.2.cur 1 = some (.condWait 0 0 false) ∧ x.1.pc 1 ≠ .idle ∧ OnList x.1 0 1 ∧
      x.2.woken 0 = some (2, .signal 0)) twoWaiters (by decide)
  exact ⟨x, hr, hx, ((cond_wait_sound hr).1 1 0 hx.1 hx.2.1).1⟩

end Sync
end AbtReconverse
