import AbtReconverse.Sync.Stranded

/-!
# AbtReconverse.Sync.Eventual

Epochs of an eventual: the time from its creation, or from a reset, to the next reset. In an epoch
at most one set succeeds. It takes the whole list at once and wakes the records after it has
released the lock, when resets, new waits and further sets may run; a record that was taken is never
on the list again in that call, and only the set that took it wakes it.

`EventLog` is the history of one eventual: how many sets have succeeded in all and in the present
epoch, with the bytes of the latter, what each wait found when it took the lock, and which
operations have stored `signaled` in its record. `eventual_epochs` collects the results. The runs
are those without timed waits.
-/

namespace AbtReconverse
namespace Sync

open Lts

structure EventLog where
  /-- Sets that succeeded. -/
  total : Nat
  /-- Sets that succeeded in the present epoch. -/
  sets : Nat
  /-- Arguments of the last of them. -/
  last : Option (Nat × Option (List UInt8))
  /-- The call the caller made last. -/
  cur : Nat → Option Op
  /-- When the caller's present wait took the lock: had a set succeeded in that epoch, and how many
  had in all? -/
  entry : Nat → Option (Bool × Nat)
  /-- The operations that stored `signaled` in the caller's record in its present call. -/
  wokenBy : Nat → List (Nat × Nat)

/-- The call has come back with one of the errors of a set. -/
def Failed (s : State) (t : Nat) : Prop :=
  s.pc t = .idle ∧ (s.ret t = some (.eventual, none) ∨ s.ret t = some (.invEventual, none))

instance (s : State) (t : Nat) : Decidable (Failed s t) := by unfold Failed; infer_instance

/-- The arguments of the set that succeeds in this step, if it is one. -/
def setBy (e : Nat) (s : State) (a : Act) (s' : State) : Option (Nat × Option (List UInt8)) :=
  match a with
  | .go t =>
    match s.pc t with
    | .eventualSet e' n v => if e' = e ∧ ¬ Failed s' t then some (n, v) else none
    | _ => none
  | _ => none

/-- The step is the section of a reset. -/
def resetBy (e : Nat) (s : State) : Act → Prop
  | .go t => s.pc t = .eventualReset e
  | _ => False

instance (e : Nat) (s : State) : (a : Act) → Decidable (resetBy e s a)
  | .go t => inferInstanceAs (Decidable (s.pc t = .eventualReset e))
  | .call .. | .timeout .. | .callback _ => inferInstanceAs (Decidable False)

namespace EventLog

def empty : EventLog := ⟨0, 0, none, fun _ => none, fun _ => none, fun _ => []⟩

def after (e : Nat) (s : State) (a : Act) (s' : State) (h : EventLog) : EventLog where
  total := if (setBy e s a s').isSome then h.total + 1 else h.total
  sets := if (setBy e s a s').isSome then h.sets + 1 else if resetBy e s a then 0 else h.sets
  last := if (setBy e s a s').isSome then setBy e s a s' else if resetBy e s a then none else h.last
  cur := match a with
    | .call t op => Function.update h.cur t (some op)
    | _ => h.cur
  entry := match a with
    | .call t _ => Function.update h.entry t none
    | .go t =>
      match s.pc t with
      | .eventualEnter e' _ =>
        if e' = e then Function.update h.entry t (some (decide (0 < h.sets), h.total)) else h.entry
      | _ => h.entry
    | _ => h.entry
  wokenBy := match a with
    | .call t _ => Function.update h.wokenBy t []
    | .go x =>
      match (s.pc x).wakes with
      | some (.store _, w, _) =>
        if w.slot = .wait then
          Function.update h.wokenBy w.owner (h.wokenBy w.owner ++ [(x, s.op x)])
        else h.wokenBy
      | _ => h.wokenBy
    | _ => h.wokenBy

end EventLog

def eventLogged (c : Config) (e : Nat) : System (State × EventLog) Act :=
  (system c).withHistory .empty (EventLog.after e)

section

variable {c : Config} {s s' : State} {q : Obj → List Rec} {ch : Nat → List Rec} {t e : Nat} {a : Act}
  {h : EventLog}

/-! ## What a step does to an eventual -/

/-- A step leaves the flag and the bytes alone and takes nobody off the list, it is a set that
succeeds, or it is a reset. -/
inductive EventMove (c : Config) (e : Nat) (s : State) (t : Nat) (s' : State)
    (q q' : Obj → List Rec) : Prop where
  | keep (hset : setBy e s (.go t) s' = none) (hreset : ¬ resetBy e s (.go t))
      (hready : s'.ready e = s.ready e) (hvalue : s'.value e = s.value e)
      (hq : q' (.eventual e) = q (.eventual e) ∨
        (s.ready e = false ∧ q' (.eventual e) = q (.eventual e) ++ [⟨t, .wait⟩]))
  | set (n : Nat) (v : Option (List UInt8)) (hpc : s.pc t = .eventualSet e n v)
      (hset : setBy e s (.go t) s' = some (n, v)) (hnot : s.ready e = false) (hn : n ≤ c.nbytes e)
      (hready : s'.ready e = true)
      (hvalue : ∀ b, v = some b → s'.value e = b.take n ++ (s.value e).drop n)
      (hq : q' (.eventual e) = [])
  | reset (hset : setBy e s (.go t) s' = none) (hreset : resetBy e s (.go t))
      (hready : s'.ready e = false) (hq : q' (.eventual e) = q (.eventual e))

theorem pop_ready (s : State) (t : Nat) (o : Obj) (k : UnlockRet) :
    (s.pop t o k).ready = s.ready ∧ (s.pop t o k).value = s.value := by
  unfold State.pop; split <;> exact ⟨rfl, rfl⟩

theorem queueAfter_eventual (hpc : ∀ e tm, s.pc t ≠ .eventualEnter e tm)
    (hpc' : ∀ e n v, s.pc t ≠ .eventualSet e n v) :
    queueAfter c s t q (.eventual e) = q (.eventual e) := by
  unfold queueAfter enqueue
  cases h : s.pc t with
  | eventualEnter e' tm => exact absurd h (hpc e' tm)
  | eventualSet e' n v => exact absurd h (hpc' e' n v)
  | _ =>
    simp only
    repeat' split
    all_goals rfl

theorem failed_leave (s : State) (t : Nat) {code : Code} (hc : code = .eventual ∨ code = .invEventual) :
    Failed (s.leave t (.user code none)) t := by
  obtain rfl | rfl := hc
  · exact ⟨by simp [Exit.user], .inl (by simp [State.leave, Exit.user])⟩
  · exact ⟨by simp [Exit.user], .inr (by simp [State.leave, Exit.user])⟩

theorem not_failed_detach (s : State) (t : Nat) (o : Obj) : ¬ Failed (s.detach t o .user) t := by
  rintro ⟨hpc, hret⟩
  unfold State.detach at hpc hret
  cases hw : (s.wl o).head with
  | none => rw [hw] at hret; simp [State.leave, UnlockRet.wakeRest, UnlockRet.exit, Exit.user] at hret
  | some w => rw [hw] at hpc; simp [UnlockRet.wakeRest, Exit.to] at hpc

theorem eventualSet_event {e' n : Nat} {v : Option (List UInt8)} (hpc : s.pc t = .eventualSet e' n v)
    (hr : ¬ s.ready e' = true) (hn : ¬ c.nbytes e' < n) :
    EventMove c e s t (({ s with
      ready := Function.update s.ready e' true
      value := s.valueSet e' n v } : State).detach t (.eventual e') .user) q
      (queueAfter c s t q) := by
  have hq : queueAfter c s t q = Function.update q (.eventual e') [] := by
    simp only [queueAfter, hpc, if_neg hr, if_neg hn]
  by_cases he : e' = e
  · subst he
    refine .set n v hpc ?_ (by simpa using hr) (Nat.not_lt.mp hn) ?_ ?_ (by rw [hq]; simp)
    · simp only [setBy, hpc, true_and]
      exact if_pos (not_failed_detach _ _ _)
    · exact Function.update_self _ _ _
    · rintro b rfl
      exact Function.update_self _ _ _
  · have hne : e ≠ e' := Ne.symm he
    refine .keep ?_ (by simp [resetBy, hpc]) ?_ ?_ (.inl (by rw [hq]; simp [hne]))
    · simp [setBy, hpc, he]
    · exact Function.update_of_ne hne _ _
    · cases v with
      | none => rfl
      | some b => exact Function.update_of_ne hne _ _

theorem advance_event (hst : advance c s t = some s') :
    EventMove c e s t s' q (queueAfter c s t q) := by
  cases advance_cases hst with
  | eventualAgain hpc _ hr =>
    refine .keep ?_ (by simp [resetBy, hpc]) rfl rfl (.inl (by simp only [queueAfter, hpc, if_pos hr]))
    simp only [setBy, hpc, failed_leave s t (.inl rfl), not_true, and_false, if_false]
  | eventualLong hpc _ hr hn =>
    refine .keep ?_ (by simp [resetBy, hpc]) rfl rfl
      (.inl (by simp only [queueAfter, hpc, if_neg hr, if_pos hn]))
    simp only [setBy, hpc, failed_leave s t (.inr rfl), not_true, and_false, if_false]
  | eventualSet hpc _ hr hn => exact eventualSet_event hpc hr hn
  | eventualPass hpc _ hr =>
    exact .keep (by simp [setBy, hpc]) (by simp [resetBy, hpc]) rfl rfl
      (.inl (by simp only [queueAfter, hpc, if_pos hr]))
  | @eventualEnter e' tm hpc _ hr =>
    refine .keep (by simp [setBy, hpc]) (by simp [resetBy, hpc]) rfl rfl ?_
    simp only [queueAfter, hpc, if_neg hr, enqueue]
    by_cases he : e' = e
    · subst he
      exact .inr ⟨by simpa using hr, by simp [Obj.slot]⟩
    · exact .inl (by simp [Ne.symm he])
  | @eventualReset e' hpc =>
    have hq : queueAfter c s t q (.eventual e) = q (.eventual e) :=
      queueAfter_eventual (by simp [hpc]) (by simp [hpc])
    by_cases he : e' = e
    · subst he
      exact .reset (by simp [setBy, hpc]) hpc (Function.update_self _ _ _) hq
    · exact .keep (by simp [setBy, hpc]) (by simp [resetBy, hpc, he])
        (Function.update_of_ne (Ne.symm he) _ _) rfl (.inl hq)
  | unlockLast hpc | signal hpc =>
    exact .keep (by simp [setBy, hpc]) (by simp [resetBy, hpc]) (congrFun (pop_ready _ _ _ _).1 e)
      (congrFun (pop_ready _ _ _ _).2 e) (.inl (queueAfter_eventual (by simp [hpc]) (by simp [hpc])))
  | lockFree hpc | lockAgain hpc | lockWait hpc | spinFree hpc | spinAgain hpc | spinWait hpc
  | tryFree hpc | tryAgain hpc | tryFail hpc | unlockNested hpc | condEnter hpc | condRefuse hpc
  | broadcast hpc | eventualTest hpc | holdTimed hpc | holdBlock hpc | holdSpin hpc | blocked hpc
  | spin hpc | timed hpc | wakeNext hpc | wakeThread hpc | wakeStore hpc | wakeAwaken hpc =>
    exact .keep (by simp [setBy, hpc]) (by simp [resetBy, hpc]) rfl rfl
      (.inl (queueAfter_eventual (by simp [hpc]) (by simp [hpc])))

/-- The calls that wait on an eventual. -/
theorem eventualWait_of_wait {pc : Pc} {op : Op} {md : Mode} (hop : pc.within op)
    (hw : pc.wait = some (.eventual e, md)) : ∃ tm, op = .eventualWait e tm := by
  have hk : ∀ k : WaitRet, k.within op (.eventual e) → ∃ tm, op = .eventualWait e tm := by
    rintro (⟨m, k⟩ | m | e') hk
    · cases hk.1
    · obtain ⟨_, _, ho, _⟩ := hk; cases ho
    · obtain ⟨ho, tm, hop⟩ := hk; cases ho; exact ⟨tm, hop⟩
  have hu : ∀ k : UnlockRet, k.wait ≠ some (.eventual e, md) := by
    intro k; cases k <;> simp [UnlockRet.wait]
  cases pc <;> simp only [Pc.wait, reduceCtorEq] at hw
  case hold | blocked | spin | timed =>
    obtain ⟨rfl, _⟩ := Prod.mk.inj (Option.some.inj hw)
    exact hk _ hop
  all_goals exact absurd hw (hu _)

/-- The stages of a wait, and what a step makes of them. -/
theorem advance_eventualWait {tm : Bool} (hop : (s.pc t).within (.eventualWait e tm))
    (hst : advance c s t = some s') :
    (s.pc t = .eventualEnter e tm ∧ s.ready e = true ∧ s'.pc t = .idle) ∨
    (s.pc t = .eventualEnter e tm ∧ s.ready e = false ∧
      ∃ md, (s'.pc t).wait = some (.eventual e, md)) ∨
    (∃ md, (s.pc t).wait = some (.eventual e, md)) ∧
      ((∃ md, (s'.pc t).wait = some (.eventual e, md)) ∨ s'.pc t = .idle) := by
  -- the only object such a call waits on
  have hk : ∀ (o : Obj) (k : WaitRet), k.within (.eventualWait e tm) o →
      o = .eventual e ∧ (k.exit c true).pc = .idle := by
    rintro o (⟨m, (_ | b)⟩ | m | e') hk
    · cases hk.2
    · obtain ⟨_, _, _, hop⟩ := hk; cases hop
    · obtain ⟨_, _, _, hop⟩ := hk; cases hop
    · obtain ⟨rfl, _, hop⟩ := hk; cases hop; exact ⟨rfl, rfl⟩
  unfold advance at hst
  cases hpc : s.pc t <;> rw [hpc] at hop <;> simp only [hpc] at hst
  case eventualEnter e' tm' =>
    cases hop
    simp only [eventualStep] at hst
    split at hst
    case isFalse => cases hst
    split at hst <;> rename_i hr <;> cases hst
    · refine .inl ⟨rfl, hr, ?_⟩
      rw [leave_self]; rfl
    · refine .inr (.inl ⟨rfl, by simpa using hr, .held tm, ?_⟩)
      rw [leave_self]; rfl
  case hold o k tm' =>
    obtain ⟨rfl, _⟩ := hk o k hop
    simp only [waitStep] at hst
    repeat' split at hst
    all_goals cases hst
    all_goals
      refine .inr (.inr ⟨⟨_, rfl⟩, .inl ?_⟩)
      rw [leave_self]
      exact ⟨_, rfl⟩
  case blocked o k | spin o k | timed o k =>
    obtain ⟨rfl, hexit⟩ := hk o k hop
    simp only [waitStep] at hst
    split at hst <;> cases hst
    refine .inr (.inr ⟨⟨_, rfl⟩, .inr ?_⟩)
    rw [leave_self]
    exact hexit
  case lock m k =>
    cases k with
    | user => cases hop
    | cond b => obtain ⟨_, _, hop⟩ := hop; cases hop
  case unlock m k =>
    cases k with
    | user => cases hop
    | cond co m' tm' => obtain ⟨_, hop⟩ := hop; cases hop
  case wakeNext w k | wakeThread w r k | wakeStore w th r k | wakeAwaken th w tm' r k =>
    cases k with
    | user => exact absurd hop id
    | cond co m tm' => cases hop
  case idle => exact absurd hop id
  all_goals cases hop

/-! ## The invariant -/

/-- A wait that has put its record on the list: no set had succeeded in that epoch when it took the
lock, one has since if the record is taken, and the operation that took the record has signaled it
once or not yet. -/
structure EventWait (s : State) (h : EventLog) (t : Nat) : Prop where
  entry : ∃ k, h.entry t = some (false, k) ∧ k ≤ h.total ∧
    ∀ x n, (s.waiter ⟨t, .wait⟩).place = .taken x n → k < h.total
  unsignaled : (s.waiter ⟨t, .wait⟩).signaled = false → h.wokenBy t = []
  signaled : (s.waiter ⟨t, .wait⟩).signaled = true →
    ∃ x n, (s.waiter ⟨t, .wait⟩).place = .taken x n ∧ h.wokenBy t = [(x, n)]

/-- A wait that has returned: a set had succeeded in the epoch when it took the lock, or one did
later and the wait was woken once. -/
def EventReturned (h : EventLog) (t : Nat) : Prop :=
  (∃ k, h.entry t = some (true, k) ∧ h.wokenBy t = []) ∨
  ∃ k x n, h.entry t = some (false, k) ∧ k < h.total ∧ h.wokenBy t = [(x, n)]

structure EventInv (c : Config) (e : Nat) (s : State) (h : EventLog) (q : Obj → List Rec)
    (ch : Nat → List Rec) : Prop where
  plain : Plain c s q ch
  cur : ∀ t, s.pc t = .idle ∨ ∃ op, h.cur t = some op ∧ (s.pc t).within op
  sets : h.sets = if s.ready e then 1 else 0
  last : s.ready e = true → ∃ n v, h.last = some (n, v) ∧ n ≤ c.nbytes e ∧
    ∀ b, v = some b → b.take n <+: s.value e
  empty : s.ready e = true → q (.eventual e) = []
  enter : ∀ t tm, s.pc t = .eventualEnter e tm → h.wokenBy t = []
  waiting : ∀ t md, (s.pc t).wait = some (.eventual e, md) → EventWait s h t
  returned : ∀ t tm, s.pc t = .idle → h.cur t = some (.eventualWait e tm) → EventReturned h t

theorem EventInv.initial : EventInv c e (initial c) .empty (fun _ => []) fun _ => [] :=
  ⟨.initial, fun _ => .inl rfl, rfl, fun hr => (by cases hr), fun _ => rfl, fun _ _ _ => rfl,
    fun _ _ hw => (by cases hw), fun _ _ _ hc => (by cases hc)⟩

/-- The flag, the bytes and the list agree with the history. -/
theorem EventInv.epoch (hi : EventInv c e s h q ch) {q' : Obj → List Rec}
    (hm : EventMove c e s t s' q q') :
    (EventLog.after e s (.go t) s' h).sets = (if s'.ready e then 1 else 0) ∧
    (s'.ready e = true → ∃ n v, (EventLog.after e s (.go t) s' h).last = some (n, v) ∧
      n ≤ c.nbytes e ∧ ∀ b, v = some b → b.take n <+: s'.value e) ∧
    (s'.ready e = true → q' (.eventual e) = []) := by
  cases hm with
  | keep hset hreset hready hvalue hq =>
    simp only [EventLog.after, hset, if_neg hreset, hready, hvalue, Option.isSome_none,
      Bool.false_eq_true, if_false]
    refine ⟨hi.sets, hi.last, fun hr => ?_⟩
    obtain hq | ⟨hr', _⟩ := hq
    · rw [hq]; exact hi.empty hr
    · rw [hr] at hr'; cases hr'
  | set n v hpc hset hnot hn hready hvalue hq =>
    simp only [EventLog.after, hset, Option.isSome_some, if_true, hready]
    refine ⟨by rw [hi.sets, hnot]; rfl, fun _ => ⟨n, v, rfl, hn, ?_⟩, fun _ => hq⟩
    intro b hb
    rw [hvalue b hb]
    exact List.prefix_append _ _
  | reset hset hreset hready hq =>
    simp only [EventLog.after, hset, if_pos hreset, Option.isSome_none, Bool.false_eq_true, if_false,
      hready]
    exact ⟨trivial, fun hr => absurd hr id, fun hr => absurd hr id⟩

theorem total_le (s s' : State) (a : Act) : h.total ≤ (EventLog.after e s a s' h).total := by
  simp only [EventLog.after]
  split <;> omega

theorem entry_other {u : Nat} (hu : ∀ tm, s.pc t = .eventualEnter e tm → u ≠ t) :
    (EventLog.after e s (.go t) s' h).entry u = h.entry u := by
  cases hpc : s.pc t <;> simp only [EventLog.after, hpc]
  case eventualEnter e' tm =>
    split
    · rename_i he
      subst he
      exact Function.update_of_ne (hu tm hpc) _ _
    · rfl

theorem wokenBy_other {u : Nat}
    (hu : ∀ th rest, (s.pc t).wakes ≠ some (.store th, ⟨u, .wait⟩, rest)) :
    (EventLog.after e s (.go t) s' h).wokenBy u = h.wokenBy u := by
  cases hpc : s.pc t <;> simp only [EventLog.after, hpc, Pc.wakes]
  case wakeStore w th rest k =>
    split
    · rename_i hs
      refine Function.update_of_ne (fun he => hu th rest ?_) _ _
      obtain ⟨o, sl⟩ := w
      obtain rfl : sl = .wait := hs
      obtain rfl : u = o := he
      rw [hpc]
      rfl
    · rfl

theorem wokenBy_store {u : Nat} {th : Option Nat} {rest : Option Rec}
    (hw : (s.pc t).wakes = some (.store th, ⟨u, .wait⟩, rest)) :
    (EventLog.after e s (.go t) s' h).wokenBy u = h.wokenBy u ++ [(t, s.op t)] := by
  simp [EventLog.after, hw]

theorem advance_store {th : Option Nat} {w : Rec} {rest : Option Rec}
    (hw : (s.pc t).wakes = some (.store th, w, rest)) (hst : advance c s t = some s') :
    s'.waiter = Function.update s.waiter w { s.waiter w with signaled := true } := by
  unfold advance at hst
  cases hpc : s.pc t <;> rw [hpc] at hw <;> cases hw
  simp only [hpc, wakeStep] at hst
  cases hst
  rfl

/-- The record of a waiting caller is signaled by the store of the operation that took it off, and
by nothing else. -/
theorem advance_signaled (hi : Plain c s q ch) (hst : advance c s t = some s') {u : Nat} {o : Obj}
    {md : Mode} (hu : (s.pc u).wait = some (o, md)) :
    (∃ th rest, (s.pc t).wakes = some (.store th, ⟨u, o.slot⟩, rest) ∧
      (s.waiter ⟨u, o.slot⟩).signaled = false ∧
      (s.waiter ⟨u, o.slot⟩).place = .taken t (s.op t) ∧
      (s'.waiter ⟨u, o.slot⟩).signaled = true ∧
      (s'.waiter ⟨u, o.slot⟩).place = .taken t (s.op t)) ∨
    ((∀ th rest, (s.pc t).wakes ≠ some (.store th, ⟨u, o.slot⟩, rest)) ∧
      (s'.waiter ⟨u, o.slot⟩).signaled = (s.waiter ⟨u, o.slot⟩).signaled) := by
  by_cases hw : ∃ th rest, (s.pc t).wakes = some (.store th, ⟨u, o.slot⟩, rest)
  · obtain ⟨th, rest, hw⟩ := hw
    obtain ⟨hsig, _, _, hm⟩ := (hi.lists.wakes t).store_hands hw trivial
    refine .inl ⟨th, rest, hw, hsig, hm.place, ?_, ?_⟩
    all_goals rw [advance_store hw hst, Function.update_self]
    exact hm.place
  · have hne : ∀ th rest, (s.pc t).wakes ≠ some (.store th, ⟨u, o.slot⟩, rest) :=
      fun th rest h => hw ⟨th, rest, h⟩
    refine .inr ⟨hne, ?_⟩
    have hmv := hi.move hst
    generalize queueAfter c s t q = q' at hmv
    generalize chainsAfter c s t q ch = ch' at hmv
    cases hmv with
    | keep _ _ hwaiter _ => rw [hwaiter]
    | push o' tm hpc hwait hwakes hwait' hwaiter hblk =>
      rw [hwaiter, Function.update_of_ne]
      intro he
      obtain rfl := (Rec.mk.inj he).1
      rw [hwait] at hu; cases hu
    | take o' d l hpc hlock hq hwait hwakes hwaiter hblk => rw [hwaiter]; split <;> rfl
    | release _ _ _ _ _ _ _ hwaiter _ => rw [hwaiter]
    | leave _ _ _ _ _ _ hwaiter _ => rw [hwaiter]
    | store w th rest hwakes _ _ hwaiter _ =>
      rw [hwaiter, Function.update_of_ne]
      rintro rfl
      exact hne th rest hwakes
    | awaken _ _ _ _ _ _ hwaiter _ => rw [hwaiter]

/-- A record leaves the list of the eventual by a set that succeeds. -/
theorem EventMove.of_taken {q' : Obj → List Rec} (hm : EventMove c e s t s' q q') {w : Rec}
    (hw : w ∈ q (.eventual e)) (hw' : w ∉ q' (.eventual e)) :
    ∃ x, setBy e s (.go t) s' = some x := by
  cases hm with
  | keep hset hreset hready hvalue hq =>
    exfalso
    obtain hq | ⟨_, hq⟩ := hq
    · exact hw' (hq ▸ hw)
    · exact hw' (hq ▸ List.mem_append_left _ hw)
  | set n v hpc hset => exact ⟨_, hset⟩
  | reset hset hreset hready hq => exact absurd (hq ▸ hw) hw'

/-- A caller that waits on an eventual wakes nobody. -/
theorem wakes_of_wait {pc : Pc} {md : Mode} (hw : pc.wait = some (.eventual e, md)) :
    pc.wakes = none := by
  have hk : ∀ k : UnlockRet, k.wait ≠ some (.eventual e, md) := by
    intro k; cases k <;> simp [UnlockRet.wait]
  cases pc with
  | wakeNext w k | wakeThread w r k | wakeStore w th r k | wakeAwaken th w tm r k =>
    exact absurd hw (hk k)
  | _ => rfl

/-- A wait that was on its way stays so. -/
theorem EventInv.wait_go (hi : EventInv c e s h q ch) (hst : advance c s t = some s') {u : Nat}
    {md md' : Mode} (hu : (s.pc u).wait = some (.eventual e, md))
    (hu' : (s'.pc u).wait = some (.eventual e, md')) :
    EventWait s' (EventLog.after e s (.go t) s' h) u := by
  have hinv := hi.plain.lists
  have hplain := hi.plain.go hst
  have hmv := hi.plain.move hst
  obtain ⟨⟨k, hk, hle, htk⟩, hun, hsg⟩ := hi.waiting u md hu
  have htot := total_le (h := h) (e := e) s s' (.go t)
  have hentry : (EventLog.after e s (.go t) s' h).entry u = h.entry u := by
    refine entry_other fun tm hpc => ?_
    rintro rfl
    rw [hpc] at hu; cases hu
  have hplace : ∀ x n, (s.waiter ⟨u, .wait⟩).place = .taken x n →
      (s'.waiter ⟨u, .wait⟩).place = .taken x n := by
    intro x n hpl
    obtain ⟨_, hpl'⟩ | ⟨_, hw, _⟩ := hmv.taken hinv (advance_other hst) hu hpl
    · exact hpl'
    · rw [hw] at hu'; cases hu'
  refine ⟨⟨k, hentry.trans hk, Nat.le_trans hle htot, fun x n hpl' => ?_⟩, ?_, ?_⟩
  · obtain hl | ⟨_, y, m, hpl⟩ := ((hinv.waits u).record _ md hu trivial).place
    · -- taken off by this step
      have hm : (⟨u, .wait⟩ : Rec) ∈ q (.eventual e) := (hinv.listed _ _ trivial).mpr hl
      have hm' : (⟨u, .wait⟩ : Rec) ∉ queueAfter c s t q (.eventual e) := by
        intro hm'
        rw [(hplain.lists.listed (.eventual e) _ trivial).mp hm'] at hpl'
        cases hpl'
      obtain ⟨y, hy⟩ := (advance_event (e := e) (q := q) hst).of_taken hm hm'
      simp only [EventLog.after, hy, Option.isSome_some, if_true]
      omega
    · exact Nat.lt_of_lt_of_le (htk y m hpl) htot
  · intro hs
    obtain ⟨_, _, _, _, _, hs', _⟩ | ⟨hne, hs'⟩ := advance_signaled hi.plain hst hu
    · have hs' : (s'.waiter ⟨u, .wait⟩).signaled = true := hs'
      rw [hs] at hs'; cases hs'
    · rw [wokenBy_other hne]
      exact hun (hs'.symm.trans hs)
  · intro hs
    obtain ⟨th, rest, hw, hf, hpl, _, hpl'⟩ | ⟨hne, hs'⟩ := advance_signaled hi.plain hst hu
    · refine ⟨t, s.op t, hpl', ?_⟩
      rw [wokenBy_store hw, hun hf]; rfl
    · obtain ⟨x, n, hpl, hwk⟩ := hsg (hs'.symm.trans hs)
      exact ⟨x, n, hplace x n hpl, by rw [wokenBy_other hne]; exact hwk⟩

/-- A wait that has just put its record on the list. -/
theorem EventInv.wait_enter (hi : EventInv c e s h q ch) (hst : advance c s t = some s') {tm : Bool}
    (hpc : s.pc t = .eventualEnter e tm) (hr : s.ready e = false)
    (hl : (s'.waiter ⟨t, .wait⟩).place = .listed (.eventual e)) :
    EventWait s' (EventLog.after e s (.go t) s' h) t := by
  have hsets : h.sets = 0 := by rw [hi.sets, hr]; rfl
  have hsig := ((hi.plain.go hst).lists.onList _ _ trivial hl).1
  refine ⟨⟨h.total, ?_, total_le _ _ _, fun x n hpl => ?_⟩, fun _ => ?_, fun hs => ?_⟩
  · simp [EventLog.after, hpc, hsets]
  · rw [hl] at hpl; cases hpl
  · rw [wokenBy_other (by rw [hpc]; intro _ _ hw; cases hw)]
    exact hi.enter t tm hpc
  · rw [hsig] at hs; cases hs

theorem EventInv.returned_go (hi : EventInv c e s h q ch) (hst : advance c s t = some s') {u : Nat}
    {tm : Bool} (hidle : s'.pc u = .idle) (hcur : h.cur u = some (.eventualWait e tm)) :
    EventReturned (EventLog.after e s (.go t) s' h) u := by
  have htot := total_le (h := h) (e := e) s s' (.go t)
  by_cases hut : u = t
  · subst hut
    obtain hid | ⟨op, hc, hop⟩ := hi.cur u
    · simp [advance, hid] at hst
    rw [hcur] at hc
    obtain rfl := Option.some.inj hc
    obtain ⟨hpc, hr, _⟩ | ⟨_, _, md, hw⟩ | ⟨⟨md, hw⟩, _⟩ := advance_eventualWait hop hst
    · -- the eventual was ready
      have hsets : h.sets = 1 := by rw [hi.sets, hr]; rfl
      refine .inl ⟨h.total, by simp [EventLog.after, hpc, hsets], ?_⟩
      rw [wokenBy_other (by rw [hpc]; intro _ _ hw; cases hw)]
      exact hi.enter u tm hpc
    · rw [hidle] at hw; cases hw
    · -- the caller leaves its wait
      have hinv := hi.plain.lists
      have hmv := hi.plain.move hst
      obtain ⟨⟨k, hk, hle, htk⟩, hun, hsg⟩ := hi.waiting u md hw
      have hsig : (s.waiter ⟨u, .wait⟩).signaled = true := by
        obtain hl | ⟨_, x, n, hpl⟩ := ((hinv.waits u).record _ md hw trivial).place
        · obtain hl' | ⟨_, _, hw'⟩ := hmv.listed hinv (advance_other hst) hl
          · obtain ⟨_, md', hw'⟩ := (hi.plain.go hst).lists.onList _ _ trivial hl'
            rw [hidle] at hw'; cases hw'
          · rw [hw, hidle] at hw'; cases hw'
        · obtain ⟨hw', _⟩ | ⟨_, _, hsig, _⟩ := hmv.taken hinv (advance_other hst) hw hpl
          · rw [hidle] at hw'; cases hw'
          · exact hsig
      obtain ⟨x, n, hpl, hwk⟩ := hsg hsig
      refine .inr ⟨k, x, n, ?_, Nat.lt_of_lt_of_le (htk x n hpl) htot, ?_⟩
      · rw [entry_other]
        · exact hk
        · intro tm hpc; rw [hpc] at hw; cases hw
      · rw [wokenBy_other]
        · exact hwk
        · rw [wakes_of_wait hw]; intro _ _ hws; cases hws
  · rw [advance_other hst u hut] at hidle
    have hentry : (EventLog.after e s (.go t) s' h).entry u = h.entry u := entry_other fun _ _ => hut
    have hwoken : (EventLog.after e s (.go t) s' h).wokenBy u = h.wokenBy u := by
      refine wokenBy_other fun th rest hw => ?_
      obtain ⟨_, o, md, hm⟩ := (hi.plain.lists.wakes t).store_hands hw trivial
      have hwait : (s.pc u).wait = some (o, md) := hm.wait
      rw [hidle] at hwait; cases hwait
    unfold EventReturned
    rw [hentry, hwoken]
    refine (hi.returned u tm hidle hcur).imp id ?_
    rintro ⟨k, x, n, hk, hlt, hw⟩
    exact ⟨k, x, n, hk, Nat.lt_of_lt_of_le hlt htot, hw⟩

theorem EventInv.go (hi : EventInv c e s h q ch) (hst : advance c s t = some s') :
    EventInv c e s' (EventLog.after e s (.go t) s' h) (queueAfter c s t q)
      (chainsAfter c s t q ch) := by
  have hmv := hi.plain.move hst
  have hother := advance_other hst
  obtain ⟨hsets, hlast, hempty⟩ := hi.epoch (advance_event (e := e) (q := q) hst)
  refine ⟨hi.plain.go hst, fun u => ?_, hsets, hlast, hempty, fun u tm hu => ?_, fun u md hu => ?_,
    fun u tm hidle hcur => hi.returned_go hst hidle hcur⟩
  · by_cases hut : u = t
    · subst hut
      obtain hidle | ⟨op, hc, hop⟩ := hi.cur u
      · simp [advance, hidle] at hst
      · exact (advance_within hop hst).imp id fun hw => ⟨op, hc, hw⟩
    · rw [hother u hut]; exact hi.cur u
  · -- nobody gets to the beginning of a wait but by calling it
    have hut : u ≠ t := by
      rintro rfl
      obtain hidle | ⟨op, hc, hop⟩ := hi.cur u
      · simp [advance, hidle] at hst
      obtain hidle | hop' := advance_within hop hst
      · rw [hu] at hidle; cases hidle
      rw [hu] at hop'
      obtain rfl : op = .eventualWait e tm := hop'
      obtain ⟨_, _, hidle⟩ | ⟨_, _, md, hw⟩ | ⟨_, ⟨md, hw⟩ | hidle⟩ := advance_eventualWait hop hst
      all_goals first
        | (rw [hu] at hidle; cases hidle)
        | (rw [hu] at hw; cases hw)
    rw [hother u hut] at hu
    rw [wokenBy_other fun th rest hw => ?_]
    · exact hi.enter u tm hu
    · obtain ⟨_, o, md, hm⟩ := (hi.plain.lists.wakes t).store_hands hw trivial
      have hwait : (s.pc u).wait = some (o, md) := hm.wait
      rw [hu] at hwait; cases hwait
  · obtain ⟨md', hu'⟩ | hl := hmv.wait_from hother hu
    · exact hi.wait_go hst hu' hu
    · obtain hl' | ⟨he, hpush⟩ := hmv.listed_from hl
      · obtain ⟨_, md', hu'⟩ := hi.plain.lists.onList _ _ trivial hl'
        exact hi.wait_go hst hu' hu
      · obtain rfl : u = t := (Rec.mk.inj he).1
        cases hpc : s.pc u <;> rw [hpc] at hpush
        case eventualEnter e' tm =>
          obtain rfl := Obj.eventual.inj hpush
          obtain hidle | ⟨op, _, hop⟩ := hi.cur u
          · rw [hpc] at hidle; cases hidle
          rw [hpc] at hop
          obtain rfl : op = .eventualWait _ tm := hop
          obtain ⟨_, _, hidle⟩ | ⟨_, hr, _⟩ | ⟨⟨md, hw⟩, _⟩ :=
            advance_eventualWait (by rw [hpc]; exact rfl) hst
          · rw [hidle] at hu; cases hu
          · exact hi.wait_enter hst hpc hr hl
          · rw [hpc] at hw; cases hw
        case lock | condEnter => cases hpush
        all_goals exact absurd hpush id

/-- A step that touches no record and no eventual and moves no caller but an idle one. -/
theorem EventInv.frame (hi : EventInv c e s h q ch) (hplain : Plain c s' q ch)
    (hwaiter : s'.waiter = s.waiter) (hready : s'.ready = s.ready) (hvalue : s'.value = s.value)
    (ha : ∀ t, a ≠ .go t)
    (hpc : ∀ u, (s'.pc u = s.pc u ∧ (EventLog.after e s a s' h).cur u = h.cur u ∧
        (EventLog.after e s a s' h).entry u = h.entry u ∧
        (EventLog.after e s a s' h).wokenBy u = h.wokenBy u) ∨
      ∃ op, s'.pc u = op.start ∧ (EventLog.after e s a s' h).cur u = some op ∧
        (EventLog.after e s a s' h).wokenBy u = []) :
    EventInv c e s' (EventLog.after e s a s' h) q ch := by
  have hset : setBy e s a s' = none ∧ ¬ resetBy e s a ∧
      (EventLog.after e s a s' h).total = h.total ∧ (EventLog.after e s a s' h).sets = h.sets ∧
      (EventLog.after e s a s' h).last = h.last := by
    cases a with
    | go t => exact absurd rfl (ha t)
    | _ => exact ⟨rfl, id, rfl, rfl, rfl⟩
  obtain ⟨_, _, htotal, hsets, hlast⟩ := hset
  have hstart : ∀ op : Op, op.start.wait = none ∧ op.start ≠ .idle := by
    intro op; cases op <;> exact ⟨rfl, by simp [Op.start]⟩
  refine ⟨hplain, fun u => ?_, by rw [hsets, hready]; exact hi.sets, ?_, ?_, fun u tm hu => ?_,
    fun u md hu => ?_, fun u tm hidle hcur => ?_⟩
  · obtain ⟨hp, hc, _⟩ | ⟨op, hp, hc, _⟩ := hpc u
    · rw [hp, hc]; exact hi.cur u
    · rw [hp, hc]; exact .inr ⟨op, rfl, start_within op⟩
  · rw [hready, hvalue, hlast]; exact hi.last
  · rw [hready]; exact hi.empty
  · obtain ⟨hp, _, _, hw⟩ | ⟨op, _, _, hw⟩ := hpc u
    · rw [hw]; exact hi.enter u tm (hp ▸ hu)
    · exact hw
  · obtain ⟨hp, _, hen, hw⟩ | ⟨op, hp, _⟩ := hpc u
    · obtain ⟨hentry, hun, hsg⟩ := hi.waiting u md (hp ▸ hu)
      refine ⟨?_, ?_, ?_⟩
      · rw [hen, htotal, hwaiter]; exact hentry
      · rw [hw, hwaiter]; exact hun
      · rw [hw, hwaiter]; exact hsg
    · rw [hp, (hstart op).1] at hu; cases hu
  · obtain ⟨hp, hc, hen, hw⟩ | ⟨op, hp, _⟩ := hpc u
    · have hret := hi.returned u tm (hp ▸ hidle) (hc ▸ hcur)
      unfold EventReturned at hret ⊢
      rw [hen, hw, htotal]; exact hret
    · exact absurd (hp ▸ hidle) (hstart op).2

theorem EventInv.step (hi : EventInv c e s h q ch) (hg : Untimed s a)
    (hst : step c s a = some s') :
    EventInv c e s' (EventLog.after e s a s' h) (listsAfter c s q a) (wakersAfter c s q ch a) := by
  have hplain := hi.plain.step hg hst
  obtain ⟨t, op, rfl, hidle, rfl⟩ | ⟨t, rfl, hst⟩ | ⟨o, t, rfl, hl, rfl⟩ := step_untimed hg hst
  · refine hi.frame hplain rfl rfl rfl (fun _ => by simp) fun u => ?_
    by_cases hut : u = t
    · subst hut
      exact .inr ⟨op, by simp [Exit.to], Function.update_self _ _ _, Function.update_self _ _ _⟩
    · exact .inl ⟨by simp [hut], Function.update_of_ne hut _ _, Function.update_of_ne hut _ _,
        Function.update_of_ne hut _ _⟩
  · exact hi.go hst
  · exact hi.frame hplain rfl rfl rfl (fun _ => by simp) fun u => .inl ⟨rfl, rfl, rfl, rfl⟩

theorem reach_eventInv {x : State × EventLog}
    (hr : Reach (eventLogged c e) (fun x a => Untimed x.1 a) x) :
    ∃ q ch, EventInv c e x.1 x.2 q ch := by
  refine hr.historyInvariant (I := fun s h => ∃ q ch, EventInv c e s h q ch) ?_ ?_
  · rintro s rfl; exact ⟨_, _, .initial⟩
  · rintro s h a s' _ ⟨q, ch, hi⟩ hg hst; exact ⟨_, _, hi.step hg hst⟩

/-! ## Results -/

/-- Neither the eventuals nor the lists and records of waiters change. -/
def EventSame (s s' : State) : Prop :=
  s'.value = s.value ∧ s'.ready = s.ready ∧ s'.wl = s.wl ∧ s'.next = s.next ∧ s'.waiter = s.waiter

/-- The section of a set: an error that changes nothing, or all listed records are taken and the list
is empty. -/
def SetEffect (c : Config) (e n : Nat) (s : State) (t : Nat) (s' : State) : Prop :=
  if s.ready e = true then
    s'.pc t = .idle ∧ s'.ret t = some (.eventual, none) ∧ EventSame s s'
  else if c.nbytes e < n then
    s'.pc t = .idle ∧ s'.ret t = some (.invEventual, none) ∧ EventSame s s'
  else
    s'.ready e = true ∧ (s'.wl (.eventual e)).head = none ∧
    ∀ w, ((s.waiter w).place = .listed (.eventual e) →
        (s'.waiter w).place = .taken t (s.op t)) ∧
      ((s.waiter w).place ≠ .listed (.eventual e) → s'.waiter w = s.waiter w)

/-- The section of a test: what it reports is whether a set has succeeded in the epoch, and the
buffer then begins with the bytes of that set. -/
def TestEffect (c : Config) (e : Nat) (h : EventLog) (t : Nat) (s' : State) : Prop :=
  (s'.isReady t = true ↔ h.sets = 1) ∧
  (s'.isReady t = true → s'.ret t = some (.success, if 0 < c.nbytes e then some e else none) ∧
    ∃ n v, h.last = some (n, v) ∧ n ≤ c.nbytes e ∧ ∀ b, v = some b → b.take n <+: s'.value e)

theorem set_effect {n : Nat} {v : Option (List UInt8)} (hpc : s.pc t = .eventualSet e n v)
    (hst : advance c s t = some s') : SetEffect c e n s t s' := by
  simp only [advance, hpc, eventualStep] at hst
  unfold SetEffect
  split at hst
  case isFalse => cases hst
  split at hst <;> rename_i hr
  · cases hst
    rw [if_pos hr]
    exact ⟨by simp [Exit.user], by simp [State.leave, Exit.user], rfl, rfl, rfl, rfl, rfl⟩
  · rw [if_neg hr]
    split at hst <;> rename_i hn <;> cases hst
    · rw [if_pos hn]
      exact ⟨by simp [Exit.user], by simp [State.leave, Exit.user], rfl, rfl, rfl, rfl, rfl⟩
    · rw [if_neg hn]
      refine ⟨Function.update_self _ _ _, ?_, fun w => ⟨fun hl => ?_, fun hl => ?_⟩⟩
      · simp [State.detach, State.leave]
      · simp [State.detach, State.leave, hl]
      · simp [State.detach, State.leave, hl]

theorem EventInv.test_effect (hi : EventInv c e s h q ch) (hpc : s.pc t = .eventualTest e)
    (hst : advance c s t = some s') : TestEffect c e h t s' := by
  simp only [advance, hpc, eventualStep] at hst
  split at hst <;> cases hst
  have hisReady : (({ s with isReady := Function.update s.isReady t (s.ready e) } : State).leave t
      (.user .success (if s.ready e ∧ 0 < c.nbytes e then some e else none))).isReady t = s.ready e :=
    Function.update_self _ _ _
  unfold TestEffect
  rw [hisReady]
  refine ⟨?_, fun hr => ⟨?_, hi.last hr⟩⟩
  · rw [hi.sets]
    cases s.ready e <;> simp
  · simp [State.leave, Exit.user, hr]

/-- The operation that took a record off is still at work as long as its owner is not woken. -/
theorem Plain.taker (hp : Plain c s q ch) {o : Obj} {md : Mode} {x n : Nat}
    (hu : (s.pc t).wait = some (o, md)) (hpl : (s.waiter ⟨t, o.slot⟩).place = .taken x n) :
    Woken s ⟨t, o.slot⟩ ∨ (ToWake s x ⟨t, o.slot⟩ ∧ s.op x = n) := by
  by_cases hwk : Woken s ⟨t, o.slot⟩
  · exact .inl hwk
  refine .inr ⟨(hp.toWake hu hpl).resolve_left hwk, ?_⟩
  cases hsig : (s.waiter ⟨t, o.slot⟩).signaled with
  | false => exact ((hp.pending t).unsignaled o md x n hu hpl hsig).2.symm
  | true =>
    have hb : s.blk t = true := by
      cases hb : s.blk t with
      | true => rfl
      | false => exact absurd ⟨hsig, hb⟩ hwk
    obtain ⟨o', ho'⟩ := (hp.lists.waits t).blocked hb
    rw [hu] at ho'
    obtain ⟨rfl, rfl⟩ := Prod.mk.inj (Option.some.inj ho')
    obtain ⟨rest, hx⟩ := (hp.pending t).readied _ x n hu hpl hsig hb
    obtain ⟨_, _, _, _, hm⟩ := (hp.lists.wakes x).awaken _ _ rest hx trivial
    exact (Place.taken.inj (hpl.symm.trans hm.place)).2.symm

/-- A wait whose record was taken goes on to its end. -/
theorem EventInv.taken_step (hi : EventInv c e s h q ch) {md : Mode} {x n : Nat}
    (hu : (s.pc t).wait = some (.eventual e, md))
    (hpl : (s.waiter ⟨t, .wait⟩).place = .taken x n) (hg : Untimed s a)
    (hst : Sync.step c s a = some s') :
    ((s'.pc t).wait = some (.eventual e, md) ∧ (s'.waiter ⟨t, .wait⟩).place = .taken x n) ∨
    s'.pc t = .idle := by
  obtain ⟨u, op, rfl, hidle, rfl⟩ | ⟨u, rfl, hst⟩ | ⟨o, u, rfl, hl, rfl⟩ := step_untimed hg hst
  · have hut : t ≠ u := by rintro rfl; rw [hidle] at hu; cases hu
    exact .inl ⟨by rw [leave_pc, Function.update_of_ne hut]; exact hu, hpl⟩
  · obtain h' | ⟨rfl, hw, _⟩ := (hi.plain.move hst).taken hi.plain.lists (advance_other hst) hu hpl
    · exact .inl h'
    · -- its own step out of the wait
      refine .inr ?_
      obtain hidle | ⟨op, hop⟩ := hi.plain.calls t
      · rw [hidle] at hu; cases hu
      obtain ⟨tm, rfl⟩ := eventualWait_of_wait hop hu
      obtain ⟨hpc, _⟩ | ⟨hpc, _⟩ | ⟨_, ⟨md', hw'⟩ | hidle⟩ := advance_eventualWait hop hst
      · rw [hpc] at hu; cases hu
      · rw [hpc] at hu; cases hu
      · rw [hw] at hw'; cases hw'
      · exact hidle
  · exact .inl ⟨hu, hpl⟩

/-- What holds of an eventual and its waiters in every state of an untimed run. -/
structure Epochs (c : Config) (e : Nat) (s : State) (h : EventLog) : Prop where
  one : h.sets ≤ 1
  ready : s.ready e = true ↔ h.sets = 1
  empty : s.ready e = true →
    (s.wl (.eventual e)).head = none ∧ ∀ w, (s.waiter w).place ≠ .listed (.eventual e)
  set : ∀ t n v s', s.pc t = .eventualSet e n v → step c s (.go t) = some s' →
    SetEffect c e n s t s'
  taken : ∀ t md x n, (s.pc t).wait = some (.eventual e, md) →
    (s.waiter ⟨t, .wait⟩).place = .taken x n →
    (Woken s ⟨t, .wait⟩ ∨ (ToWake s x ⟨t, .wait⟩ ∧ s.op x = n)) ∧
    ∀ a s', Untimed s a → step c s a = some s' →
      ((s'.pc t).wait = some (.eventual e, md) ∧ (s'.waiter ⟨t, .wait⟩).place = .taken x n) ∨
      s'.pc t = .idle
  waiting : ∀ t md, (s.pc t).wait = some (.eventual e, md) → EventWait s h t
  returned : ∀ t, s.pc t = .idle → h.cur t = some (.eventualWait e false) → EventReturned h t
  test : ∀ t s', s.pc t = .eventualTest e → step c s (.go t) = some s' → TestEffect c e h t s'

/-- Epochs of an eventual of any size, for any interleaving of untimed calls. -/
theorem eventual_epochs {x : State × EventLog}
    (hr : Reach (eventLogged c e) (fun x a => Untimed x.1 a) x) : Epochs c e x.1 x.2 := by
  obtain ⟨q, ch, hi⟩ := reach_eventInv hr
  have hsets := hi.sets
  refine ⟨?_, ?_, fun hr => ⟨?_, fun w hw => ?_⟩, fun t n v s' hpc hst => set_effect hpc hst,
    fun t md y n hu hpl => ⟨hi.plain.taker hu hpl, fun a s' hg hst => hi.taken_step hu hpl hg hst⟩,
    hi.waiting, fun t hidle hcur => hi.returned t false hidle hcur,
    fun t s' hpc hst => hi.test_effect hpc hst⟩
  · rw [hsets]; split <;> omega
  · rw [hsets]; cases x.1.ready e <;> simp
  · have hp := (hi.plain.lists.rep (.eventual e) trivial).path.head_eq
    rw [hi.empty hr] at hp
    exact hp
  · have hm := (hi.plain.lists.listed (.eventual e) w trivial).mpr hw
    rw [hi.empty hr] at hm
    cases hm

end

/-- Eventuals of four bytes, all callers ULTs. -/
def fourBytes : Config := ⟨fun _ => true, fun _ => false, fun _ => 4⟩

/-- Caller 1 sets the eventual that caller 0 waits on, caller 2 resets it before the waiter is woken,
and the waiter returns. -/
def setThenReset : List Act :=
  [.call 0 (.eventualWait 0 false), .go 0, .go 0, .callback (.eventual 0),
    .call 1 (.eventualSet 0 2 (some [5, 6])), .go 1, .call 2 (.eventualReset 0), .go 2,
    .go 1, .go 1, .go 1, .go 1, .go 0]

theorem eventual_epochs_reset : ∃ x, Reach (eventLogged fourBytes 0) (fun x a => Untimed x.1 a) x ∧
    (x.1.pc 0 = .idle ∧ x.2.cur 0 = some (.eventualWait 0 false) ∧ x.2.total = 1 ∧
      x.1.ready 0 = false ∧ x.1.value 0 = [5, 6, 0, 0]) ∧
    EventReturned x.2 0 ∧ x.2.sets ≠ 1 := by
  obtain ⟨x, hr, hx⟩ := (Reach.start ⟨rfl, rfl⟩ : Reach (eventLogged fourBytes 0)
    (fun x a => Untimed x.1 a) (initial fourBytes, .empty)).exists_run
    (fun x => x.1.pc 0 = .idle ∧ x.2.cur 0 = some (.eventualWait 0 false) ∧ x.2.total = 1 ∧
      x.1.ready 0 = false ∧ x.1.value 0 = [5, 6, 0, 0]) setThenReset (by decide)
  have h := eventual_epochs hr
  refine ⟨x, hr, hx, h.returned 0 hx.1 hx.2.1, fun hs => ?_⟩
  have := h.ready.mpr hs
  rw [hx.2.2.2.1] at this
  cases this

end Sync
end AbtReconverse
