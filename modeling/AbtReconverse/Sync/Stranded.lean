import AbtReconverse.Sync.Untimed

/-!
# AbtReconverse.Sync.Stranded

A mutex strands no waiter. An unlock wakes one waiter and does not hand the mutex over: a newcomer
may take it first, and the woken caller then waits again at the end of the list. What is never lost
is the turn: while the list is not empty, the mutex is locked or some caller that was taken off the
list has not tried again.

`retries` is the system with the history of those callers, and `not_stranded` says in addition that
each of them is on its way: at the lock, out of its wait, or with a waker at work on its record.
-/

namespace AbtReconverse
namespace Sync

open Lts

/-- The caller is at the section of `mutex_lock` of `m`. -/
def Pc.locks (m : Nat) : Pc → Prop
  | .lock m' _ => m' = m
  | _ => False

instance (m : Nat) (pc : Pc) : Decidable (pc.locks m) := by
  cases pc <;> (unfold Pc.locks; infer_instance)

/-- History of mutex `m`: the callers whose record was taken off its list and that have not been at
the section of `mutex_lock` since. -/
def retryAfter (m : Nat) (s : State) (a : Act) (s' : State) (h : Nat → Bool) (t : Nat) : Bool :=
  if (s.waiter ⟨t, .lock⟩).place = .listed (.mutex m) ∧
      (s'.waiter ⟨t, .lock⟩).place ≠ .listed (.mutex m) then true
  else if a = .go t ∧ (s.pc t).locks m then false
  else h t

/-- The system with the history of mutex `m`. -/
def retries (c : Config) (m : Nat) : System (State × (Nat → Bool)) Act :=
  (system c).withHistory (fun _ => false) (retryAfter m)

/-- The record `w` is signaled and its owner is not blocked. -/
def Woken (s : State) (w : Rec) : Prop := (s.waiter w).signaled = true ∧ s.blk w.owner = false

/-- Caller `x` is at work on a chain with the record `w`, or about to ready its owner. -/
def ToWake (s : State) (x : Nat) (w : Rec) : Prop :=
  (∃ st v rest l, (s.pc x).wakes = some (st, v, rest) ∧ ChainOk s.next st v rest l ∧ w ∈ l) ∨
  ∃ rest, (s.pc x).wakes = some (.awaken w.owner false, w, rest)

/-- The caller is inside `mutex_lock` of `m` and off the list: at the section, woken, or with a
waker at work. -/
def OnItsWay (s : State) (m t : Nat) : Prop :=
  (s.pc t).locks m ∨
  ∃ md x n, (s.pc t).wait = some (.mutex m, md) ∧ (s.waiter ⟨t, .lock⟩).place = .taken x n ∧
    (Woken s ⟨t, .lock⟩ ∨ ToWake s x ⟨t, .lock⟩)

section

variable {c : Config} {s s' : State} {q : Obj → List Rec} {ch : Nat → List Rec} {t m : Nat} {a : Act}

/-- What a step of a caller does to a mutex and its list: it leaves the mutex locked, it leaves both
as they are, or it is an unlock. -/
theorem mutex_queue (hst : advance c s t = some s') :
    (s'.mutex m).locked = true ∨
    ((s'.mutex m).locked = (s.mutex m).locked ∧
      queueAfter c s t q (.mutex m) = q (.mutex m) ∧ ¬ (s.pc t).locks m) ∨
    queueAfter c s t q (.mutex m) = (q (.mutex m)).tail := by
  cases advance_cases hst with
  | @lockFree m' k hpc _ hl | @lockAgain m' k hpc _ hl hr | @lockWait m' k hpc _ hl hr =>
    by_cases hm : m' = m
    · -- whoever passes the section leaves the mutex locked, or found it so
      subst hm
      exact .inl (by simp_all [State.setMutex, State.push])
    · refine .inr (.inl ⟨by simp [State.setMutex, State.push, Ne.symm hm], ?_, by rw [hpc]; exact hm⟩)
      simp only [queueAfter, hpc, enqueue]
      repeat' split
      all_goals simp [Ne.symm hm]
  | @spinFree m' hpc _ hl | @spinAgain m' hpc _ hl hr | @spinWait m' hpc _ hl hr
  | @tryFree m' hpc _ hl | @tryAgain m' hpc _ hl hr | @tryFail m' hpc _ hl hr =>
    by_cases hm : m' = m
    · subst hm
      exact .inl (by simp_all [State.setMutex])
    · exact .inr (.inl ⟨by simp [State.setMutex, Ne.symm hm], by simp only [queueAfter, hpc],
        by rw [hpc]; exact id⟩)
  | @unlockNested m' k hpc _ hn =>
    refine .inr (.inl ⟨?_, by simp only [queueAfter, hpc, if_pos hn], by rw [hpc]; exact id⟩)
    by_cases hm : m' = m
    · subst hm; simp [State.setMutex]
    · simp [State.setMutex, Ne.symm hm]
  | @unlockLast m' k hpc _ hn =>
    by_cases hm : m' = m
    · subst hm
      exact .inr (.inr (by simp only [queueAfter, hpc, if_neg hn, Function.update_self]))
    · exact .inr (.inl ⟨by simp [State.setMutex, Ne.symm hm],
        by simp [queueAfter, hpc, hn, Ne.symm hm], by rw [hpc]; exact id⟩)
  | signal hpc =>
    exact .inr (.inl ⟨by rw [pop_mutex], by simp [queueAfter, hpc], by rw [hpc]; exact id⟩)
  | condEnter hpc _ hr | condRefuse hpc _ hr | eventualPass hpc _ hr | eventualEnter hpc _ hr
  | eventualAgain hpc _ hr =>
    exact .inr (.inl ⟨rfl, by simp [queueAfter, hpc, hr, enqueue], by rw [hpc]; exact id⟩)
  | eventualLong hpc _ hr hn | eventualSet hpc _ hr hn =>
    exact .inr (.inl ⟨rfl, by simp [queueAfter, hpc, hr, hn], by rw [hpc]; exact id⟩)
  | broadcast hpc | eventualTest hpc | eventualReset hpc | holdTimed hpc | holdBlock hpc
  | holdSpin hpc | blocked hpc | spin hpc | timed hpc | wakeNext hpc | wakeThread hpc
  | wakeStore hpc | wakeAwaken hpc =>
    exact .inr (.inl ⟨rfl, by simp [queueAfter, hpc], by rw [hpc]; exact id⟩)

/-- A caller that waited on a mutex goes back to the section. -/
theorem leave_locks {op : Op} {md : Mode} (hwithin : (s.pc t).within op)
    (hwait : (s.pc t).wait = some (.mutex m, md)) (hst : advance c s t = some s')
    (hwait' : (s'.pc t).wait = none) : (s'.pc t).locks m := by
  have hk : ∀ k : UnlockRet, k.wait ≠ some (.mutex m, md) := by
    intro k; cases k <;> simp [UnlockRet.wait]
  have hexit : ∀ k b, WaitRet.within op (.mutex m) k → (k.exit c b).pc.locks m := by
    rintro (⟨m', k⟩ | m' | e) b hw
    · obtain ⟨rfl, _⟩ := Obj.mutex.inj hw.1; exact rfl
    · obtain ⟨_, _, h, _⟩ := hw; cases h
    · cases hw.1
  unfold advance at hst
  cases hpc : s.pc t <;> rw [hpc] at hwithin hwait <;> simp only [hpc] at hst
  case blocked o k | spin o k | timed o k =>
    obtain ⟨rfl, _⟩ := Prod.mk.inj (Option.some.inj hwait)
    simp only [waitStep] at hst
    split at hst <;> cases hst
    rw [leave_self]
    exact hexit k true hwithin
  case hold o k tm =>
    simp only [waitStep] at hst
    repeat' split at hst
    all_goals cases hst
    all_goals rw [leave_self] at hwait'; cases hwait'
  all_goals exact absurd hwait (by first | exact hk _ | simp [Pc.wait])

/-- The callers of the history are inside `mutex_lock` and off the list, and the turn is with the
mutex or with one of them. -/
structure Turn (c : Config) (m : Nat) (s : State) (h : Nat → Bool) (q : Obj → List Rec)
    (ch : Nat → List Rec) : Prop where
  plain : Plain c s q ch
  retry : ∀ t, h t = true → (s.pc t).locks m ∨ ∃ md x n, (s.pc t).wait = some (.mutex m, md) ∧
    (s.waiter ⟨t, .lock⟩).place = .taken x n
  turn : q (.mutex m) ≠ [] → (s.mutex m).locked = true ∨ ∃ t, h t = true

theorem retryAfter_of_other {h : Nat → Bool} {u : Nat} (hu : h u = true)
    (hn : ¬ (a = .go u ∧ (s.pc u).locks m)) : retryAfter m s a s' h u = true := by
  unfold retryAfter
  rw [if_neg hn]
  split
  · rfl
  · exact hu

theorem retryAfter_cases {h : Nat → Bool} {u : Nat} (hu : retryAfter m s a s' h u = true) :
    ((s.waiter ⟨u, .lock⟩).place = .listed (.mutex m) ∧
      (s'.waiter ⟨u, .lock⟩).place ≠ .listed (.mutex m)) ∨
    (h u = true ∧ ¬ (a = .go u ∧ (s.pc u).locks m)) := by
  unfold retryAfter at hu
  split at hu
  · rename_i hl; exact .inl hl
  · split at hu
    · cases hu
    · rename_i hn; exact .inr ⟨hu, hn⟩

/-- A step that changes neither the records nor the mutexes, and moves no caller but an idle one. -/
theorem Turn.frame {h : Nat → Bool} (hi : Turn c m s h q ch) (hp : Plain c s' q ch)
    (hwaiter : s'.waiter = s.waiter) (hmutex : s'.mutex = s.mutex) (ha : ∀ t, a ≠ .go t)
    (hpc : ∀ u, s.pc u ≠ .idle → s'.pc u = s.pc u) : Turn c m s' (retryAfter m s a s' h) q ch := by
  refine ⟨hp, fun t ht => ?_, fun hq => ?_⟩
  · obtain ⟨hl, hl'⟩ | ⟨ht, _⟩ := retryAfter_cases ht
    · rw [hwaiter] at hl'; exact absurd hl hl'
    · have hret := hi.retry t ht
      have hne : s.pc t ≠ .idle := by
        intro he
        rw [he] at hret
        obtain hlk | ⟨_, _, _, hw, _⟩ := hret
        · exact hlk
        · cases hw
      rw [hpc t hne, hwaiter]; exact hret
  · rw [hmutex]
    exact (hi.turn hq).imp id fun ⟨t, ht⟩ => ⟨t, retryAfter_of_other ht fun hn => ha t hn.1⟩

theorem Turn.go {h : Nat → Bool} (hi : Turn c m s h q ch) (hst : advance c s t = some s') :
    Turn c m s' (retryAfter m s (.go t) s' h) (queueAfter c s t q) (chainsAfter c s t q ch) := by
  have hmv := hi.plain.move hst
  have hother := advance_other hst
  refine ⟨hi.plain.go hst, fun u hu => ?_, fun hq => ?_⟩
  · obtain ⟨hl, hl'⟩ | ⟨hu, hn⟩ := retryAfter_cases hu
    · -- taken off by this step
      obtain ⟨_, md, hmd⟩ := hi.plain.lists.onList _ _ trivial hl
      obtain hl'' | ⟨hpl, _, hwait⟩ := hmv.listed hi.plain.lists hother hl
      · exact absurd hl'' hl'
      · exact .inr ⟨md, _, _, hwait.trans hmd, hpl⟩
    · obtain hlk | ⟨md, x, n, hw, hpl⟩ := hi.retry u hu
      · have hut : u ≠ t := by rintro rfl; exact hn ⟨rfl, hlk⟩
        rw [hother u hut]; exact .inl hlk
      · obtain ⟨hw', hpl'⟩ | ⟨rfl, hw', _, _⟩ := hmv.taken hi.plain.lists hother hw hpl
        · exact .inr ⟨md, x, n, hw', hpl'⟩
        · obtain hidle | ⟨op, hop⟩ := hi.plain.calls u
          · rw [hidle] at hw; cases hw
          · exact .inl (leave_locks hop hw hst hw')
  · obtain hl | ⟨hl, hq', hnl⟩ | hq' := mutex_queue (m := m) (q := q) hst
    · exact .inl hl
    · rw [hq'] at hq
      rw [hl]
      exact (hi.turn hq).imp id fun ⟨u, hu⟩ =>
        ⟨u, retryAfter_of_other hu fun hn => hnl (Act.go.inj hn.1 ▸ hn.2)⟩
    · -- the unlock takes the first record off the list
      refine .inr ?_
      rw [hq'] at hq
      cases hql : q (.mutex m) with
      | nil => rw [hql] at hq; exact absurd rfl hq
      | cons w l =>
        have hinv := hi.plain.lists
        have hl : (s.waiter w).place = .listed (.mutex m) :=
          (hinv.listed _ w trivial).mp (by simp [hql])
        have hnd := (hinv.rep (.mutex m) trivial).path.nodup
        have hl' : (s'.waiter w).place ≠ .listed (.mutex m) := by
          intro hl'
          have hm := ((hi.plain.go hst).lists.listed _ w trivial).mpr hl'
          rw [hq', hql] at hm
          rw [hql] at hnd
          exact (List.nodup_cons.mp hnd).1 hm
        have hw : (⟨w.owner, .lock⟩ : Rec) = w := by
          have hslot : w.slot = .lock := hinv.typedPlace _ w hl
          rw [← hslot]
        refine ⟨w.owner, ?_⟩
        unfold retryAfter
        rw [hw, if_pos ⟨hl, hl'⟩]

theorem Turn.step {h : Nat → Bool} (hi : Turn c m s h q ch) (hg : Untimed s a)
    (hst : step c s a = some s') :
    Turn c m s' (retryAfter m s a s' h) (listsAfter c s q a) (wakersAfter c s q ch a) := by
  have hp := hi.plain.step hg hst
  obtain ⟨t, op, rfl, hidle, rfl⟩ | ⟨t, rfl, hst⟩ | ⟨o, t, rfl, hl, rfl⟩ := step_untimed hg hst
  · refine hi.frame hp rfl rfl (fun _ => by simp) fun u hu => ?_
    rw [leave_pc, Function.update_of_ne]
    rintro rfl; exact hu hidle
  · exact hi.go hst
  · exact hi.frame hp rfl rfl (fun _ => by simp) fun u _ => rfl

theorem reach_turn {x : State × (Nat → Bool)}
    (hr : Reach (retries c m) (fun x a => Untimed x.1 a) x) :
    ∃ q ch, Turn c m x.1 x.2 q ch := by
  refine hr.historyInvariant (I := fun s h => ∃ q ch, Turn c m s h q ch) ?_ ?_
  · rintro s rfl
    exact ⟨_, _, .initial, fun t ht => (by cases ht), fun hq => absurd rfl hq⟩
  · rintro s h a s' _ ⟨q, ch, hi⟩ hg hst
    exact ⟨_, _, hi.step hg hst⟩

/-- Where a record is that was taken off while its owner waits. -/
theorem Plain.toWake (h : Plain c s q ch) {o : Obj} {md : Mode} {x n : Nat}
    (hu : (s.pc t).wait = some (o, md)) (hpl : (s.waiter ⟨t, o.slot⟩).place = .taken x n) :
    Woken s ⟨t, o.slot⟩ ∨ ToWake s x ⟨t, o.slot⟩ := by
  cases hsig : (s.waiter ⟨t, o.slot⟩).signaled with
  | false =>
    obtain ⟨hm, _⟩ := (h.pending t).unsignaled o md x n hu hpl hsig
    refine .inr (.inl ?_)
    by_cases hw : ∃ v, (s.pc x).wakes = some v
    · obtain ⟨⟨st, v, rest⟩, hv⟩ := hw
      exact ⟨st, v, rest, ch x, hv, (h.lists.wakes x).chain st v rest hv trivial, hm⟩
    · have hnil := (h.lists.wakes x).noChain fun st v rest hv => absurd ⟨_, hv⟩ hw
      rw [hnil] at hm; cases hm
  | true =>
    cases hb : s.blk t with
    | false => exact .inl ⟨hsig, hb⟩
    | true =>
      obtain ⟨o', ho'⟩ := (h.lists.waits t).blocked hb
      rw [hu] at ho'
      obtain ⟨rfl, rfl⟩ := Prod.mk.inj (Option.some.inj ho')
      exact .inr (.inr ((h.pending t).readied _ x n hu hpl hsig hb))

/-- No stranded waiter: in every untimed run, if the list of a mutex is not empty, the mutex is
locked or some caller that was taken off the list has not tried again and is on its way. -/
theorem not_stranded {x : State × (Nat → Bool)}
    (hr : Reach (retries c m) (fun x a => Untimed x.1 a) x)
    (hwl : (x.1.wl (.mutex m)).head ≠ none) :
    (x.1.mutex m).locked = true ∨ ∃ t, x.2 t = true ∧ OnItsWay x.1 m t := by
  obtain ⟨q, ch, hi⟩ := reach_turn hr
  have hq : q (.mutex m) ≠ [] := by
    intro hq
    have hp := (hi.plain.lists.rep (.mutex m) trivial).path.head_eq
    rw [hq] at hp
    exact hwl hp
  refine (hi.turn hq).imp id ?_
  rintro ⟨t, ht⟩
  refine ⟨t, ht, (hi.retry t ht).imp id ?_⟩
  rintro ⟨md, y, n, hw, hpl⟩
  exact ⟨md, y, n, hw, hpl, hi.plain.toWake hw hpl⟩

end

/-- Callers 1 and 2 wait for the mutex; caller 0 unlocks it and has taken the record of caller 1. -/
def handover : List Act :=
  [.call 0 (.lock 0), .go 0, .call 1 (.lock 0), .go 1, .go 1, .callback (.mutex 0),
    .call 2 (.lock 0), .go 2, .go 2, .callback (.mutex 0), .call 0 (.unlock 0), .go 0]

theorem not_stranded_handover : ∃ x, Reach (retries demo 0) (fun x a => Untimed x.1 a) x ∧
    ((x.1.wl (.mutex 0)).head = some ⟨2, .lock⟩ ∧ (x.1.mutex 0).locked = false ∧
      x.2 1 = true) ∧
    ((x.1.mutex 0).locked = true ∨ ∃ t, x.2 t = true ∧ OnItsWay x.1 0 t) := by
  obtain ⟨x, hr, hx⟩ := (Reach.start ⟨rfl, rfl⟩ : Reach (retries demo 0) (fun x a => Untimed x.1 a)
    (initial demo, fun _ => false)).exists_run (fun x => (x.1.wl (.mutex 0)).head = some ⟨2, .lock⟩ ∧
      (x.1.mutex 0).locked = false ∧ x.2 1 = true) handover (by decide)
  exact ⟨x, hr, hx, not_stranded hr (by rw [hx.1]; simp)⟩

end Sync
end AbtReconverse
