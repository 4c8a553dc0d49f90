import AbtReconverse.Sync.Rules

/-!
# AbtReconverse.Sync.Mutex

Exclusion and nesting of a mutex. `Tally` counts what the calls returned: an acquisition is a
locking call, or the relocking at the end of a condition wait, that comes back with the mutex; a
release is the section of an unlock. A caller holds the mutex while it has acquired it more often
than it has released it.

The four fields of the mutex are then determined by the tally: `Owned` says so and is kept by every
step of a run in which a mutex is unlocked by callers that hold it (`HolderUnlocks`). The wait
lists play no part in it: a woken caller competes for the mutex like a new one.
-/

namespace AbtReconverse
namespace Sync

open Lts

/-- History: how often each caller acquired and released each mutex. -/
structure Tally where
  acquired : Nat → Nat → Nat
  released : Nat → Nat → Nat

namespace Tally

def zero : Tally := ⟨fun _ _ => 0, fun _ _ => 0⟩

def acquire (h : Tally) (t m : Nat) : Tally := { h with acquired := bump h.acquired t m }

def release (h : Tally) (t m : Nat) : Tally := { h with released := bump h.released t m }

/-- A locking call that returns with the mutex has acquired it; the section of an unlock releases
it. -/
def after (s : State) (a : Act) (s' : State) (h : Tally) : Tally :=
  match a with
  | .go t =>
    match s.pc t with
    | .lock m _ | .spinlock m => if s'.pc t = .idle then h.acquire t m else h
    | .trylock m => if s'.ret t = some (.success, none) then h.acquire t m else h
    | .unlock m _ => h.release t m
    | _ => h
  | _ => h

/-- `t` has acquired `m` and not yet released it as often. -/
def Holds (h : Tally) (t m : Nat) : Prop := h.released t m < h.acquired t m

instance (h : Tally) (t m : Nat) : Decidable (h.Holds t m) :=
  inferInstanceAs (Decidable (_ < _))

end Tally

/-- The system with the tally. -/
def tallied (c : Config) : System (State × Tally) Act := (system c).withHistory .zero Tally.after

/-- The operation gives the mutex up: an unlock, or a wait on a condition variable. -/
def Op.releases (m : Nat) : Op → Prop
  | .unlock m' | .condWait _ m' _ => m' = m
  | _ => False

instance (m : Nat) (op : Op) : Decidable (op.releases m) := by
  cases op <;> (unfold Op.releases; infer_instance)

/-- The caller is on its way to giving the mutex up. -/
def Pc.releases (m : Nat) : Pc → Prop
  | .unlock m' _ | .condEnter _ m' _ => m' = m
  | _ => False

/-- The mutex is given up only by callers that hold it. -/
def HolderUnlocks (m : Nat) (x : State × Tally) : Act → Prop
  | .call t op => op.releases m → x.2.Holds t m
  | _ => True

instance (m : Nat) (x : State × Tally) (a : Act) : Decidable (HolderUnlocks m x a) := by
  cases a <;> (unfold HolderUnlocks; infer_instance)

section

variable {c : Config} {s s' : State} {a : Act} {m : Nat} {h : Tally}

/-! ## What a step does to a mutex -/

@[simp] theorem start_releases (op : Op) : op.start.releases m ↔ op.releases m := by
  cases op <;> rfl

@[simp] theorem lockExit_pc (k : LockRet) : k.exit.pc = .idle := by
  rcases k with _ | (_ | _) <;> rfl

@[simp] theorem not_releases_idle : ¬ Pc.idle.releases m := id

@[simp] theorem not_releases_exit (k : UnlockRet) : ¬ k.exit.pc.releases m := by
  cases k <;> exact id

@[simp] theorem not_releases_wakeRest (k : UnlockRet) (r : Option Rec) :
    ¬ (k.wakeRest r).pc.releases m := by
  cases r with
  | none => exact not_releases_exit k
  | some w => exact id

@[simp] theorem not_releases_awaken (k : UnlockRet) (w : Rec) (tm : Bool) (r : Option Rec)
    (th : Option Nat) : ¬ (k.awaken w tm r th).pc.releases m := by
  cases th with
  | none => exact not_releases_wakeRest k r
  | some u => exact id

@[simp] theorem not_releases_waitExit (b : Bool) (k : WaitRet) : ¬ (k.exit c b).pc.releases m := by
  cases k <;> cases b <;> exact id

@[simp] theorem leave_mutex (s : State) (t : Nat) (e : Exit) : (s.leave t e).mutex = s.mutex := rfl

@[simp] theorem pop_mutex (s : State) (t : Nat) (o : Obj) (k : UnlockRet) :
    (s.pop t o k).mutex = s.mutex := by
  unfold State.pop; split <;> rfl

theorem not_releases_pop (s : State) (t : Nat) (o : Obj) (k : UnlockRet) :
    ¬ ((s.pop t o k).pc t).releases m := by
  unfold State.pop
  split
  · rw [leave_self]; exact not_releases_exit k
  · rw [leave_self]; exact id

theorem pop_pc_releases {t u : Nat} {o : Obj} {k : UnlockRet} (hu : ((s.pop t o k).pc u).releases m) :
    (s.pc u).releases m := by
  unfold State.pop at hu
  split at hu
  all_goals
    rw [leave_pc, Function.update_apply] at hu
    split at hu
  · exact absurd hu (not_releases_exit k)
  · exact hu
  · cases hu
  · exact hu

/-- A caller comes to give a mutex up by calling an operation that does. -/
theorem step_releases (hst : step c s a = some s') {u : Nat} (hu : (s'.pc u).releases m) :
    (s.pc u).releases m ∨ ∃ op, a = .call u op ∧ op.releases m := by
  -- the caller that moves is the only one whose program counter changes
  have hother : ∀ t (e : Exit), s'.pc = Function.update s.pc t e.pc → ¬ e.pc.releases m →
      (s.pc u).releases m := by
    intro t e he hn
    rw [he, Function.update_apply] at hu
    split at hu
    · exact absurd hu hn
    · exact hu
  cases step_cases hst with
  | @call t op =>
    rw [leave_pc, Function.update_apply] at hu
    split at hu
    · rename_i hut
      subst hut
      exact .inr ⟨op, rfl, (start_releases op).mp hu⟩
    · exact .inl hu
  | @go t _ hadv =>
    refine .inl ?_
    cases hadv with
    | condEnter hpc =>
      rw [leave_pc, Function.update_apply] at hu
      split at hu
      · rename_i hut
        rw [hut, hpc]; exact hu
      · exact hu
    | unlockLast => exact pop_pc_releases (s := s.setMutex _ _) hu
    | signal => exact pop_pc_releases hu
    | lockFree | lockAgain | unlockNested | eventualPass | blocked | spin | timed | wakeStore
    | wakeAwaken | broadcast | eventualSet => exact hother t _ rfl (by simp)
    | _ => exact hother t _ rfl id
  | timeoutSignaled | timeout => exact .inl (hother _ _ rfl (not_releases_waitExit _ _))
  | callback => exact .inl hu

/-- The mutex can be had: it is free, or the caller's own and recursive. -/
def Grants (c : Config) (s : State) (t m : Nat) : Prop :=
  (s.mutex m).locked = false ∨ c.recursive m = true ∧ (s.mutex m).owner = some t

/-- How a step changes mutex `m`, and how the tally records it. -/
inductive MutexMove (c : Config) (m : Nat) (s : State) (a : Act) (s' : State) : Prop where
  | keep (hm : s'.mutex m = s.mutex m)
      (hh : ∀ h t, (Tally.after s a s' h).acquired t m = h.acquired t m ∧
        (Tally.after s a s' h).released t m = h.released t m)
  | acquire (t : Nat) (ha : a = .go t) (hpc : ∀ m', ¬ (s.pc t).releases m') (hg : Grants c s t m)
      (hm : s'.mutex m =
        ⟨true, if (s.mutex m).locked then (s.mutex m).nesting + 1 else 0, some t⟩)
      (hh : ∀ h, Tally.after s a s' h = h.acquire t m)
  | release (t : Nat) (k : UnlockRet) (ha : a = .go t) (hpc : s.pc t = .unlock m k)
      (hpc' : ¬ (s'.pc t).releases m)
      (hm : s'.mutex m = if 0 < (s.mutex m).nesting
        then { s.mutex m with nesting := (s.mutex m).nesting - 1 }
        else { s.mutex m with locked := false, owner := none })
      (hh : ∀ h, Tally.after s a s' h = h.release t m)

theorem acquire_other {t u m' : Nat} (hne : m' ≠ m) :
    (h.acquire t m').acquired u m = h.acquired u m ∧ (h.acquire t m').released u m = h.released u m :=
  ⟨by simp [Tally.acquire, bump_apply, Ne.symm hne], rfl⟩

theorem release_other {t u m' : Nat} (hne : m' ≠ m) :
    (h.release t m').acquired u m = h.acquired u m ∧ (h.release t m').released u m = h.released u m :=
  ⟨rfl, by simp [Tally.release, bump_apply, Ne.symm hne]⟩

/-- A section that gets mutex `m'`. -/
theorem MutexMove.of_acquire {t m' n : Nat} {e : Exit} (hpc : ∀ m', ¬ (s.pc t).releases m')
    (hg : Grants c s t m')
    (hn : n = if (s.mutex m').locked then (s.mutex m').nesting + 1 else 0)
    (hh : ∀ h, Tally.after s (.go t) ((s.setMutex m' ⟨true, n, some t⟩).leave t e) h =
      h.acquire t m') :
    MutexMove c m s (.go t) ((s.setMutex m' ⟨true, n, some t⟩).leave t e) := by
  by_cases hm : m' = m
  · subst hm
    refine .acquire t rfl hpc hg ?_ hh
    simp [State.setMutex, hn]
  · refine .keep ?_ fun h u => ?_
    · simp [State.setMutex, Ne.symm hm]
    · rw [hh]; exact acquire_other hm

theorem MutexMove.of_release {t m' : Nat} {k : UnlockRet} (hpc : s.pc t = .unlock m' k)
    (hpc' : ¬ (s'.pc t).releases m)
    (hm' : s'.mutex = Function.update s.mutex m' (if 0 < (s.mutex m').nesting
      then { s.mutex m' with nesting := (s.mutex m').nesting - 1 }
      else { s.mutex m' with locked := false, owner := none })) :
    MutexMove c m s (.go t) s' := by
  have hh : ∀ h, Tally.after s (.go t) s' h = h.release t m' := by
    intro h; simp only [Tally.after, hpc]
  by_cases hm : m' = m
  · subst hm
    refine .release t k rfl hpc hpc' ?_ hh
    rw [hm', Function.update_self]
  · refine .keep ?_ fun h u => ?_
    · rw [hm', Function.update_of_ne (Ne.symm hm)]
    · rw [hh]; exact release_other hm

/-- A step of a caller that is at no section of a mutex, or that leaves one without it. -/
theorem MutexMove.of_same (hm : s'.mutex = s.mutex) (hh : ∀ h, Tally.after s a s' h = h) :
    MutexMove c m s a s' :=
  .keep (by rw [hm]) fun h t => by rw [hh]; exact ⟨rfl, rfl⟩

theorem step_mutex (hst : step c s a = some s') : MutexMove c m s a s' := by
  cases step_cases hst with
  | call | timeoutSignaled | timeout | callback => exact .of_same rfl fun _ => rfl
  | go hadv =>
    cases hadv with
    | lockFree hpc _ hl | spinFree hpc _ hl | tryFree hpc _ hl =>
      refine .of_acquire (by rw [hpc]; exact fun _ => id) (.inl hl) (by simp [hl]) fun h => ?_
      simp [Tally.after, hpc, Exit.user, State.leave]
    | lockAgain hpc _ hl hr | spinAgain hpc _ hl hr | tryAgain hpc _ hl hr =>
      refine .of_acquire (by rw [hpc]; exact fun _ => id) (.inr hr) (by simp [hl]) fun h => ?_
      simp [Tally.after, hpc, Exit.user, State.leave]
    | lockWait hpc | spinWait hpc | tryFail hpc =>
      refine .of_same rfl fun h => ?_
      simp [Tally.after, hpc, Exit.user, Exit.to, State.leave]
    | unlockNested hpc _ hn =>
      refine .of_release hpc (by simp [State.setMutex]) ?_
      rw [if_pos hn]; rfl
    | unlockLast hpc _ hn =>
      refine .of_release hpc (not_releases_pop _ _ _ _) ?_
      rw [if_neg hn, pop_mutex]; rfl
    | signal hpc => exact .of_same (pop_mutex ..) fun h => by simp only [Tally.after, hpc]
    | condEnter hpc | condRefuse hpc | broadcast hpc | eventualPass hpc | eventualEnter hpc
    | eventualTest hpc | eventualAgain hpc | eventualLong hpc | eventualSet hpc
    | eventualReset hpc | holdTimed hpc | holdBlock hpc | holdSpin hpc | blocked hpc | spin hpc
    | timed hpc | wakeNext hpc | wakeThread hpc | wakeStore hpc | wakeAwaken hpc =>
      exact .of_same rfl fun h => by simp only [Tally.after, hpc]

/-! ## The invariant -/

/-- The fields of the mutex as the tally determines them. -/
structure Owned (c : Config) (m : Nat) (s : State) (h : Tally) : Prop where
  count : ∀ t, h.acquired t m = h.released t m +
    if (s.mutex m).owner = some t then (s.mutex m).nesting + 1 else 0
  locked : (s.mutex m).locked = (s.mutex m).owner.isSome
  flat : c.recursive m = false → (s.mutex m).nesting = 0
  leaving : ∀ t, (s.pc t).releases m → (s.mutex m).owner = some t

theorem Owned.initial : Owned c m (initial c) .zero := by
  refine ⟨?_, rfl, fun _ => rfl, ?_⟩
  · intro t; simp [Sync.initial, Tally.zero]
  · intro t ht; cases ht

theorem Owned.holds_iff (hi : Owned c m s h) (t : Nat) :
    h.Holds t m ↔ (s.mutex m).owner = some t := by
  have hc := hi.count t
  unfold Tally.Holds
  split at hc <;> rename_i ho
  · exact ⟨fun _ => ho, fun _ => by omega⟩
  · exact ⟨fun hlt => by omega, fun he => absurd he ho⟩

/-- Someone gets the mutex. -/
theorem Owned.acquire (hi : Owned c m s h) {t : Nat} (hg : Grants c s t m)
    (hm : s'.mutex m = ⟨true, if (s.mutex m).locked then (s.mutex m).nesting + 1 else 0, some t⟩)
    (hpc : ∀ u, (s'.pc u).releases m → (s.pc u).releases m) : Owned c m s' (h.acquire t m) := by
  have hfree : (s.mutex m).locked = false → (s.mutex m).owner = none := by
    intro hl
    have := hi.locked
    rw [hl] at this
    simpa using this.symm
  have howner : ∀ u, (s.mutex m).owner = some u → u = t := by
    intro u hu
    obtain hl | ⟨_, ho⟩ := hg
    · rw [hfree hl] at hu; cases hu
    · rw [ho] at hu; exact (Option.some.inj hu).symm
  refine ⟨fun u => ?_, by rw [hm]; rfl, fun hr => ?_, fun u hu => ?_⟩
  · have hc := hi.count u
    rw [hm]
    simp only [Tally.acquire, bump_apply, Option.some.injEq]
    by_cases hut : u = t
    · subst hut
      obtain hl | ⟨_, ho⟩ := hg
      · simp only [hfree hl, reduceCtorEq, if_false] at hc
        simp [hl]; omega
      · have hl : (s.mutex m).locked = true := by rw [hi.locked, ho]; rfl
        simp only [ho, if_true] at hc
        simp [hl]; omega
    · have hne : (s.mutex m).owner ≠ some u := fun he => hut (howner u he)
      rw [if_neg hne] at hc
      rw [if_neg (fun he => hut he.1), if_neg (Ne.symm hut)]
      exact hc
  · obtain hl | ⟨hrec, _⟩ := hg
    · rw [hm]; simp [hl]
    · rw [hr] at hrec; cases hrec
  · rw [hm, howner u (hi.leaving u (hpc u hu))]

/-- The owner gives the mutex up once. -/
theorem Owned.release (hi : Owned c m s h) {t : Nat} (ho : (s.mutex m).owner = some t)
    (hm : s'.mutex m = if 0 < (s.mutex m).nesting
      then { s.mutex m with nesting := (s.mutex m).nesting - 1 }
      else { s.mutex m with locked := false, owner := none })
    (hpc : ∀ u, (s'.pc u).releases m → (s.pc u).releases m) (hpc' : ¬ (s'.pc t).releases m) :
    Owned c m s' (h.release t m) := by
  have hleave : ∀ u, ¬ (s'.pc u).releases m := by
    intro u hu
    have := hi.leaving u (hpc u hu)
    rw [ho] at this
    obtain rfl := Option.some.inj this
    exact hpc' hu
  have hother : ∀ u, u ≠ t → (s.mutex m).owner ≠ some u := by
    intro u hut he
    rw [ho] at he
    exact hut (Option.some.inj he).symm
  -- the last release frees the mutex, the others undo one nested acquisition
  split at hm <;> rename_i hn
  · refine ⟨fun u => ?_, by rw [hm]; exact hi.locked, fun hr => ?_, fun u hu => absurd hu (hleave u)⟩
    · have hc := hi.count u
      rw [hm]
      simp only [Tally.release, bump_apply]
      by_cases hut : u = t
      · subst hut
        simp only [ho, if_true, and_self] at hc ⊢
        omega
      · rw [if_neg (hother u hut)] at hc ⊢
        rw [if_neg (fun he => hut he.1)]
        exact hc
    · rw [hi.flat hr] at hn; cases hn
  · refine ⟨fun u => ?_, by rw [hm]; rfl, fun hr => ?_, fun u hu => absurd hu (hleave u)⟩
    · have hc := hi.count u
      rw [hm]
      simp only [Tally.release, bump_apply, reduceCtorEq, if_false]
      by_cases hut : u = t
      · subst hut
        simp only [ho, if_true, and_self] at hc ⊢
        omega
      · rw [if_neg (hother u hut)] at hc
        rw [if_neg (fun he => hut he.1)]
        exact hc
    · rw [hm]; exact hi.flat hr

theorem step_owned (hi : Owned c m s h) (hg : HolderUnlocks m (s, h) a)
    (hst : step c s a = some s') : Owned c m s' (Tally.after s a s' h) := by
  have hrel := fun u => step_releases (m := m) (u := u) hst
  obtain ⟨hm, hh⟩ | ⟨t, rfl, _, hgr, hm, hh⟩ | ⟨t, k, rfl, hpc, hpc', hm, hh⟩ :=
    step_mutex (m := m) hst
  · refine ⟨fun t => ?_, by rw [hm]; exact hi.locked, fun hr => by rw [hm]; exact hi.flat hr, ?_⟩
    · rw [(hh h t).1, (hh h t).2, hm]; exact hi.count t
    · intro t ht
      rw [hm]
      obtain ht | ⟨op, rfl, hop⟩ := hrel t ht
      · exact hi.leaving t ht
      · exact (hi.holds_iff t).mp (hg hop)
  all_goals
    have hrel' : ∀ u, (s'.pc u).releases m → (s.pc u).releases m := by
      intro u hu
      obtain hu | ⟨op, ha, _⟩ := hrel u hu
      · exact hu
      · cases ha
    rw [hh]
  · exact hi.acquire hgr hm hrel'
  · exact hi.release (hi.leaving t (by rw [hpc]; rfl)) hm hrel' hpc'

theorem reach_owned {x : State × Tally} (hr : Reach (tallied c) (HolderUnlocks m) x) :
    Owned c m x.1 x.2 := by
  refine hr.historyInvariant (I := Owned c m) ?_ ?_
  · rintro s rfl; exact .initial
  · intro s h a s' _ hi hg hst; exact step_owned hi hg hst

theorem Owned.locked_iff (hi : Owned c m s h) : (s.mutex m).locked = true ↔ ∃ t, h.Holds t m := by
  rw [hi.locked, Option.isSome_iff_exists]
  simp only [hi.holds_iff]

/-- The section of an unlock frees the mutex iff it undoes the only acquisition left. -/
theorem Owned.unlock_frees (hi : Owned c m s h) {t : Nat} {k : UnlockRet} (hpc : s.pc t = .unlock m k)
    (hst : step c s (.go t) = some s') :
    (s'.mutex m).locked = false ↔ h.acquired t m = h.released t m + 1 := by
  have hc := hi.count t
  have ho := hi.leaving t (by rw [hpc]; rfl)
  have hl : (s.mutex m).locked = true := by rw [hi.locked, ho]; rfl
  rw [if_pos ho] at hc
  simp only [step, advance, hpc, mutexStep] at hst
  split at hst
  case isFalse => cases hst
  split at hst <;> rename_i hn <;> cases hst
  · simp only [State.setMutex, leave_mutex, Function.update_self, hl]
    constructor
    · intro hf; cases hf
    · intro he; omega
  · simp only [pop_mutex, State.setMutex, Function.update_self, true_iff]
    omega

/-- `ABT_mutex_trylock` fails iff the mutex is held and this is no nested acquisition. -/
theorem Owned.trylock_fails (hi : Owned c m s h) {t : Nat} (hpc : s.pc t = .trylock m)
    (hst : step c s (.go t) = some s') :
    (s'.ret t = some (.mutexLocked, none) ↔
      (∃ u, h.Holds u m) ∧ ¬ (c.recursive m = true ∧ h.Holds t m)) ∧
    (s'.ret t = some (.mutexLocked, none) → s' = s.leave t (.user .mutexLocked none)) := by
  rw [← hi.locked_iff, hi.holds_iff]
  simp only [step, advance, hpc, mutexStep] at hst
  split at hst
  case isFalse => cases hst
  split at hst
  · rename_i hl
    cases hst
    simp [State.leave, Exit.user, hl]
  · rename_i hl
    split at hst <;> rename_i hr <;> cases hst
    · simp [State.leave, Exit.user, hr]
    · refine ⟨⟨fun _ => ⟨by simpa using hl, hr⟩, fun _ => ?_⟩, fun _ => rfl⟩
      simp [State.leave, Exit.user]

/-- Exclusion and nesting: in every run in which a mutex is given up by its holders only, at most
one caller holds it, its fields say who and how often, the last of the holder's unlocks frees it,
and a trylock fails exactly when it has to. -/
theorem mutex_exclusion {x : State × Tally} (hr : Reach (tallied c) (HolderUnlocks m) x) :
    (∀ t u, x.2.Holds t m → x.2.Holds u m → t = u) ∧
    ((x.1.mutex m).locked = true ↔ ∃ t, x.2.Holds t m) ∧
    (∀ t, x.2.Holds t m → (x.1.mutex m).owner = some t ∧
      x.2.acquired t m = x.2.released t m + ((x.1.mutex m).nesting + 1)) ∧
    (c.recursive m = false → (x.1.mutex m).nesting = 0) ∧
    (∀ t k s', x.1.pc t = .unlock m k → step c x.1 (.go t) = some s' →
      ((s'.mutex m).locked = false ↔ x.2.acquired t m = x.2.released t m + 1)) ∧
    ∀ t s', x.1.pc t = .trylock m → step c x.1 (.go t) = some s' →
      (s'.ret t = some (.mutexLocked, none) ↔
        (∃ u, x.2.Holds u m) ∧ ¬ (c.recursive m = true ∧ x.2.Holds t m)) ∧
      (s'.ret t = some (.mutexLocked, none) → s' = x.1.leave t (.user .mutexLocked none)) := by
  have hi := reach_owned hr
  refine ⟨fun t u ht hu => ?_, hi.locked_iff, fun t ht => ?_, hi.flat,
    fun t k s' hpc hst => hi.unlock_frees hpc hst, fun t s' hpc hst => hi.trylock_fails hpc hst⟩
  · rw [hi.holds_iff] at ht hu
    rw [ht] at hu
    exact Option.some.inj hu
  · have ho := (hi.holds_iff t).mp ht
    have hc := hi.count t
    rw [if_pos ho] at hc
    exact ⟨ho, hc⟩

end

/-- Caller 0 acquires recursive mutex 0 twice, caller 1 tries it in vain. -/
def nested : List Act :=
  [.call 0 (.lock 0), .go 0, .call 0 (.spinlock 0), .go 0, .call 1 (.trylock 0), .go 1,
    .call 0 (.unlock 0), .go 0]

theorem mutex_exclusion_nested : ∃ x, Reach (tallied ⟨fun _ => true, fun _ => true, fun _ => 0⟩)
    (HolderUnlocks 0) x ∧ (x.2.Holds 0 0 ∧ x.2.acquired 0 0 = 2 ∧ x.1.ret 1 = some (.mutexLocked, none)) ∧
    ((x.1.mutex 0).locked = true ↔ ∃ t, x.2.Holds t 0) := by
  obtain ⟨x, hr, hx⟩ := (Reach.start ⟨rfl, rfl⟩ : Reach (tallied ⟨fun _ => true, fun _ => true,
    fun _ => 0⟩) (HolderUnlocks 0) (initial _, .zero)).exists_run
    (fun x => x.2.Holds 0 0 ∧ x.2.acquired 0 0 = 2 ∧ x.1.ret 1 = some (.mutexLocked, none))
    nested (by decide)
  exact ⟨x, hr, hx, (mutex_exclusion hr).2.1⟩

end Sync
end AbtReconverse
