import AbtReconverse.Sync.Sections

/-!
# AbtReconverse.Sync.Lifetime

Eventuals on the stack. A waiter learns that the eventual is ready from the setter's `signaled`, or
from `ready` under the spinlock; a test learns it from `ready`. All of these come after the setter
has released the spinlock, and from there on the setter only walks the list that it detached. The
records on that list belong to callers that are still in `wait_on`.

`Life` says this of the histories of `Access.State`: a set that `source`, `served` or the place of a
record names is past its release, and the set that wrote `ready` last is past it too or still
has the lock.
-/

namespace AbtReconverse
namespace Access

open Lts Sync

/-- The set is over, or walks its list. -/
def Pc.released : Pc → Prop
  | .idle | .wakeNext _ | .wakeThread .. | .wakeStore .. | .wakeAwaken .. => True
  | _ => False

/-- The set has written `ready` and holds the lock. -/
def Pc.published : Pc → Prop
  | .setHead .. | .setCutTail .. | .setCutHead .. | .setUnlock .. => True
  | _ => False

/-- The wait goes back to the user, or the test reports ready. -/
def Pc.informed : Pc → Prop
  | .waitUnlock | .waitValue => True
  | .testUnlock r | .testValue r => r = true
  | _ => False

/-- The call `n` of `x` is behind its section. -/
def Past (f : State) (x n : Nat) : Prop := n < f.op x ∨ (f.op x = n ∧ (f.pc x).released)

structure Life (f : State) : Prop where
  setter : ∀ x n, f.setter = some (x, n) → Past f x n ∨ (f.op x = n ∧ (f.pc x).published)
  ready : f.mem.ready = true → f.setter.isSome
  source : ∀ t x n, f.source t = some (x, n) → Past f x n
  served : ∀ x n, f.served x n = true → Past f x n
  taken : ∀ w x n, (f.mem.waiter w).place = .taken x n → Past f x n
  found : ∀ t, (f.pc t).informed → (f.source t).isSome

section

variable {cf : Config} {f f' : State} {s : Sync.State} {t : Nat} {p : Pc}

theorem published_inside (h : p.published) : p.inside := by
  cases p <;> first | exact trivial | exact absurd h id

theorem released_touches (h : p.released) : ¬ p.touches := by
  cases p <;> first | exact id | exact absurd h id

@[simp] theorem released_wakeRest (l : Option Rec) : (wakeRest l).released := by
  cases l <;> exact trivial

@[simp] theorem released_awaken (w : Rec) (l : Option Rec) (th : Option Nat) :
    (awaken w l th).released := by
  cases th with
  | none => exact released_wakeRest l
  | some u => exact trivial

/-- The waiter leaves `wait_on`. -/
def Woken (f : State) (t : Nat) : Prop :=
  (f.pc t = .blocked ∧ f.blk t = false) ∨
    (f.pc t = .spin ∧ (f.mem.waiter ⟨t, .wait⟩).signaled = true)

theorem wakeRest_informed (l : Option Rec) : ¬ (wakeRest l).informed := by
  cases l <;> exact id

/-- What a step of `t` does to the histories; `p` is where it goes. -/
structure Track (f f' : State) (t : Nat) (p : Pc) : Prop where
  pc : f'.pc = Function.update f.pc t p
  op : f'.op = f.op
  released : (f.pc t).released → p.released
  published : (f.pc t).published → p.published ∨ p.released
  setter : f'.setter = f.setter ∨ (f'.setter = some (t, f.op t) ∧ p.published)
  ready : f'.mem.ready = true → f.mem.ready = true ∨ f'.setter.isSome
  others : ∀ u, u ≠ t → f'.source u = f.source u
  source : ∀ x n, f'.source t = some (x, n) → f.source t = some (x, n) ∨
    (f.setter = some (x, n) ∧ (f.pc t).inside ∧ ¬ (f.pc t).published) ∨
      ∃ w, (f.mem.waiter w).place = .taken x n
  served : ∀ x n, f'.served x n = true → f.served x n = true ∨ f.source t = some (x, n)
  keeps : ∀ x n, f.served x n = true → f'.served x n = true
  taken : ∀ w x n, (f'.mem.waiter w).place = .taken x n → (f.mem.waiter w).place = .taken x n ∨
    (x = t ∧ n = f.op t ∧ p.released)
  found : p.informed → ((f.pc t).informed ∧ f'.source t = f.source t) ∨
    (f.mem.ready = true ∧ f'.source t = f.setter) ∨
      (Woken f t ∧ f'.source t = takenBy (f.mem.waiter ⟨t, .wait⟩).place)

/-- A step that writes no history but, perhaps, the place of a record. -/
theorem Track.quiet (hpc : f'.pc = Function.update f.pc t p) (hop : f'.op = f.op)
    (hsetter : f'.setter = f.setter) (hsource : f'.source = f.source) (hserved : f'.served = f.served)
    (hready : f'.mem.ready = true → f.mem.ready = true)
    (htaken : ∀ w x n, (f'.mem.waiter w).place = .taken x n → (f.mem.waiter w).place = .taken x n)
    (hrel : (f.pc t).released → p.released) (hpub : (f.pc t).published → p.published ∨ p.released)
    (hinf : p.informed → (f.pc t).informed) : Track f f' t p :=
  ⟨hpc, hop, hrel, hpub, .inl hsetter, fun h => .inl (hready h), fun u _ => by rw [hsource],
    fun x n h => .inl (by rw [← hsource]; exact h), fun x n h => .inl (by rw [← hserved]; exact h),
    fun x n h => by rw [hserved]; exact h, fun w x n h => .inl (htaken w x n h),
    fun h => .inl ⟨hinf h, by rw [hsource]⟩⟩

theorem Track.goto (hrel : (f.pc t).released → p.released)
    (hpub : (f.pc t).published → p.published ∨ p.released) (hinf : ¬ p.informed) :
    Track f (f.goto t p) t p :=
  .quiet rfl rfl rfl rfl rfl id (fun _ _ _ h => h) hrel hpub (absurd · hinf)

/-- A call is served by the set that wrote `ready` last, or by the one that took its record. -/
theorem Track.serve {y : Option (Nat × Nat)} (hy : ∀ x n, y = some (x, n) →
      (f.setter = some (x, n) ∧ (f.pc t).inside ∧ ¬ (f.pc t).published) ∨
        ∃ w, (f.mem.waiter w).place = .taken x n) (hrel : ¬ (f.pc t).released)
    (hpub : ¬ (f.pc t).published) (hinf : p.informed → (f.mem.ready = true ∧ y = f.setter) ∨
      (Woken f t ∧ y = takenBy (f.mem.waiter ⟨t, .wait⟩).place)) :
    Track f (f.serve t y p) t p := by
  have hsrc : (f.serve t y p).source t = y := Function.update_self ..
  refine ⟨rfl, rfl, fun h => absurd h hrel, fun h => absurd h hpub, .inl rfl, .inl,
    fun u hu => Function.update_of_ne hu _ _, fun x n h => .inr (hy x n (hsrc.symm.trans h)),
    fun _ _ h => .inl h, fun _ _ h => h, fun _ _ _ h => .inl h, fun h => .inr ?_⟩
  rw [hsrc]
  exact hinf h

theorem takenBy_some {pl : Place} {x n : Nat} (h : takenBy pl = some (x, n)) : pl = .taken x n := by
  cases pl <;> cases h
  rfl

/-- Of the writes to memory only `take` names a set. -/
theorem init_taken {m : Mem} {w : Rec} {x n : Nat}
    (h : ((m.init cf t).waiter w).place = .taken x n) : (m.waiter w).place = .taken x n := by
  simp only [Mem.init, Function.update_apply] at h
  split at h
  · cases h
  · exact h

theorem link_keep (m : Mem) (last : Option Rec) :
    (m.link t last).waiter = m.waiter ∧ (m.link t last).ready = m.ready := by
  cases last <;> exact ⟨rfl, rfl⟩

theorem setTail_taken {m : Mem} {w : Rec} {x n : Nat}
    (h : ((m.setTail t).waiter w).place = .taken x n) : (m.waiter w).place = .taken x n := by
  simp only [Mem.setTail, Function.update_apply] at h
  split at h
  · cases h
  · exact h

theorem signal_taken {m : Mem} {v w : Rec} {x n : Nat}
    (h : ((m.signal v).waiter w).place = .taken x n) : (m.waiter w).place = .taken x n := by
  simp only [Mem.signal, Function.update_apply] at h
  split at h
  · rename_i he; rw [he]; exact h
  · exact h

theorem take_taken {m : Mem} {w : Rec} {k x n : Nat}
    (h : ((m.take t k).waiter w).place = .taken x n) :
    (m.waiter w).place = .taken x n ∨ (x = t ∧ n = k) := by
  simp only [Mem.take] at h
  split at h
  · cases h; exact .inr ⟨rfl, rfl⟩
  · exact .inl h

@[simp] theorem copy_ready (n : Nat) (v : Option (List UInt8)) (m : Mem) :
    (m.copy n v).ready = m.ready := by cases v <;> rfl

theorem wakes_keep (f : State) (t : Nat) (p : Pc) : (f.wakes t p).setter = f.setter ∧
    (f.wakes t p).source = f.source ∧ (f.wakes t p).served = f.served := by
  unfold State.wakes
  split <;> exact ⟨rfl, rfl, rfl⟩

theorem report_served {x n : Nat} (h : (f.report t).served x n = true) :
    f.served x n = true ∨ f.source t = some (x, n) := by
  unfold State.report at h
  split at h
  · rename_i y k hs
    simp only [Function.update_apply] at h
    split at h
    · rename_i hx
      simp only [Function.update_apply] at h
      split at h
      · rename_i hn; subst hx hn; exact .inr hs
      · subst hx; exact .inl h
    · exact .inl h
  · exact .inl h

theorem report_keeps {x n : Nat} (h : f.served x n = true) : (f.report t).served x n = true := by
  unfold State.report
  split
  · simp only [Function.update_apply]
    split
    · rename_i hx
      simp only [Function.update_apply]
      split
      · rfl
      · rw [← hx]; exact h
    · exact h
  · exact h

theorem report_frame (f : State) (t : Nat) : (f.report t).setter = f.setter ∧
    (f.report t).source = f.source := by
  unfold State.report
  split <;> exact ⟨rfl, rfl⟩

/-- Steps of a section up to the one that makes the set known, and those of a wait that goes to
sleep. -/
def Pc.early : Pc → Prop
  | .lock _ | .waitInit | .pushNext | .pushLast | .pushLink _ | .pushTail _ | .waitUnlock | .hold
  | .testUnlock _ | .setReady .. | .setSize .. | .setCopy .. | .setFail .. | .resetFlag
  | .resetUnlock => True
  | _ => False

theorem early_track (he : (f.pc t).early) (hst : advance cf f t = some f') :
    ∃ p, Track f f' t p := by
  have hrel : ¬ (f.pc t).released := by
    cases hpc : f.pc t <;> rw [hpc] at he <;> first | exact id | exact absurd he id
  have hpub : ¬ (f.pc t).published := by
    cases hpc : f.pc t <;> rw [hpc] at he <;> first | exact id | exact absurd he id
  have quiet : ∀ p, f'.pc = Function.update f.pc t p → f'.op = f.op → f'.setter = f.setter →
      f'.source = f.source → f'.served = f.served →
      (f'.mem.ready = true → f.mem.ready = true) → (∀ w x n, (f'.mem.waiter w).place = .taken x n →
        (f.mem.waiter w).place = .taken x n) → (p.informed → (f.pc t).informed) →
      ∃ p, Track f f' t p :=
    fun p h1 h2 h3 h4 h5 h6 h7 h8 =>
      ⟨p, .quiet h1 h2 h3 h4 h5 h6 h7 (absurd · hrel) (absurd · hpub) h8⟩
  cases hpc : f.pc t <;> simp only [advance, hpc] at hst <;> rw [hpc] at he
  case lock c =>
    split at hst <;> cases hst
    refine quiet c.first rfl rfl rfl rfl rfl id (fun _ _ _ h => h) ?_
    cases c <;> exact fun h => absurd h id
  case hold =>
    split at hst <;> cases hst
    all_goals exact quiet _ rfl rfl rfl rfl rfl id (fun _ _ _ h => h) fun h => absurd h id
  case waitInit =>
    cases hst
    exact quiet _ rfl rfl rfl rfl rfl id (fun _ _ _ => init_taken) fun h => absurd h id
  case pushTail last =>
    cases hst
    exact quiet _ rfl rfl rfl rfl rfl id (fun _ _ _ => setTail_taken) fun h => absurd h id
  case pushLink last =>
    cases hst
    obtain ⟨hw, hr⟩ := link_keep (t := t) f.mem last
    refine quiet _ rfl rfl rfl rfl rfl ?_ ?_ fun h => absurd h id
    · simp only [State.write, hr]; exact id
    · simp only [State.write, hw]; exact fun _ _ _ h => h
  case setCopy n v =>
    cases hst
    refine quiet _ rfl rfl rfl rfl rfl ?_ ?_ fun h => absurd h id
    · simp only [State.write, copy_ready]; exact id
    · simp only [State.write, copy_waiter]; exact fun _ _ _ h => h
  case resetFlag =>
    cases hst
    exact quiet _ rfl rfl rfl rfl rfl (fun h => Bool.noConfusion h) (fun _ _ _ h => h)
      fun h => absurd h id
  case setReady n v =>
    cases hst
    refine quiet _ rfl rfl rfl rfl rfl id (fun _ _ _ h => h) ?_
    split <;> exact fun h => absurd h id
  case setSize n v =>
    cases hst
    refine quiet _ rfl rfl rfl rfl rfl id (fun _ _ _ h => h) ?_
    split <;> exact fun h => absurd h id
  case waitUnlock | testUnlock =>
    cases hst
    exact quiet _ rfl rfl rfl rfl rfl id (fun _ _ _ h => h) (by rw [hpc]; exact id)
  case pushNext | pushLast | setFail | resetUnlock =>
    cases hst
    exact quiet _ rfl rfl rfl rfl rfl id (fun _ _ _ h => h) fun h => absurd h id
  all_goals exact absurd he id

/-- A set goes on after it has written `ready`. -/
theorem late_track (he : (f.pc t).published ∨ (f.pc t).released) (hst : advance cf f t = some f') :
    ∃ p, Track f f' t p := by
  cases hpc : f.pc t <;> simp only [advance, hpc] at hst <;> rw [hpc] at he
  case idle => cases hst
  case setHead n v =>
    cases hst
    exact ⟨_, .goto (by rw [hpc]; exact fun h => absurd h id) (fun _ => .inl trivial) id⟩
  case setCutTail n v l | setCutHead n v l =>
    cases hst
    exact ⟨_, .quiet rfl rfl rfl rfl rfl id (fun _ _ _ h => h)
      (by rw [hpc]; exact fun h => absurd h id) (fun _ => .inl trivial) fun h => absurd h id⟩
  case setUnlock n v l =>
    cases hst
    obtain ⟨hset, hsrc, hsv⟩ := wakes_keep { f with slock := none, mem := f.mem.take t (f.op t) } t
      (wakeRest l)
    refine ⟨wakeRest l, by simp, by simp, fun _ => by simp, fun _ => .inr (by simp), .inl hset, ?_,
      fun _ _ => by rw [hsrc], fun _ _ h => .inl (by rwa [hsrc] at h),
      fun _ _ h => .inl (by rwa [hsv] at h), fun _ _ h => by rwa [hsv], fun w x k h => ?_,
      fun h => absurd h (wakeRest_informed l)⟩
    · rw [wakes_mem]; exact .inl
    · rw [wakes_mem] at h
      exact (take_taken h).imp id fun hk => ⟨hk.1, hk.2, by simp⟩
  case wakeNext w | wakeThread w rest =>
    cases hst
    exact ⟨_, .goto (fun _ => trivial) (fun _ => .inr trivial) id⟩
  case wakeStore w th rest =>
    cases hst
    obtain ⟨hset, hsrc, hsv⟩ := wakes_keep { f with mem := f.mem.signal w } t (awaken w rest th)
    refine ⟨awaken w rest th, .quiet (by simp) (by simp) hset hsrc hsv ?_ ?_ (fun _ => by simp)
      (fun _ => .inr (by simp)) ?_⟩
    · rw [wakes_mem]; exact id
    · rw [wakes_mem]; exact fun _ _ _ => signal_taken
    · cases th with
      | none => exact (absurd · (wakeRest_informed rest))
      | some u => exact (absurd · id)
  case wakeAwaken u w rest =>
    cases hst
    obtain ⟨hset, hsrc, hsv⟩ := wakes_keep { f with blk := Function.update f.blk u false } t
      (wakeRest rest)
    refine ⟨wakeRest rest, .quiet (by simp) (by simp) hset hsrc hsv ?_ ?_ (fun _ => by simp)
      (fun _ => .inr (by simp)) (absurd · (wakeRest_informed rest))⟩
    · rw [wakes_mem]; exact id
    · rw [wakes_mem]; exact fun _ _ _ h => h
  all_goals exact absurd he (by rintro (h | h) <;> exact h)

theorem advance_track (hst : advance cf f t = some f') : ∃ p, Track f f' t p := by
  by_cases hearly : (f.pc t).early
  · exact early_track hearly hst
  by_cases hlate : (f.pc t).published ∨ (f.pc t).released
  · exact late_track hlate hst
  cases hpc : f.pc t <;> simp only [advance, hpc] at hst <;> rw [hpc] at hearly hlate
  case waitReady =>
    split at hst <;> rename_i hr <;> cases hst
    · exact ⟨_, .serve (fun x n hy => .inl ⟨hy, by rw [hpc]; exact ⟨trivial, id⟩⟩)
        (by rw [hpc]; exact id) (by rw [hpc]; exact id) fun _ => .inl ⟨hr, rfl⟩⟩
    · exact ⟨_, .goto (by rw [hpc]; exact fun h => absurd h id)
        (by rw [hpc]; exact fun h => absurd h id) id⟩
  case testReady =>
    cases hst
    refine ⟨_, .serve (fun x n hy => .inl ⟨?_, by rw [hpc]; exact ⟨trivial, id⟩⟩)
      (by rw [hpc]; exact id) (by rw [hpc]; exact id) fun hr => .inl ⟨hr, if_pos hr⟩⟩
    split at hy
    · exact hy
    · cases hy
  case blocked =>
    split at hst <;> rename_i hb <;> cases hst
    exact ⟨_, .serve (fun x n hy => .inr ⟨_, takenBy_some hy⟩) (by rw [hpc]; exact id)
      (by rw [hpc]; exact id) fun _ => .inr ⟨.inl ⟨hpc, eq_false_of_ne_true hb⟩, rfl⟩⟩
  case spin =>
    split at hst <;> rename_i hb <;> cases hst
    exact ⟨_, .serve (fun x n hy => .inr ⟨_, takenBy_some hy⟩) (by rw [hpc]; exact id)
      (by rw [hpc]; exact id) fun _ => .inr ⟨.inr ⟨hpc, hb⟩, rfl⟩⟩
  case waitValue | testValue =>
    cases hst
    obtain ⟨hm, _, hp, _, hop⟩ := report_keep f t
    obtain ⟨hset, hsrc⟩ := report_frame f t
    refine ⟨.idle, ?_, hop, fun _ => trivial, fun _ => .inr trivial, .inl hset, ?_, fun u _ => ?_,
      fun x n h => .inl ?_, fun x n h => report_served h, fun x n h => report_keeps h,
      fun w x n h => .inl ?_, fun h => absurd h id⟩
    · simp only [State.finish, State.goto, hp]
    · simp only [State.finish, State.goto, hm]; exact .inl
    · simp only [State.finish, State.goto, hsrc]
    · simpa only [State.finish, State.goto, hsrc] using h
    · simpa only [State.finish, State.goto, hm] using h
  case setFlag n v =>
    cases hst
    exact ⟨.setHead n v, rfl, rfl, by rw [hpc]; exact fun h => absurd h id, fun _ => .inl trivial,
      .inr ⟨rfl, trivial⟩, fun _ => .inr rfl, fun _ _ => rfl, fun _ _ h => .inl h,
      fun _ _ h => .inl h, fun _ _ h => h, fun _ _ _ h => .inl h, fun h => absurd h id⟩
  all_goals first
    | exact absurd trivial hearly
    | exact absurd (Or.inl trivial) hlate
    | exact absurd (Or.inr trivial) hlate

theorem Past.move {x n : Nat} (h : Past f x n) (htr : Track f f' t p) : Past f' x n := by
  unfold Past at h ⊢
  rw [htr.op, htr.pc]
  obtain hlt | ⟨hop, hrel⟩ := h
  · exact .inl hlt
  · refine .inr ⟨hop, ?_⟩
    by_cases hx : x = t
    · subst hx; rw [Function.update_self]; exact htr.released hrel
    · rw [Function.update_of_ne hx]; exact hrel

/-- A waiter that leaves `wait_on` has been taken off the list. -/
theorem woken_taken {q : Obj → List Rec} {ch : Nat → List Rec} (hp : Plain cf s q ch)
    (hsim : Sim cf f s) (h : Woken f t) :
    (takenBy (f.mem.waiter ⟨t, .wait⟩).place).isSome := by
  have hin : ¬ (f.pc t).inside := by
    obtain ⟨hpc, _⟩ | ⟨hpc, _⟩ := h <;> rw [hpc] <;> exact id
  have hs := hsim.pcs t
  rw [hsim.own hin]
  obtain ⟨md, hwait, hsig⟩ : ∃ md, (s.pc t).wait = some (.eventual 0, md) ∧
      (s.waiter ⟨t, .wait⟩).signaled = true := by
    obtain ⟨hpc, hb⟩ | ⟨hpc, hb⟩ := h <;> rw [hpc] at hs
    · have hw : (s.pc t).wait = some (.eventual 0, .blocked) := by rw [hs]; rfl
      have hok := (hp.lists.waits t).record _ _ hw trivial
      exact ⟨_, hw, (hok.blocked rfl).2 (by rw [hsim.blk]; exact hb)⟩
    · rw [hsim.own hin] at hb
      exact ⟨.spin, by rw [hs]; rfl, hb⟩
  obtain hl | ⟨_, x, n, hx⟩ := ((hp.lists.waits t).record _ md hwait trivial).place
  · have := (hp.lists.onList _ _ trivial hl).1
    exact absurd (this.symm.trans hsig) Bool.false_ne_true
  · have hx : (s.waiter ⟨t, .wait⟩).place = .taken x n := hx
    rw [hx]; rfl

theorem Life.go {q : Obj → List Rec} {ch : Nat → List Rec} (hp : Plain cf s q ch)
    (hsim : Sim cf f s) (h : Life f) (hst : advance cf f t = some f') : Life f' := by
  obtain ⟨p, htr⟩ := advance_track hst
  have hsome : f.setter.isSome → f'.setter.isSome := by
    obtain hs | ⟨hs, _⟩ := htr.setter <;> rw [hs]
    · exact id
    · exact fun _ => rfl
  refine ⟨fun x n hx => ?_, fun hr => ?_, fun u x n hx => ?_, fun x n hx => ?_, fun w x n hx => ?_,
    fun u hu => ?_⟩
  · rw [htr.op, htr.pc]
    obtain hs | ⟨hs, hpub⟩ := htr.setter
    · obtain hpast | ⟨hop, hpub⟩ := h.setter x n (hs.symm.trans hx)
      · exact .inl (hpast.move htr)
      · by_cases hxt : x = t
        · subst hxt
          rw [Function.update_self]
          refine (htr.published hpub).symm.imp (fun hrel => .inr ⟨?_, ?_⟩) fun hp => ⟨hop, hp⟩
          · rw [htr.op]; exact hop
          · rw [htr.pc, Function.update_self]; exact hrel
        · rw [Function.update_of_ne hxt]; exact .inr ⟨hop, hpub⟩
    · rw [hs] at hx
      cases hx
      rw [Function.update_self]
      exact .inr ⟨rfl, hpub⟩
  · exact (htr.ready hr).elim (fun hr => hsome (h.ready hr)) id
  · by_cases hut : u = t
    · subst hut
      obtain hs | ⟨hs, hin, hpub⟩ | ⟨w, hw⟩ := htr.source x n hx
      · exact (h.source u x n hs).move htr
      · -- the setter would be in its section as well
        obtain hpast | ⟨_, hpub'⟩ := h.setter x n hs
        · exact hpast.move htr
        · have hlock := (hsim.inside u hin).1
          rw [(hsim.inside x (published_inside hpub')).1] at hlock
          cases hlock
          exact absurd hpub' hpub
      · exact (h.taken w x n hw).move htr
    · rw [htr.others u hut] at hx
      exact (h.source u x n hx).move htr
  · obtain hs | hs := htr.served x n hx
    · exact (h.served x n hs).move htr
    · exact (h.source t x n hs).move htr
  · obtain hs | ⟨rfl, rfl, hrel⟩ := htr.taken w x n hx
    · exact (h.taken w x n hs).move htr
    · exact .inr ⟨by rw [htr.op], by rw [htr.pc, Function.update_self]; exact hrel⟩
  · rw [htr.pc] at hu
    by_cases hut : u = t
    · subst hut
      rw [Function.update_self] at hu
      obtain ⟨hi, hs⟩ | ⟨hr, hs⟩ | ⟨hw, hs⟩ := htr.found hu <;> rw [hs]
      · exact h.found u hi
      · exact h.ready hr
      · exact woken_taken hp hsim hw
    · rw [Function.update_of_ne hut] at hu
      rw [htr.others u hut]
      exact h.found u hu

theorem Life.call (h : Life f) {c : Call} (hst : step cf f (.call t c) = some f') : Life f' := by
  simp only [step] at hst
  split at hst <;> cases hst
  rename_i hidle
  have hpast : ∀ x n, Past f x n → Past { f.goto t (.lock c) with
      op := Function.update f.op t (f.op t + 1), source := Function.update f.source t none } x n := by
    intro x n hx
    unfold Past at hx ⊢
    by_cases hxt : x = t
    · subst hxt
      simp only [Function.update_self]
      omega
    · simpa only [State.goto, Function.update_of_ne hxt] using hx
  refine ⟨fun x n hx => ?_, h.ready, fun u x n hx => ?_, fun x n hx => hpast x n (h.served x n hx),
    fun w x n hx => hpast x n (h.taken w x n hx), fun u hu => ?_⟩
  · obtain hp | ⟨hop, hpub⟩ := h.setter x n hx
    · exact .inl (hpast x n hp)
    · have hxt : x ≠ t := by rintro rfl; rw [hidle] at hpub; exact hpub
      simp only [State.goto, Function.update_of_ne hxt]
      exact .inr ⟨hop, hpub⟩
  all_goals by_cases hut : u = t
  · subst hut; simp only [Function.update_self] at hx; cases hx
  · simp only [Function.update_of_ne hut] at hx; exact hpast x n (h.source u x n hx)
  · subst hut; simp only [State.goto, Function.update_self] at hu; exact absurd hu id
  · simp only [State.goto, Function.update_of_ne hut] at hu ⊢; exact h.found u hu

theorem Life.callback (h : Life f) (hst : step cf f .callback = some f') : Life f' := by
  simp only [step] at hst
  split at hst <;> cases hst
  exact ⟨h.setter, h.ready, h.source, h.served, h.taken, h.found⟩

theorem reach_life {G : State → Act → Prop} (h : Reach (system cf) G f) : Life f := by
  refine h.invariant ?_ ?_
  · rintro f rfl
    exact ⟨nofun, nofun, nofun, nofun, nofun, fun _ h => absurd h id⟩
  · intro f a f' hr ih _ hst
    cases a with
    | call t c =>
      have hst : step cf f (.call t c) = some f' := hst
      exact ih.call hst
    | go t =>
      obtain ⟨s, _, hsim, q, ch, hp⟩ := reach_sections hr
      exact ih.go hp hsim hst
    | callback =>
      have hst : step cf f .callback = some f' := hst
      exact ih.callback hst

theorem step_served {a : Act} {x n : Nat} (hst : step cf f a = some f') (h : f.served x n = true) :
    f'.served x n = true := by
  cases a with
  | call t c => simp only [step] at hst; split at hst <;> cases hst; exact h
  | go t => obtain ⟨p, htr⟩ := advance_track hst; exact htr.keeps x n h
  | callback => simp only [step] at hst; split at hst <;> cases hst; exact h

theorem report_source {x n : Nat} (h : f.source t = some (x, n)) :
    (f.report t).served x n = true := by
  simp [State.report, h]

/-- A record that a set still reads or writes: it took the record, and the owner sleeps. -/
theorem record_sleeps {q : Obj → List Rec} {ch : Nat → List Rec} (hp : Plain cf s q ch)
    (hsim : Sim cf f s) {w : Rec} (hw : (f.pc t).record = some w) :
    (f.mem.waiter w).place = .taken t (f.op t) ∧ (f.pc w.owner).sleeps := by
  obtain ⟨_, o, md, hm⟩ := (hp.lists.wakes t).chained w (record_mem hp hsim hw)
  rw [(hsim.read hp hw).2, hm.place, hsim.op]
  refine ⟨rfl, ?_⟩
  have hwait := hm.wait
  have hheld := hm.past
  rw [hsim.pcs] at hwait
  cases hpc : f.pc w.owner <;> rw [hpc] at hwait
  case hold => cases hwait; cases hheld
  case blocked | spin => exact trivial
  case lock c => cases c <;> cases hwait
  all_goals cases hwait

end

/-! ## Results -/

/-- What the owner of an eventual on the stack relies on. -/
structure StackSafe (cf : Config) (f : State) : Prop where
  /-- A set that a wait returned for, or that a test reported, leaves the eventual alone. -/
  left : ∀ x n, f.served x n = true → f.op x = n → ¬ (f.pc x).touches
  /-- The set stays known as such. -/
  forever : ∀ x n a f', f.served x n = true → step cf f a = some f' → f'.served x n = true
  /-- A record that a set still reads or writes was taken by it and is in use by a wait. -/
  records : ∀ x w, (f.pc x).record = some w →
    (f.mem.waiter w).place = .taken x (f.op x) ∧ (f.pc w.owner).sleeps
  /-- Every wait that returns and every test that reports ready does so for a set. -/
  served : ∀ t f', f.pc t = .waitValue ∨ f.pc t = .testValue true → advance cf f t = some f' →
    ∃ x n, f.source t = some (x, n) ∧ f'.served x n = true
  /-- When the other calls are over the eventual can go: no call still running touches it. -/
  lifetime : (∀ u, f.pc u = .idle ∨ f.served u (f.op u) = true) → ∀ u, ¬ (f.pc u).touches

theorem stack_eventual_safe {cf : Config} {f : State} (h : Reach (system cf) Free f) :
    StackSafe cf f := by
  obtain ⟨s, _, hsim, q, ch, hp⟩ := reach_sections h
  have hlife := reach_life h
  have hleft : ∀ x n, f.served x n = true → f.op x = n → ¬ (f.pc x).touches := by
    intro x n hx hop
    obtain hlt | ⟨_, hrel⟩ := hlife.served x n hx
    · omega
    · exact released_touches hrel
  refine ⟨hleft, fun x n a f' hx hst => step_served hst hx, fun x w hw => record_sleeps hp hsim hw,
    fun t f' hpc hst => ?_, fun hall u => ?_⟩
  · have hinf : (f.pc t).informed := by
      obtain hpc | hpc := hpc <;> rw [hpc]
      · exact trivial
      · exact rfl
    obtain ⟨⟨x, n⟩, hs⟩ := Option.isSome_iff_exists.mp (hlife.found t hinf)
    refine ⟨x, n, hs, ?_⟩
    obtain hpc | hpc := hpc <;> simp only [advance, hpc] at hst <;> cases hst <;>
      exact report_source hs
  · obtain hidle | hserved := hall u
    · rw [hidle]; exact id
    · exact hleft u _ hserved rfl

/-- An eventual of two bytes, all callers ULTs. -/
def twoBytes : Config := ⟨fun _ => true, fun _ => false, fun _ => 2⟩

/-- Callers 0 and 2 wait, caller 1 sets, and caller 0 returns while the set still has to wake
caller 2. -/
def setStillWalks : List Act :=
  [Act.call 0 .wait] ++ List.replicate 8 (Act.go 0) ++ [Act.callback, .call 2 .wait] ++
    List.replicate 8 (Act.go 2) ++ [Act.callback, .call 1 (.set 2 (some [5, 6]))] ++
    List.replicate 13 (Act.go 1) ++ [Act.go 0, .go 0]

theorem stack_eventual_safe_walking : ∃ f, Reach (system twoBytes) Free f ∧
    (f.pc 0 = .idle ∧ f.ret 0 = some (.success, true) ∧ f.served 1 1 = true ∧
      f.pc 1 = .wakeNext ⟨2, .wait⟩ ∧ f.pc 2 = .blocked) ∧ StackSafe twoBytes f := by
  obtain ⟨f, hr, hf⟩ := (Reach.start rfl : Reach (system twoBytes) Free
    (initial twoBytes)).exists_run
    (fun f => f.pc 0 = .idle ∧ f.ret 0 = some (.success, true) ∧ f.served 1 1 = true ∧
      f.pc 1 = .wakeNext ⟨2, .wait⟩ ∧ f.pc 2 = .blocked) setStillWalks (by decide)
  exact ⟨f, hr, hf, stack_eventual_safe hr⟩

/-- What the calls reach access by access, `Sync.Machine` reaches with every section one step: the
callers are at the same places, and outside of sections the memory is the same. -/
theorem sections_atomic {cf : Config} {f : State} (h : Reach (system cf) Free f) :
    ∃ s, Reach (Sync.system cf) Untimed s ∧ (∀ t, s.pc t = (f.pc t).abs) ∧ s.blk = f.blk ∧
      ((∀ t, ¬ (f.pc t).inside) → f.slock = s.slock (.eventual 0) ∧ f.mem = memory s) := by
  obtain ⟨s, hr, hsim, _⟩ := reach_sections h
  exact ⟨s, hr, hsim.pcs, hsim.blk, hsim.outside⟩

theorem sections_atomic_walking : ∃ s, Reach (Sync.system twoBytes) Untimed s ∧
    s.pc 1 = .wakeNext ⟨2, .wait⟩ .user := by
  obtain ⟨f, hr, hf⟩ := (Reach.start rfl : Reach (system twoBytes) Free _).exists_run
    (fun f => f.pc 1 = .wakeNext ⟨2, .wait⟩) setStillWalks (by decide)
  obtain ⟨s, hs, hpc, _⟩ := sections_atomic hr
  exact ⟨s, hs, by rw [hpc, hf]; rfl⟩

end Access
end AbtReconverse
