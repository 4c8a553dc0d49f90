import AbtReconverse.Objects.Live

/-!
# AbtReconverse.Objects.Effect

What the steps of `Objects.Machine` do to xstreams, schedulers and queues, in the few terms the
lease protocol needs: which pool a step pushes to (`pushes`), which scheduler it destroys
(`destroys`), and that everything else about schedulers and xstreams stays (`Effect`).
-/

namespace AbtReconverse
namespace Objects

/-- The pool that a step pushes a unit to. -/
def pushes (s : State) : Act → Option Nat
  | .threadCreate p _ => some p
  | .threadCreateOnXstream x _ => (s.sched (s.xstream x).mainSched).pools.head?
  | .push p _ => some p
  | .yield t | .wake t => if (s.thread t).kind = .runner then none else (s.thread t).target
  | _ => none

/-- The scheduler that a step destroys. -/
def destroys (s : State) : Act → Option Nat
  | .schedFree i => some i
  | .xstreamFree x =>
    if (s.sched (s.xstream x).mainSched).automatic then some (s.xstream x).mainSched else none
  | .setMainSched x _ _ =>
    if (s.sched (s.xstream x).mainSched).automatic then some (s.xstream x).mainSched else none
  | _ => none

/-- A change of the objects under which leases go on: an xstream goes only when it is finished,
scheduler `d` only is destroyed, and only pool `p` may get a unit. -/
structure Effect (s s' : State) (d p : Option Nat) : Prop where
  nextXstream : s'.nextXstream = s.nextXstream
  nextSched : s.nextSched ≤ s'.nextSched
  rank : ∀ x, (s'.xstream x).rank = (s.xstream x).rank
  main : ∀ x, (s'.xstream x).mainSched = (s.xstream x).mainSched
  released : ∀ x, (s'.xstream x).released = (s.xstream x).released
  finished : ∀ x, (s'.xstream x).finished = (s.xstream x).finished
  live : ∀ x, (s'.xstream x).live = true → (s.xstream x).live = true
  freed : ∀ x, (s.xstream x).live = true →
    (s'.xstream x).live = true ∨ (s.xstream x).finished = true
  pools : ∀ i < s.nextSched, (s'.sched i).pools = (s.sched i).pools
  userDef : ∀ i < s.nextSched, (s'.sched i).userDef = (s.sched i).userDef
  sched : ∀ i < s.nextSched, (s.sched i).live = true → (s'.sched i).live = true ∨ d = some i
  unborn : ∀ i, s'.nextSched ≤ i → (s.sched i).live = false → (s'.sched i).live = false
  units : ∀ q, (s.pool q).units = [] → (s'.pool q).units = [] ∨ p = some q

variable {s s' : State} {d p : Option Nat}

/-- Nothing happens to xstreams and schedulers. -/
theorem Effect.of_same (hx : s'.xstream = s.xstream) (hs : s'.sched = s.sched)
    (hnx : s'.nextXstream = s.nextXstream) (hns : s'.nextSched = s.nextSched)
    (hu : ∀ q, (s.pool q).units = [] → (s'.pool q).units = [] ∨ p = some q) :
    Effect s s' d p where
  nextXstream := hnx
  nextSched := hns.ge
  rank _ := by rw [hx]
  main _ := by rw [hx]
  released _ := by rw [hx]
  finished _ := by rw [hx]
  live _ h := by rwa [hx] at h
  freed _ h := .inl (by rwa [hx])
  pools _ _ := by rw [hs]
  userDef _ _ := by rw [hs]
  sched _ _ h := .inl (by rwa [hs])
  unborn _ _ h := by rwa [hs]
  units := hu

theorem setPool_units {q : Nat} {o : Pool} (ho : (s.pool q).units = [] → o.units = []) (r : Nat)
    (h : (s.pool r).units = []) : ((s.setPool q o).pool r).units = [] := by
  by_cases hr : r = q
  · subst hr
    simpa [State.setPool] using ho h
  · simpa [State.setPool, hr] using h

theorem foldl_hold_units (l : List Nat) (s : State) (q : Nat) :
    ((l.foldl State.hold s).pool q).units = (s.pool q).units := by
  induction l generalizing s with
  | nil => rfl
  | cons a l ih =>
    rw [List.foldl_cons, ih]
    by_cases hq : q = a
    · subst hq; simp [State.hold, State.setPool]
    · simp [State.hold, State.setPool, hq]

theorem foldl_drop_units (l : List Nat) (s : State) (q : Nat) :
    ((l.foldl State.drop s).pool q).units = (s.pool q).units := by
  induction l generalizing s with
  | nil => rfl
  | cons a l ih =>
    rw [List.foldl_cons, ih]
    by_cases hq : q = a
    · subst hq; simp [State.drop, State.setPool, (unhold_spec (s.pool q)).2.2.1]
    · simp [State.drop, State.setPool, hq]

/-- The new pools of a scheduler are empty. -/
theorem pools_frame (l : List (Option Nat)) (s : State) :
    (s.pools l).1.xstream = s.xstream ∧ (s.pools l).1.sched = s.sched ∧
      (s.pools l).1.nextXstream = s.nextXstream ∧ (s.pools l).1.nextSched = s.nextSched ∧
      ∀ q, (s.pool q).units = [] → ((s.pools l).1.pool q).units = [] := by
  induction l generalizing s with
  | nil => exact ⟨rfl, rfl, rfl, rfl, fun _ h => h⟩
  | cons o l ih =>
    cases o with
    | some p => exact ih s
    | none =>
      obtain ⟨h1, h2, h3, h4, h5⟩ := ih (s.newPool true)
      refine ⟨h1, h2, h3, h4, fun q hq => h5 q ?_⟩
      by_cases hne : q = s.nextPool
      · subst hne; simp [State.newPool]
      · simpa [State.newPool, hne] using hq

theorem newSched_effect (s : State) (l : List (Option Nat)) (a u : Bool) :
    Effect s (s.newSched l a u) d p := by
  obtain ⟨hx, hs, hnx, hns, hu⟩ := pools_frame l s
  obtain ⟨⟨es, ex, _, _, en2, en3, _⟩, _⟩ := foldl_hold (s.pools l).2 (s.pools l).1
  have hxs : (s.newSched l a u).xstream = s.xstream := ex.trans hx
  have hold : ∀ i, i ≠ s.nextSched → (s.newSched l a u).sched i = s.sched i := by
    intro i hi
    refine (Function.update_of_ne (hns.symm ▸ hi) ..).trans ?_
    rw [es, hs]
  have hnew : (s.newSched l a u).nextSched = s.nextSched + 1 := congrArg (· + 1) hns
  constructor
  case nextXstream => exact en3.trans hnx
  case nextSched => omega
  case live => intro x h; rwa [hxs] at h
  case freed => intro x h; rw [hxs]; exact .inl h
  case pools => intro i hi; rw [hold i (by omega)]
  case userDef => intro i hi; rw [hold i (by omega)]
  case sched => intro i hi h; rw [hold i (by omega)]; exact .inl h
  case unborn => intro i hi h; rwa [hold i (by omega)]
  case units =>
    intro q hq
    refine .inl ((foldl_hold_units _ _ q).trans (hu q hq))
  all_goals intro x; rw [hxs]

theorem newSched_self (s : State) (l : List (Option Nat)) (a u : Bool) :
    (s.newSched l a u).sched s.nextSched = ⟨true, (s.pools l).2, a, u, none⟩ := by
  obtain ⟨-, -, -, hns, -⟩ := pools_frame l s
  rw [← hns]
  exact Function.update_self ..

theorem destroySched_frame (s : State) (i : Nat) :
    (s.destroySched i).xstream = s.xstream ∧
      (s.destroySched i).sched = Function.update s.sched i { s.sched i with live := false } ∧
      (s.destroySched i).nextXstream = s.nextXstream ∧ (s.destroySched i).nextSched = s.nextSched ∧
      ∀ q, ((s.destroySched i).pool q).units = (s.pool q).units := by
  obtain ⟨⟨es, ex, _, _, en2, en3, _⟩, _⟩ := foldl_drop (s.sched i).pools s
  refine ⟨ex, ?_, en3, en2, foldl_drop_units _ _⟩
  simp only [State.destroySched, State.setSched, es]

theorem destroySched_effect (s : State) (i : Nat) : Effect s (s.destroySched i) (some i) p := by
  obtain ⟨hx, hs, hnx, hns, hu⟩ := destroySched_frame s i
  constructor
  case nextXstream => exact hnx
  case nextSched => exact hns.ge
  case live => intro x h; rwa [hx] at h
  case freed => intro x h; rw [hx]; exact .inl h
  case sched =>
    intro j _ h
    by_cases hj : j = i
    · subst hj; exact .inr rfl
    · rw [hs, Function.update_of_ne hj]; exact .inl h
  case unborn =>
    intro j _ h
    by_cases hj : j = i
    · subst hj; simp [hs]
    · rwa [hs, Function.update_of_ne hj]
  case units => intro q hq; rw [hu]; exact .inl hq
  case pools | userDef =>
    intro j _
    by_cases hj : j = i
    · subst hj; simp [hs]
    · rw [hs, Function.update_of_ne hj]
  all_goals intro x; rw [hx]

/-- An xstream starts to finish, or goes when it is finished. -/
theorem setXstream_effect {x : Nat} {o : Xstream} (hr : o.rank = (s.xstream x).rank)
    (hm : o.mainSched = (s.xstream x).mainSched) (hrel : o.released = (s.xstream x).released)
    (hf : o.finished = (s.xstream x).finished) (hl : o.live = true → (s.xstream x).live = true)
    (hd : (s.xstream x).live = true → o.live = true ∨ (s.xstream x).finished = true) :
    Effect s (s.setXstream x o) d p := by
  have hself : (s.setXstream x o).xstream x = o := Function.update_self ..
  have hother : ∀ y, y ≠ x → (s.setXstream x o).xstream y = s.xstream y :=
    fun y hy => Function.update_of_ne hy ..
  constructor
  case nextXstream => rfl
  case nextSched => exact Nat.le_refl _
  case pools | userDef => intro _ _; rfl
  case sched => intro _ _ h; exact .inl h
  case unborn => intro _ _ h; exact h
  case units => intro _ h; exact .inl h
  case live =>
    intro y
    by_cases hy : y = x
    · subst hy; rw [hself]; exact hl
    · rw [hother y hy]; exact id
  case freed =>
    intro y
    by_cases hy : y = x
    · subst hy; rw [hself]; exact hd
    · rw [hother y hy]; exact .inl
  all_goals
    intro y
    by_cases hy : y = x
    · subst hy; rw [hself]; assumption
    · rw [hother y hy]

theorem Effect.trans {s₁ s₂ : State} (h : Effect s s₁ d p) (h' : Effect s₁ s₂ d p) :
    Effect s s₂ d p where
  nextXstream := h'.nextXstream.trans h.nextXstream
  nextSched := h.nextSched.trans h'.nextSched
  rank x := (h'.rank x).trans (h.rank x)
  main x := (h'.main x).trans (h.main x)
  released x := (h'.released x).trans (h.released x)
  finished x := (h'.finished x).trans (h.finished x)
  live x hx := h.live x (h'.live x hx)
  freed x hx := (h.freed x hx).elim
    (fun h1 => (h'.freed x h1).imp_right fun hf => (h.finished x).symm.trans hf) .inr
  pools i hi := (h'.pools i (hi.trans_le h.nextSched)).trans (h.pools i hi)
  userDef i hi := (h'.userDef i (hi.trans_le h.nextSched)).trans (h.userDef i hi)
  sched i hi hl := (h.sched i hi hl).elim (h'.sched i (hi.trans_le h.nextSched)) .inr
  unborn i hi hl := h'.unborn i hi (h.unborn i (h'.nextSched.trans hi) hl)
  units q hq := (h.units q hq).elim (h'.units q) .inr

theorem push_units (t q : Nat) (target : Option Nat) (h : (s.pool q).units = []) :
    ((s.push t target).pool q).units = [] ∨ target = some q := by
  cases target with
  | none => exact .inl h
  | some p =>
    by_cases hq : q = p
    · exact .inr (congrArg some hq.symm)
    · exact .inl (by simpa [State.push, State.setPool, hq] using h)

theorem unblock_units (t q : Nat) (h : (s.pool q).units = []) :
    ((s.unblock t).pool q).units = [] := by
  unfold State.unblock
  split
  · exact setPool_units (by exact id) q h
  · exact h

theorem awaken_effect (s : State) (t : Nat) : Effect s (s.awaken t) d
    (if (s.thread t).kind = .runner then none else (s.thread t).target) := by
  unfold State.awaken
  split
  · exact .of_same rfl rfl rfl rfl fun _ h => .inl h
  · have hframe : ∀ (s : State) (o : Option Nat), (s.push t o).xstream = s.xstream ∧
        (s.push t o).sched = s.sched ∧ (s.push t o).nextXstream = s.nextXstream ∧
        (s.push t o).nextSched = s.nextSched := by
      intro s o
      cases o <;> exact ⟨rfl, rfl, rfl, rfl⟩
    have hblock : (s.unblock t).xstream = s.xstream ∧ (s.unblock t).sched = s.sched ∧
        (s.unblock t).nextXstream = s.nextXstream ∧ (s.unblock t).nextSched = s.nextSched := by
      unfold State.unblock
      split <;> exact ⟨rfl, rfl, rfl, rfl⟩
    obtain ⟨h1, h2, h3, h4⟩ := hframe (s.unblock t) (s.thread t).target
    obtain ⟨g1, g2, g3, g4⟩ := hblock
    exact .of_same (h1.trans g1) (h2.trans g2) (h3.trans g3) (h4.trans g4)
      fun q hq => push_units t q _ (unblock_units t q hq)

theorem newThread_effect (s : State) (q : Nat) (k : Kind) :
    Effect s (s.newThread q k) d (some q) :=
  .of_same rfl rfl rfl rfl fun r hr => push_units (s := s) s.nextThread r (some q) hr

/-- Every step but those of the lease protocol itself has an `Effect`. -/
theorem step_effect {a : Act} (hs : step s a = some s') (hc : ∀ i r, a ≠ .xstreamCreate i r)
    (hm : ∀ x i t, a ≠ .setMainSched x i t) (hi : ∀ x, a ≠ .idle x)
    (hr : ∀ x, a ≠ .runnerEnd x) (hrel : ∀ x, a ≠ .release x) (hf : a ≠ .finalize) :
    Effect s s' (destroys s a) (pushes s a) := by
  cases a with
  | xstreamCreate i r => exact absurd rfl (hc i r)
  | setMainSched x i t => exact absurd rfl (hm x i t)
  | idle x => exact absurd rfl (hi x)
  | runnerEnd x => exact absurd rfl (hr x)
  | release x => exact absurd rfl (hrel x)
  | finalize => exact absurd rfl hf
  | poolCreate a =>
    cases hs
    refine .of_same rfl rfl rfl rfl fun q hq => .inl ?_
    by_cases hne : q = s.nextPool
    · subst hne; simp [State.newPool]
    · simpa [State.newPool, hne] using hq
  | schedCreate l a u =>
    simp only [step] at hs
    split at hs <;> cases hs
    exact newSched_effect s l a u
  | schedFree i =>
    simp only [step] at hs
    split at hs <;> cases hs
    exact destroySched_effect s i
  | xstreamJoin x =>
    simp only [step] at hs
    split at hs <;> cases hs
    exact setXstream_effect rfl rfl rfl rfl id .inl
  | xstreamFree x =>
    simp only [step] at hs
    split at hs <;> cases hs
    rename_i hx
    simp only [destroys]
    split
    · have h1 := destroySched_effect (p := pushes s (.xstreamFree x)) s (s.xstream x).mainSched
      refine h1.trans ?_
      have he : (s.destroySched (s.xstream x).mainSched).xstream x = s.xstream x :=
        congrFun (destroySched_frame s _).1 x
      refine setXstream_effect ?_ ?_ ?_ ?_ (by simp) fun _ => .inr ?_ <;> rw [he]
      exact hx.2
    · exact setXstream_effect rfl rfl rfl rfl (by simp) fun _ => .inr hx.2
  | threadCreate q k =>
    simp only [step] at hs
    split at hs <;> cases hs
    exact newThread_effect s q k
  | threadCreateOnXstream x k =>
    simp only [step] at hs
    split at hs
    · split at hs <;> cases hs
      rename_i q l hq
      simp only [pushes, hq, List.head?_cons]
      exact newThread_effect s q k
    · cases hs
  | push q t =>
    simp only [step] at hs
    split at hs <;> cases hs
    exact .of_same rfl rfl rfl rfl fun r hr => push_units t r (some q) hr
  | yield t =>
    simp only [step] at hs
    split at hs <;> cases hs
    exact awaken_effect s t
  | wake t =>
    simp only [step] at hs
    split at hs <;> cases hs
    exact awaken_effect s t
  | pop q t =>
    simp only [step] at hs
    split at hs <;> cases hs
    exact .of_same rfl rfl rfl rfl fun r hr => .inl (setPool_units (fun h => by simp [h]) r hr)
  | block t =>
    simp only [step] at hs
    split at hs
    · split at hs <;> cases hs
      · exact .of_same rfl rfl rfl rfl fun _ h => .inl h
      · exact .of_same rfl rfl rfl rfl fun r hr => .inl (setPool_units (by exact id) r hr)
    · cases hs
  | poolFree q =>
    simp only [step] at hs
    split at hs <;> cases hs
    exact .of_same rfl rfl rfl rfl fun r hr => .inl (setPool_units (by exact id) r hr)
  | exit t | migrateToXstream t x =>
    simp only [step] at hs
    split at hs
    · split at hs <;> cases hs
      all_goals exact .of_same rfl rfl rfl rfl fun _ h => .inl h
    · cases hs
  | runnerStart x i | run x t | threadFree t | migrateToPool t q | setAssociatedPool t q =>
    simp only [step] at hs
    split at hs <;> cases hs
    exact .of_same rfl rfl rfl rfl fun _ h => .inl h

/-- What `ABT_xstream_set_main_sched` does at once. -/
theorem setMainSched_effect {x i : Nat} {self : Option Nat}
    (hs : step s (.setMainSched x i self) = some s') :
    ((s.xstream x).live = true ∧ (s.sched i).live = true ∧ i ≠ (s.xstream x).mainSched) ∧
    s'.xstream = Function.update s.xstream x { s.xstream x with mainSched := i } ∧
    s'.nextXstream = s.nextXstream ∧ s'.nextSched = s.nextSched ∧
    (∀ j, (s'.sched j).pools = (s.sched j).pools ∧ (s'.sched j).userDef = (s.sched j).userDef ∧
      ((s'.sched j).live = (s.sched j).live ∨
        (s'.sched j).live = false ∧ destroys s (.setMainSched x i self) = some j)) ∧
    ∀ q, (s'.pool q).units = (s.pool q).units := by
  obtain ⟨th, sc, he, hsc⟩ := Inv.replaceSched_frame s x i self
  have hsame : ∀ j, (sc j).pools = (s.sched j).pools ∧ (sc j).userDef = (s.sched j).userDef ∧
      (sc j).live = (s.sched j).live := by
    intro j
    obtain ⟨u, hu⟩ := hsc j
    rw [hu]
    exact ⟨rfl, rfl, rfl⟩
  simp only [step] at hs
  split at hs <;> cases hs
  rename_i hc
  refine ⟨⟨hc.1, hc.2.1, hc.2.2.1⟩, ?_⟩
  simp only [destroys]
  split
  · obtain ⟨h1, h2, h3, h4, h5⟩ :=
      destroySched_frame (s.replaceSched x i self) (s.xstream x).mainSched
    refine ⟨?_, ?_, ?_, fun j => ?_, fun q => ?_⟩
    · rw [h1, he]
    · rw [h3, he]
    · rw [h4, he]
    rotate_left
    · rw [h5, he]
    rw [h2, he]
    by_cases hj : j = (s.xstream x).mainSched
    · subst hj
      simp [hsame]
    · simp [hj, hsame]
  · rw [he]
    exact ⟨rfl, rfl, rfl, fun j => ⟨(hsame j).1, (hsame j).2.1, .inl (hsame j).2.2⟩, fun _ => rfl⟩

end Objects
end AbtReconverse
