import AbtReconverse.Api.Book

/-!
# AbtReconverse.Api.Failure

What a failed creation leaves behind. `Untouched`: the pools that existed are alive and counted as
before, the table of xstreams is the same, and no scheduler has another user.

The checks come before anything is built in `ABT_sched_create_basic`, `ABT_xstream_create` and
`ABT_xstream_create_with_rank`. The other calls build a scheduler over the caller's pools first.
`ABT_xstream_create_basic` and `ABT_xstream_set_main_sched_basic` keep it when a later check fails,
so every pool that was passed in stays counted; `ABT_sched_create` undoes it by the destructor,
which takes an idle automatic pool that no other scheduler holds along.
-/

namespace AbtReconverse
namespace Api

/-- The entries of `pools` that a call looks at. -/
def PoolArgs.passed (args : PoolArgs) : List (Option Nat) :=
  match args.pools with
  | none => []
  | some l => l.take args.num.toNat

def Untouched (s s' : State) : Prop :=
  (∀ p < s.objects.nextPool, (s'.objects.pool p).live = (s.objects.pool p).live ∧
    (s'.objects.pool p).numScheds = (s.objects.pool p).numScheds) ∧
  s'.table = s.table ∧
  ∀ i < s.objects.nextSched, (s'.objects.sched i).usedBy = (s.objects.sched i).usedBy

/-- An automatic pool that holds nothing, with no scheduler but the one that is being created. -/
def Frail (s : State) (args : PoolArgs) (p : Nat) : Prop :=
  (s.objects.pool p).live = true ∧ (s.objects.pool p).automatic = true ∧
  (s.objects.pool p).units = [] ∧ (s.objects.pool p).numBlocked = 0 ∧
  (s.objects.pool p).numScheds ≤ 0 ∧
  0 < (s.objects.pool p).numScheds + args.passed.count (some p)

section

variable {s s' : State} {args : PoolArgs} {p : Nat}

theorem Untouched.refl (s : State) : Untouched s s :=
  ⟨fun _ _ => ⟨rfl, rfl⟩, rfl, fun _ _ => rfl⟩

theorem count_poolList (d : SchedPredef) (args : PoolArgs) (p : Nat) :
    (poolList d args).count (some p) = args.passed.count (some p) := by
  cases hargs : args.pools with
  | none => simp [poolList, PoolArgs.passed, hargs, List.count_replicate]
  | some l => simp only [poolList, PoolArgs.passed, hargs]

/-- The pools that are there when a scheduler is created. -/
theorem pools_old (o : Objects.State) (l : List (Option Nat)) (hp : p < o.nextPool) :
    (o.pools l).1.pool p = o.pool p ∧ (o.pools l).2.count p = l.count (some p) := by
  induction l generalizing o with
  | nil => exact ⟨rfl, rfl⟩
  | cons q l ih =>
    cases q with
    | some q =>
      obtain ⟨h₁, h₂⟩ := ih o hp
      refine ⟨h₁, ?_⟩
      simp only [Objects.State.pools, List.count_cons, h₂, beq_iff_eq, Option.some.injEq]
    | none =>
      obtain ⟨h₁, h₂⟩ := ih (o.newPool true) (Nat.lt_succ_of_lt hp)
      have hne : p ≠ o.nextPool := Nat.ne_of_lt hp
      refine ⟨h₁.trans (Function.update_of_ne hne _ _), ?_⟩
      simp only [Objects.State.pools, List.count_cons, h₂, beq_iff_eq, Ne.symm hne, if_false,
        reduceCtorEq]

theorem foldl_hold_pool (l : List Nat) (o : Objects.State) (p : Nat) :
    (l.foldl Objects.State.hold o).pool p =
      { o.pool p with numScheds := (o.pool p).numScheds + l.count p } := by
  induction l generalizing o with
  | nil => simp
  | cons q l ih =>
    rw [List.foldl_cons, ih, List.count_cons]
    by_cases hq : p = q
    · subst hq
      simp only [Objects.State.hold, Objects.State.setPool, Function.update_self, beq_self_eq_true,
        if_true, Objects.Pool.mk.injEq, true_and, and_true]
      push_cast
      omega
    · simp [Objects.State.hold, Objects.State.setPool, hq, Ne.symm hq]

theorem newSched_pool (o : Objects.State) (l : List (Option Nat)) (a u : Bool) (hp : p < o.nextPool) :
    (o.newSched l a u).pool p =
      { o.pool p with numScheds := (o.pool p).numScheds + l.count (some p) } := by
  obtain ⟨h₁, h₂⟩ := pools_old o l hp
  simp only [Objects.State.newSched, Objects.State.addSched, foldl_hold_pool, h₁, h₂]

/-- Exactly which pools `ABTI_sched_destroy` destroys. -/
theorem foldl_drop_live (l : List Nat) (o : Objects.State) (p : Nat) :
    ((l.foldl Objects.State.drop o).pool p).live = true ↔ (o.pool p).live = true ∧
      ¬ ((o.pool p).automatic = true ∧ (o.pool p).units = [] ∧ (o.pool p).numBlocked = 0 ∧
        0 < (o.pool p).numScheds ∧ (o.pool p).numScheds ≤ l.count p) := by
  induction l generalizing o with
  | nil =>
    refine ⟨fun h => ⟨h, ?_⟩, fun h => h.1⟩
    rintro ⟨-, -, -, hpos, hle⟩
    rw [List.count_nil] at hle
    omega
  | cons q l ih =>
    rw [List.foldl_cons, ih]
    by_cases hq : p = q
    · subst hq
      have hpool : (o.drop p).pool p = (o.pool p).unhold := Function.update_self ..
      rw [hpool, List.count_cons_self]
      unfold Objects.Pool.unhold
      split
      · rename_i hc
        obtain ⟨hn, ha, hu, hb⟩ := hc
        refine ⟨fun h => absurd h.1 (by simp), fun h => absurd ⟨ha, hu, hb, ?_, ?_⟩ h.2⟩ <;> omega
      · rename_i hc
        dsimp only
        refine and_congr_right fun _ => not_congr ?_
        constructor
        · rintro ⟨ha, hu, hb, hpos, hle⟩
          exact ⟨ha, hu, hb, by omega, by omega⟩
        · rintro ⟨ha, hu, hb, hpos, hle⟩
          have hne : (o.pool p).numScheds - 1 ≠ 0 := fun h0 => hc ⟨h0, ha, hu, hb⟩
          exact ⟨ha, hu, hb, by omega, by omega⟩
    · have hpool : (o.drop q).pool p = o.pool p := Function.update_of_ne hq ..
      rw [hpool, List.count_cons_of_ne (Ne.symm hq)]

/-- A scheduler is built: the pools that were passed in are counted once more. -/
theorem created_pool {d : Option SchedPredef} {a u : Bool}
    (h : s.schedCreatePredef d args a u = .ok s') (hp : p < s.objects.nextPool) :
    s'.objects.pool p = { s.objects.pool p with
      numScheds := (s.objects.pool p).numScheds + args.passed.count (some p) } := by
  cases d with
  | none => simp [State.schedCreatePredef] at h
  | some d =>
    simp only [State.schedCreatePredef] at h
    split at h
    · simp at h
    · cases h
      rw [← count_poolList d args p]
      exact newSched_pool s.objects _ a u hp

theorem created_rest {d : Option SchedPredef} {a u : Bool}
    (h : s.schedCreatePredef d args a u = .ok s') : s'.table = s.table ∧
      ∀ i < s.objects.nextSched, (s'.objects.sched i).usedBy = (s.objects.sched i).usedBy := by
  have hb := book_create h
  refine ⟨congrArg Book.table hb, fun i hi => ?_⟩
  exact (congrFun (congrArg Book.usedBy hb) i).trans (Function.update_of_ne (Nat.ne_of_lt hi) _ _)

/-- The scheduler stays: nothing is touched only if no pool was passed in. -/
theorem created_untouched {d : Option SchedPredef} {a u : Bool}
    (h : s.schedCreatePredef d args a u = .ok s')
    (hargs : ∀ p, some p ∈ args.passed → p < s.objects.nextPool) :
    Untouched s s' ↔ ∀ p, some p ∉ args.passed := by
  constructor
  · intro hu p hp
    have hcount := (hu.1 p (hargs p hp)).2
    rw [created_pool h (hargs p hp)] at hcount
    have hpos : 0 < args.passed.count (some p) := List.count_pos_iff.mpr hp
    simp only at hcount
    omega
  · intro hno
    refine ⟨fun p hp => ?_, created_rest h⟩
    rw [created_pool h hp, List.count_eq_zero_of_not_mem (hno p)]
    simp

/-- The scheduler is destroyed again: the counts are as before, but a frail pool is gone. -/
theorem undone_untouched (h : s.schedCreatePredef (some .basic) args false true = .ok s')
    (hargs : ∀ p, some p ∈ args.passed → p < s.objects.nextPool) :
    Untouched s (s'.schedDestroy s.objects.nextSched) ↔
      ∀ p, some p ∈ args.passed → ¬ Frail s args p := by
  obtain ⟨htable, hused⟩ := created_rest h
  have hpools : (s'.objects.sched s.objects.nextSched).pools =
      (s.objects.pools (poolList .basic args)).2 := by
    simp only [State.schedCreatePredef] at h
    split at h
    · simp at h
    · cases h
      obtain ⟨-, -, -, hns, -⟩ := Objects.pools_frame (poolList .basic args) s.objects
      simp only [Objects.State.newSched, Objects.State.addSched, hns, Function.update_self]
  have hold : ∀ p < s.objects.nextPool, (s'.objects.sched s.objects.nextSched).pools.count p =
      args.passed.count (some p) := by
    intro p hp
    rw [hpools, (pools_old s.objects _ hp).2, count_poolList]
  have hcount : ∀ p < s.objects.nextPool, ((s'.schedDestroy s.objects.nextSched).objects.pool
      p).numScheds = (s.objects.pool p).numScheds := by
    intro p hp
    refine ((Objects.foldl_drop _ s'.objects).2 p).1.trans ?_
    rw [hold p hp, created_pool h hp]
    simp only
    omega
  have hlive : ∀ p < s.objects.nextPool, (((s'.schedDestroy s.objects.nextSched).objects.pool
      p).live = true ↔ (s.objects.pool p).live = true ∧ ¬ Frail s args p) := by
    intro p hp
    refine (foldl_drop_live _ s'.objects p).trans ?_
    rw [hold p hp, created_pool h hp]
    simp only [Frail]
    refine and_congr_right fun hl => not_congr ?_
    constructor
    · rintro ⟨ha, hu, hb, hpos, hle⟩
      exact ⟨hl, ha, hu, hb, by omega, hpos⟩
    · rintro ⟨-, ha, hu, hb, hle, hpos⟩
      exact ⟨ha, hu, hb, hpos, by omega⟩
  constructor
  · intro hu p hp hfrail
    have hl := (hu.1 p (hargs p hp)).1
    rw [hfrail.1] at hl
    exact ((hlive p (hargs p hp)).mp hl).2 hfrail
  · intro hno
    refine ⟨fun p hp => ⟨?_, hcount p hp⟩, htable, fun i hi => ?_⟩
    · rw [Bool.eq_iff_iff, hlive p hp]
      refine ⟨fun hl => hl.1, fun hl => ⟨hl, fun hfrail => ?_⟩⟩
      by_cases hmem : some p ∈ args.passed
      · exact hno p hmem hfrail
      · obtain ⟨-, -, -, -, hle, hpos⟩ := hfrail
        rw [List.count_eq_zero_of_not_mem hmem] at hpos
        omega
    · have hb := book_destroy s' s.objects.nextSched
      exact (congrFun (congrArg Book.usedBy hb) i).trans (hused i hi)

/-! ## The calls -/

/-- If the call fails, the state after it satisfies `P`. -/
def OnFailure (P : State → Prop) (r : Code × State) : Prop := r.1 ≠ .success → P r.2

theorem OnFailure.success {P : State → Prop} : OnFailure P (.success, s) := fun h => absurd rfl h

/-- A check that refuses the call. -/
theorem OnFailure.check {P : State → Prop} {c : Prop} [Decidable c] {e : Code} {r : Code × State}
    (h₀ : c → P s) (h : ¬ c → OnFailure P r) : OnFailure P (if c then (e, s) else r) := by
  split
  · rename_i hc
    exact fun _ => h₀ hc
  · rename_i hc
    exact h hc

theorem lease_failed (s : State) (i : Nat) (want : Int) :
    OnFailure (· = s) (s.xstreamLease i want) := by
  unfold State.xstreamLease
  split
  · exact fun _ => rfl
  · exact OnFailure.success

/-- A default scheduler has a pool of its own. -/
theorem createOn_failed (s : State) (sched : Option Nat) (want : Int) :
    OnFailure (Untouched s) (s.createOn sched want) := by
  cases sched with
  | none =>
    simp only [State.createOn]
    cases hc : s.schedCreatePredef (some .default) ⟨0, none⟩ true false with
    | error e => exact fun _ => Untouched.refl s
    | ok s' =>
      intro h
      rw [lease_failed s' _ want h]
      exact (created_untouched hc fun p hp => absurd hp (by simp [PoolArgs.passed])).mpr
        fun p => by simp [PoolArgs.passed]
  | some i =>
    refine OnFailure.check (fun _ => Untouched.refl s) fun _ h => ?_
    rw [lease_failed s i want h]
    exact Untouched.refl s

/-- The fresh scheduler has no user, so only the output pointer and the rank can be wrong. -/
theorem created_then_failed {d : Option SchedPredef}
    (h : s.schedCreatePredef d args true false = .ok s') (o : Bool) :
    OnFailure (· = s') (s'.xstreamCreate (some s.objects.nextSched) o) := by
  have hfresh : (s'.objects.sched s.objects.nextSched).usedBy = none :=
    (congrFun (congrArg Book.usedBy (book_create h)) s.objects.nextSched).trans
      (Function.update_self ..)
  simp only [State.xstreamCreate, State.createOn, hfresh, Option.isSome_none, Bool.false_eq_true,
    if_false]
  exact OnFailure.check (fun _ => rfl) fun _ => OnFailure.check (fun _ => rfl) fun _ =>
    lease_failed s' _ _

theorem setMainSched_failed (s : State) (x i t : Option Nat) :
    OnFailure (· = s) (s.setMainSched x i t) := by
  refine OnFailure.check (fun _ => rfl) fun _ => ?_
  cases x with
  | none => exact fun _ => rfl
  | some x =>
    cases i with
    | none => exact fun _ => rfl
    | some i =>
      exact OnFailure.check (fun _ => rfl) fun _ => OnFailure.check (fun _ => rfl) fun _ =>
        OnFailure.success

/-- A scheduler is built exactly when its arguments pass the checks. -/
theorem schedCreatePredef_cases (s : State) (d : Option SchedPredef) (args : PoolArgs) (a u : Bool) :
    (∃ e, s.schedCreatePredef d args a u = .error e) ∧ ¬ (d.isSome = true ∧ 0 ≤ args.num) ∨
      (∃ s', s.schedCreatePredef d args a u = .ok s') ∧ d.isSome = true ∧ 0 ≤ args.num := by
  cases d with
  | none => exact .inl ⟨⟨_, rfl⟩, by simp⟩
  | some d =>
    by_cases hn : args.num < 0
    · refine .inl ⟨⟨.invArg, by simp only [State.schedCreatePredef, if_pos hn]⟩, fun h => ?_⟩
      omega
    · exact .inr ⟨⟨_, by simp only [State.schedCreatePredef, if_neg hn]; rfl⟩, rfl, by omega⟩

theorem schedCreate_failed (hargs : ∀ p, some p ∈ args.passed → p < s.objects.nextPool)
    (d : Option SchedDef) (o : Bool) :
    OnFailure (fun s' => Untouched s s' ↔
      (s.initialized = true ∧ o = true ∧ (∃ e, d = some e ∧ e.run = true) ∧ 0 ≤ args.num →
        ∀ p, some p ∈ args.passed → ¬ Frail s args p)) (s.schedCreate d args o) := by
  -- a call that is refused by a check changes nothing, and its arguments do not meet the premise
  have hnone : ∀ {Q R : Prop}, ¬ Q → (Untouched s s ↔ (Q → R)) :=
    fun hq => ⟨fun _ h => absurd h hq, fun _ => Untouched.refl s⟩
  refine OnFailure.check (fun hi => hnone fun h => by simp [h.1] at hi) fun hi => ?_
  cases d with
  | none => exact fun _ => hnone fun h => by simp at h
  | some d =>
    refine OnFailure.check (fun ho => hnone fun h => by simp [h.2.1] at ho) fun ho => ?_
    refine OnFailure.check (fun hr => hnone fun h => ?_) fun hr => ?_
    · obtain ⟨e, he, hrun⟩ := h.2.2.1
      cases he
      simp [hrun] at hr
    · obtain ⟨⟨e, hc⟩, hno⟩ | ⟨⟨s', hc⟩, -, hnum⟩ :=
        schedCreatePredef_cases s (some .basic) args false true
      · simp only [hc]
        exact fun _ => hnone fun h => hno ⟨rfl, h.2.2.2⟩
      · simp only [hc]
        have hall : s.initialized = true ∧ o = true ∧ (∃ e, some d = some e ∧ e.run = true) ∧
            0 ≤ args.num := ⟨by simpa using hi, by simpa using ho, ⟨d, rfl, by simpa using hr⟩, hnum⟩
        cases d.init with
        | none => exact OnFailure.success
        | some r =>
          dsimp only
          split
          · exact OnFailure.success
          · refine fun _ => (undone_untouched hc hargs).trans ?_
            exact ⟨fun h _ => h, fun h => h hall⟩

theorem schedCreateBasic_failed (s : State) (d : Option SchedPredef) (args : PoolArgs)
    (a : Option Bool) (o : Bool) : OnFailure (Untouched s) (s.schedCreateBasic d args a o) := by
  refine OnFailure.check (fun _ => Untouched.refl s) fun _ =>
    OnFailure.check (fun _ => Untouched.refl s) fun _ => ?_
  split
  · exact fun _ => Untouched.refl s
  · exact OnFailure.success

theorem xstreamCreateBasic_failed (hargs : ∀ p, some p ∈ args.passed → p < s.objects.nextPool)
    (d : Option SchedPredef) (o : Bool) :
    OnFailure (fun s' => Untouched s s' ↔
      (s.initialized = true ∧ d.isSome = true ∧ 0 ≤ args.num → ∀ p, some p ∉ args.passed))
      (s.xstreamCreateBasic d args o) := by
  refine OnFailure.check (fun hi => ?_) fun hi => ?_
  · exact ⟨fun _ h => by simp [h.1] at hi, fun _ => Untouched.refl s⟩
  · obtain ⟨⟨e, hc⟩, hno⟩ | ⟨⟨s', hc⟩, hd, hnum⟩ := schedCreatePredef_cases s d args true false
    · simp only [hc]
      exact fun _ => ⟨fun _ h => absurd h.2 hno, fun _ => Untouched.refl s⟩
    · simp only [hc]
      intro h
      rw [created_then_failed hc o h, created_untouched hc hargs]
      exact ⟨fun h _ => h, fun h => h ⟨by simpa using hi, hd, hnum⟩⟩

theorem setMainSchedBasic_failed (hargs : ∀ p, some p ∈ args.passed → p < s.objects.nextPool)
    (x : Option Nat) (d : Option SchedPredef) (t : Option Nat) :
    OnFailure (fun s' => Untouched s s' ↔
      (d.isSome = true ∧ 0 ≤ args.num → ∀ p, some p ∉ args.passed))
      (s.setMainSchedBasic x d args t) := by
  unfold State.setMainSchedBasic
  obtain ⟨⟨e, hc⟩, hno⟩ | ⟨⟨s', hc⟩, hok⟩ := schedCreatePredef_cases s d args true false
  · simp only [hc]
    exact fun _ => ⟨fun _ h => absurd h hno, fun _ => Untouched.refl s⟩
  · simp only [hc]
    intro h
    rw [setMainSched_failed s' x _ t h, created_untouched hc hargs]
    exact ⟨fun h _ => h, fun h => h hok⟩

end

/-- When a creation fails: `ABT_sched_create_basic`, `ABT_xstream_create` and
`ABT_xstream_create_with_rank` leave no trace; `ABT_sched_create` leaves none exactly when no frail
pool was passed in, the two others exactly when no pool was, unless the arguments were refused before
a scheduler was built. -/
theorem failed_creation (s : State) (args : PoolArgs)
    (hargs : ∀ p, some p ∈ args.passed → p < s.objects.nextPool) :
    (∀ d o, (s.schedCreate d args o).1 ≠ .success → (Untouched s (s.schedCreate d args o).2 ↔
      (s.initialized = true ∧ o = true ∧ (∃ e, d = some e ∧ e.run = true) ∧ 0 ≤ args.num →
        ∀ p, some p ∈ args.passed → ¬ Frail s args p))) ∧
    (∀ d a o, (s.schedCreateBasic d args a o).1 ≠ .success →
      Untouched s (s.schedCreateBasic d args a o).2) ∧
    (∀ i o, (s.xstreamCreate i o).1 ≠ .success → Untouched s (s.xstreamCreate i o).2) ∧
    (∀ i r, (s.xstreamCreateWithRank i r).1 ≠ .success →
      Untouched s (s.xstreamCreateWithRank i r).2) ∧
    (∀ d o, (s.xstreamCreateBasic d args o).1 ≠ .success →
      (Untouched s (s.xstreamCreateBasic d args o).2 ↔
        (s.initialized = true ∧ d.isSome = true ∧ 0 ≤ args.num → ∀ p, some p ∉ args.passed))) ∧
    ∀ x d t, (s.setMainSchedBasic x d args t).1 ≠ .success →
      (Untouched s (s.setMainSchedBasic x d args t).2 ↔
        (d.isSome = true ∧ 0 ≤ args.num → ∀ p, some p ∉ args.passed)) := by
  refine ⟨schedCreate_failed hargs, fun d => schedCreateBasic_failed s d args, fun i o => ?_,
    fun i r => ?_, xstreamCreateBasic_failed hargs, setMainSchedBasic_failed hargs⟩
  · exact OnFailure.check (fun _ => Untouched.refl s) fun _ =>
      OnFailure.check (fun _ => Untouched.refl s) fun _ => createOn_failed s i (-1)
  · exact OnFailure.check (fun _ => Untouched.refl s) fun _ => createOn_failed s i r

/-- Two PEs, both with an xstream, and one pool of the user's, automatic or not. -/
def withPool (automatic : Bool) : State :=
  (call (call (initial 2) (.poolCreate automatic)).2 (.xstreamCreate none true)).2

/-- A pool that is not automatic survives a failing `init`. -/
theorem failed_creation_init :
    ((withPool false).schedCreate (some ⟨true, some 5⟩) ⟨1, some [some 1]⟩ true).1 ≠ .success ∧
    Untouched (withPool false)
      ((withPool false).schedCreate (some ⟨true, some 5⟩) ⟨1, some [some 1]⟩ true).2 := by
  have h := (failed_creation (withPool false) ⟨1, some [some 1]⟩ (by
    intro p hp
    simp only [PoolArgs.passed, Int.toNat_one, List.take_succ_cons, List.take_zero,
      List.mem_singleton, Option.some.injEq] at hp
    subst hp
    decide)).1 (some ⟨true, some 5⟩) true (by decide)
  refine ⟨by decide, h.mpr fun _ p hp hfrail => ?_⟩
  simp only [PoolArgs.passed, Int.toNat_one, List.take_succ_cons, List.take_zero,
    List.mem_singleton, Option.some.injEq] at hp
  subst hp
  exact absurd hfrail.2.1 (by decide)

/-- A failing `init` destroys the caller's automatic pool; a null output pointer, a missing rank and a
null xstream handle leave its `num_scheds` raised. -/
theorem failed_creation_traces :
    ((withPool true).schedCreate (some ⟨true, some 5⟩) ⟨1, some [some 1]⟩ true).1 = .callback 5 ∧
    (((withPool true).schedCreate (some ⟨true, some 5⟩) ⟨1, some [some 1]⟩ true).2.objects.pool
      1).live = false ∧
    ((withPool true).xstreamCreateBasic (some .basic) ⟨1, some [some 1]⟩ false).1 = .invArg ∧
    (((withPool true).xstreamCreateBasic (some .basic) ⟨1, some [some 1]⟩ false).2.objects.pool
      1).numScheds = 1 ∧
    ((withPool true).xstreamCreateBasic (some .basic) ⟨1, some [some 1]⟩ true).1 =
      .invXstreamRank ∧
    (((withPool true).xstreamCreateBasic (some .basic) ⟨1, some [some 1]⟩ true).2.objects.pool
      1).numScheds = 1 ∧
    ((withPool true).setMainSchedBasic none (some .basic) ⟨1, some [some 1]⟩ none).1 =
      .invXstream ∧
    (((withPool true).setMainSchedBasic none (some .basic) ⟨1, some [some 1]⟩ none).2.objects.pool
      1).numScheds = 1 ∧
    ((withPool true).objects.pool 1).live = true ∧
    ((withPool true).objects.pool 1).numScheds = 0 := by
  decide

end Api
end AbtReconverse
