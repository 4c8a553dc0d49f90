import AbtReconverse.Api.Book

/-!
# AbtReconverse.Api.Exclusive

A scheduler has two markers: `used_by`, the xstream that runs it, and `in_pool`, that it runs as a
work unit. `Base.used`: an xstream that is not finished is the user of its main scheduler, so no
other xstream gets it. But only `ABTI_sched_add_to_pool` tests both markers; the calls that give a
scheduler to an xstream test `used_by` alone, and replacing the scheduler of a joined xstream clears
the marker of whoever runs that scheduler now.
-/

namespace AbtReconverse
namespace Api

open Lts

/-- The handles of a call are of objects that exist. -/
def Usable (b : Book) (c : Call) : Prop :=
  (∀ i ∈ c.lends, b.alive i = true) ∧ (∀ x ∈ c.rehires, b.isOpen x = true) ∧
  (∀ i ∈ c.stacks, b.alive i = true) ∧ (∀ i ∈ c.frees, b.alive i = true) ∧
  ∀ x ∈ c.joins, b.isOpen x = true

/-- The scheduler to be replaced is not in use by another xstream. -/
def OwnOld (b : Book) (c : Call) : Prop :=
  ∀ x ∈ c.rehires, b.usedBy (b.main x) = none ∨ b.usedBy (b.main x) = some x

instance (b : Book) (c : Call) : Decidable (Usable b c) :=
  inferInstanceAs (Decidable (_ ∧ _ ∧ _ ∧ _ ∧ _))

instance (b : Book) (c : Call) : Decidable (OwnOld b c) :=
  inferInstanceAs (Decidable (∀ x ∈ c.rehires, _))

/-- What holds of the xstreams that exist. -/
structure Base (b : Book) : Prop where
  alive_lt : ∀ i, b.alive i = true → i < b.scheds
  open_lt : ∀ x, b.isOpen x = true → x < b.xstreams
  main_lt : ∀ x, b.isOpen x = true → b.main x < b.scheds
  table : ∀ r x, b.table r = some x → b.isOpen x = true ∧ b.rank x = r
  used : ∀ x, b.isOpen x = true → b.active x = true → b.usedBy (b.main x) = some x

namespace Base

variable {b : Book} {x i r : Nat} {a u : Bool}

theorem unique (h : Base b) {y : Nat} (hx : b.isOpen x = true) (hy : b.isOpen y = true)
    (hax : b.active x = true) (hay : b.active y = true) (hm : b.main x = b.main y) : x = y :=
  Option.some.inj ((h.used x hx hax).symm.trans (hm ▸ h.used y hy hay))

/-- Nobody runs a scheduler that has no user. -/
theorem not_main (h : Base b) (hu : b.usedBy i = none) (hx : b.isOpen x = true)
    (ha : b.active x = true) : b.main x ≠ i := by
  rintro rfl
  simp [h.used x hx ha] at hu

theorem add (h : Base b) : Base (b.apply (.add a)) := by
  refine ⟨fun j hj => ?_, h.open_lt, fun x hx => Nat.lt_succ_of_lt (h.main_lt x hx), h.table,
    fun x hx ha => ?_⟩
  · show j < b.scheds + 1
    by_cases he : j = b.scheds
    · omega
    · have hj' : b.alive j = true := (Function.update_of_ne he _ _).symm.trans hj
      exact Nat.lt_succ_of_lt (h.alive_lt j hj')
  · exact (Function.update_of_ne (Nat.ne_of_lt (h.main_lt x hx)) _ _).trans (h.used x hx ha)

theorem lease (h : Base b) (hu : b.usedBy i = none) (hi : i < b.scheds) :
    Base (b.apply (.lease i r u)) := by
  have hold : ∀ {β : Type} (f : Nat → β) (v : β) {y : Nat}, y ≠ b.xstreams →
      Function.update f b.xstreams v y = f y := fun _ _ _ hy => Function.update_of_ne hy _ _
  have hopen : ∀ y, (b.apply (.lease i r u)).isOpen y = true → y ≠ b.xstreams →
      b.isOpen y = true := fun y hy hne => (hold b.isOpen true hne).symm.trans hy
  refine ⟨h.alive_lt, fun y hy => ?_, fun y hy => ?_, fun r' y hy => ?_, fun y hy ha => ?_⟩
  · show y < b.xstreams + 1
    by_cases he : y = b.xstreams
    · omega
    · exact Nat.lt_succ_of_lt (h.open_lt y (hopen y hy he))
  · show Function.update b.main b.xstreams i y < b.scheds
    by_cases he : y = b.xstreams
    · subst he; rwa [Function.update_self]
    · rw [hold b.main i he]; exact h.main_lt y (hopen y hy he)
  · replace hy : Function.update b.table r (some b.xstreams) r' = some y := hy
    by_cases hr : r' = r
    · subst hr
      rw [Function.update_self] at hy
      cases hy
      exact ⟨Function.update_self .., Function.update_self ..⟩
    · obtain ⟨ho, hk⟩ := h.table r' y ((Function.update_of_ne hr _ _).symm.trans hy)
      have he : y ≠ b.xstreams := Nat.ne_of_lt (h.open_lt y ho)
      exact ⟨(hold b.isOpen true he).trans ho, (hold b.rank r he).trans hk⟩
  · by_cases he : y = b.xstreams
    · subst he
      show Function.update b.usedBy i (some b.xstreams) (Function.update b.main b.xstreams i _) = _
      rw [Function.update_self, Function.update_self]
    · have ho := hopen y hy he
      have hay : b.active y = true := by
        simpa only [Book.active, Book.apply, hold b.finished false he, hold b.runner u he] using ha
      show Function.update b.usedBy i (some b.xstreams) (Function.update b.main b.xstreams i y) = _
      rw [hold b.main i he, Function.update_of_ne (h.not_main hu ho hay)]
      exact h.used y ho hay

theorem replace (h : Base b) (hi : i < b.scheds)
    (hu : b.usedBy i = none ∨ b.usedBy i = some x) (hne : b.main x ≠ i)
    (hold : b.usedBy (b.main x) = none ∨ b.usedBy (b.main x) = some x) :
    Base (b.apply (.replace x i u)) := by
  refine ⟨h.alive_lt, h.open_lt, fun y hy => ?_, h.table, fun y hy ha => ?_⟩
  · show Function.update b.main x i y < b.scheds
    by_cases he : y = x
    · subst he; rwa [Function.update_self]
    · rw [Function.update_of_ne he]; exact h.main_lt y hy
  · show Function.update (Function.update b.usedBy i (some x)) (b.main x) none
      (Function.update b.main x i y) = some y
    by_cases he : y = x
    · subst he
      rw [Function.update_self, Function.update_of_ne (Ne.symm hne), Function.update_self]
    · have hay : b.active y = true := by
        simpa only [Book.active, Book.apply, Function.update_of_ne he] using ha
      have huy := h.used y hy hay
      -- neither the new scheduler nor the old one is run by another xstream
      have hother : ∀ {j : Nat}, b.usedBy j = none ∨ b.usedBy j = some x → b.main y ≠ j := by
        rintro j (hj | hj) rfl
        · simp [hj] at huy
        · exact he (Option.some.inj (huy.symm.trans hj))
      rw [Function.update_of_ne he, Function.update_of_ne (hother hold),
        Function.update_of_ne (hother hu)]
      exact huy

theorem finish (h : Base b) (hx : b.isOpen x = true) (ha : b.active x = true) :
    Base (b.apply (.finish x)) := by
  refine ⟨h.alive_lt, h.open_lt, h.main_lt, h.table, fun y hy hay => ?_⟩
  show Function.update b.usedBy (b.main x) none (b.main y) = some y
  by_cases he : y = x
  · subst he
    simp [Book.active, Book.apply] at hay
  · have hay' : b.active y = true := by
      simpa only [Book.active, Book.apply, Function.update_of_ne he] using hay
    rw [Function.update_of_ne fun hm => he (h.unique hy hx hay' ha hm)]
    exact h.used y hy hay'

theorem destroy (h : Base b) (i : Nat) : Base (b.destroy i) := by
  refine ⟨fun j hj => ?_, h.open_lt, h.main_lt, h.table, h.used⟩
  have hne : j ≠ i := by
    rintro rfl
    simp [Book.destroy] at hj
  exact h.alive_lt j ((Function.update_of_ne hne _ _).symm.trans hj)

theorem close (h : Base b) (x : Nat) : Base (b.apply (.close x)) := by
  have hshut : ∀ b' : Book, Base b' → b'.rank = b.rank → Base { b' with
      isOpen := Function.update b'.isOpen x false
      table := Function.update b'.table (b.rank x) none } := by
    intro b' h' hrank
    have hopen : ∀ y, Function.update b'.isOpen x false y = true → y ≠ x ∧ b'.isOpen y = true := by
      intro y hy
      have hne : y ≠ x := by
        rintro rfl
        simp at hy
      exact ⟨hne, (Function.update_of_ne hne _ _).symm.trans hy⟩
    refine ⟨h'.alive_lt, fun y hy => h'.open_lt y (hopen y hy).2,
      fun y hy => h'.main_lt y (hopen y hy).2, fun r y hy => ?_,
      fun y hy ha => h'.used y (hopen y hy).2 ha⟩
    have hr : r ≠ b.rank x := by
      rintro rfl
      simp at hy
    obtain ⟨ho, hk⟩ := h'.table r y ((Function.update_of_ne hr _ _).symm.trans hy)
    have hne : y ≠ x := by
      rintro rfl
      exact hr (hk ▸ congrFun hrank y)
    exact ⟨(Function.update_of_ne hne _ _).trans ho, hk⟩
  simp only [Book.apply]
  split
  · exact hshut (b.destroy (b.main x)) (h.destroy (b.main x)) rfl
  · exact hshut b h rfl

theorem enter (h : Base b) (i : Nat) : Base (b.apply (.enter i)) :=
  ⟨h.alive_lt, h.open_lt, h.main_lt, h.table, h.used⟩

theorem leave (h : Base b) (i : Nat) : Base (b.apply (.leave i)) :=
  ⟨h.alive_lt, h.open_lt, h.main_lt, h.table, h.used⟩

/-- A scheduler that has just been added. -/
theorem added_free : (b.apply (.add a)).usedBy b.scheds = none := Function.update_self ..

/-- The old scheduler of an xstream is still its own after another one was added. -/
theorem added_own (hne : b.main x ≠ b.scheds)
    (h : b.usedBy (b.main x) = none ∨ b.usedBy (b.main x) = some x) :
    (b.apply (.add a)).usedBy (b.main x) = none ∨ (b.apply (.add a)).usedBy (b.main x) = some x := by
  have he : (b.apply (.add a)).usedBy (b.main x) = b.usedBy (b.main x) :=
    Function.update_of_ne hne _ _
  rwa [he]

theorem initial (n : Nat) : Base (initial n).book := by
  have hzero : ∀ x, (Api.initial n).book.isOpen x = true → x = 0 := by
    intro x hx
    by_contra hne
    simp [State.book, Api.initial, Objects.initial, hne, Objects.noXstream] at hx
  refine ⟨fun i hi => ?_, fun x hx => ?_, fun x hx => ?_, fun r x hx => ?_, fun x hx _ => ?_⟩
  · by_contra hne
    have h0 : i ≠ 0 := fun h => hne (h ▸ Nat.zero_lt_one)
    simp [State.book, Api.initial, Objects.initial, h0, Objects.noSched] at hi
  · rw [hzero x hx]; exact Nat.zero_lt_one
  · rw [hzero x hx]; exact Nat.zero_lt_one
  · by_cases hr : r = 0
    · subst hr
      have hx0 : 0 = x := Option.some.inj hx
      subst hx0
      exact ⟨rfl, rfl⟩
    · simp [State.book, Api.initial, hr] at hx
  · rw [hzero x hx]; rfl

end Base

/-! ## Exclusivity -/

/-- A scheduler that is a work unit is given to no xstream, and the old scheduler of an xstream is
replaced only while no other xstream uses it. With `strong` a scheduler becomes a work unit only when
no xstream has it, finished or not. -/
def Apart (strong : Bool) (s : State) (c : Call) : Prop :=
  Usable s.book c ∧ OwnOld s.book c ∧ (∀ i ∈ c.lends, s.book.inPool i = false) ∧
  (strong = true → ∀ i ∈ c.stacks, ∀ x < s.book.xstreams, s.book.isOpen x = true →
    s.book.main x ≠ i)

instance (strong : Bool) (s : State) (c : Call) : Decidable (Apart strong s c) :=
  inferInstanceAs (Decidable (_ ∧ _ ∧ _ ∧ _))

structure Exclusive (strong : Bool) (b : Book) : Prop where
  base : Base b
  inPool_lt : ∀ i, b.inPool i = true → i < b.scheds
  apart : ∀ x, b.isOpen x = true → strong = true ∨ b.active x = true → b.inPool (b.main x) = false

namespace Exclusive

variable {strong : Bool} {b b' : Book} {x i r : Nat} {a u : Bool}

/-- The work units are the same, and no xstream has got one of them as its scheduler. -/
theorem of_same (h : Exclusive strong b) (hb : Base b') (hs : b.scheds ≤ b'.scheds)
    (hp : b'.inPool = b.inPool)
    (hx : ∀ x, b'.isOpen x = true → strong = true ∨ b'.active x = true →
      b'.main x = b.main x ∧ b.isOpen x = true ∧ (b'.active x = true → b.active x = true) ∨
        b.inPool (b'.main x) = false) : Exclusive strong b' := by
  refine ⟨hb, fun i hi => Nat.lt_of_lt_of_le (h.inPool_lt i (hp ▸ hi)) hs, fun x ho ha => ?_⟩
  rw [hp]
  obtain ⟨hm, hopen, hact⟩ | hfree := hx x ho ha
  · rw [hm]; exact h.apart x hopen (ha.imp_right hact)
  · exact hfree

theorem added_apart (h : Exclusive strong b) : b.inPool b.scheds = false :=
  Bool.eq_false_iff.mpr fun hp => Nat.lt_irrefl _ (h.inPool_lt _ hp)

theorem add (h : Exclusive strong b) : Exclusive strong (b.apply (.add a)) :=
  h.of_same h.base.add (Nat.le_succ _) rfl fun _ ho _ => .inl ⟨rfl, ho, id⟩

theorem lease (h : Exclusive strong b) (hu : b.usedBy i = none) (hi : i < b.scheds)
    (hp : b.inPool i = false) : Exclusive strong (b.apply (.lease i r u)) := by
  refine h.of_same (h.base.lease hu hi) (Nat.le_refl _) rfl fun x ho _ => ?_
  by_cases he : x = b.xstreams
  · subst he
    exact .inr ((congrArg b.inPool (Function.update_self ..)).trans hp)
  · refine .inl ⟨Function.update_of_ne he _ _, (Function.update_of_ne he _ _).symm.trans ho,
      fun ha => ?_⟩
    simpa only [Book.active, Book.apply, Function.update_of_ne he] using ha

theorem replace (h : Exclusive strong b) (hi : i < b.scheds)
    (hu : b.usedBy i = none ∨ b.usedBy i = some x) (hne : b.main x ≠ i)
    (hold : b.usedBy (b.main x) = none ∨ b.usedBy (b.main x) = some x) (hp : b.inPool i = false) :
    Exclusive strong (b.apply (.replace x i u)) := by
  refine h.of_same (h.base.replace hi hu hne hold) (Nat.le_refl _) rfl fun y ho _ => ?_
  by_cases he : y = x
  · subst he
    exact .inr ((congrArg b.inPool (Function.update_self ..)).trans hp)
  · refine .inl ⟨Function.update_of_ne he _ _, ho, fun ha => ?_⟩
    simpa only [Book.active, Book.apply, Function.update_of_ne he] using ha

theorem finish (h : Exclusive strong b) (hx : b.isOpen x = true) (ha : b.active x = true) :
    Exclusive strong (b.apply (.finish x)) := by
  refine h.of_same (h.base.finish hx ha) (Nat.le_refl _) rfl fun y ho _ => .inl ⟨rfl, ho, ?_⟩
  intro hay
  by_cases he : y = x
  · subst he; exact ha
  · simpa only [Book.active, Book.apply, Function.update_of_ne he] using hay

theorem destroy (h : Exclusive strong b) (i : Nat) : Exclusive strong (b.destroy i) :=
  h.of_same (h.base.destroy i) (Nat.le_refl _) rfl fun _ ho _ => .inl ⟨rfl, ho, id⟩

theorem close (h : Exclusive strong b) (x : Nat) : Exclusive strong (b.apply (.close x)) := by
  have hopen : ∀ y, (b.apply (.close x)).isOpen y = true → b.isOpen y = true := by
    intro y hy
    have he : y ≠ x := by
      rintro rfl
      simp [Book.apply] at hy
    exact (Function.update_of_ne he _ _).symm.trans hy
  refine h.of_same (h.base.close x) ?_ ?_ fun y ho _ => .inl ⟨?_, hopen y ho, ?_⟩ <;>
    simp only [Book.apply, Book.active] <;> split <;> simp [Book.destroy]

/-- A scheduler without a user becomes a work unit. -/
theorem enter (h : Exclusive strong b) (hi : i < b.scheds) (hu : b.usedBy i = none)
    (hs : strong = true → ∀ x < b.xstreams, b.isOpen x = true → b.main x ≠ i) :
    Exclusive strong (b.apply (.enter i)) := by
  refine ⟨h.base.enter i, fun j hj => ?_, fun x ho ha => ?_⟩
  · by_cases he : j = i
    · subst he; exact hi
    · exact h.inPool_lt j ((Function.update_of_ne he _ _).symm.trans hj)
  · have hne : b.main x ≠ i := by
      obtain hst | hact := ha
      · exact hs hst x (h.base.open_lt x ho) ho
      · exact h.base.not_main hu ho hact
    exact (Function.update_of_ne hne _ _).trans (h.apart x ho ha)

theorem leave (h : Exclusive strong b) (i : Nat) : Exclusive strong (b.apply (.leave i)) := by
  have hsub : ∀ j, Function.update b.inPool i false j = true → b.inPool j = true := by
    intro j hj
    have he : j ≠ i := by
      rintro rfl
      simp at hj
    exact (Function.update_of_ne he _ _).symm.trans hj
  refine ⟨h.base.leave i, fun j hj => h.inPool_lt j (hsub j hj), fun x ho ha => ?_⟩
  exact Bool.eq_false_iff.mpr fun hp => absurd (hsub _ hp) (Bool.eq_false_iff.mp (h.apart x ho ha))

theorem made {s : State} {c : Call} {ms : List Move} (h : Exclusive strong s.book)
    (hg : Apart strong s c) (hd : Does s.book c ms) :
    Exclusive strong (ms.foldl Book.apply s.book) := by
  obtain ⟨⟨hlends, -, hstacks, -, hjoins⟩, ho, hp, hs⟩ := hg
  have hold : ∀ {x : Nat} {a : Bool}, c.rehires = some x → s.book.main x ≠ s.book.scheds →
      (s.book.apply (.add a)).usedBy (s.book.main x) = none ∨
        (s.book.apply (.add a)).usedBy (s.book.main x) = some x :=
    fun hx hne => Base.added_own hne (ho _ hx)
  cases hd with
  | nothing => exact h
  | add => exact h.add
  | undo => exact h.add.destroy _
  | lease hi _ hfree => exact h.lease hfree (h.base.alive_lt _ (hlends _ hi)) (hp _ hi)
  | leaseNew => exact h.add.lease Base.added_free (Nat.lt_succ_self _) h.added_apart
  | replace hx hi hfree hne =>
    exact h.replace (h.base.alive_lt _ (hlends _ hi)) hfree hne (ho _ hx) (hp _ hi)
  | replaceDestroy hx hi hfree hne =>
    exact (h.replace (h.base.alive_lt _ (hlends _ hi)) hfree hne (ho _ hx) (hp _ hi)).destroy _
  | replaceNew hx hne =>
    exact h.add.replace (Nat.lt_succ_self _) (.inl Base.added_free) hne (hold hx hne) h.added_apart
  | replaceNewDestroy hx hne =>
    exact (h.add.replace (Nat.lt_succ_self _) (.inl Base.added_free) hne (hold hx hne)
      h.added_apart).destroy _
  | finish hx ha => exact h.finish (hx.elim id (hjoins _)) ha
  | close => exact h.close _
  | finishClose hx ha => exact (h.finish (hjoins _ hx) ha).close _
  | free => exact h.destroy _
  | enter hi hfree =>
    exact h.enter (h.base.alive_lt _ (hstacks _ hi)) hfree fun hst => hs hst _ hi
  | leave => exact h.leave _

end Exclusive

theorem reach_exclusive {strong : Bool} {s : State} (h : Reach system (Apart strong) s) :
    Exclusive strong s.book := by
  refine Reach.invariant (I := fun s => Exclusive strong s.book) ?_ ?_ h
  · rintro s ⟨n, rfl⟩
    exact ⟨Base.initial n, fun i hi => by simp [State.book, initial] at hi, fun _ _ _ => rfl⟩
  · intro s c s' _ hi hg hst
    cases hst
    obtain ⟨ms, hd, hb⟩ := call_does s c
    rw [hb]
    exact hi.made hg hd

/-- The call would give the scheduler of an xstream that is not finished to another one, or make a
scheduler a work unit that is one already or that such an xstream runs. -/
def Conflicts (s : State) (c : Call) : Prop :=
  (∃ i ∈ c.lends, ∃ x, (s.objects.xstream x).live = true ∧ (s.objects.xstream x).finished = false ∧
    (s.objects.xstream x).mainSched = i ∧ c.rehires ≠ some x) ∨
  ∃ i ∈ c.stacks, s.inPool i = true ∨ ∃ x, (s.objects.xstream x).live = true ∧
    (s.objects.xstream x).finished = false ∧ (s.objects.xstream x).mainSched = i

theorem conflict_rejected {strong : Bool} {s : State} {c : Call} (h : Exclusive strong s.book)
    (hc : Conflicts s c) : (call s c).1 ≠ .success ∧ (call s c).2 = s := by
  have hused : ∀ x, (s.objects.xstream x).live = true → (s.objects.xstream x).finished = false →
      (s.objects.sched (s.objects.xstream x).mainSched).usedBy = some x := by
    intro x hx hf
    refine h.base.used x hx ?_
    have hb : s.book.finished x = false := hf
    simp [Book.active, hb]
  obtain ⟨i, hi, x, hx, hf, rfl, hne⟩ | ⟨i, hi, hin⟩ := hc
  · have hu := hused x hx hf
    have hcreate : ∀ want, s.createOn (some (s.objects.xstream x).mainSched) want = (.invSched, s) := by
      intro want
      simp [State.createOn, hu]
    cases c with
    | xstreamCreate j o =>
      cases hi
      simp only [call, State.xstreamCreate, hcreate]
      split
      · simp
      · split <;> simp
    | xstreamCreateWithRank j r =>
      cases hi
      simp only [call, State.xstreamCreateWithRank, hcreate]
      split <;> simp
    | setMainSched y j t =>
      cases hi
      cases y with
      | none =>
        simp only [call, State.setMainSched]
        split <;> simp
      | some y =>
        have hxy : x ≠ y := fun he => hne (congrArg some he.symm)
        simp only [call, State.setMainSched, hu]
        split
        · simp
        · simp [hxy]
    | _ => cases hi
  · cases c with
    | poolAddSched p j =>
      cases hi
      cases p with
      | none => simp [call, State.poolAddSched]
      | some p =>
        have hor : (s.inPool i || (s.objects.sched i).usedBy.isSome) = true := by
          obtain hp | ⟨x, hx, hf, rfl⟩ := hin
          · simp [hp]
          · simp [hused x hx hf]
        simp only [call, State.poolAddSched, hor, if_true]
        simp
    | _ => cases hi

/-- In every run that keeps work units and main schedulers apart: no scheduler is the main scheduler
of two unfinished xstreams; none is a work unit and the main scheduler of an xstream that is not
finished (with `strong`: of any xstream); and a call that would break this is refused. -/
theorem scheduler_exclusive {strong : Bool} {s : State} (h : Reach system (Apart strong) s) :
    (∀ x y, (s.objects.xstream x).live = true → (s.objects.xstream y).live = true →
      (s.objects.xstream x).finished = false → (s.objects.xstream y).finished = false →
      (s.objects.xstream x).mainSched = (s.objects.xstream y).mainSched → x = y) ∧
    (∀ x, (s.objects.xstream x).live = true →
      strong = true ∨ (s.objects.xstream x).finished = false →
      s.inPool (s.objects.xstream x).mainSched = false) ∧
    ∀ c, Conflicts s c → (call s c).1 ≠ .success ∧ (call s c).2 = s := by
  have hi := reach_exclusive h
  have hact : ∀ x, (s.objects.xstream x).finished = false → s.book.active x = true := by
    intro x hf
    have hb : s.book.finished x = false := hf
    simp [Book.active, hb]
  exact ⟨fun x y hx hy hfx hfy hm => hi.base.unique hx hy (hact x hfx) (hact y hfy) hm,
    fun x hx hf => hi.apart x hx (hf.imp_right (hact x)), fun c hc => conflict_rejected hi hc⟩

/-- A scheduler that is not automatic, over a pool of its own. -/
def ownSched : Call := .schedCreateBasic (some .basic) ⟨0, none⟩ (some false) true

/-- Scheduler 1 runs on an xstream, then on a second one while the first is joined and waits to be
freed; then it is a work unit of the primary pool. -/
def reused : List Call :=
  [ownSched, .xstreamCreate (some 1) true, .xstreamJoin (some 1) none, .xstreamCreate (some 1) true,
    .xstreamFree (some 1) none, .xstreamFree (some 2) none, .poolAddSched (some 0) (some 1),
    .xstreamCreate none true]

theorem scheduler_exclusive_reused :
    ∃ s, (Reach system (Apart true) s ∧ s.inPool 1 = true ∧ (s.objects.xstream 3).live = true) ∧
      (call s (.xstreamCreate (some 2) true)).1 ≠ .success := by
  obtain ⟨s, hr, hp, hx, hf, hm⟩ :=
    (Reach.start (M := system) (G := Apart true) (s := initial 4) ⟨4, rfl⟩).exists_run
      (fun s => s.inPool 1 = true ∧ (s.objects.xstream 3).live = true ∧
        (s.objects.xstream 3).finished = false ∧ (s.objects.xstream 3).mainSched = 2) reused
      (by decide)
  exact ⟨s, ⟨hr, hp, hx⟩, ((scheduler_exclusive hr).2.2 (.xstreamCreate (some 2) true)
    (.inl ⟨2, rfl, 3, hx, hf, hm, by simp [Call.rehires]⟩)).1⟩

/-- A work unit becomes the main scheduler of an xstream; replacing the scheduler of a joined xstream
lets two others run it; the scheduler of a joined xstream becomes a work unit. -/
theorem markers_tested_apart :
    (∃ s, Reach system (fun s c => Usable s.book c) s ∧ s.inPool 1 = true ∧
      (s.objects.xstream 1).live = true ∧ (s.objects.xstream 1).finished = false ∧
      (s.objects.xstream 1).mainSched = 1) ∧
    (∃ s, Reach system (fun s c => Usable s.book c) s ∧
      ∀ x ∈ [2, 3], (s.objects.xstream x).live = true ∧ (s.objects.xstream x).finished = false ∧
        (s.objects.xstream x).mainSched = 1) ∧
    ∃ s, Reach system (fun s c => Usable s.book c) s ∧ s.inPool 1 = true ∧
      (s.objects.xstream 1).live = true ∧ (s.objects.xstream 1).mainSched = 1 := by
  have h0 := Reach.start (M := system) (G := fun s c => Usable s.book c) (s := initial 4) ⟨4, rfl⟩
  refine ⟨?_, ?_, ?_⟩
  · exact h0.exists_run _ [ownSched, .poolAddSched (some 0) (some 1), .xstreamCreate (some 1) true]
      (by decide)
  · exact h0.exists_run _ [ownSched, ownSched, .xstreamCreate (some 1) true,
      .xstreamJoin (some 1) none, .xstreamCreate (some 1) true, .setMainSched (some 1) (some 2) none,
      .xstreamCreate (some 1) true] (by decide)
  · exact h0.exists_run _ [ownSched, .xstreamCreate (some 1) true, .xstreamJoin (some 1) none,
      .poolAddSched (some 0) (some 1)] (by decide)

end Api
end AbtReconverse
