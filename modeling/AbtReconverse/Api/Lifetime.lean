import AbtReconverse.Api.Exclusive

/-!
# AbtReconverse.Api.Lifetime

When schedulers are destroyed. A joined xstream keeps its main scheduler until it is freed, but the
release handler has already cleared `used_by`: `ABT_sched_free` accepts the scheduler, and a call
may give it to another xstream although the first one, if the scheduler is automatic, will destroy
it. Runs that leave the schedulers of joined xstreams alone in these two ways destroy every
scheduler at most once, and none that an existing xstream has.
-/

namespace AbtReconverse
namespace Api

open Lts

/-- Handles are of existing objects, an old scheduler is replaced by its own user, and a joined
xstream keeps its scheduler: it is not freed and, if automatic, not given to another xstream. -/
def Kept (s : State) (c : Call) : Prop :=
  Usable s.book c ∧ OwnOld s.book c ∧
  (∀ i ∈ c.frees, ∀ x < s.book.xstreams, s.book.isOpen x = true → s.book.finished x = true →
    s.book.main x ≠ i) ∧
  ∀ i ∈ c.lends, s.book.automatic i = true → ∀ x < s.book.xstreams, s.book.isOpen x = true →
    s.book.finished x = true → c.rehires ≠ some x → s.book.main x ≠ i

instance (s : State) (c : Call) : Decidable (Kept s c) :=
  inferInstanceAs (Decidable (_ ∧ _ ∧ _ ∧ _))

structure Lasts (b : Book) : Prop where
  base : Base b
  main : ∀ x, b.isOpen x = true → b.alive (b.main x) = true
  /-- An automatic scheduler belongs to one xstream. -/
  sole : ∀ x y, b.isOpen x = true → b.isOpen y = true → b.main x = b.main y →
    b.automatic (b.main x) = true → x = y
  once : ∀ i, b.destroyed i ≤ 1
  fresh : ∀ i, b.alive i = true ∨ b.scheds ≤ i → b.destroyed i = 0

namespace Lasts

variable {b : Book} {x i r : Nat} {a u : Bool}

theorem add (h : Lasts b) : Lasts (b.apply (.add a)) := by
  have hne : ∀ x, b.isOpen x = true → b.main x ≠ b.scheds :=
    fun x hx => Nat.ne_of_lt (h.base.main_lt x hx)
  refine ⟨h.base.add, fun x hx => ?_, fun x y hx hy hm ha => ?_, h.once, fun i hi => ?_⟩
  · exact (Function.update_of_ne (hne x hx) _ _).trans (h.main x hx)
  · exact h.sole x y hx hy hm ((Function.update_of_ne (hne x hx) _ _).symm.trans ha)
  · by_cases he : i = b.scheds
    · exact h.fresh i (.inr he.ge)
    · refine h.fresh i (hi.imp (Function.update_of_ne he _ _).symm.trans fun hle => ?_)
      exact Nat.le_of_succ_le hle

theorem lease (h : Lasts b) (hu : b.usedBy i = none) (hi : b.alive i = true)
    (hs : b.automatic i = true → ∀ y, b.isOpen y = true → b.main y ≠ i) :
    Lasts (b.apply (.lease i r u)) := by
  -- an open xstream is the new one, which has scheduler `i`, or an old one with its old scheduler
  have hcase : ∀ y, (b.apply (.lease i r u)).isOpen y = true →
      y = b.xstreams ∧ (b.apply (.lease i r u)).main y = i ∨
        b.isOpen y = true ∧ (b.apply (.lease i r u)).main y = b.main y := by
    intro y hy
    by_cases he : y = b.xstreams
    · subst he; exact .inl ⟨rfl, Function.update_self ..⟩
    · exact .inr ⟨(Function.update_of_ne he _ _).symm.trans hy, Function.update_of_ne he _ _⟩
  refine ⟨h.base.lease hu (h.base.alive_lt i hi), fun y hy => ?_, fun y z hy hz hm ha => ?_, h.once,
    h.fresh⟩
  · obtain ⟨-, hm⟩ | ⟨ho, hm⟩ := hcase y hy
    · rw [hm]; exact hi
    · rw [hm]; exact h.main y ho
  · have ha' : b.automatic ((b.apply (.lease i r u)).main y) = true := ha
    obtain ⟨hey, hmy⟩ | ⟨hoy, hmy⟩ := hcase y hy <;> obtain ⟨hez, hmz⟩ | ⟨hoz, hmz⟩ := hcase z hz
    · rw [hey, hez]
    · rw [hmy] at ha'
      exact absurd (hmz.symm.trans (hm.symm.trans hmy)) (hs ha' z hoz)
    · rw [hm, hmz] at ha'
      exact absurd (hmy.symm.trans (hm.trans hmz)) (hs ha' y hoy)
    · rw [hmy] at ha'
      exact h.sole y z hoy hoz (hmy.symm.trans (hm.trans hmz)) ha'

theorem replace (h : Lasts b) (hi : b.alive i = true)
    (hu : b.usedBy i = none ∨ b.usedBy i = some x) (hne : b.main x ≠ i)
    (hold : b.usedBy (b.main x) = none ∨ b.usedBy (b.main x) = some x)
    (hs : b.automatic i = true → ∀ y, b.isOpen y = true → y ≠ x → b.main y ≠ i) :
    Lasts (b.apply (.replace x i u)) := by
  have hself : (b.apply (.replace x i u)).main x = i := Function.update_self ..
  have hother : ∀ {y}, y ≠ x → (b.apply (.replace x i u)).main y = b.main y :=
    fun hy => Function.update_of_ne hy _ _
  refine ⟨h.base.replace (h.base.alive_lt i hi) hu hne hold, fun y hy => ?_,
    fun y z hy hz hm ha => ?_, h.once, h.fresh⟩
  · by_cases he : y = x
    · subst he; rw [hself]; exact hi
    · rw [hother he]; exact h.main y hy
  · have ha' : b.automatic ((b.apply (.replace x i u)).main y) = true := ha
    by_cases hey : y = x <;> by_cases hez : z = x
    · rw [hey, hez]
    · subst hey
      rw [hself] at ha' hm
      exact absurd ((hother hez).symm.trans hm.symm) (hs ha' z hz hez)
    · subst hez
      rw [hm, hself] at ha'
      rw [hself] at hm
      exact absurd ((hother hey).symm.trans hm) (hs ha' y hy hey)
    · rw [hother hey] at ha' hm
      rw [hother hez] at hm
      exact h.sole y z hy hz hm ha'

theorem finish (h : Lasts b) (hx : b.isOpen x = true) (ha : b.active x = true) :
    Lasts (b.apply (.finish x)) :=
  ⟨h.base.finish hx ha, h.main, h.sole, h.once, h.fresh⟩

theorem destroy (h : Lasts b) (hi : b.alive i = true) (hno : ∀ x, b.isOpen x = true → b.main x ≠ i) :
    Lasts (b.destroy i) := by
  refine ⟨h.base.destroy i, fun x hx => ?_, h.sole, fun j => ?_, fun j hj => ?_⟩
  · exact (Function.update_of_ne (hno x hx) _ _).trans (h.main x hx)
  · show Function.update b.destroyed i (b.destroyed i + 1) j ≤ 1
    by_cases he : j = i
    · subst he; rw [Function.update_self, h.fresh j (.inl hi)]
    · rw [Function.update_of_ne he]; exact h.once j
  · have he : j ≠ i := by
      rintro rfl
      obtain hj | hj := hj
      · simp [Book.destroy] at hj
      · exact absurd (h.base.alive_lt j hi) (Nat.not_lt.mpr hj)
    refine (Function.update_of_ne he _ _).trans (h.fresh j (hj.imp_left ?_))
    exact (Function.update_of_ne he _ _).symm.trans

theorem close (h : Lasts b) (hx : b.isOpen x = true) : Lasts (b.apply (.close x)) := by
  have hopen : ∀ y, Function.update b.isOpen x false y = true → y ≠ x ∧ b.isOpen y = true := by
    intro y hy
    have he : y ≠ x := by
      rintro rfl
      simp at hy
    exact ⟨he, (Function.update_of_ne he _ _).symm.trans hy⟩
  cases ha : b.automatic (b.main x) with
  | false =>
    have hb := h.base.close x
    simp only [Book.apply, ha, Bool.false_eq_true, if_false] at hb ⊢
    exact ⟨hb, fun y hy => h.main y (hopen y hy).2,
      fun y z hy hz => h.sole y z (hopen y hy).2 (hopen z hz).2, h.once, h.fresh⟩
  | true =>
    -- without `x`, no xstream has the scheduler that goes
    have hb := h.base.close x
    have hshut : Lasts { b with
        isOpen := Function.update b.isOpen x false
        table := Function.update b.table (b.rank x) none } := by
      refine ⟨?_, fun y hy => h.main y (hopen y hy).2,
        fun y z hy hz => h.sole y z (hopen y hy).2 (hopen z hz).2, h.once, h.fresh⟩
      simp only [Book.apply, ha, if_true] at hb
      exact ⟨h.base.alive_lt, hb.open_lt, hb.main_lt, hb.table, hb.used⟩
    simp only [Book.apply, ha, if_true]
    refine hshut.destroy (h.main x hx) fun y hy hm => ?_
    obtain ⟨he, ho⟩ := hopen y hy
    exact he (h.sole y x ho hx hm (hm ▸ ha))

theorem enter (h : Lasts b) (i : Nat) : Lasts (b.apply (.enter i)) :=
  ⟨h.base.enter i, h.main, h.sole, h.once, h.fresh⟩

theorem leave (h : Lasts b) (i : Nat) : Lasts (b.apply (.leave i)) :=
  ⟨h.base.leave i, h.main, h.sole, h.once, h.fresh⟩

/-- The old scheduler goes after it was replaced. -/
theorem replaceDestroy (h : Lasts b) (hx : b.isOpen x = true) (hi : b.alive i = true)
    (hu : b.usedBy i = none ∨ b.usedBy i = some x) (hne : b.main x ≠ i)
    (hold : b.usedBy (b.main x) = none ∨ b.usedBy (b.main x) = some x)
    (hs : b.automatic i = true → ∀ y, b.isOpen y = true → y ≠ x → b.main y ≠ i)
    (ha : b.automatic (b.main x) = true) :
    Lasts ((b.apply (.replace x i u)).destroy (b.main x)) := by
  refine (h.replace hi hu hne hold hs).destroy (h.main x hx) fun y hy hm => ?_
  by_cases he : y = x
  · subst he
    exact hne (hm.symm.trans (Function.update_self ..))
  · have hm' : b.main y = b.main x := (Function.update_of_ne he _ _).symm.trans hm
    exact he (h.sole y x hy hx hm' (hm' ▸ ha))

/-- Every xstream is finished or active, so a scheduler without a user that no finished xstream has
is nobody's. -/
theorem nobodys (h : Lasts b) {P : Nat → Prop} (hu : ∀ y, b.isOpen y = true → P y →
      b.active y = true → b.main y ≠ i)
    (hf : ∀ y < b.xstreams, b.isOpen y = true → b.finished y = true → P y → b.main y ≠ i) (y : Nat)
    (hy : b.isOpen y = true) (hp : P y) : b.main y ≠ i := by
  cases hfy : b.finished y with
  | true => exact hf y (h.base.open_lt y hy) hy hfy hp
  | false => exact hu y hy hp (by simp [Book.active, hfy])

theorem made {s : State} {c : Call} {ms : List Move} (h : Lasts s.book) (hg : Kept s c)
    (hd : Does s.book c ms) : Lasts (ms.foldl Book.apply s.book) := by
  obtain ⟨⟨hlends, hrehires, -, hfrees, hjoins⟩, ho, hfree, hlend⟩ := hg
  have hadded : ∀ {a : Bool}, (s.book.apply (.add a)).alive s.book.scheds = true :=
    Function.update_self ..
  have hnew : ∀ y, s.book.isOpen y = true → s.book.main y ≠ s.book.scheds :=
    fun y hy => Nat.ne_of_lt (h.base.main_lt y hy)
  have hold : ∀ {x : Nat} {a : Bool}, c.rehires = some x → s.book.main x ≠ s.book.scheds →
      (s.book.apply (.add a)).usedBy (s.book.main x) = none ∨
        (s.book.apply (.add a)).usedBy (s.book.main x) = some x :=
    fun hx hne => Base.added_own hne (ho _ hx)
  -- what a call gives to xstream `x` belongs to no other one, if it is automatic
  have hgiven : ∀ {x i : Nat}, c.rehires = some x → c.lends = some i →
      s.book.usedBy i = none ∨ s.book.usedBy i = some x → s.book.automatic i = true →
      ∀ y, s.book.isOpen y = true → y ≠ x → s.book.main y ≠ i := by
    intro x i hx hi hu hauto
    refine h.nobodys (fun y hy hyx hay hm => ?_) fun y hlt hy hf hyx => hlend i hi hauto y hlt hy hf ?_
    · have huy := h.base.used y hy hay
      rw [hm] at huy
      obtain hu | hu := hu
      · simp [huy] at hu
      · exact hyx (Option.some.inj (huy.symm.trans hu))
    · rw [hx]
      exact fun he => hyx (Option.some.inj he).symm
  cases hd with
  | nothing => exact h
  | add => exact h.add
  | undo => exact h.add.destroy hadded hnew
  | lease hi hr hu =>
    refine h.lease hu (hlends _ hi) fun hauto y hy => ?_
    refine h.nobodys (P := fun _ => True) (fun y hy _ hay => h.base.not_main hu hy hay)
      (fun y hlt hy hf _ => ?_) y hy trivial
    exact hlend _ hi hauto y hlt hy hf (by rw [hr]; simp)
  | leaseNew => exact h.add.lease Base.added_free hadded fun _ => hnew
  | replace hx hi hu hne =>
    exact h.replace (hlends _ hi) hu hne (ho _ hx) (hgiven hx hi hu)
  | replaceDestroy hx hi hu hne ha =>
    exact h.replaceDestroy (hrehires _ hx) (hlends _ hi) hu hne (ho _ hx) (hgiven hx hi hu) ha
  | replaceNew hx hne =>
    exact h.add.replace hadded (.inl Base.added_free) hne (hold hx hne) fun _ y hy _ => hnew y hy
  | replaceNewDestroy hx hne ha =>
    exact h.add.replaceDestroy (hrehires _ hx) hadded (.inl Base.added_free) hne (hold hx hne)
      (fun _ y hy _ => hnew y hy) ((Function.update_of_ne hne _ _).trans ha)
  | finish hx ha => exact h.finish (hx.elim id (hjoins _)) ha
  | close hx => exact h.close (hjoins _ hx)
  | finishClose hx ha => exact (h.finish (hjoins _ hx) ha).close (hjoins _ hx)
  | free hi hu =>
    refine h.destroy (hfrees _ hi) fun y hy => ?_
    exact h.nobodys (P := fun _ => True) (fun y hy _ hay => h.base.not_main hu hy hay)
      (fun y hlt hy hf _ => hfree _ hi y hlt hy hf) y hy trivial
  | enter => exact h.enter _
  | leave => exact h.leave _

end Lasts

theorem reach_lasts {s : State} (h : Reach system Kept s) : Lasts s.book := by
  refine Reach.invariant (I := fun s => Lasts s.book) ?_ ?_ h
  · rintro s ⟨n, rfl⟩
    have hzero : ∀ x, (initial n).book.isOpen x = true → x = 0 :=
      fun x hx => Nat.lt_one_iff.mp ((Base.initial n).open_lt x hx)
    refine ⟨Base.initial n, fun x hx => ?_, fun x y hx hy _ _ => ?_, fun _ => Nat.zero_le _,
      fun _ _ => rfl⟩
    · rw [hzero x hx]; rfl
    · rw [hzero x hx, hzero y hy]
  · intro s c s' _ hi hg hst
    cases hst
    obtain ⟨ms, hd, hb⟩ := call_does s c
    rw [hb]
    exact hi.made hg hd

/-! ## Who reads a main scheduler -/

/-- The calls that follow `main_sched` of an xstream. -/
inductive Reader where
  | xstreamFree (x : Nat)
  | getMainSched (x : Nat)
  | threadMigrate (avoid : Option Nat)
  deriving DecidableEq, Repr

/-- `ABT_thread_migrate` stops at the first xstream whose scheduler has a pool. -/
def migrateReads (s : State) : List Nat → List Nat
  | [] => []
  | x :: l => (s.objects.xstream x).mainSched ::
      if (s.objects.sched (s.objects.xstream x).mainSched).pools = [] then migrateReads s l else []

/-- The xstream handle is of an existing xstream. -/
def Reader.Valid (s : State) : Reader → Prop
  | .xstreamFree x | .getMainSched x => (s.objects.xstream x).live = true
  | .threadMigrate _ => True

/-- The schedulers that a call reads or hands out. -/
def Reader.reads (s : State) : Reader → List Nat
  | .xstreamFree x | .getMainSched x => [(s.objects.xstream x).mainSched]
  | .threadMigrate avoid => migrateReads s (((List.range s.numPes).filterMap s.table).filter
      fun x => avoid ≠ some (s.objects.xstream x).rank)

theorem mem_migrateReads {s : State} {l : List Nat} {i : Nat} (h : i ∈ migrateReads s l) :
    ∃ x ∈ l, (s.objects.xstream x).mainSched = i := by
  induction l with
  | nil => cases h
  | cons x l ih =>
    simp only [migrateReads, List.mem_cons] at h
    obtain rfl | h := h
    · exact ⟨x, List.mem_cons_self, rfl⟩
    · split at h
      · obtain ⟨y, hy, hm⟩ := ih h
        exact ⟨y, List.mem_cons_of_mem x hy, hm⟩
      · cases h

/-- In every run that leaves the schedulers of joined xstreams alone, every scheduler is destroyed
at most once and never while an existing xstream has it as its main scheduler, so the calls that
follow `main_sched` find it alive. -/
theorem scheduler_lifetime {s : State} (h : Reach system Kept s) :
    (∀ i, s.destroyed i ≤ 1) ∧
    (∀ x, (s.objects.xstream x).live = true →
      (s.objects.sched (s.objects.xstream x).mainSched).live = true ∧
      s.destroyed (s.objects.xstream x).mainSched = 0) ∧
    ∀ q : Reader, q.Valid s → ∀ i ∈ q.reads s, (s.objects.sched i).live = true := by
  have hi := reach_lasts h
  refine ⟨hi.once, fun x hx => ⟨hi.main x hx, hi.fresh _ (.inl (hi.main x hx))⟩, fun q hq i hqi => ?_⟩
  cases q with
  | xstreamFree x | getMainSched x =>
    cases List.mem_singleton.mp hqi
    exact hi.main x hq
  | threadMigrate avoid =>
    obtain ⟨x, hx, rfl⟩ := mem_migrateReads hqi
    obtain ⟨r, -, hr⟩ := List.mem_filterMap.mp (List.mem_filter.mp hx).1
    exact hi.main x (hi.base.table r x hr).1

/-- Scheduler 1 runs on two xstreams, one after the other, and is freed after both. -/
theorem scheduler_lifetime_reused : ∃ s, (Reach system Kept s ∧ s.destroyed 1 = 1) ∧
    ∀ i, s.destroyed i ≤ 1 := by
  obtain ⟨s, hr, hd⟩ := (Reach.start (M := system) (G := Kept) (s := initial 4) ⟨4, rfl⟩).exists_run
    (fun s => s.destroyed 1 = 1)
    [ownSched, .xstreamCreate (some 1) true, .xstreamJoin (some 1) none,
      .xstreamCreate (some 1) true, .xstreamFree (some 1) none, .xstreamFree (some 2) none,
      .schedFree (some 1)] (by decide)
  exact ⟨s, ⟨hr, hd⟩, (scheduler_lifetime hr).1⟩

/-- An automatic scheduler over a pool of its own. -/
def autoSched : Call := .schedCreateBasic (some .basic) ⟨0, none⟩ none true

/-- `ABT_sched_free` destroys the scheduler of a joined xstream, which `ABT_xstream_free` and
`ABT_thread_migrate` then read; an automatic scheduler that is reused goes with the first xstream
while the second one runs it, and goes again with the second. -/
theorem destroyed_in_use :
    (∃ s, Reach system (fun s c => Usable s.book c) s ∧ (s.objects.xstream 1).live = true ∧
      s.destroyed (s.objects.xstream 1).mainSched = 1 ∧
      ∀ q ∈ [Reader.xstreamFree 1, .threadMigrate (some 0)],
        ∃ i ∈ q.reads s, (s.objects.sched i).live = false) ∧
    (∃ s, Reach system (fun s c => Usable s.book c) s ∧ (s.objects.xstream 2).live = true ∧
      (s.objects.xstream 2).finished = false ∧
      s.destroyed (s.objects.xstream 2).mainSched = 1) ∧
    ∃ s, Reach system (fun s c => Usable s.book c) s ∧ s.destroyed 1 = 2 := by
  have h0 := Reach.start (M := system) (G := fun s c => Usable s.book c) (s := initial 4) ⟨4, rfl⟩
  refine ⟨?_, ?_, ?_⟩
  · exact h0.exists_run _ [autoSched, .xstreamCreate (some 1) true, .xstreamJoin (some 1) none,
      .schedFree (some 1)] (by decide)
  · exact h0.exists_run _ [autoSched, .xstreamCreate (some 1) true, .xstreamJoin (some 1) none,
      .xstreamCreate (some 1) true, .xstreamFree (some 1) none] (by decide)
  · exact h0.exists_run _ [autoSched, .xstreamCreate (some 1) true, .xstreamJoin (some 1) none,
      .xstreamCreate (some 1) true, .xstreamFree (some 1) none, .xstreamFree (some 2) none]
      (by decide)

end Api
end AbtReconverse
