import AbtReconverse.Api.Machine
import AbtReconverse.Objects.Effect

/-!
# AbtReconverse.Api.Book

What the calls of `Api.Machine` do, seen as a book that says which scheduler runs where. The book
forgets the pools and the threads; `Does b c ms` lists every sequence of entries `ms` that a call
`c` can make, with what the code has checked before, and `call_does` says that the calls do nothing
else. The invariants of schedulers and xstreams are proved on the book, entry by entry.
-/

namespace AbtReconverse
namespace Api

open Lts

structure Book where
  usedBy : Nat → Option Nat
  automatic : Nat → Bool
  alive : Nat → Bool
  inPool : Nat → Bool
  destroyed : Nat → Nat
  /-- The schedulers created so far. -/
  scheds : Nat
  main : Nat → Nat
  isOpen : Nat → Bool
  finished : Nat → Bool
  runner : Nat → Bool
  rank : Nat → Nat
  /-- The xstreams created so far. -/
  xstreams : Nat
  table : Nat → Option Nat

def State.book (s : State) : Book where
  usedBy := Objects.Sched.usedBy ∘ s.objects.sched
  automatic := Objects.Sched.automatic ∘ s.objects.sched
  alive := Objects.Sched.live ∘ s.objects.sched
  inPool := s.inPool
  destroyed := s.destroyed
  scheds := s.objects.nextSched
  main := Objects.Xstream.mainSched ∘ s.objects.xstream
  isOpen := Objects.Xstream.live ∘ s.objects.xstream
  finished := Objects.Xstream.finished ∘ s.objects.xstream
  runner := s.runner
  rank := Objects.Xstream.rank ∘ s.objects.xstream
  xstreams := s.objects.nextXstream
  table := s.table

inductive Move where
  | add (automatic : Bool)
  | lease (i r : Nat) (runner : Bool)
  | replace (x i : Nat) (runner : Bool)
  | finish (x : Nat)
  | destroy (i : Nat)
  | close (x : Nat)
  | enter (i : Nat)
  | leave (i : Nat)
  deriving DecidableEq, Repr

namespace Book

/-- Not finished, or its runner was started anew after that. -/
def active (b : Book) (x : Nat) : Bool := !b.finished x || b.runner x

def destroy (b : Book) (i : Nat) : Book :=
  { b with
    alive := Function.update b.alive i false
    destroyed := Function.update b.destroyed i (b.destroyed i + 1) }

def apply (b : Book) : Move → Book
  | .add a =>
    { b with
      usedBy := Function.update b.usedBy b.scheds none
      automatic := Function.update b.automatic b.scheds a
      alive := Function.update b.alive b.scheds true
      scheds := b.scheds + 1 }
  | .lease i r u =>
    { b with
      usedBy := Function.update b.usedBy i (some b.xstreams)
      main := Function.update b.main b.xstreams i
      isOpen := Function.update b.isOpen b.xstreams true
      finished := Function.update b.finished b.xstreams false
      runner := Function.update b.runner b.xstreams u
      rank := Function.update b.rank b.xstreams r
      xstreams := b.xstreams + 1
      table := Function.update b.table r (some b.xstreams) }
  | .replace x i u =>
    { b with
      usedBy := Function.update (Function.update b.usedBy i (some x)) (b.main x) none
      main := Function.update b.main x i
      runner := Function.update b.runner x u }
  | .finish x =>
    { b with
      usedBy := Function.update b.usedBy (b.main x) none
      finished := Function.update b.finished x true
      runner := Function.update b.runner x false }
  | .destroy i => b.destroy i
  | .close x =>
    -- an automatic scheduler goes with its xstream
    { if b.automatic (b.main x) then b.destroy (b.main x) else b with
      isOpen := Function.update b.isOpen x false
      table := Function.update b.table (b.rank x) none }
  | .enter i => { b with inPool := Function.update b.inPool i true }
  | .leave i => { b with inPool := Function.update b.inPool i false }

end Book

/-- The scheduler that a call gives to an xstream. -/
def Call.lends : Call → Option Nat
  | .xstreamCreate i _ | .xstreamCreateWithRank i _ | .setMainSched _ i _ => i
  | _ => none

/-- The xstream whose main scheduler a call replaces. -/
def Call.rehires : Call → Option Nat
  | .setMainSched x _ _ | .setMainSchedBasic x _ _ _ => x
  | _ => none

/-- The scheduler that a call makes a work unit. -/
def Call.stacks : Call → Option Nat
  | .poolAddSched _ i => i
  | _ => none

/-- The scheduler that a call frees. -/
def Call.frees : Call → Option Nat
  | .schedFree i => i
  | _ => none

/-- The xstream that a call joins. -/
def Call.joins : Call → Option Nat
  | .xstreamJoin x _ | .xstreamFree x _ => x
  | _ => none

/-- The entries that a call can make in the book. -/
inductive Does (b : Book) (c : Call) : List Move → Prop where
  | nothing : Does b c []
  | add {a : Bool} : Does b c [.add a]
  /-- `init` failed. -/
  | undo {a : Bool} : Does b c [.add a, .destroy b.scheds]
  | lease {i r : Nat} {u : Bool} : c.lends = some i → c.rehires = none → b.usedBy i = none →
      Does b c [.lease i r u]
  | leaseNew {a u : Bool} {r : Nat} : Does b c [.add a, .lease b.scheds r u]
  | replace {x i : Nat} {u : Bool} : c.rehires = some x → c.lends = some i →
      b.usedBy i = none ∨ b.usedBy i = some x → b.main x ≠ i → b.automatic (b.main x) = false →
      Does b c [.replace x i u]
  | replaceDestroy {x i : Nat} {u : Bool} : c.rehires = some x → c.lends = some i →
      b.usedBy i = none ∨ b.usedBy i = some x → b.main x ≠ i → b.automatic (b.main x) = true →
      Does b c [.replace x i u, .destroy (b.main x)]
  | replaceNew {a u : Bool} {x : Nat} : c.rehires = some x → b.main x ≠ b.scheds →
      b.automatic (b.main x) = false → Does b c [.add a, .replace x b.scheds u]
  | replaceNewDestroy {a u : Bool} {x : Nat} : c.rehires = some x → b.main x ≠ b.scheds →
      b.automatic (b.main x) = true →
      Does b c [.add a, .replace x b.scheds u, .destroy (b.main x)]
  | finish {x : Nat} : b.isOpen x = true ∨ c.joins = some x → b.active x = true →
      Does b c [.finish x]
  | close {x : Nat} : c.joins = some x → b.finished x = true → Does b c [.close x]
  | finishClose {x : Nat} : c.joins = some x → b.active x = true → Does b c [.finish x, .close x]
  | free {i : Nat} : c.frees = some i → b.usedBy i = none → b.inPool i = false →
      Does b c [.destroy i]
  | enter {i : Nat} : c.stacks = some i → b.usedBy i = none → b.inPool i = false →
      Does b c [.enter i]
  | leave {i : Nat} : Does b c [.leave i]

/-! ## The operations in the book -/

/-- A field that the new record has from the old one. -/
theorem update_comp_self {α β : Type} (f : α → β) (g : Nat → α) (i : Nat) :
    Function.update (f ∘ g) i (f (g i)) = f ∘ g := Function.update_eq_self i (f ∘ g)

theorem book_newSched (s : State) (l : List (Option Nat)) (a u : Bool) :
    ({ s with objects := s.objects.newSched l a u } : State).book = s.book.apply (.add a) := by
  obtain ⟨hx, hs, hnx, hns, -⟩ := Objects.pools_frame l s.objects
  obtain ⟨⟨es, ex, -, -, -, en, -⟩, -⟩ :=
    Objects.foldl_hold (s.objects.pools l).2 (s.objects.pools l).1
  have hsched : (s.objects.newSched l a u).sched = Function.update s.objects.sched
      s.objects.nextSched ⟨true, (s.objects.pools l).2, a, u, none⟩ := by
    simp only [Objects.State.newSched, Objects.State.addSched, es, hs, hns]
  have hxs : (s.objects.newSched l a u).xstream = s.objects.xstream := ex.trans hx
  have hnext : (s.objects.newSched l a u).nextSched = s.objects.nextSched + 1 :=
    congrArg (· + 1) hns
  have hnextx : (s.objects.newSched l a u).nextXstream = s.objects.nextXstream := en.trans hnx
  simp only [State.book, Book.apply, hsched, hxs, hnext, hnextx, Function.comp_update]

theorem book_destroy (s : State) (i : Nat) : (s.schedDestroy i).book = s.book.destroy i := by
  obtain ⟨hx, hs, hnx, hns, -⟩ := Objects.destroySched_frame s.objects i
  simp only [State.book, State.schedDestroy, Book.destroy, hx, hs, hnx, hns, Function.comp_update,
    update_comp_self]

theorem book_lease (s : State) (i r : Nat) :
    ({ s with
        objects := s.objects.newXstream i r
        runner := Function.update s.runner s.objects.nextXstream (s.objects.sched i).userDef
        table := Function.update s.table r (some s.objects.nextXstream) } : State).book =
      s.book.apply (.lease i r (s.objects.sched i).userDef) := by
  simp only [State.book, Book.apply, Objects.State.newXstream, Function.comp_update,
    update_comp_self]

theorem book_setXstream (s : State) (x : Nat) (o : Objects.Xstream) :
    ({ s with objects := s.objects.setXstream x o } : State).book =
      { s.book with
        main := Function.update s.book.main x o.mainSched
        isOpen := Function.update s.book.isOpen x o.live
        finished := Function.update s.book.finished x o.finished
        rank := Function.update s.book.rank x o.rank } := by
  simp only [State.book, Objects.State.setXstream, Function.comp_update]

theorem book_setUsedBy (s : State) (i : Nat) (u : Option Nat) :
    ({ s with objects := s.objects.setSched i { s.objects.sched i with usedBy := u } } : State).book =
      { s.book with usedBy := Function.update s.book.usedBy i u } := by
  simp only [State.book, Objects.State.setSched, Function.comp_update, update_comp_self]

theorem book_moveSelf (s : State) (old new : List Nat) (self : Option Nat) :
    ({ s with objects := s.objects.moveSelf old new self } : State).book = s.book := by
  obtain ⟨th, hth⟩ := Objects.Inv.moveSelf_eq s.objects old new self
  rw [hth]
  rfl

theorem book_replace (s : State) (x i : Nat) (self : Option Nat) (u : Bool) :
    ({ s with
        objects := s.objects.replaceSched x i self
        runner := Function.update s.runner x u } : State).book = s.book.apply (.replace x i u) := by
  let s₁ : State :=
    { s with objects := s.objects.setXstream x { s.objects.xstream x with mainSched := i } }
  let s₂ : State :=
    { s₁ with objects := s₁.objects.setSched i { s₁.objects.sched i with usedBy := some x } }
  have h₁ : s₁.book = { s.book with main := Function.update s.book.main x i } := by
    refine (book_setXstream s x _).trans ?_
    simp only [State.book, update_comp_self]
  have h₂ : s₂.book = { s₁.book with usedBy := Function.update s₁.book.usedBy i (some x) } :=
    book_setUsedBy s₁ i (some x)
  have h₃ := book_setUsedBy s₂ (s.objects.xstream x).mainSched none
  have h : ({ s with objects := s.objects.replaceSched x i self } : State).book = _ :=
    (book_moveSelf _ _ _ _).trans h₃
  have hr : ({ s with
        objects := s.objects.replaceSched x i self
        runner := Function.update s.runner x u } : State).book =
      { ({ s with objects := s.objects.replaceSched x i self } : State).book with
        runner := Function.update s.runner x u } := rfl
  rw [hr, h, h₂, h₁]
  rfl

theorem book_release (s : State) (x : Nat) : (s.release x).book = s.book.apply (.finish x) := by
  let s₁ : State := { s with objects := s.objects.giveBack x }
  let s₂ : State :=
    { s₁ with objects := s₁.objects.setXstream x { s₁.objects.xstream x with finished := true } }
  have hmain : (s₁.objects.xstream x).mainSched = (s.objects.xstream x).mainSched := by
    simp [s₁, Objects.State.giveBack, Objects.State.setXstream]
  have h₁ : s₁.book = s.book := by
    refine (book_setXstream s x _).trans ?_
    simp only [State.book, update_comp_self]
  have h₂ : s₂.book = { s₁.book with finished := Function.update s₁.book.finished x true } := by
    refine (book_setXstream s₁ x _).trans ?_
    simp only [State.book, update_comp_self]
  have h₃ : ({ s₁ with objects := s₁.objects.finish x } : State).book = { s₂.book with
      usedBy := Function.update s₂.book.usedBy (s₁.objects.xstream x).mainSched none } :=
    book_setUsedBy s₂ (s₁.objects.xstream x).mainSched none
  have hr : (s.release x).book = { ({ s₁ with objects := s₁.objects.finish x } : State).book with
      runner := Function.update s.runner x false } := rfl
  rw [hr, h₃, hmain, h₂, h₁]
  rfl

theorem book_dispose (s : State) (x : Nat) : (s.dispose x).book = s.book.apply (.close x) := by
  have hclose : ∀ s' : State, ({ s' with
        objects := s'.objects.setXstream x { s'.objects.xstream x with live := false }
        table := Function.update s'.table (s.objects.xstream x).rank none } : State).book =
      { s'.book with
        isOpen := Function.update s'.book.isOpen x false
        table := Function.update s'.book.table (s.objects.xstream x).rank none } := by
    intro s'
    simp only [State.book, Objects.State.setXstream, Function.comp_update, update_comp_self]
  unfold State.dispose
  refine (hclose _).trans ?_
  cases ha : (s.objects.sched (s.objects.xstream x).mainSched).automatic with
  | false =>
    have hb : s.book.automatic (s.book.main x) = false := ha
    simp only [Bool.false_eq_true, if_false, Book.apply, hb]
    rfl
  | true =>
    have hb : s.book.automatic (s.book.main x) = true := ha
    simp only [if_true, Book.apply, hb, book_destroy]
    rfl

/-! ## The calls -/

theorem book_create {s s' : State} {d : Option SchedPredef} {args : PoolArgs} {a u : Bool}
    (h : s.schedCreatePredef d args a u = .ok s') : s'.book = s.book.apply (.add a) := by
  cases d with
  | none => simp [State.schedCreatePredef] at h
  | some d =>
    simp only [State.schedCreatePredef] at h
    split at h
    · simp at h
    · cases h
      exact book_newSched s _ a u

/-- The book after a call, by entries that the call can make. -/
def Made (b : Book) (c : Call) (b' : Book) : Prop := ∃ ms, Does b c ms ∧ b' = ms.foldl Book.apply b

section

variable {b : Book} {s s' : State} {c : Call}

theorem Made.same : Made b c b := ⟨[], .nothing, rfl⟩

theorem Made.added (h : s'.book = s.book.apply (.add true)) : Made s.book c s'.book :=
  ⟨_, .add, h⟩

theorem lease_made {i : Nat} (want : Int) (hi : c.lends = some i) (hr : c.rehires = none)
    (hu : (s.objects.sched i).usedBy = none) : Made s.book c (s.xstreamLease i want).2.book := by
  unfold State.xstreamLease
  split
  · exact Made.same
  · exact ⟨_, .lease hi hr hu, book_lease s i _⟩

theorem leaseNew_made (want : Int) (h : s'.book = s.book.apply (.add true)) :
    Made s.book c (s'.xstreamLease s.objects.nextSched want).2.book := by
  unfold State.xstreamLease
  split
  · exact Made.added h
  · exact ⟨_, .leaseNew, (book_lease s' _ _).trans (by rw [h]; rfl)⟩

theorem createOn_made {sched : Option Nat} (want : Int) (hc : c.lends = sched)
    (hr : c.rehires = none) :
    Made s.book c (s.createOn sched want).2.book := by
  cases sched with
  | none =>
    simp only [State.createOn]
    split
    · exact Made.same
    · rename_i s' h
      exact leaseNew_made want (book_create h)
  | some i =>
    simp only [State.createOn]
    split
    · exact Made.same
    · rename_i hu
      exact lease_made want hc hr (by simpa using hu)

/-- `ABT_xstream_set_main_sched` does nothing, or its checks have passed. -/
theorem setMainSched_cases (s : State) (x i self : Option Nat) :
    (s.setMainSched x i self).2 = s ∨ ∃ y j, x = some y ∧ i = some j ∧
      ((s.objects.sched j).usedBy = none ∨ (s.objects.sched j).usedBy = some y) ∧
      (s.objects.xstream y).mainSched ≠ j ∧
      ∃ u, (s.setMainSched x i self).2.book =
        (if s.book.automatic (s.book.main y) then [.replace y j u, .destroy (s.book.main y)]
          else [.replace y j u]).foldl Book.apply s.book := by
  unfold State.setMainSched
  split
  · exact .inl rfl
  · split
    · exact .inl rfl
    · exact .inl rfl
    · rename_i y j
      dsimp only
      split
      · exact .inl rfl
      · rename_i hu
        split
        · exact .inl rfl
        · rename_i hne
          rw [not_and_or, not_not, not_not] at hu
          refine .inr ⟨y, j, rfl, rfl, hu, hne, (s.objects.sched j).userDef, ?_⟩
          cases ha : (s.objects.sched (s.objects.xstream y).mainSched).automatic with
          | false =>
            have hb : s.book.automatic (s.book.main y) = false := ha
            simp only [Bool.false_eq_true, if_false, hb]
            exact book_replace s y j self _
          | true =>
            have hb : s.book.automatic (s.book.main y) = true := ha
            simp only [if_true, hb]
            exact (book_destroy _ _).trans (congrArg (Book.destroy · _) (book_replace s y j self _))

theorem setMainSched_made (x i self : Option Nat) :
    Made s.book (.setMainSched x i self) (s.setMainSched x i self).2.book := by
  obtain hs | ⟨y, j, rfl, rfl, hu, hne, u, hb⟩ := setMainSched_cases s x i self
  · rw [hs]; exact Made.same
  · cases ha : s.book.automatic (s.book.main y) with
    | false =>
      rw [ha] at hb
      exact ⟨_, .replace rfl rfl hu hne ha, hb⟩
    | true =>
      rw [ha] at hb
      exact ⟨_, .replaceDestroy rfl rfl hu hne ha, hb⟩

theorem setMainSchedBasic_made (x : Option Nat) (d : Option SchedPredef) (args : PoolArgs)
    (self : Option Nat) :
    Made s.book (.setMainSchedBasic x d args self) (s.setMainSchedBasic x d args self).2.book := by
  unfold State.setMainSchedBasic
  split
  · exact Made.same
  · rename_i s' h
    have hadd := book_create h
    obtain hs | ⟨y, j, rfl, hj, -, hne, u, hb⟩ :=
      setMainSched_cases s' x (some s.objects.nextSched) self
    · rw [hs]; exact Made.added hadd
    · cases hj
      have hm : s'.book.main y = s.book.main y := congrFun (congrArg Book.main hadd) y
      have hne' : s.book.main y ≠ s.book.scheds := fun he => hne (hm.trans he)
      have ha : s'.book.automatic (s'.book.main y) = s.book.automatic (s.book.main y) := by
        rw [hm, hadd]
        exact Function.update_of_ne hne' _ _
      rw [ha, hm, hadd] at hb
      cases hat : s.book.automatic (s.book.main y) with
      | false =>
        rw [hat] at hb
        exact ⟨_, .replaceNew rfl hne' hat, hb⟩
      | true =>
        rw [hat] at hb
        exact ⟨_, .replaceNewDestroy rfl hne' hat, hb⟩

theorem schedCreate_made (d : Option SchedDef) (args : PoolArgs) (o : Bool) :
    Made s.book (.schedCreate d args o) (s.schedCreate d args o).2.book := by
  unfold State.schedCreate
  split
  · exact Made.same
  · split
    · exact Made.same
    · split
      · exact Made.same
      · split
        · exact Made.same
        · split
          · exact Made.same
          · rename_i s' h
            have hadd := book_create h
            split
            · exact ⟨_, .add, hadd⟩
            · split
              · exact ⟨_, .add, hadd⟩
              · exact ⟨_, .undo, (book_destroy s' _).trans (by rw [hadd]; rfl)⟩

theorem book_finishing (s : State) (x : Nat) : ({ s with
      objects := s.objects.setXstream x { s.objects.xstream x with finishing := true } } :
        State).book = s.book := by
  refine (book_setXstream s x _).trans ?_
  simp only [State.book, update_comp_self]

/-- `join_impl` fails, finds the xstream finished, or finishes it. -/
theorem joinImpl_cases (s : State) (x : Nat) (caller : Option Nat) :
    (s.joinImpl x caller).2 = s ∧
      ((s.joinImpl x caller).1 ≠ .success ∨ s.book.finished x = true) ∨
    s.book.active x = true ∧ (s.joinImpl x caller).2.book = s.book.apply (.finish x) := by
  unfold State.joinImpl
  split
  · exact .inl ⟨rfl, .inl (by simp)⟩
  · split
    · exact .inl ⟨rfl, .inl (by simp)⟩
    · split
      · rename_i hf
        exact .inl ⟨rfl, .inr hf⟩
      · rename_i hf
        have hb : s.book.finished x = false := Bool.eq_false_iff.mpr hf
        exact .inr ⟨by simp [Book.active, hb],
          (book_release _ x).trans (congrArg (Book.apply · _) (book_finishing s x))⟩

theorem xstreamJoin_made (x caller : Option Nat) :
    Made s.book (.xstreamJoin x caller) (s.xstreamJoin x caller).2.book := by
  unfold State.xstreamJoin
  split
  · exact Made.same
  · split
    · exact Made.same
    · rename_i x
      obtain ⟨hs, -⟩ | ⟨ha, hb⟩ := joinImpl_cases s x caller
      · rw [hs]; exact Made.same
      · exact ⟨_, .finish (.inr rfl) ha, hb⟩

theorem xstreamFree_made (x caller : Option Nat) :
    Made s.book (.xstreamFree x caller) (s.xstreamFree x caller).2.book := by
  unfold State.xstreamFree
  split
  · exact Made.same
  · split
    · exact Made.same
    · rename_i x
      dsimp only
      obtain ⟨hs, hf⟩ | ⟨ha, hb⟩ := joinImpl_cases s x caller
      · split
        · rename_i hok
          have hfin := hf.resolve_left fun h => h hok
          refine ⟨_, .close rfl hfin, (book_dispose _ x).trans ?_⟩
          rw [hs]
          rfl
        · rw [hs]; exact Made.same
      · split
        · refine ⟨_, .finishClose rfl ha, (book_dispose _ x).trans ?_⟩
          rw [hb]
          rfl
        · exact ⟨_, .finish (.inr rfl) ha, hb⟩

/-- The calls do nothing else. -/
theorem call_does (s : State) (c : Call) : Made s.book c (call s c).2.book := by
  cases c with
  | poolCreate a => exact Made.same
  | schedCreate d args o => exact schedCreate_made d args o
  | schedCreateBasic d args a o =>
    simp only [call, State.schedCreateBasic]
    split
    · exact Made.same
    · split
      · exact Made.same
      · split
        · exact Made.same
        · rename_i s' h
          exact ⟨_, .add, book_create h⟩
  | schedFree i =>
    simp only [call, State.schedFree]
    split
    · exact Made.same
    · split
      · exact Made.same
      · rename_i i
        split
        · exact Made.same
        · rename_i hu
          simp only [Bool.or_eq_true, not_or, Bool.not_eq_true, Option.isSome_eq_false_iff,
            Option.isNone_iff_eq_none] at hu
          exact ⟨_, .free rfl hu.1 hu.2, book_destroy s i⟩
  | xstreamCreate i o =>
    simp only [call, State.xstreamCreate]
    split
    · exact Made.same
    · split
      · exact Made.same
      · exact createOn_made _ rfl rfl
  | xstreamCreateWithRank i r =>
    simp only [call, State.xstreamCreateWithRank]
    split
    · exact Made.same
    · exact createOn_made _ rfl rfl
  | xstreamCreateBasic d args o =>
    simp only [call, State.xstreamCreateBasic]
    split
    · exact Made.same
    · split
      · exact Made.same
      · rename_i s' h
        have hadd := book_create h
        have hfresh : (s'.objects.sched s.objects.nextSched).usedBy = none :=
          (congrFun (congrArg Book.usedBy hadd) s.objects.nextSched).trans (Function.update_self ..)
        simp only [State.xstreamCreate, State.createOn, hfresh, Option.isSome_none,
          Bool.false_eq_true, if_false]
        split
        · exact Made.added hadd
        · split
          · exact Made.added hadd
          · exact leaseNew_made _ hadd
  | setMainSched x i t => exact setMainSched_made x i t
  | setMainSchedBasic x d args t => exact setMainSchedBasic_made x d args t
  | poolAddSched p i =>
    simp only [call, State.poolAddSched]
    split
    · exact Made.same
    · exact Made.same
    · rename_i p i
      split
      · exact Made.same
      · rename_i hu
        simp only [Bool.or_eq_true, not_or, Bool.not_eq_true, Option.isSome_eq_false_iff,
          Option.isNone_iff_eq_none] at hu
        split
        · exact Made.same
        · exact ⟨_, .enter rfl hu.2 hu.1, rfl⟩
  | xstreamJoin x y => exact xstreamJoin_made x y
  | xstreamFree x y => exact xstreamFree_made x y
  | stackedEnd i => exact ⟨_, .leave, rfl⟩
  | runnerEnd x =>
    simp only [call, State.runnerEnd]
    split
    · rename_i h
      have hr : s.book.runner x = true := h.2
      exact ⟨_, .finish (.inl h.1) (by simp [Book.active, hr]), book_release s x⟩
    · exact Made.same
  | work p l n => exact Made.same

end

end Api
end AbtReconverse
