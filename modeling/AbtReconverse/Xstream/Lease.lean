import AbtReconverse.Objects.Effect
import AbtReconverse.Xstream.Machine

/-!
# AbtReconverse.Xstream.Lease

The three phases of a PE. While an xstream has its lease (`Leased`), the PE knows it before any
table of a scheduler can be installed. Once the lease is given back (`Closing`), the default table
and the completion are on their way, in this order. When the completion has been handled
(`Swapped`), no scheduler is left in the table or in the queue.

`PeInv` adds that every scheduler listed on a PE exists, and is the main scheduler of the xstream
that has the lease (`Current`) or has nothing to run (`Quiet`).
-/

namespace AbtReconverse
namespace Lease

open Lts Objects

/-- The scheduler is in the table of the PE or in one that is under way. -/
def Pe.Entry (e : Pe) (j : Nat) : Prop := e.table = some j ∨ .install (some j) ∈ e.queue

instance (e : Pe) (j : Nat) : Decidable (e.Entry j) := by
  unfold Pe.Entry; infer_instance

/-- The scheduler is the main one of an xstream that has the lease of PE `r`. -/
def Current (o : Objects.State) (r j : Nat) : Prop :=
  ∃ x < o.nextXstream, (o.xstream x).live = true ∧ (o.xstream x).released = false ∧
    (o.xstream x).rank = r ∧ (o.xstream x).mainSched = j

/-- `ABTI_poll_sched` of the scheduler finds nothing on this PE. -/
def Quiet (o : Objects.State) (e : Pe) (j : Nat) : Prop :=
  e.held = none ∧ ∀ p ∈ (o.sched j).pools, (o.pool p).units = []

instance (o : Objects.State) (r j : Nat) : Decidable (Current o r j) := by
  unfold Current; infer_instance

instance (o : Objects.State) (e : Pe) (j : Nat) : Decidable (Quiet o e j) := by
  unfold Quiet; infer_instance

/-- A message that starts no lease and brings no scheduler. -/
def Msg.Idle : Msg → Prop
  | .install none | .release _ => True
  | _ => False

structure Leased (e : Pe) (x : Nat) : Prop where
  leases : ∀ y, .lease y ∈ e.queue → y = x
  known : e.tls = some x ∨ e.table = none ∧
    ∃ l₁ l₂, e.queue = l₁ ++ .lease x :: l₂ ∧ ∀ m ∈ l₁, m.Idle

inductive Closing (e : Pe) (x : Nat) : Prop where
  | swap (l₁ l₂ : List Msg) : e.queue = l₁ ++ .install none :: .release x :: l₂ →
    .release x ∉ l₁ → (∀ m ∈ l₂, m.Idle) → Closing e x
  | done (l : List Msg) : e.table = none → e.queue = .release x :: l → (∀ m ∈ l, m.Idle) →
    Closing e x

structure Swapped (e : Pe) : Prop where
  table : e.table = none
  idle : ∀ m ∈ e.queue, m.Idle

/-! ### One PE sends and handles -/

section
variable {e e' : Pe} {x : Nat} {m : Msg} {q l : List Msg}

theorem Pe.Entry.send {j : Nat} (h : (e.send l).Entry j) :
    e.Entry j ∨ .install (some j) ∈ l := by
  rcases h with h | h
  · exact .inl (.inl h)
  · rcases List.mem_append.mp h with h | h
    · exact .inl (.inr h)
    · exact .inr h

theorem Leased.congr (h : Leased e x) (ht : e'.tls = e.tls) (htab : e'.table = e.table)
    (hq : e'.queue = e.queue) : Leased e' x := by
  obtain ⟨h1, h2⟩ := h
  exact ⟨by rwa [hq], by rwa [ht, htab, hq]⟩

theorem Closing.congr (h : Closing e x) (htab : e'.table = e.table)
    (hq : e'.queue = e.queue) : Closing e' x := by
  cases h with
  | swap l₁ l₂ h1 hr hi => exact .swap l₁ l₂ (hq.trans h1) hr hi
  | done l ht h1 hi => exact .done l (htab.trans ht) (hq.trans h1) hi

theorem Swapped.congr (h : Swapped e) (htab : e'.table = e.table)
    (hq : e'.queue = e.queue) : Swapped e' :=
  ⟨htab.trans h.table, by rw [hq]; exact h.idle⟩

theorem Leased.send (h : Leased e x) (hl : ∀ y, .lease y ∈ l → y = x) :
    Leased (e.send l) x := by
  refine ⟨fun y hy => ?_, h.known.imp_right ?_⟩
  · rcases List.mem_append.mp hy with hy | hy
    · exact h.leases y hy
    · exact hl y hy
  · rintro ⟨ht, l₁, l₂, hq, hi⟩
    refine ⟨ht, l₁, l₂ ++ l, ?_, hi⟩
    simp [Pe.send, hq]

theorem Closing.send (h : Closing e x) (hl : ∀ m ∈ l, m.Idle) : Closing (e.send l) x := by
  cases h with
  | swap l₁ l₂ hq hr hi =>
    refine .swap l₁ (l₂ ++ l) (by simp [Pe.send, hq]) hr fun m hm => ?_
    exact (List.mem_append.mp hm).elim (hi m) (hl m)
  | done l₂ ht hq hi =>
    refine .done (l₂ ++ l) ht (by simp [Pe.send, hq]) fun m hm => ?_
    exact (List.mem_append.mp hm).elim (hi m) (hl m)

theorem Swapped.send (h : Swapped e) (hl : ∀ m ∈ l, m.Idle) : Swapped (e.send l) :=
  ⟨h.table, fun m hm => (List.mem_append.mp hm).elim (h.idle m) (hl m)⟩

/-- What the PE itself becomes when it handles a message. -/
structure Handles (e : Pe) (m : Msg) (q : List Msg) (e' : Pe) : Prop where
  before : e.queue = m :: q
  queue : e'.queue = q
  tls : e'.tls = match m with
    | .lease y => some y
    | _ => e.tls
  table : e'.table = match m with
    | .install t => t
    | _ => e.table
  held : e'.held = e.held

theorem Handles.mem (h : Handles e m q e') {m' : Msg} (hm : m' ∈ e'.queue) : m' ∈ e.queue := by
  rw [h.queue] at hm
  rw [h.before]
  exact List.mem_cons_of_mem m hm

theorem Handles.entry (h : Handles e m q e') {j : Nat} (hj : e'.Entry j) : e.Entry j := by
  rcases hj with ht | hm
  · rw [h.table] at ht
    cases m with
    | install t =>
      simp only at ht
      subst ht
      exact .inr (by rw [h.before]; exact List.mem_cons_self)
    | lease y => exact .inl ht
    | release y => exact .inl ht
  · exact .inr (h.mem hm)

theorem Leased.handle (hl : Leased e x) (h : Handles e m q e') : Leased e' x := by
  refine ⟨fun y hy => hl.leases y (h.mem hy), ?_⟩
  have htls := h.tls
  have htab := h.table
  cases m with
  | lease y =>
    have hy : y = x := hl.leases y (by rw [h.before]; exact List.mem_cons_self)
    subst hy
    exact .inl htls
  | install t =>
    refine hl.known.imp htls.trans ?_
    rintro ⟨ht, l₁, l₂, hq, hi⟩
    cases l₁ with
    | nil => simp [h.before] at hq
    | cons m' l₁ =>
      simp only [h.before, List.cons_append, List.cons.injEq] at hq
      obtain ⟨rfl, hq⟩ := hq
      have hidle := hi _ List.mem_cons_self
      cases t with
      | none =>
        exact ⟨htab, l₁, l₂, h.queue.trans hq, fun m hm => hi m (List.mem_cons_of_mem _ hm)⟩
      | some j => exact hidle.elim
  | release y =>
    refine hl.known.imp htls.trans ?_
    rintro ⟨ht, l₁, l₂, hq, hi⟩
    cases l₁ with
    | nil => simp [h.before] at hq
    | cons m' l₁ =>
      simp only [h.before, List.cons_append, List.cons.injEq] at hq
      obtain ⟨rfl, hq⟩ := hq
      exact ⟨htab.trans ht, l₁, l₂, h.queue.trans hq,
        fun m hm => hi m (List.mem_cons_of_mem _ hm)⟩

theorem Closing.handle (hc : Closing e x) (h : Handles e m q e') (hm : m ≠ .release x) :
    Closing e' x := by
  have htab := h.table
  cases hc with
  | swap l₁ l₂ hq hr hi =>
    cases l₁ with
    | nil =>
      simp only [h.before, List.nil_append, List.cons.injEq] at hq
      obtain ⟨rfl, hq⟩ := hq
      exact .done l₂ htab (h.queue.trans hq) hi
    | cons m' l₁ =>
      simp only [h.before, List.cons_append, List.cons.injEq] at hq
      obtain ⟨rfl, hq⟩ := hq
      exact .swap l₁ l₂ (h.queue.trans hq) (fun hm => hr (List.mem_cons_of_mem _ hm)) hi
  | done l₂ ht hq hi =>
    simp only [h.before, List.cons.injEq] at hq
    exact absurd hq.1 hm

/-- The completion comes after the table swap. -/
theorem Closing.complete (hc : Closing e x) (h : Handles e (.release x) q e') : Swapped e' := by
  have htab := h.table
  cases hc with
  | swap l₁ l₂ hq hr hi =>
    cases l₁ with
    | nil => simp [h.before] at hq
    | cons m' l₁ =>
      simp only [h.before, List.cons_append, List.cons.injEq] at hq
      obtain ⟨rfl, hq⟩ := hq
      exact absurd List.mem_cons_self hr
  | done l₂ ht hq hi =>
    simp only [h.before, List.cons.injEq] at hq
    obtain ⟨-, rfl⟩ := hq
    exact ⟨htab.trans ht, fun m hm => hi m (h.queue ▸ hm)⟩

theorem Swapped.handle (hs : Swapped e) (h : Handles e m q e') : Swapped e' := by
  refine ⟨?_, fun m' hm => hs.idle m' (h.mem hm)⟩
  have hidle := hs.idle m (by rw [h.before]; exact List.mem_cons_self)
  have htab := h.table
  cases m with
  | install t =>
    cases t with
    | none => exact htab
    | some j => exact hidle.elim
  | lease y => exact htab.trans hs.table
  | release y => exact htab.trans hs.table

end

/-! ### The invariant -/

/-- At most one xstream lives on a rank, and so on. -/
structure ObjInv (o : Objects.State) (n : Nat) : Prop where
  unbornSched : ∀ i, o.nextSched ≤ i → (o.sched i).live = false
  unbornXstream : ∀ x, o.nextXstream ≤ x → (o.xstream x).live = false
  main : ∀ x < o.nextXstream, (o.xstream x).mainSched < o.nextSched
  slot : ∀ x y, (o.xstream x).live = true → (o.xstream y).live = true →
    (o.xstream x).rank = (o.xstream y).rank → x = y
  finished : ∀ x < o.nextXstream, (o.xstream x).finished = true → (o.xstream x).released = true
  rank : ∀ x, (o.xstream x).live = true → (o.xstream x).rank < n

theorem ObjInv.xstream_lt {o : Objects.State} {n x : Nat} (h : ObjInv o n)
    (hx : (o.xstream x).live = true) : x < o.nextXstream := by
  by_contra hn
  rw [h.unbornXstream x (by omega)] at hx; cases hx

structure PeInv (o : Objects.State) (n r : Nat) (e : Pe) : Prop where
  sent : ∀ x, .release x ∈ e.queue →
    x < o.nextXstream ∧ (o.xstream x).released = true ∧ (o.xstream x).rank = r
  lease : ∀ x, .lease x ∈ e.queue → x < o.nextXstream ∧ (o.xstream x).rank = r
  tls : ∀ x, e.tls = some x → x < o.nextXstream ∧ (o.xstream x).rank = r
  runner : ∀ i ∈ e.runners, i < o.nextSched ∧ (o.sched i).userDef = true
  listed : ∀ j, e.Entry j → r < n ∧ j < o.nextSched ∧ (o.sched j).live = true ∧
    (o.sched j).userDef = false
  entry : ∀ j, e.Entry j → Quiet o e j ∨ Current o r j
  leased : ∀ x, (o.xstream x).live = true → (o.xstream x).rank = r →
    (o.xstream x).released = false → Leased e x
  closing : ∀ x, (o.xstream x).live = true → (o.xstream x).rank = r →
    (o.xstream x).released = true → (o.xstream x).finished = false → Closing e x
  free : (∀ x, (o.xstream x).live = true → (o.xstream x).rank = r →
    (o.xstream x).finished = true) → Swapped e

structure Inv (s : State) : Prop where
  obj : ObjInv s.obj s.numPes
  pe : ∀ r, PeInv s.obj s.numPes r (s.pe r)

theorem Inv.start (n : Nat) (hn : 2 ≤ n) : Inv (initial n) := by
  have hx : ∀ x, (Objects.initial.xstream x).live = true → x = 0 := by
    intro x h
    by_contra hne
    simp [Objects.initial, hne, noXstream] at h
  have hother : ∀ r, r ≠ 0 → (initial n).pe r = freshPe := fun r hr => by simp [initial, hr]
  refine ⟨⟨?_, ?_, ?_, ?_, ?_, ?_⟩, fun r => ?_⟩
  · intro i hi
    have : i ≠ 0 := by rintro rfl; simp [initial, Objects.initial] at hi
    simp [initial, Objects.initial, this, noSched]
  · intro x h
    have : x ≠ 0 := by rintro rfl; simp [initial, Objects.initial] at h
    simp [initial, Objects.initial, this, noXstream]
  · intro x h
    have : x = 0 := by simp [initial, Objects.initial] at h; exact h
    subst this
    simp [initial, Objects.initial]
  · intro x y h1 h2 _
    rw [hx x h1, hx y h2]
  · intro x h
    have : x = 0 := by simp [initial, Objects.initial] at h; exact h
    subst this
    simp [initial, Objects.initial]
  · intro x h
    rw [hx x h]
    simp [initial, Objects.initial]
    omega
  · by_cases hr : r = 0
    · subst hr
      have he : (initial n).pe 0 = ⟨some 0, none, none, [], [.install (some 0)]⟩ := by
        simp [initial]
      rw [he]
      constructor
      case entry =>
        intro j hj
        have : j = 0 := by simpa [Pe.Entry] using hj
        subst this
        exact .inr ⟨0, by simp [initial, Objects.initial]⟩
      case listed =>
        intro j hj
        have : j = 0 := by simpa [Pe.Entry] using hj
        subst this
        exact ⟨by simp only [initial]; omega, by simp [initial, Objects.initial]⟩
      case leased =>
        intro x h _ _
        rw [hx x h]
        exact ⟨by simp, .inl rfl⟩
      case closing =>
        intro x h _ hrel
        rw [hx x h] at hrel
        simp [initial, Objects.initial] at hrel
      case free =>
        intro h
        have := h 0 rfl rfl
        simp [initial, Objects.initial] at this
      all_goals simp [initial, Objects.initial]
    · rw [hother r hr]
      have hrank : ∀ x, (Objects.initial.xstream x).live = true →
          (Objects.initial.xstream x).rank ≠ r := by
        intro x h
        rw [hx x h]
        simpa [Objects.initial] using Ne.symm hr
      constructor
      case leased => exact fun x h h' => absurd h' (hrank x h)
      case closing => exact fun x h h' => absurd h' (hrank x h)
      case free => exact fun _ => ⟨rfl, by simp [freshPe]⟩
      all_goals simp [freshPe, Pe.Entry]

/-- A change of the objects that leaves the lease of PE `r` alone. -/
structure Keeps (o o' : Objects.State) (r : Nat) (e : Pe) : Prop where
  nextXstream : o.nextXstream ≤ o'.nextXstream
  nextSched : o.nextSched ≤ o'.nextSched
  rank : ∀ y < o.nextXstream, (o'.xstream y).rank = (o.xstream y).rank
  same : ∀ y < o.nextXstream, (o.xstream y).rank = r →
    (o'.xstream y).mainSched = (o.xstream y).mainSched ∧
    (o'.xstream y).released = (o.xstream y).released ∧
    (o'.xstream y).finished = (o.xstream y).finished
  live : ∀ y, (o'.xstream y).live = true → (o'.xstream y).rank = r →
    y < o.nextXstream ∧ (o.xstream y).live = true
  freed : ∀ y, (o.xstream y).live = true →
    (o'.xstream y).live = true ∨ (o.xstream y).finished = true
  userDef : ∀ i < o.nextSched, (o'.sched i).userDef = (o.sched i).userDef
  listed : ∀ j, e.Entry j → (o'.sched j).live = true
  quiet : ∀ j, e.Entry j → Quiet o e j → Quiet o' e j ∨ Current o r j

theorem PeInv.keep {o o' : Objects.State} {n r : Nat} {e : Pe} (h : PeInv o n r e)
    (ho : ObjInv o n) (hk : Keeps o o' r e) : PeInv o' n r e := by
  have hlt : ∀ {x}, x < o.nextXstream → x < o'.nextXstream := fun h => h.trans_le hk.nextXstream
  have hcur : ∀ j, Current o r j → Current o' r j := by
    rintro j ⟨x, hx, hl, hrel, hr, hm⟩
    obtain ⟨s1, s2, s3⟩ := hk.same x hx hr
    refine ⟨x, hlt hx, ?_, s2.trans hrel, (hk.rank x hx).trans hr, s1.trans hm⟩
    refine (hk.freed x hl).resolve_right fun hf => ?_
    rw [ho.finished x hx hf] at hrel; cases hrel
  constructor
  case sent =>
    intro x hx
    obtain ⟨h1, h2, h3⟩ := h.sent x hx
    exact ⟨hlt h1, (hk.same x h1 h3).2.1.trans h2, (hk.rank x h1).trans h3⟩
  case lease =>
    intro x hx
    obtain ⟨h1, h2⟩ := h.lease x hx
    exact ⟨hlt h1, (hk.rank x h1).trans h2⟩
  case tls =>
    intro x hx
    obtain ⟨h1, h2⟩ := h.tls x hx
    exact ⟨hlt h1, (hk.rank x h1).trans h2⟩
  case runner =>
    intro i hi
    obtain ⟨h1, h2⟩ := h.runner i hi
    exact ⟨h1.trans_le hk.nextSched, (hk.userDef i h1).trans h2⟩
  case listed =>
    intro j hj
    obtain ⟨h1, h2, _, h4⟩ := h.listed j hj
    exact ⟨h1, h2.trans_le hk.nextSched, hk.listed j hj, (hk.userDef j h2).trans h4⟩
  case entry =>
    intro j hj
    rcases h.entry j hj with hq | hc
    · exact (hk.quiet j hj hq).imp_right (hcur j)
    · exact .inr (hcur j hc)
  case leased =>
    intro x hl hr hrel
    obtain ⟨hx, hl'⟩ := hk.live x hl hr
    have hr' := (hk.rank x hx).symm.trans hr
    exact h.leased x hl' hr' ((hk.same x hx hr').2.1.symm.trans hrel)
  case closing =>
    intro x hl hr hrel hf
    obtain ⟨hx, hl'⟩ := hk.live x hl hr
    have hr' := (hk.rank x hx).symm.trans hr
    obtain ⟨_, s2, s3⟩ := hk.same x hx hr'
    exact h.closing x hl' hr' (s2.symm.trans hrel) (s3.symm.trans hf)
  case free =>
    intro hall
    refine h.free fun x hl hr => ?_
    have hx := ho.xstream_lt hl
    rcases hk.freed x hl with hl' | hf
    · exact (hk.same x hx hr).2.2.symm.trans (hall x hl' ((hk.rank x hx).trans hr))
    · exact hf

/-- Only xstream `x` changes, which is on another PE. -/
theorem Keeps.one {o o' : Objects.State} {n r x : Nat} {e : Pe} (ho : ObjInv o n)
    (hnx : o.nextXstream ≤ o'.nextXstream) (hns : o'.nextSched = o.nextSched)
    (hother : ∀ y, y ≠ x → o'.xstream y = o.xstream y) (hr : (o'.xstream x).rank ≠ r)
    (hrank : x < o.nextXstream → (o'.xstream x).rank = (o.xstream x).rank)
    (hlive : (o.xstream x).live = true → (o'.xstream x).live = true)
    (hs : ∀ j, (o'.sched j).pools = (o.sched j).pools ∧
      (o'.sched j).userDef = (o.sched j).userDef)
    (hl : ∀ j, e.Entry j → (o'.sched j).live = true)
    (hu : ∀ q, (o'.pool q).units = (o.pool q).units) : Keeps o o' r e where
  nextXstream := hnx
  nextSched := hns.ge
  rank y hy := by
    by_cases h : y = x
    · subst h; exact hrank hy
    · rw [hother y h]
  same y hy hyr := by
    by_cases h : y = x
    · subst h; exact absurd ((hrank hy).trans hyr) hr
    · rw [hother y h]; exact ⟨rfl, rfl, rfl⟩
  live y hy hyr := by
    have hne : y ≠ x := by rintro rfl; exact hr hyr
    rw [hother y hne] at hy
    exact ⟨ho.xstream_lt hy, hy⟩
  freed y hy := by
    by_cases h : y = x
    · subst h; exact .inl (hlive hy)
    · rw [hother y h]; exact .inl hy
  userDef i _ := (hs i).2
  listed := hl
  quiet j _ hq := .inl ⟨hq.1, fun p hp => (hu p).trans (hq.2 p ((hs j).1 ▸ hp))⟩

theorem Inv.setPe {s : State} {r : Nat} {e : Pe} (h : Inv s) (he : PeInv s.obj s.numPes r e) :
    Inv (s.setPe r e) := by
  refine ⟨h.obj, fun r' => ?_⟩
  by_cases hr : r' = r
  · subst hr
    simpa [State.setPe] using he
  · simpa [State.setPe, hr] using h.pe r'

/-- A step on PE `r`. -/
theorem Inv.update {s : State} {r : Nat} {e : Pe} {o : Objects.State} (h : Inv s)
    (ho : ObjInv o s.numPes) (hk : ∀ r', r' ≠ r → Keeps s.obj o r' (s.pe r'))
    (he : PeInv o s.numPes r e) : Inv ((s.setObj o).setPe r e) := by
  refine ⟨ho, fun r' => ?_⟩
  by_cases hr : r' = r
  · subst hr
    simpa [State.setPe, State.setObj] using he
  · have := (h.pe r').keep h.obj (hk r' hr)
    simpa [State.setPe, State.setObj, hr] using this

/-- The PE parks a unit, runs it, or a runner returns. -/
theorem PeInv.congr {o : Objects.State} {n r : Nat} {e e' : Pe} (h : PeInv o n r e)
    (ht : e'.tls = e.tls) (htab : e'.table = e.table) (hq : e'.queue = e.queue)
    (hrun : ∀ i ∈ e'.runners, i ∈ e.runners)
    (hent : ∀ j, e.Entry j → Quiet o e' j ∨ Current o r j) : PeInv o n r e' := by
  have he : ∀ j, e'.Entry j → e.Entry j := by
    intro j hj
    unfold Pe.Entry at hj ⊢
    rwa [htab, hq] at hj
  exact ⟨by rw [hq]; exact h.sent, by rw [hq]; exact h.lease, by rw [ht]; exact h.tls,
    fun i hi => h.runner i (hrun i hi), fun j hj => h.listed j (he j hj),
    fun j hj => hent j (he j hj), fun x hx hr hrel => (h.leased x hx hr hrel).congr ht htab hq,
    fun x hx hr hrel hf => (h.closing x hx hr hrel hf).congr htab hq,
    fun hall => (h.free hall).congr htab hq⟩

/-! ### Create -/

section
variable {o : Objects.State} {n r x : Nat} {e e' : Pe}

theorem ObjInv.newXstream (h : ObjInv o n) {i : Nat} (hi : (o.sched i).live = true)
    (hr : r < n) (hslot : ∀ y, (o.xstream y).live = true → (o.xstream y).rank ≠ r) :
    ObjInv (o.newXstream i r) n := by
  have hself : (o.newXstream i r).xstream o.nextXstream = ⟨true, r, i, false, false, false, false⟩ :=
    Function.update_self ..
  have hother : ∀ y, y ≠ o.nextXstream → (o.newXstream i r).xstream y = o.xstream y :=
    fun y hy => Function.update_of_ne hy ..
  have hi' : i < o.nextSched := by
    by_contra hn
    rw [h.unbornSched i (by omega)] at hi; cases hi
  refine ⟨?_, ?_, ?_, ?_, ?_, ?_⟩
  · intro j hj
    have hne : j ≠ i := by
      have : o.nextSched ≤ j := hj
      omega
    simp only [State.newXstream, Function.update_of_ne hne]
    exact h.unbornSched j hj
  · intro y hy
    have hle : o.nextXstream + 1 ≤ y := hy
    rw [hother y (by omega)]
    exact h.unbornXstream y (by omega)
  · intro y hy
    by_cases hne : y = o.nextXstream
    · subst hne; rw [hself]; exact hi'
    · rw [hother y hne]
      have hlt : y < o.nextXstream + 1 := hy
      exact h.main y (by omega)
  · intro y z hy hz hyz
    by_cases hyn : y = o.nextXstream
    · subst hyn
      by_contra hne
      rw [hother z (Ne.symm hne)] at hz hyz
      rw [hself] at hyz
      exact hslot z hz hyz.symm
    · rw [hother y hyn] at hy hyz
      by_cases hzn : z = o.nextXstream
      · subst hzn
        rw [hself] at hyz
        exact absurd hyz (hslot y hy)
      · rw [hother z hzn] at hz hyz
        exact h.slot y z hy hz hyz
  · intro y hy
    by_cases hne : y = o.nextXstream
    · subst hne; rw [hself]; simp
    · rw [hother y hne]
      have hlt : y < o.nextXstream + 1 := hy
      exact h.finished y (by omega)
  · intro y hy
    by_cases hne : y = o.nextXstream
    · subst hne; rw [hself]; exact hr
    · rw [hother y hne] at hy ⊢
      exact h.rank y hy

/-- The lease and the table are sent to a PE that has none. -/
theorem PeInv.newXstream (h : PeInv o n r e) (ho : ObjInv o n) {i : Nat}
    (hi : (o.sched i).live = true) (hr : r < n)
    (hslot : ∀ y, (o.xstream y).live = true → (o.xstream y).rank ≠ r) :
    PeInv (o.newXstream i r) n r
      (e.send [.lease o.nextXstream, .install (tableOf o i)]) := by
  have hself : (o.newXstream i r).xstream o.nextXstream = ⟨true, r, i, false, false, false, false⟩ :=
    Function.update_self ..
  have hother : ∀ y, y ≠ o.nextXstream → (o.newXstream i r).xstream y = o.xstream y :=
    fun y hy => Function.update_of_ne hy ..
  have hold : ∀ {y}, y < o.nextXstream → y < (o.newXstream i r).nextXstream ∧
      (o.newXstream i r).xstream y = o.xstream y :=
    fun hy => ⟨Nat.lt_succ_of_lt hy, hother _ (by omega)⟩
  have hi' : i < o.nextSched := by
    by_contra hn
    rw [ho.unbornSched i (by omega)] at hi; cases hi
  have hsched : ∀ j, ((o.newXstream i r).sched j).userDef = (o.sched j).userDef ∧
      ((o.newXstream i r).sched j).live = (o.sched j).live := by
    intro j
    by_cases hj : j = i
    · subst hj; simp [State.newXstream]
    · simp [State.newXstream, hj]
  have hnone : ∀ y, ((o.newXstream i r).xstream y).live = true →
      ((o.newXstream i r).xstream y).rank = r → y = o.nextXstream := by
    intro y hy hyr
    by_contra hne
    rw [hother y hne] at hy hyr
    exact hslot y hy hyr
  have hsw : Swapped e := h.free fun y hy hyr => absurd hyr (hslot y hy)
  have hent : ∀ j, (e.send [.lease o.nextXstream, .install (tableOf o i)]).Entry j →
      j = i ∧ (o.sched i).userDef = false := by
    intro j hj
    rcases hj.send with (ht | hm) | hm
    · rw [hsw.table] at ht; cases ht
    · exact (hsw.idle _ hm).elim
    · simp only [List.mem_cons, List.not_mem_nil, or_false, Msg.install.injEq, reduceCtorEq,
        false_or, tableOf] at hm
      split at hm
      · cases hm
      · rename_i hu
        cases hm
        exact ⟨rfl, by simpa using hu⟩
  constructor
  case sent =>
    intro y hy
    have hy' : .release y ∈ e.queue := by simpa [Pe.send] using hy
    obtain ⟨h1, h2, h3⟩ := h.sent y hy'
    obtain ⟨h1', he⟩ := hold h1
    rw [he]
    exact ⟨h1', h2, h3⟩
  case lease =>
    intro y hy
    rcases List.mem_append.mp hy with hy | hy
    · obtain ⟨h1, h2⟩ := h.lease y hy
      obtain ⟨h1', he⟩ := hold h1
      rw [he]
      exact ⟨h1', h2⟩
    · have hy' : y = o.nextXstream := by simpa using hy
      subst hy'
      rw [hself]
      exact ⟨Nat.lt_succ_self _, rfl⟩
  case tls =>
    intro y hy
    obtain ⟨h1, h2⟩ := h.tls y hy
    obtain ⟨h1', he⟩ := hold h1
    rw [he]
    exact ⟨h1', h2⟩
  case runner =>
    intro k hk
    rw [(hsched k).1]
    exact h.runner k hk
  case listed =>
    intro j hj
    obtain ⟨rfl, hu⟩ := hent j hj
    rw [(hsched j).1, (hsched j).2]
    exact ⟨hr, hi', hi, hu⟩
  case entry =>
    intro j hj
    obtain ⟨rfl, -⟩ := hent j hj
    refine .inr ⟨o.nextXstream, Nat.lt_succ_self _, ?_⟩
    rw [hself]
    exact ⟨rfl, rfl, rfl, rfl⟩
  case leased =>
    intro y hy hyr _
    rw [hnone y hy hyr]
    refine ⟨fun z hz => ?_, .inr ⟨hsw.table, e.queue, [.install (tableOf o i)], rfl, hsw.idle⟩⟩
    rcases List.mem_append.mp hz with hz | hz
    · exact (hsw.idle _ hz).elim
    · simpa using hz
  case closing =>
    intro y hy hyr hrel
    rw [hnone y hy hyr, hself] at hrel; cases hrel
  case free =>
    intro hall
    have := hall o.nextXstream (by rw [hself]) (by rw [hself])
    rw [hself] at this; cases this

/-! ### The lease is given back -/

theorem giveBack_self (o : Objects.State) (x : Nat) :
    (o.giveBack x).xstream x = { o.xstream x with released := true } := Function.update_self ..

theorem giveBack_other {y : Nat} (hy : y ≠ x) : (o.giveBack x).xstream y = o.xstream y :=
  Function.update_of_ne hy ..

/-- A fact about an xstream that does not look at `released`. -/
theorem giveBack_xstream (o : Objects.State) (x y : Nat) :
    ((o.giveBack x).xstream y).live = (o.xstream y).live ∧
    ((o.giveBack x).xstream y).rank = (o.xstream y).rank ∧
    ((o.giveBack x).xstream y).mainSched = (o.xstream y).mainSched ∧
    ((o.giveBack x).xstream y).finished = (o.xstream y).finished := by
  by_cases hy : y = x
  · subst hy; rw [giveBack_self]; exact ⟨rfl, rfl, rfl, rfl⟩
  · rw [giveBack_other hy]; exact ⟨rfl, rfl, rfl, rfl⟩

theorem ObjInv.giveBack (h : ObjInv o n) (x : Nat) : ObjInv (o.giveBack x) n := by
  have hg := giveBack_xstream o x
  refine ⟨h.unbornSched, ?_, ?_, ?_, ?_, ?_⟩
  · intro y hy
    rw [(hg y).1]
    exact h.unbornXstream y hy
  · intro y hy
    rw [(hg y).2.2.1]
    exact h.main y hy
  · intro y z hy hz hyz
    rw [(hg y).1] at hy
    rw [(hg z).1] at hz
    rw [(hg y).2.1, (hg z).2.1] at hyz
    exact h.slot y z hy hz hyz
  · intro y hy hf
    by_cases hyx : y = x
    · subst hyx; rw [giveBack_self]
    · rw [giveBack_other hyx] at hf ⊢
      exact h.finished y hy hf
  · intro y hy
    rw [(hg y).1] at hy
    rw [(hg y).2.1]
    exact h.rank y hy

/-- `ABTI_xstream_release` on PE `r`, when nothing is left to run for the xstream's scheduler. -/
theorem PeInv.giveBack (h : PeInv o n r e) (ho : ObjInv o n) (ht : e.tls = some x)
    (hx : (o.xstream x).live = true)
    (hq : ∀ j, e.Entry j → (o.xstream x).mainSched = j → Quiet o e j) :
    PeInv (o.giveBack x) n r (e.giveBack x) := by
  have hg := giveBack_xstream o x
  obtain ⟨hxn, hxr⟩ := h.tls x ht
  have honly : ∀ y, (o.xstream y).live = true → (o.xstream y).rank = r → y = x :=
    fun y hy hyr => ho.slot y x hy hx (hyr.trans hxr.symm)
  have hidle : ∀ m ∈ [Msg.install none, .release x], m.Idle := by simp [Msg.Idle]
  have hent : ∀ j, (e.giveBack x).Entry j → e.Entry j := by
    intro j hj
    rcases hj.send with hj | hj
    · exact hj
    · simp at hj
  constructor
  case sent =>
    intro y hy
    rw [(hg y).2.1]
    rcases List.mem_append.mp hy with hy | hy
    · obtain ⟨h1, h2, h3⟩ := h.sent y hy
      refine ⟨h1, ?_, h3⟩
      by_cases hyx : y = x
      · subst hyx; rw [giveBack_self]
      · rw [giveBack_other hyx]; exact h2
    · have hyx : y = x := by simpa using hy
      subst hyx
      rw [giveBack_self]
      exact ⟨hxn, rfl, hxr⟩
  case lease =>
    intro y hy
    rw [(hg y).2.1]
    rcases List.mem_append.mp hy with hy | hy
    · exact h.lease y hy
    · simp at hy
  case tls =>
    intro y hy
    cases hy
  case runner => exact h.runner
  case listed => exact fun j hj => h.listed j (hent j hj)
  case entry =>
    intro j hj
    refine .inl ?_
    rcases h.entry j (hent j hj) with hqj | ⟨y, _, hy, _, hyr, hym⟩
    · exact hqj
    · rw [honly y hy hyr] at hym
      exact hq j (hent j hj) hym
  case leased =>
    intro y hy hyr hrel
    rw [(hg y).1] at hy
    rw [(hg y).2.1] at hyr
    rw [honly y hy hyr, giveBack_self] at hrel; cases hrel
  case closing =>
    intro y hy hyr _ hf
    rw [(hg y).1] at hy
    rw [(hg y).2.1] at hyr
    rw [(hg y).2.2.2] at hf
    obtain rfl := honly y hy hyr
    cases hrel : (o.xstream y).released with
    | true =>
      -- a second runner of the scheduler returns
      have hcl : Closing { e with tls := none } y :=
        (h.closing y hy hyr hrel hf).congr rfl rfl
      exact hcl.send hidle
    | false =>
      refine .swap e.queue [] rfl (fun hm => ?_) (by simp)
      rw [(h.sent y hm).2.1] at hrel; cases hrel
  case free =>
    intro hall
    refine Swapped.send (e := { e with tls := none }) ?_ hidle
    have hsw : Swapped e := h.free fun y hy hyr => by
      rw [← (hg y).2.2.2]
      exact hall y (by rw [(hg y).1]; exact hy) (by rw [(hg y).2.1]; exact hyr)
    exact hsw.congr rfl rfl

/-! ### The completion -/

theorem finish_xstream (o : Objects.State) (x y : Nat) :
    ((o.finish x).xstream y).live = (o.xstream y).live ∧
    ((o.finish x).xstream y).rank = (o.xstream y).rank ∧
    ((o.finish x).xstream y).mainSched = (o.xstream y).mainSched ∧
    ((o.finish x).xstream y).released = (o.xstream y).released ∧
    ((o.finish x).xstream y).finished = if y = x then true else (o.xstream y).finished := by
  by_cases hy : y = x
  · subst hy; simp [State.finish, State.setSched, State.setXstream]
  · simp [State.finish, State.setSched, State.setXstream, hy]

theorem finish_sched (o : Objects.State) (x j : Nat) :
    ((o.finish x).sched j).live = (o.sched j).live ∧
    ((o.finish x).sched j).pools = (o.sched j).pools ∧
    ((o.finish x).sched j).userDef = (o.sched j).userDef := by
  by_cases hj : j = (o.xstream x).mainSched
  · subst hj; simp [State.finish, State.setSched]
  · simp [State.finish, State.setSched, State.setXstream, hj]

theorem ObjInv.finish (h : ObjInv o n) (hrel : (o.xstream x).released = true) :
    ObjInv (o.finish x) n := by
  have hf := finish_xstream o x
  refine ⟨?_, ?_, ?_, ?_, ?_, ?_⟩
  · intro i hi
    rw [(finish_sched o x i).1]
    exact h.unbornSched i hi
  · intro y hy
    rw [(hf y).1]
    exact h.unbornXstream y hy
  · intro y hy
    rw [(hf y).2.2.1]
    exact h.main y hy
  · intro y z hy hz hyz
    rw [(hf y).1] at hy
    rw [(hf z).1] at hz
    rw [(hf y).2.1, (hf z).2.1] at hyz
    exact h.slot y z hy hz hyz
  · intro y hy hfin
    rw [(hf y).2.2.2.1]
    rw [(hf y).2.2.2.2] at hfin
    by_cases hyx : y = x
    · subst hyx; exact hrel
    · rw [if_neg hyx] at hfin
      exact h.finished y hy hfin
  · intro y hy
    rw [(hf y).1] at hy
    rw [(hf y).2.1]
    exact h.rank y hy

/-- A message is handled that changes no object. -/
theorem PeInv.handle (h : PeInv o n r e) {m : Msg} {q : List Msg} (hh : Handles e m q e')
    (hrun : ∀ i ∈ e'.runners, i < o.nextSched ∧ (o.sched i).userDef = true)
    (hm : ∀ x, m = .release x → (o.xstream x).live = false) : PeInv o n r e' := by
  constructor
  case sent => exact fun x hx => h.sent x (hh.mem hx)
  case lease => exact fun x hx => h.lease x (hh.mem hx)
  case tls =>
    intro x hx
    rw [hh.tls] at hx
    cases m with
    | lease y =>
      cases hx
      exact h.lease x (by rw [hh.before]; exact List.mem_cons_self)
    | install t => exact h.tls x hx
    | release y => exact h.tls x hx
  case runner => exact hrun
  case listed => exact fun j hj => h.listed j (hh.entry hj)
  case entry =>
    intro j hj
    exact (h.entry j (hh.entry hj)).imp_left fun hq => ⟨hh.held.trans hq.1, hq.2⟩
  case leased => exact fun x hx hr hrel => (h.leased x hx hr hrel).handle hh
  case closing =>
    intro x hx hr hrel hf
    refine (h.closing x hx hr hrel hf).handle hh ?_
    rintro rfl
    rw [hm x rfl] at hx; cases hx
  case free => exact fun hall => (h.free hall).handle hh

/-- `release_handler` for a live xstream. -/
theorem PeInv.finish (h : PeInv o n r e) (ho : ObjInv o n) {q : List Msg}
    (hh : Handles e (.release x) q e') (hrun : e'.runners = e.runners)
    (hx : (o.xstream x).live = true) : PeInv (o.finish x) n r e' := by
  have hf := finish_xstream o x
  have hs := finish_sched o x
  obtain ⟨_, hrel, hxr⟩ := h.sent x (by rw [hh.before]; exact List.mem_cons_self)
  have honly : ∀ y, (o.xstream y).live = true → (o.xstream y).rank = r → y = x :=
    fun y hy hyr => ho.slot y x hy hx (hyr.trans hxr.symm)
  constructor
  case sent =>
    intro y hy
    rw [(hf y).2.1, (hf y).2.2.2.1]
    exact h.sent y (hh.mem hy)
  case lease =>
    intro y hy
    rw [(hf y).2.1]
    exact h.lease y (hh.mem hy)
  case tls =>
    intro y hy
    rw [(hf y).2.1]
    exact h.tls y (hh.tls.symm.trans hy)
  case runner =>
    intro i hi
    rw [(hs i).2.2]
    exact h.runner i (hrun ▸ hi)
  case listed =>
    intro j hj
    rw [(hs j).1, (hs j).2.2]
    exact h.listed j (hh.entry hj)
  case entry =>
    intro j hj
    rcases h.entry j (hh.entry hj) with hq | ⟨y, _, hy, hyrel, hyr, _⟩
    · refine .inl ⟨hh.held.trans hq.1, fun p hp => hq.2 p ?_⟩
      rwa [(hs j).2.1] at hp
    · rw [honly y hy hyr, hrel] at hyrel; cases hyrel
  case leased =>
    intro y hy hyr hyrel
    rw [(hf y).1] at hy
    rw [(hf y).2.1] at hyr
    rw [(hf y).2.2.2.1, honly y hy hyr, hrel] at hyrel; cases hyrel
  case closing =>
    intro y hy hyr _ hfin
    rw [(hf y).1] at hy
    rw [(hf y).2.1] at hyr
    rw [(hf y).2.2.2.2, if_pos (honly y hy hyr)] at hfin; cases hfin
  case free =>
    intro _
    cases hfin : (o.xstream x).finished with
    | true =>
      refine (h.free fun y hy hyr => ?_).handle hh
      rw [honly y hy hyr]
      exact hfin
    | false => exact (h.closing x hx hxr hrel hfin).complete hh

/-! ### The main scheduler is replaced -/

/-- What `ABT_xstream_set_main_sched` sends, by its effect. -/
theorem replaced_spec (o : Objects.State) (e : Pe) (x i : Nat) (here : Bool) :
    ∃ l, (replaced o e x i here).queue = e.queue ++ l ∧ (replaced o e x i here).tls = e.tls ∧
      (replaced o e x i here).table = e.table ∧ (replaced o e x i here).held = e.held ∧
      (∀ y, .lease y ∈ l → y = x) ∧ (∀ y, .release y ∉ l) ∧
      (∀ j, .install (some j) ∈ l → j = i ∧ (o.sched i).userDef = false) ∧
      ∀ k ∈ (replaced o e x i here).runners, k ∈ e.runners ∨ k = i ∧ (o.sched i).userDef = true := by
  unfold replaced
  split
  · rename_i hu
    split
    · refine ⟨[.install none], rfl, rfl, rfl, rfl, by simp, by simp, by simp, ?_⟩
      intro k hk
      rcases List.mem_cons.mp hk with rfl | hk
      · exact .inr ⟨rfl, hu⟩
      · exact .inl hk
    · exact ⟨[.install none, .lease x], rfl, rfl, rfl, rfl, by simp, by simp, by simp,
        fun k hk => .inl hk⟩
  · rename_i hu
    refine ⟨[.install (some i)], rfl, rfl, rfl, rfl, by simp, by simp, ?_, fun k hk => .inl hk⟩
    intro j hj
    exact ⟨by simpa using hj, by simpa using hu⟩

end

end Lease
end AbtReconverse
