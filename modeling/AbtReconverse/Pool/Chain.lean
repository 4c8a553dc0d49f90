import AbtReconverse.Lib.Broken
import AbtReconverse.Pool.Mpsc

/-!
# AbtReconverse.Pool.Chain

The invariant of the lock-free pool. There is a list of nodes, from `head` to `tail` in the order
of their exchanges, whose consecutive nodes are linked or about to be linked by the push (or by the
pop that re-appends the stub) that made the exchange: `Broken` with `Pending`. The pushes taken off
so far, followed by the pushes of the units in that list, are all pushes in the order of their
exchanges (`history`); every other clause says where a unit, a mark or a consumer can be.
-/

namespace AbtReconverse
namespace Mpsc

open Lts

/-- The units of a list of nodes. -/
def units (l : List Node) : List Nat :=
  l.filterMap fun
    | .stub => none
    | .unit t => some t

@[simp] theorem units_nil : units [] = [] := rfl

@[simp] theorem units_stub (l : List Node) : units (.stub :: l) = units l := rfl

@[simp] theorem units_unit (t : Nat) (l : List Node) : units (.unit t :: l) = t :: units l := rfl

@[simp] theorem units_append (l l' : List Node) : units (l ++ l') = units l ++ units l' :=
  List.filterMap_append ..

@[simp] theorem mem_units {t : Nat} {l : List Node} : t ∈ units l ↔ .unit t ∈ l := by
  induction l with
  | nil => simp
  | cons n l ih => cases n <;> simp [ih]

/-- The link from `u` to `v` is still to be written. -/
def Pending (s : State) (u v : Node) : Prop :=
  (∃ t, v = .unit t ∧ s.push t = .link u) ∨ (v = .stub ∧ ∃ c h, s.cons c = .popLink h u)

/-- The consumer has `lk`. -/
def ConsPc.holds : ConsPc → Bool
  | .idle | .popLock | .popCount _ | .remLock _ | .remCount => false
  | _ => true

/-- The node a consumer looks at. -/
def ConsPc.looks : ConsPc → Option Node
  | .popSecond h | .popTest h _ | .popStub h | .popSwap h | .popLink h _ | .popReload h
  | .popTake h _ => some h
  | _ => none

/-- The next node as the consumer knows it. -/
def ConsPc.sees : ConsPc → Option Node
  | .popTest _ v => v
  | .popTake _ v => some v
  | _ => none

/-- The push in a consumer's hands, not yet decided. -/
def ConsPc.hand : ConsPc → Option Push
  | .popClear p | .popFlag p => some p
  | _ => none

/-- The push a consumer is about to return. -/
def ConsPc.returns : ConsPc → Option Push
  | .popUnlock p => p
  | .popCount p => some p
  | _ => none

/-- The consumer has found the last node and is about to re-append the stub. -/
def ConsPc.stubs : ConsPc → Bool
  | .popStub _ | .popSwap _ => true
  | _ => false

/-- No clause about the list or a unit rests on the consumer being there. -/
def ConsPc.quiet : ConsPc → Bool
  | .popLink _ _ | .popClear _ | .popFlag _ => false
  | _ => true

/-- Before the exchange of `tail`. -/
def PushPc.early : PushPc → Bool
  | .clear | .exchange => true
  | _ => false

/-- What holds of a consumer at `pc`. -/
structure ConsOk (s : State) (chain : List Node) (c : Nat) (pc : ConsPc) : Prop where
  linkStub : ∀ h u, pc = .popLink h u → [u, .stub] <:+: chain ∧ s.next u = none
  looks : ∀ h, pc.looks = some h → s.head = h ∧ h ≠ .stub
  sees : ∀ h v, pc.looks = some h → pc.sees = some v → s.next h = some v
  stubOut : pc.stubs = true → .stub ∉ chain
  stubNext : ∀ h, pc = .popSwap h → s.next .stub = none
  hand : ∀ p, pc.hand = some p → (p, if s.removed p.unit then none else some c) ∈ s.out
  clear : ∀ p, pc = .popClear p → p = s.cur p.unit ∧ s.inPool p.unit = true ∧
    (s.push p.unit).early = false
  mark : ∀ t, pc = .remMark t → s.inPool t = true
  returns : ∀ p, pc.returns = some p → (p, some c) ∈ s.out
  flag : ∀ p, pc = .popFlag p → s.removed p.unit = true → s.inPool p.unit = false
  reload : ∀ h, pc = .popReload h → .stub ∈ chain

/-- What holds of a unit. -/
structure UnitOk (s : State) (chain : List Node) (t : Nat) : Prop where
  link : ∀ u, s.push t = .link u → [u, .unit t] <:+: chain ∧ s.next u = none
  member : .unit t ∈ chain → s.inPool t = true ∧ (s.push t).early = false
  early : (s.push t).early = true → s.inPool t = true
  cleared : s.push t = .exchange → s.next (.unit t) = none
  located : s.inPool t = true → .unit t ∈ chain ∨ (s.push t).early = true ∨
    ∃ c, s.cons c = .popClear (s.cur t)
  fresh : (s.push t).early = true → s.cur t ∉ s.pushed
  removed : s.removed t = true → s.cur t ∈ s.hits ∧
    (s.inPool t = true ∨ ∃ c, s.cons c = .popFlag (s.cur t))
  hit : s.inPool t = true → s.cur t ∈ s.hits → s.removed t = true

/-- What holds of the list, the lock and the histories. -/
structure ListOk (s : State) (chain : List Node) : Prop where
  broken : Broken s.next (Pending s) chain
  head : chain.head? = some s.head
  tail : chain.getLast? = some s.tail
  lock : ∀ c, (s.cons c).holds = true ↔ s.lk = some c
  crashed : s.crashed = false
  history : s.out.map Prod.fst ++ (units chain).map s.cur = s.pushed
  nodup : s.pushed.Nodup
  nums : ∀ p ∈ s.pushed, p.num ≤ s.num p.unit
  hitNums : ∀ p ∈ s.hits, p.num ≤ s.num p.unit
  hitNodup : s.hits.Nodup
  fate : ∀ p r, (p, r) ∈ s.out → (r = none ↔ p ∈ s.hits)
  result : ∀ c p, s.result c = some (.popped (some p)) → (p, some c) ∈ s.out

structure Inv (s : State) (chain : List Node) : Prop extends ListOk s chain where
  unitOk : ∀ t, UnitOk s chain t
  consOk : ∀ c, ConsOk s chain c (s.cons c)

section

variable {s s' : State} {chain chain' : List Node} {c t : Nat} {pc : ConsPc}

/-- A consumer that does not have the lock has at most a push to return. -/
theorem ConsOk.free (hpc : pc.holds = false)
    (hret : ∀ p, pc.returns = some p → (p, some c) ∈ s.out) : ConsOk s chain c pc := by
  cases pc <;> first
    | exact Bool.noConfusion hpc
    | exact ⟨nofun, nofun, nofun, nofun, nofun, nofun, nofun, nofun, hret, nofun, nofun⟩

/-- A consumer that neither looks at a node nor has a push or a unit. -/
theorem ConsOk.plain (hlooks : pc.looks = none) (hhand : pc.hand = none) (hret : pc.returns = none)
    (hmark : ∀ t, pc ≠ .remMark t) : ConsOk s chain c pc := by
  refine ⟨?_, ?_, ?_, ?_, ?_, ?_, ?_, fun t ht => absurd ht (hmark t), ?_, ?_, ?_⟩
  · rintro x u rfl; cases hlooks
  · intro x hx; rw [hlooks] at hx; cases hx
  · intro x v hx; rw [hlooks] at hx; cases hx
  · intro hs; cases pc <;> first | (cases hs; done) | cases hlooks
  · rintro x rfl; cases hlooks
  · intro p hp; rw [hhand] at hp; cases hp
  · rintro p rfl; cases hhand
  · intro p hp; rw [hret] at hp; cases hp
  · rintro p rfl; cases hhand
  · rintro x rfl; cases hlooks

/-- A consumer that looks at the first node. -/
theorem ConsOk.look {x : Node} (hpc : pc.looks = some x) (hx : s.head = x ∧ x ≠ .stub)
    (hsees : ∀ v, pc.sees = some v → s.next x = some v) (hstub : pc.stubs = true → .stub ∉ chain)
    (hlink : ∀ u, pc ≠ .popLink x u) (hswap : pc ≠ .popSwap x) (hreload : pc ≠ .popReload x) :
    ConsOk s chain c pc := by
  refine ⟨?_, ?_, ?_, hstub, ?_, ?_, ?_, ?_, ?_, ?_, ?_⟩
  · rintro y u rfl; cases hpc; exact absurd rfl (hlink u)
  · intro y hy; cases hpc.symm.trans hy; exact hx
  · intro y v hy; cases hpc.symm.trans hy; exact hsees v
  · rintro y rfl; cases hpc; exact absurd rfl hswap
  · intro p hp; cases pc <;> first | (cases hp; done) | cases hpc
  · rintro p rfl; cases hpc
  · rintro t rfl; cases hpc
  · intro p hp; cases pc <;> first | (cases hp; done) | cases hpc
  · rintro p rfl; cases hpc
  · rintro y rfl; cases hpc; exact absurd rfl hreload

/-- A consumer while another caller moves. -/
theorem ConsOk.congr (h : ConsOk s chain c pc) (hhd : s.head ∈ chain) (hhead : s'.head = s.head)
    (hout : s'.out = s.out) (hrem : s'.removed = s.removed)
    (hnext : ∀ u, u ∈ chain ∨ u = .stub → s'.next u = s.next u)
    (hpair : ∀ u, [u, .stub] <:+: chain → [u, .stub] <:+: chain')
    (hstub : .stub ∈ chain' ↔ .stub ∈ chain)
    (hclear : ∀ u, s.inPool u = true → (s.push u).early = false →
      s'.cur u = s.cur u ∧ (s'.push u).early = false)
    (hin : ∀ u, s.inPool u = true → s'.inPool u = true)
    (hflag : ∀ u, s.removed u = true → s.inPool u = false → s'.inPool u = false) :
    ConsOk s' chain' c pc where
  linkStub x u hx := by
    obtain ⟨hp, hn⟩ := h.linkStub x u hx
    exact ⟨hpair u hp, (hnext u (.inl (pair_mem hp).1)).trans hn⟩
  looks x hx := by rw [hhead]; exact h.looks x hx
  sees x v hx hv := by
    rw [hnext x (.inl ((h.looks x hx).1 ▸ hhd))]
    exact h.sees x v hx hv
  stubOut hs hm := h.stubOut hs (hstub.mp hm)
  stubNext x hx := (hnext _ (.inr rfl)).trans (h.stubNext x hx)
  hand p hp := by rw [hrem, hout]; exact h.hand p hp
  clear p hp := by
    obtain ⟨h1, h2, h3⟩ := h.clear p hp
    obtain ⟨h4, h5⟩ := hclear _ h2 h3
    exact ⟨by rw [h4]; exact h1, hin _ h2, h5⟩
  mark u hu := hin u (h.mark u hu)
  returns p hp := by rw [hout]; exact h.returns p hp
  flag p hp hr := by
    rw [hrem] at hr
    exact hflag _ hr (h.flag p hp hr)
  reload x hx := hstub.mpr (h.reload x hx)

/-- A unit while somebody else moves. -/
theorem UnitOk.congr (h : UnitOk s chain t) (hpush : s'.push t = s.push t)
    (hin : s'.inPool t = s.inPool t) (hrem : s'.removed t = s.removed t)
    (hnum : s'.num t = s.num t)
    (hlink : ∀ u, [u, .unit t] <:+: chain → s.next u = none →
      [u, .unit t] <:+: chain' ∧ s'.next u = none)
    (hmem : .unit t ∈ chain' ↔ .unit t ∈ chain)
    (hnext : s.push t = .exchange → s'.next (.unit t) = s.next (.unit t))
    (hclear : ∀ c, s.cons c = .popClear (s.cur t) → ∃ c, s'.cons c = .popClear (s.cur t))
    (hpushed : s.cur t ∈ s'.pushed → s.cur t ∈ s.pushed)
    (hflag : ∀ c, s.cons c = .popFlag (s.cur t) → s.removed t = true →
      ∃ c, s'.cons c = .popFlag (s.cur t))
    (hhits : s.cur t ∈ s'.hits ↔ s.cur t ∈ s.hits) : UnitOk s' chain' t := by
  have hcur : s'.cur t = s.cur t := by rw [State.cur, hnum]; rfl
  refine ⟨?_, ?_, ?_, ?_, ?_, ?_, ?_, ?_⟩ <;> simp only [hpush, hin, hrem, hcur]
  · intro u hu
    obtain ⟨h1, h2⟩ := h.link u hu
    exact hlink u h1 h2
  · exact fun hm => h.member (hmem.mp hm)
  · exact h.early
  · exact fun he => (hnext he).trans (h.cleared he)
  · intro hp
    obtain h1 | h1 | ⟨c, h1⟩ := h.located hp
    · exact .inl (hmem.mpr h1)
    · exact .inr (.inl h1)
    · exact .inr (.inr (hclear c h1))
  · exact fun he hm => h.fresh he (hpushed hm)
  · intro hr
    obtain ⟨h1, h2⟩ := h.removed hr
    exact ⟨hhits.mpr h1, h2.imp id fun ⟨c, hc⟩ => hflag c hc hr⟩
  · exact fun hp hm => h.hit hp (hhits.mp hm)

/-- A link stays pending while a producer moves that is not about to write one. -/
theorem Pending.push {u v : Node} (h : Pending s u v) (ht : ∀ w, s.push t ≠ .link w)
    (hpush : ∀ w, w ≠ t → s'.push w = s.push w) (hcons : s'.cons = s.cons) : Pending s' u v := by
  obtain ⟨w, rfl, hw⟩ | hs := h
  · refine .inl ⟨w, rfl, (hpush w ?_).trans hw⟩
    rintro rfl
    exact ht u hw
  · exact .inr (by rw [hcons]; exact hs)

theorem Pending.cons {u v : Node} (h : Pending s u v) (hc : ∀ x w, s.cons c ≠ .popLink x w)
    (hcons : ∀ d, d ≠ c → s'.cons d = s.cons d) (hpush : s'.push = s.push) : Pending s' u v := by
  obtain hs | ⟨rfl, d, x, hd⟩ := h
  · exact .inl (by rw [hpush]; exact hs)
  · refine .inr ⟨rfl, d, x, (hcons d ?_).trans hd⟩
    rintro rfl
    exact hc x u hd

end

namespace Inv

variable {s s' : State} {chain : List Node} {c t : Nat}

theorem start (mine : Nat → Bool) : Inv (initial mine) [.stub] := by
  refine .mk ⟨⟨by simp, by simp, by simp [initial]⟩, rfl, rfl, ?_, rfl, rfl, List.nodup_nil, nofun,
    nofun, List.nodup_nil, nofun, nofun⟩ (fun t => ?_) fun c => .free rfl nofun
  · exact fun c => ⟨nofun, nofun⟩
  · exact ⟨nofun, by simp, nofun, nofun, nofun, nofun, nofun, nofun⟩

/-- Two consumers are not both under the lock. -/
theorem lock_unique (h : Inv s chain) {c c' : Nat} (hc : (s.cons c).holds = true)
    (hc' : (s.cons c').holds = true) : c' = c :=
  Option.some.inj (((h.lock c').mp hc').symm.trans ((h.lock c).mp hc))

/-- Nobody else is under the lock. -/
theorem alone (h : Inv s chain) (hc : (s.cons c).holds = true) (d : Nat) (hd : d ≠ c) :
    (s.cons d).holds = false := by
  cases hh : (s.cons d).holds with
  | false => rfl
  | true => exact absurd (h.lock_unique hc hh) hd

theorem head_mem (h : Inv s chain) : s.head ∈ chain := List.mem_of_head? h.head

/-- Behind a node with no successor there is a push that still has to write the link, unless the
holder of the lock is to write it. -/
theorem push_of_none (h : Inv s chain) (hc : (s.cons c).holds = true)
    (hlink : ∀ x u, s.cons c ≠ .popLink x u) {x v : Node} {l : List Node}
    (hl : chain = x :: v :: l) (hx : s.next x = none) : ∃ t, s.push t = .link x := by
  have hb := h.broken
  rw [hl] at hb
  rcases hb.pend_of_none hx with ⟨t, -, ht⟩ | ⟨-, d, y, hd⟩
  · exact ⟨t, ht⟩
  · obtain rfl := h.lock_unique hc (by rw [hd]; rfl)
    exact absurd hd (hlink y x)

/-- A push that has been taken off is not queued. -/
theorem not_mem_of_out (h : Inv s chain) {r : Option Nat} (ho : (s.cur t, r) ∈ s.out) :
    .unit t ∉ chain := by
  intro hm
  have hnd := h.nodup
  rw [← h.history, List.nodup_append] at hnd
  exact hnd.2.2 (s.cur t) (List.mem_map.mpr ⟨_, ho, rfl⟩) (s.cur t)
    (List.mem_map.mpr ⟨t, mem_units.mpr hm, rfl⟩) rfl

theorem out_pushed (h : Inv s chain) {p : Push} {r : Option Nat} (ho : (p, r) ∈ s.out) :
    p ∈ s.pushed := by
  rw [← h.history]
  exact List.mem_append_left _ (List.mem_map.mpr ⟨_, ho, rfl⟩)

/-- A unit that is not in the pool, or before its exchange, is not in the list. -/
theorem not_mem_of_early (h : Inv s chain) (ht : (s.push t).early = true) : .unit t ∉ chain := by
  intro hm
  rw [((h.unitOk t).member hm).2] at ht
  cases ht

/-! ### Producers -/

/-- A unit whose `in_pool` is not set is not being pushed. -/
theorem push_idle (h : Inv s chain) (hin : s.inPool t = false) : s.push t = .idle := by
  have hearly : (s.push t).early = false := by
    by_contra he
    rw [(h.unitOk t).early (by simpa using he)] at hin
    cases hin
  cases hpc : s.push t with
  | idle => rfl
  | clear | exchange => rw [hpc] at hearly; cases hearly
  | link u =>
    have := ((h.unitOk t).member (pair_mem ((h.unitOk t).link u hpc).1).2).1
    rw [hin] at this
    cases this

theorem enter (h : Inv s chain) (hin : s.inPool t = false)
    (hrem : s.removed t = false) :
    Inv ({ s with
      inPool := Function.update s.inPool t true
      num := Function.update s.num t (s.num t + 1) }.setPush t .clear) chain := by
  have hpc := h.push_idle hin
  have hnc : .unit t ∉ chain := fun hm => by
    have := ((h.unitOk t).member hm).1
    rw [hin] at this; cases this
  have hnum : ∀ u, u ≠ t → Function.update s.num t (s.num t + 1) u = s.num u :=
    fun u hu => Function.update_of_ne hu _ _
  have hgrow : ∀ u, s.num u ≤ Function.update s.num t (s.num t + 1) u := by
    intro u
    by_cases hu : u = t
    · subst hu; rw [Function.update_self]; exact Nat.le_succ _
    · exact Nat.le_of_eq (hnum u hu).symm
  have hself : Function.update s.num t (s.num t + 1) t = s.num t + 1 := Function.update_self ..
  have hpush : ∀ u, u ≠ t → Function.update s.push t .clear u = s.push u :=
    fun u hu => Function.update_of_ne hu _ _
  have hpool : ∀ u, u ≠ t → Function.update s.inPool t true u = s.inPool u :=
    fun u hu => Function.update_of_ne hu _ _
  refine .mk ⟨?_, h.head, h.tail, h.lock, h.crashed, ?_, h.nodup, ?_, ?_, h.hitNodup, h.fate,
    h.result⟩ (fun u => ?_) fun d => ?_
  · exact h.broken.congr (fun _ _ => rfl) fun u _ v _ hp =>
      hp.push (by rw [hpc]; nofun) hpush rfl
  · refine Eq.trans ?_ h.history
    congr 1
    refine List.map_congr_left fun u hu => ?_
    have hut : u ≠ t := by rintro rfl; exact hnc (mem_units.mp hu)
    exact congrArg (Push.mk u) (hnum u hut)
  · exact fun p hp => (h.nums p hp).trans (hgrow p.unit)
  · exact fun p hp => (h.hitNums p hp).trans (hgrow p.unit)
  · by_cases hut : u = t
    · subst hut
      have hcur : (⟨u, Function.update s.num u (s.num u + 1) u⟩ : Push) = ⟨u, s.num u + 1⟩ := by
        rw [hself]
      refine ⟨?_, fun hm => absurd hm hnc, fun _ => Function.update_self .., ?_,
        fun _ => .inr (.inl ?_), fun _ hm => ?_, fun hr => absurd hr ?_, fun _ hm => ?_⟩
      · simp [State.setPush]
      · simp [State.setPush]
      · simp [State.setPush, PushPc.early]
      · have hm : (⟨u, Function.update s.num u (s.num u + 1) u⟩ : Push) ∈ s.pushed := hm
        rw [hcur] at hm
        exact Nat.not_succ_le_self _ (h.nums _ hm)
      · simp [State.setPush, hrem]
      · have hm : (⟨u, Function.update s.num u (s.num u + 1) u⟩ : Push) ∈ s.hits := hm
        rw [hcur] at hm
        exact absurd (h.hitNums _ hm) (Nat.not_succ_le_self _)
    · exact (h.unitOk u).congr (hpush u hut) (hpool u hut) rfl (hnum u hut) (fun _ h1 h2 => ⟨h1, h2⟩)
        Iff.rfl (fun _ => rfl) (fun c hc => ⟨c, hc⟩) id (fun c hc _ => ⟨c, hc⟩) Iff.rfl
  · refine (h.consOk d).congr h.head_mem rfl rfl rfl (fun _ _ => rfl) (fun _ hp => hp) Iff.rfl
      (fun u hu he => ?_) (fun u hu => ?_) fun u hr hu => ?_
    · have hut : u ≠ t := by rintro rfl; rw [hin] at hu; cases hu
      exact ⟨congrArg (Push.mk u) (hnum u hut), by
        show (Function.update s.push t .clear u).early = false
        rw [hpush u hut]; exact he⟩
    · show Function.update s.inPool t true u = true
      by_cases hut : u = t
      · rw [hut, Function.update_self]
      · exact (hpool u hut).trans hu
    · have hut : u ≠ t := by rintro rfl; rw [hrem] at hr; cases hr
      exact (hpool u hut).trans hu

theorem clearNext (h : Inv s chain) (hpc : s.push t = .clear) :
    Inv ((s.setNext (.unit t) none).setPush t .exchange) chain := by
  have hearly : (s.push t).early = true := by rw [hpc]; rfl
  have hnc := h.not_mem_of_early hearly
  have hnext : ∀ u, u ∈ chain ∨ u = .stub → Function.update s.next (.unit t) none u = s.next u := by
    rintro u (hu | rfl)
    · exact Function.update_of_ne (by rintro rfl; exact hnc hu) _ _
    · exact Function.update_of_ne (show Node.stub ≠ .unit t by nofun) _ _
  have hpush : ∀ u, u ≠ t → Function.update s.push t .exchange u = s.push u :=
    fun u hu => Function.update_of_ne hu _ _
  refine .mk ⟨?_, h.head, h.tail, h.lock, h.crashed, h.history, h.nodup, h.nums, h.hitNums, h.hitNodup,
    h.fate, h.result⟩ (fun u => ?_) fun d => ?_
  · exact h.broken.congr (fun u hu => hnext u (.inl hu)) fun u _ v _ hp =>
      hp.push (by rw [hpc]; nofun) hpush rfl
  · by_cases hut : u = t
    · subst hut
      have hp : ((s.setNext (.unit u) none).setPush u .exchange).push u = .exchange :=
        Function.update_self ..
      refine ⟨by rw [hp]; nofun, fun hm => absurd hm hnc, fun _ => (h.unitOk u).early hearly,
        fun _ => Function.update_self .., fun _ => .inr (.inl (by rw [hp]; rfl)),
        fun _ => (h.unitOk u).fresh hearly, (h.unitOk u).removed, (h.unitOk u).hit⟩
    · refine (h.unitOk u).congr (hpush u hut) rfl rfl rfl (fun v h1 h2 => ⟨h1, ?_⟩) Iff.rfl (fun _ => ?_)
        (fun c hc => ⟨c, hc⟩) id (fun c hc _ => ⟨c, hc⟩) Iff.rfl
      · exact (hnext v (.inl (pair_mem h1).1)).trans h2
      · exact Function.update_of_ne (by rintro ⟨⟩; exact hut rfl) _ _
  · refine (h.consOk d).congr h.head_mem rfl rfl rfl hnext (fun _ hp => hp) Iff.rfl
      (fun u _ he => ⟨rfl, ?_⟩)
      (fun _ hu => hu) fun _ _ hu => hu
    have hut : u ≠ t := by rintro rfl; rw [hearly] at he; cases he
    show (Function.update s.push t .exchange u).early = false
    rw [hpush u hut]; exact he

theorem exchangeTail (h : Inv s chain) (hpc : s.push t = .exchange) :
    Inv ({ s with
      tail := .unit t
      pushed := s.pushed ++ [s.cur t] }.setPush t (.link s.tail)) (chain ++ [.unit t]) := by
  have hearly : (s.push t).early = true := by rw [hpc]; rfl
  have hnc := h.not_mem_of_early hearly
  have hlast : s.next s.tail = none := h.broken.last _ h.tail
  have hsub : ∀ u v, [u, v] <:+: chain → [u, v] <:+: chain ++ [Node.unit t] := fun u v huv =>
    huv.trans (List.prefix_append ..).isInfix
  have hfresh := (h.unitOk t).fresh hearly
  have hpush : ∀ u, u ≠ t → Function.update s.push t (.link s.tail) u = s.push u :=
    fun u hu => Function.update_of_ne hu _ _
  refine .mk ⟨?_, ?_, ?_, h.lock, h.crashed, ?_, ?_, ?_, h.hitNums, h.hitNodup, h.fate, h.result⟩
    (fun u => ?_) fun d => ?_
  · refine Broken.exchange (h.broken.congr (fun _ _ => rfl) fun u _ v _ hp =>
      hp.push (by rw [hpc]; nofun) hpush rfl) h.tail hnc ((h.unitOk t).cleared hpc)
      (.inl ⟨t, rfl, Function.update_self ..⟩)
  · rw [List.head?_append, h.head]; rfl
  · exact List.getLast?_concat ..
  · show s.out.map Prod.fst ++ (units (chain ++ [.unit t])).map s.cur = s.pushed ++ [s.cur t]
    rw [units_append, List.map_append, ← List.append_assoc, h.history]
    rfl
  · show (s.pushed ++ [s.cur t]).Nodup
    rw [List.nodup_append]
    refine ⟨h.nodup, List.nodup_singleton _, ?_⟩
    rintro p hp q hq rfl
    exact hfresh (List.mem_singleton.mp hq ▸ hp)
  · intro p hp
    obtain hp | hp := List.mem_append.mp hp
    · exact h.nums p hp
    · rw [List.mem_singleton.mp hp]; exact Nat.le_refl _
  · by_cases hut : u = t
    · subst hut
      have hp : ({ s with tail := .unit u, pushed := s.pushed ++ [s.cur u] }.setPush u
          (.link s.tail)).push u = .link s.tail := Function.update_self ..
      refine ⟨?_, fun _ => ⟨(h.unitOk u).early hearly, by rw [hp]; rfl⟩, by rw [hp]; nofun,
        by rw [hp]; nofun,
        fun _ => .inl (List.mem_append_right _ (List.mem_singleton_self _)), by rw [hp]; nofun,
        (h.unitOk u).removed, (h.unitOk u).hit⟩
      rw [hp]
      rintro v ⟨⟩
      exact ⟨pair_snoc h.tail, hlast⟩
    · refine (h.unitOk u).congr (hpush u hut) rfl rfl rfl (fun v h1 h2 => ⟨hsub _ _ h1, h2⟩) ?_
        (fun _ => rfl) (fun c hc => ⟨c, hc⟩) (fun hm => ?_) (fun c hc _ => ⟨c, hc⟩) Iff.rfl
      · rw [List.mem_append, List.mem_singleton]
        exact or_iff_left (by rintro ⟨⟩; exact hut rfl)
      · refine (List.mem_append.mp hm).resolve_right fun hm => hut ?_
        exact congrArg Push.unit (List.mem_singleton.mp hm)
  · refine (h.consOk d).congr h.head_mem rfl rfl rfl (fun _ _ => rfl) (fun u hp => hsub u _ hp) ?_
      (fun u _ he => ⟨rfl, ?_⟩) (fun _ hu => hu) fun _ _ hu => hu
    · rw [List.mem_append]
      exact or_iff_left (by simp)
    · have hut : u ≠ t := by rintro rfl; rw [hearly] at he; cases he
      show (Function.update s.push t _ u).early = false
      rw [hpush u hut]; exact he

/-- The pending link from `u` to `v` is written, by the push or the pop that made the exchange. -/
theorem writeLink (h : Inv s chain) {u v : Node} {push : Nat → PushPc} {cons : Nat → ConsPc}
    (huv : [u, v] <:+: chain) (hnone : s.next u = none)
    (hpush : ∀ t, push t = s.push t ∨ (v = .unit t ∧ s.push t = .link u ∧ push t = .idle))
    (hcons : ∀ c, cons c = s.cons c ∨
      ∃ x, v = .stub ∧ s.cons c = .popLink x u ∧ cons c = .popReload x)
    (hpu : ∀ t w, push t = .link w → w ≠ u) (hcu : ∀ c x w, cons c = .popLink x w → w ≠ u) :
    Inv { s with
      next := Function.update s.next u (some v)
      push := push
      cons := cons } chain := by
  have hnext : ∀ a, a ≠ u → Function.update s.next u (some v) a = s.next a :=
    fun a ha => Function.update_of_ne ha _ _
  have hearly : ∀ t, (push t).early = (s.push t).early := by
    intro t
    obtain ht | ⟨_, ht, ht'⟩ := hpush t
    · rw [ht]
    · rw [ht, ht']; rfl
  have hsame : ∀ t w, push t = .link w ∨ push t = .exchange → push t = s.push t := by
    intro t w hw
    obtain ht | ⟨_, _, ht'⟩ := hpush t
    · exact ht
    · rw [ht'] at hw; exact absurd hw (by simp)
  have hkeep : ∀ {pc : ConsPc} c, s.cons c = pc → (∀ x w, pc ≠ .popLink x w) → cons c = pc := by
    intro pc c hc hne
    obtain hc' | ⟨x, _, hc', _⟩ := hcons c
    · exact hc'.trans hc
    · exact absurd (hc.symm.trans hc') (hne x u)
  refine .mk ⟨?_, h.head, h.tail, fun d => ?_, h.crashed, h.history, h.nodup, h.nums, h.hitNums,
    h.hitNodup, h.fate, h.result⟩ (fun w => ?_) fun d => ?_
  · refine h.broken.link huv ?_
    rintro a b ha (⟨w, rfl, hw⟩ | ⟨rfl, c, x, hc⟩)
    · refine .inl ⟨w, rfl, ?_⟩
      obtain ht | ⟨_, ht, _⟩ := hpush w
      · exact ht.trans hw
      · rw [hw] at ht; cases ht; exact absurd rfl ha
    · refine .inr ⟨rfl, c, x, ?_⟩
      obtain ht | ⟨_, _, ht, _⟩ := hcons c
      · exact ht.trans hc
      · rw [hc] at ht; cases ht; exact absurd rfl ha
  · show (cons d).holds = true ↔ s.lk = some d
    obtain hd | ⟨x, _, hd, hd'⟩ := hcons d
    · rw [hd]; exact h.lock d
    · have := h.lock d
      rw [hd] at this
      rw [hd']; exact this
  · refine ⟨fun a ha => ?_, fun hm => ?_, fun he => ?_, fun he => ?_, fun hin => ?_, fun he => ?_,
      fun hr => ?_, (h.unitOk w).hit⟩
    · obtain ⟨h1, h2⟩ := (h.unitOk w).link a ((hsame w a (.inl ha)).symm.trans ha)
      exact ⟨h1, (hnext a (hpu w a ha)).trans h2⟩
    · exact ⟨((h.unitOk w).member hm).1, (hearly w).trans ((h.unitOk w).member hm).2⟩
    · exact (h.unitOk w).early ((hearly w).symm.trans he)
    · have he' : s.push w = .exchange := (hsame w u (.inr he)).symm.trans he
      have hne : Node.unit w ≠ u := by
        rintro rfl
        exact h.not_mem_of_early (by rw [he']; rfl) (pair_mem huv).1
      exact (hnext _ hne).trans ((h.unitOk w).cleared he')
    · obtain h1 | h1 | ⟨c, h1⟩ := (h.unitOk w).located hin
      · exact .inl h1
      · exact .inr (.inl ((hearly w).trans h1))
      · exact .inr (.inr ⟨c, hkeep c h1 nofun⟩)
    · exact (h.unitOk w).fresh ((hearly w).symm.trans he)
    · exact ⟨((h.unitOk w).removed hr).1,
        ((h.unitOk w).removed hr).2.imp id fun ⟨c, hc⟩ => ⟨c, hkeep c hc nofun⟩⟩
  · show ConsOk _ chain d (cons d)
    have hd := h.consOk d
    have hsee : ∀ a b, s.next a = some b → Function.update s.next u (some v) a = some b := by
      intro a b hab
      refine (hnext a ?_).trans hab
      rintro rfl
      rw [hnone] at hab; cases hab
    obtain hd' | ⟨x, hv, hx, hx'⟩ := hcons d
    · rw [hd']
      refine ⟨fun x w hw => ?_, hd.looks, fun x w hx hw => hsee x w (hd.sees x w hx hw), hd.stubOut,
        fun x hx => ?_, hd.hand, fun p hp => ?_, hd.mark, hd.returns, hd.flag, hd.reload⟩
      · obtain ⟨h1, h2⟩ := hd.linkStub x w hw
        exact ⟨h1, (hnext w (hcu d x w (hd'.trans hw))).trans h2⟩
      · have hne : Node.stub ≠ u := by
          rintro rfl
          exact hd.stubOut (by rw [hx]; rfl) (pair_mem huv).1
        exact (hnext _ hne).trans (hd.stubNext x hx)
      · obtain ⟨h1, h2, h3⟩ := hd.clear p hp
        exact ⟨h1, h2, (hearly _).trans h3⟩
    · rw [hx']
      refine ⟨nofun, ?_, nofun, nofun, nofun, nofun, nofun, nofun, nofun, nofun, fun _ _ => ?_⟩
      · rintro y ⟨⟩
        exact hd.looks x (by rw [hx]; rfl)
      · exact hv ▸ (pair_mem huv).2

/-- No clause is about `count` or about the pushes that are to change it. -/
theorem addCount (h : Inv s chain) (n : Nat) (count : Int) :
    Inv { s with count := count, linked := n } chain :=
  { h with unitOk := fun t => { h.unitOk t with }, consOk := fun c => { h.consOk c with } }

theorem linkPrev (h : Inv s chain) {u : Node} (hpc : s.push t = .link u) :
    Inv ({ s.setNext u (some (.unit t)) with linked := s.linked + 1 }.setPush t .idle) chain := by
  obtain ⟨huv, hnone⟩ := (h.unitOk t).link u hpc
  refine (h.addCount (s.linked + 1) s.count).writeLink huv hnone (fun w => ?_) (fun c => .inl rfl)
    ?_ ?_
  · by_cases hw : w = t
    · subst hw; exact .inr ⟨rfl, hpc, Function.update_self ..⟩
    · exact .inl (Function.update_of_ne hw _ _)
  · rintro w x hw rfl
    by_cases hwt : w = t
    · subst hwt; rw [Function.update_self] at hw; cases hw
    · rw [Function.update_of_ne hwt] at hw
      have := pair_unique h.broken.nodup huv ((h.unitOk w).link x hw).1
      exact hwt (Node.unit.inj this).symm
  · rintro c x w hw rfl
    have := pair_unique h.broken.nodup huv ((h.consOk c).linkStub x w hw).1
    cases this

/-! ### Consumers -/

/-- A program counter that nobody leaves is still there. -/
theorem kept {pc : ConsPc} (hcons : ∀ d, d ≠ c → s'.cons d = s.cons d) (hc : s.cons c ≠ pc) (d : Nat)
    (hd : s.cons d = pc) : ∃ d, s'.cons d = pc := by
  refine ⟨d, (hcons d ?_).trans hd⟩
  rintro rfl
  exact hc hd

/-- The lock, when one consumer moves. -/
theorem lockCons (h : Inv s chain) {pc : ConsPc} (hcons : ∀ d, d ≠ c → s'.cons d = s.cons d)
    (hc : s'.cons c = pc) (hlk : ∀ d, d ≠ c → (s.lk = some d ↔ s'.lk = some d))
    (hlk' : pc.holds = true ↔ s'.lk = some c) (d : Nat) :
    (s'.cons d).holds = true ↔ s'.lk = some d := by
  by_cases hd : d = c
  · rw [hd, hc]; exact hlk'
  · rw [hcons d hd]; exact (h.lock d).trans (hlk d hd)

/-- The lock, when the consumer that has it keeps it. -/
theorem lockKept (h : Inv s chain) {pc : ConsPc} (hcons : ∀ d, d ≠ c → s'.cons d = s.cons d)
    (hc : s'.cons c = pc) (hold : (s.cons c).holds = true) (hpc : pc.holds = true)
    (hlk : s'.lk = s.lk) : ∀ d, (s'.cons d).holds = true ↔ s'.lk = some d := by
  refine h.lockCons hcons hc (fun d _ => by rw [hlk]) ?_
  rw [hlk, hpc]
  exact iff_of_true rfl ((h.lock c).mp hold)

/-- The consumers, when the one that has the lock moves. -/
theorem consKept (h : Inv s chain) {chain' : List Node} {pc : ConsPc}
    (hcons : ∀ d, d ≠ c → s'.cons d = s.cons d) (hc : s'.cons c = pc)
    (hold : (s.cons c).holds = true) (hout : ∀ q ∈ s.out, q ∈ s'.out) (hpc : ConsOk s' chain' c pc)
    (d : Nat) : ConsOk s' chain' d (s'.cons d) := by
  by_cases hd : d = c
  · rw [hd, hc]; exact hpc
  · rw [hcons d hd]
    exact .free (h.alone hold d hd) fun p hp => hout _ ((h.consOk d).returns p hp)

/-- A consumer that changes nothing but its program counter, and whether it has the lock. -/
theorem move (h : Inv s chain) {pc : ConsPc} {lk : Option Nat}
    (hlk : ∀ d, d ≠ c → (s.lk = some d ↔ lk = some d)) (hlk' : pc.holds = true ↔ lk = some c)
    (hpc : ConsOk s chain c pc) (hlink : ∀ x u, s.cons c ≠ .popLink x u)
    (hclear : ∀ p, s.cons c ≠ .popClear p)
    (hflag : ∀ p, s.cons c = .popFlag p → s.removed p.unit = false) :
    Inv ({ s with lk := lk }.setCons c pc) chain := by
  have hcons : ∀ d, d ≠ c → ({ s with lk := lk }.setCons c pc).cons d = s.cons d :=
    fun d hd => Function.update_of_ne hd _ _
  have hself : ({ s with lk := lk }.setCons c pc).cons c = pc := Function.update_self ..
  refine .mk ⟨?_, h.head, h.tail, h.lockCons hcons hself hlk hlk', h.crashed, h.history, h.nodup,
    h.nums, h.hitNums, h.hitNodup, h.fate, h.result⟩ (fun u => ?_) fun d => ?_
  · exact h.broken.congr (fun _ _ => rfl) fun u _ v _ hp => hp.cons hlink hcons rfl
  · refine (h.unitOk u).congr rfl rfl rfl rfl (fun _ h1 h2 => ⟨h1, h2⟩) Iff.rfl (fun _ => rfl)
      (kept hcons (hclear _)) id (fun d hd hr => kept hcons (fun hc => ?_) d hd) Iff.rfl
    have := hflag _ hc
    rw [show (s.cur u).unit = u from rfl, hr] at this
    cases this
  · by_cases hd : d = c
    · rw [hd, hself]
      exact ⟨hpc.1, hpc.2, hpc.3, hpc.4, hpc.5, hpc.6, hpc.7, hpc.8, hpc.9, hpc.10, hpc.11⟩
    · have hd' := h.consOk d
      rw [hcons d hd]
      exact ⟨hd'.1, hd'.2, hd'.3, hd'.4, hd'.5, hd'.6, hd'.7, hd'.8, hd'.9,
        hd'.10, hd'.11⟩

theorem goto (h : Inv s chain) {pc pc' : ConsPc} {lk : Option Nat} (hpc : s.cons c = pc)
    (hq : pc.quiet = true) (hlk : ∀ d, d ≠ c → (s.lk = some d ↔ lk = some d))
    (hlk' : pc'.holds = true ↔ lk = some c) (hpc' : ConsOk s chain c pc') :
    Inv ({ s with lk := lk }.setCons c pc') chain := by
  refine h.move hlk hlk' hpc' ?_ ?_ ?_ <;> rw [hpc]
  · rintro x u rfl; cases hq
  · rintro p rfl; cases hq
  · rintro p rfl; cases hq

theorem looks_chain (h : Inv s chain) {x : Node} (hx : (s.cons c).looks = some x) :
    ∃ l, chain = x :: l := by
  have := h.head
  cases chain with
  | nil => cases this
  | cons a l => rw [((h.consOk c).looks x hx).1] at this; cases this; exact ⟨l, rfl⟩

/-- The consumer passes the stub. -/
theorem passStub (h : Inv s chain) {v : Node} (hpc : s.cons c = .popHead) (hhead : s.head = .stub)
    (hv : s.next .stub = some v) :
    ∃ chain', Inv ({ s with head := v }.setCons c (.popSecond v)) chain' := by
  obtain ⟨l, rfl⟩ : ∃ l, chain = .stub :: v :: l := by
    have hh := h.head
    cases chain with
    | nil => cases hh
    | cons a l =>
      rw [hhead] at hh
      cases hh
      obtain ⟨l', rfl⟩ := h.broken.next_head hv
      exact ⟨l', rfl⟩
  have hvs : v ≠ .stub := by
    rintro rfl
    exact (List.nodup_cons.mp h.broken.nodup).1 (List.mem_cons_self ..)
  have hpair : ∀ u w, [u, w] <:+: Node.stub :: v :: l → s.next u = none → [u, w] <:+: v :: l :=
    fun u w huw hn => pair_tail huw (by rintro rfl; rw [hv] at hn; cases hn)
  have hold : (s.cons c).holds = true := by rw [hpc]; rfl
  have hcons : ∀ d, d ≠ c → ({ s with head := v }.setCons c (.popSecond v)).cons d = s.cons d :=
    fun d hd => Function.update_of_ne hd _ _
  have hself : ({ s with head := v }.setCons c (.popSecond v)).cons c = .popSecond v :=
    Function.update_self ..
  refine ⟨v :: l, .mk ⟨?_, rfl, ?_, h.lockKept hcons hself hold rfl rfl, h.crashed, h.history,
    h.nodup, h.nums, h.hitNums, h.hitNodup, h.fate, h.result⟩ (fun u => ?_)
    (h.consKept hcons hself hold (fun _ hq => hq) ?_)⟩
  · exact h.broken.drop.congr (fun _ _ => rfl) fun u _ v _ hp =>
      hp.cons (by rw [hpc]; nofun) hcons rfl
  · have := h.tail
    rwa [List.getLast?_cons_cons] at this
  · refine (h.unitOk u).congr rfl rfl rfl rfl (fun w h1 h2 => ⟨hpair w _ h1 h2, h2⟩) ?_
      (fun _ => rfl) (kept hcons (by rw [hpc]; nofun)) id
      (fun d hd _ => kept hcons (by rw [hpc]; nofun) d hd) Iff.rfl
    rw [List.mem_cons (b := Node.stub)]
    exact (or_iff_right nofun).symm
  · refine ⟨nofun, ?_, nofun, nofun, nofun, nofun, nofun, nofun, nofun, nofun, nofun⟩
    rintro x ⟨⟩
    exact ⟨rfl, hvs⟩

/-- The consumer takes the first node off. -/
theorem takeHead (h : Inv s chain) {v : Node} (hpc : s.cons c = .popTake (.unit t) v) :
    ∃ chain', Inv ({ s with
      head := v
      out := s.out ++ [(s.cur t, if s.removed t then none else some c)] }.setCons c
        (.popClear (s.cur t))) chain' := by
  have hlk : (s.cons c).looks = some (.unit t) := by rw [hpc]; rfl
  have hnext := (h.consOk c).sees _ v hlk (by rw [hpc]; rfl)
  obtain ⟨l, rfl⟩ : ∃ l, chain = .unit t :: v :: l := by
    obtain ⟨l, rfl⟩ := h.looks_chain hlk
    obtain ⟨l', rfl⟩ := h.broken.next_head hnext
    exact ⟨l', rfl⟩
  have hpair : ∀ u w, [u, w] <:+: Node.unit t :: v :: l → s.next u = none → [u, w] <:+: v :: l :=
    fun u w huw hn => pair_tail huw (by rintro rfl; rw [hnext] at hn; cases hn)
  obtain ⟨hin, hearly⟩ := (h.unitOk t).member (List.mem_cons_self ..)
  have hnin : .unit t ∉ v :: l := (List.nodup_cons.mp h.broken.nodup).1
  have hhits : s.removed t = true ↔ s.cur t ∈ s.hits :=
    ⟨fun hr => ((h.unitOk t).removed hr).1, (h.unitOk t).hit hin⟩
  have hold : (s.cons c).holds = true := by rw [hpc]; rfl
  generalize hs' : ({ s with
    head := v
    out := s.out ++ [(s.cur t, if s.removed t then none else some c)] } : State).setCons c
      (.popClear (s.cur t)) = s'
  have hcons : ∀ d, d ≠ c → s'.cons d = s.cons d := by
    subst hs'; exact fun d hd => Function.update_of_ne hd _ _
  have hself : s'.cons c = .popClear (s.cur t) := by subst hs'; exact Function.update_self ..
  have hout : ∀ q ∈ s.out, q ∈ s.out ++ [(s.cur t, if s.removed t then none else some c)] :=
    fun q hq => List.mem_append_left _ hq
  subst hs'
  refine ⟨v :: l, .mk ⟨?_, rfl, ?_, h.lockKept hcons hself hold rfl rfl, h.crashed, ?_, h.nodup,
    h.nums, h.hitNums, h.hitNodup, ?_, fun d p hp => hout _ (h.result d p hp)⟩ (fun u => ?_)
    (h.consKept hcons hself hold hout ?_)⟩
  · exact h.broken.drop.congr (fun _ _ => rfl) fun u _ v _ hp =>
      hp.cons (by rw [hpc]; nofun) hcons rfl
  · have := h.tail
    rwa [List.getLast?_cons_cons] at this
  · refine Eq.trans ?_ h.history
    show (s.out ++ [(s.cur t, _)]).map Prod.fst ++ (units (v :: l)).map s.cur = _
    rw [List.map_append, List.append_assoc]
    rfl
  · intro p r hp
    obtain hp | hp := List.mem_append.mp hp
    · exact h.fate p r hp
    · obtain ⟨rfl, rfl⟩ := Prod.mk.inj (List.mem_singleton.mp hp)
      refine Iff.trans ?_ hhits
      cases s.removed t <;> simp
  · by_cases hut : u = t
    · subst hut
      refine ⟨fun w hw => ?_, fun hm => absurd hm hnin, fun he => ?_, fun he => ?_,
        fun _ => .inr (.inr ⟨c, hself⟩), fun he => ?_, fun hr => ⟨((h.unitOk u).removed hr).1, .inl hin⟩,
        (h.unitOk u).hit⟩
      · obtain ⟨h1, h2⟩ := (h.unitOk u).link w hw
        exact absurd (pair_mem (hpair w _ h1 h2)).2 hnin
      · exact hin
      · have he : s.push u = .exchange := he
        rw [he] at hearly; cases hearly
      · have he : (s.push u).early = true := he
        rw [he] at hearly; cases hearly
    · refine (h.unitOk u).congr rfl rfl rfl rfl (fun w h1 h2 => ⟨hpair w _ h1 h2, h2⟩) ?_
        (fun _ => rfl) (kept hcons (by rw [hpc]; nofun)) id
        (fun d hd _ => kept hcons (by rw [hpc]; nofun) d hd) Iff.rfl
      rw [List.mem_cons (b := Node.unit t)]
      exact (or_iff_right (by rintro ⟨⟩; exact hut rfl)).symm
  · refine ⟨nofun, nofun, nofun, nofun, nofun, ?_, ?_, nofun, nofun, nofun, nofun⟩
    · rintro p ⟨⟩
      exact List.mem_append_right _ (List.mem_singleton_self _)
    · rintro p ⟨⟩
      exact ⟨rfl, hin, hearly⟩

theorem clearStub (h : Inv s chain) {x : Node} (hpc : s.cons c = .popStub x) :
    Inv ((s.setNext .stub none).setCons c (.popSwap x)) chain := by
  have hns : .stub ∉ chain := (h.consOk c).stubOut (by rw [hpc]; rfl)
  have hnext : ∀ u, u ≠ .stub → Function.update s.next .stub none u = s.next u :=
    fun u hu => Function.update_of_ne hu _ _
  have hstub : Function.update s.next .stub none .stub = none := Function.update_self ..
  have hchain : ∀ u ∈ chain, Function.update s.next .stub none u = s.next u :=
    fun u hu => hnext u (by rintro rfl; exact hns hu)
  have hold : (s.cons c).holds = true := by rw [hpc]; rfl
  have hcons : ∀ d, d ≠ c → ((s.setNext .stub none).setCons c (.popSwap x)).cons d = s.cons d :=
    fun d hd => Function.update_of_ne hd _ _
  have hself : ((s.setNext .stub none).setCons c (.popSwap x)).cons c = .popSwap x :=
    Function.update_self ..
  refine .mk ⟨?_, h.head, h.tail, h.lockKept hcons hself hold rfl rfl, h.crashed, h.history,
    h.nodup, h.nums, h.hitNums, h.hitNodup, h.fate, h.result⟩ (fun u => ?_)
    (h.consKept hcons hself hold (fun _ hq => hq) ?_)
  · exact h.broken.congr hchain fun u _ v _ hp => hp.cons (by rw [hpc]; nofun) hcons rfl
  · exact (h.unitOk u).congr rfl rfl rfl rfl
      (fun w h1 h2 => ⟨h1, (hchain w (pair_mem h1).1).trans h2⟩) Iff.rfl
      (fun _ => hnext (.unit u) nofun)
      (kept hcons (by rw [hpc]; nofun)) id (fun d hd _ => kept hcons (by rw [hpc]; nofun) d hd)
      Iff.rfl
  · refine ⟨nofun, ?_, nofun, fun _ => hns, fun _ _ => hstub, nofun, nofun, nofun, nofun, nofun,
      nofun⟩
    rintro y ⟨⟩
    exact (h.consOk c).looks x (by rw [hpc]; rfl)

/-- The stub becomes the last node again. -/
theorem swapStub (h : Inv s chain) {x : Node} (hpc : s.cons c = .popSwap x) :
    Inv ({ s with tail := .stub }.setCons c (.popLink x s.tail)) (chain ++ [.stub]) := by
  have hns : .stub ∉ chain := (h.consOk c).stubOut (by rw [hpc]; rfl)
  have hlast : s.next s.tail = none := h.broken.last _ h.tail
  have hold : (s.cons c).holds = true := by rw [hpc]; rfl
  have hcons : ∀ d, d ≠ c →
      ({ s with tail := .stub }.setCons c (.popLink x s.tail)).cons d = s.cons d :=
    fun d hd => Function.update_of_ne hd _ _
  have hself : ({ s with tail := .stub }.setCons c (.popLink x s.tail)).cons c = .popLink x s.tail :=
    Function.update_self ..
  refine .mk ⟨?_, ?_, List.getLast?_concat .., h.lockKept hcons hself hold rfl rfl, h.crashed, ?_,
    h.nodup, h.nums, h.hitNums, h.hitNodup, h.fate, h.result⟩ (fun u => ?_)
    (h.consKept hcons hself hold (fun _ hq => hq) ?_)
  · exact Broken.exchange (h.broken.congr (fun _ _ => rfl) fun u _ v _ hp =>
      hp.cons (by rw [hpc]; nofun) hcons rfl) h.tail hns ((h.consOk c).stubNext x hpc)
      (.inr ⟨rfl, c, x, hself⟩)
  · rw [List.head?_append, h.head]; rfl
  · rw [units_append, units_stub, units_nil, List.append_nil]; exact h.history
  · refine (h.unitOk u).congr rfl rfl rfl rfl
      (fun w h1 h2 => ⟨h1.trans (List.prefix_append ..).isInfix, h2⟩) ?_ (fun _ => rfl)
      (kept hcons (by rw [hpc]; nofun)) id (fun d hd _ => kept hcons (by rw [hpc]; nofun) d hd)
      Iff.rfl
    rw [List.mem_append, List.mem_singleton]
    exact or_iff_left nofun
  · refine ⟨?_, ?_, nofun, nofun, nofun, nofun, nofun, nofun, nofun, nofun, nofun⟩
    · rintro y u ⟨⟩
      exact ⟨pair_snoc h.tail, hlast⟩
    · rintro y ⟨⟩
      exact (h.consOk c).looks x (by rw [hpc]; rfl)

theorem linkStubPrev (h : Inv s chain) {x u : Node} (hpc : s.cons c = .popLink x u) :
    Inv ((s.setNext u (some .stub)).setCons c (.popReload x)) chain := by
  obtain ⟨huv, hnone⟩ := (h.consOk c).linkStub x u hpc
  refine h.writeLink huv hnone (fun w => .inl rfl) (fun d => ?_) ?_ ?_
  · by_cases hd : d = c
    · subst hd; exact .inr ⟨x, rfl, hpc, Function.update_self ..⟩
    · exact .inl (Function.update_of_ne hd _ _)
  · rintro w y hw rfl
    have := pair_unique h.broken.nodup huv ((h.unitOk w).link y hw).1
    cases this
  · rintro d y w hw rfl
    by_cases hd : d = c
    · subst hd; rw [Function.update_self] at hw; cases hw
    · rw [Function.update_of_ne hd] at hw
      have hw' : s.cons d = .popLink y w := hw
      have := h.alone (c := c) (by rw [hpc]; rfl) d hd
      rw [hw'] at this; cases this

theorem clearInPool (h : Inv s chain) {p : Push} (hpc : s.cons c = .popClear p) :
    Inv ({ s with inPool := Function.update s.inPool p.unit false }.setCons c (.popFlag p)) chain := by
  obtain ⟨hp, hin, hearly⟩ := (h.consOk c).clear p hpc
  have hout := (h.consOk c).hand p (by rw [hpc]; rfl)
  have hnc : .unit p.unit ∉ chain := h.not_mem_of_out (hp ▸ hout)
  have hold : (s.cons c).holds = true := by rw [hpc]; rfl
  generalize hs' : ({ s with inPool := Function.update s.inPool p.unit false } : State).setCons c
    (.popFlag p) = s'
  have hcons : ∀ d, d ≠ c → s'.cons d = s.cons d := by
    subst hs'; exact fun d hd => Function.update_of_ne hd _ _
  have hself : s'.cons c = .popFlag p := by subst hs'; exact Function.update_self ..
  have hpool : s'.inPool p.unit = false := by subst hs'; exact Function.update_self ..
  have hfree : ¬ s'.inPool p.unit = true := by rw [hpool]; nofun
  subst hs'
  refine .mk ⟨?_, h.head, h.tail, h.lockKept hcons hself hold rfl rfl, h.crashed, h.history,
    h.nodup, h.nums, h.hitNums, h.hitNodup, h.fate, h.result⟩ (fun u => ?_)
    (h.consKept hcons hself hold (fun _ hq => hq) ?_)
  · exact h.broken.congr (fun _ _ => rfl) fun u _ v _ hp => hp.cons (by rw [hpc]; nofun) hcons rfl
  · by_cases hu : u = p.unit
    · subst hu
      refine ⟨(h.unitOk _).link, fun hm => absurd hm hnc, fun he => ?_, (h.unitOk _).cleared,
        fun hi => absurd hi hfree, (h.unitOk _).fresh,
        fun hr => ⟨((h.unitOk _).removed hr).1, .inr ⟨c, hself.trans (congrArg _ hp)⟩⟩,
        fun hi => absurd hi hfree⟩
      have he : (s.push p.unit).early = true := he
      rw [he] at hearly; cases hearly
    · refine (h.unitOk u).congr rfl (Function.update_of_ne hu _ _) rfl rfl (fun _ h1 h2 => ⟨h1, h2⟩)
        Iff.rfl (fun _ => rfl) (kept hcons fun hc => ?_) id
        (fun d hd _ => kept hcons (by rw [hpc]; nofun) d hd) Iff.rfl
      rw [hpc] at hc
      exact hu (congrArg Push.unit (ConsPc.popClear.inj hc)).symm
  · refine ⟨nofun, nofun, nofun, nofun, nofun, ?_, nofun, nofun, nofun, ?_, nofun⟩
    · rintro q ⟨⟩; exact hout
    · rintro q ⟨⟩ _; exact hpool

/-- A removed push is discarded. -/
theorem discard (h : Inv s chain) {p : Push} (hpc : s.cons c = .popFlag p)
    (hrem : s.removed p.unit = true) :
    Inv ({ s with removed := Function.update s.removed p.unit false }.setCons c .popHead) chain := by
  have hin := (h.consOk c).flag p hpc hrem
  have hold : (s.cons c).holds = true := by rw [hpc]; rfl
  generalize hs' : ({ s with removed := Function.update s.removed p.unit false } : State).setCons c
    .popHead = s'
  have hcons : ∀ d, d ≠ c → s'.cons d = s.cons d := by
    subst hs'; exact fun d hd => Function.update_of_ne hd _ _
  have hself : s'.cons c = .popHead := by subst hs'; exact Function.update_self ..
  have hgone : ¬ s'.removed p.unit = true := by subst hs'; simp [State.setCons]
  have hfree : ¬ s.inPool p.unit = true := by rw [hin]; nofun
  subst hs'
  refine .mk ⟨?_, h.head, h.tail, h.lockKept hcons hself hold rfl rfl, h.crashed, h.history,
    h.nodup, h.nums, h.hitNums, h.hitNodup, h.fate, h.result⟩ (fun u => ?_)
    (h.consKept hcons hself hold (fun _ hq => hq) (.plain rfl rfl rfl nofun))
  · exact h.broken.congr (fun _ _ => rfl) fun u _ v _ hp => hp.cons (by rw [hpc]; nofun) hcons rfl
  · by_cases hu : u = p.unit
    · subst hu
      exact { h.unitOk _ with
        located := fun hi => absurd hi hfree
        removed := fun hr => absurd hr hgone
        hit := fun hi => absurd hi hfree }
    · refine (h.unitOk u).congr rfl rfl (Function.update_of_ne hu _ _) rfl (fun _ h1 h2 => ⟨h1, h2⟩)
        Iff.rfl (fun _ => rfl) (kept hcons (by rw [hpc]; nofun)) id
        (fun d hd _ => kept hcons (fun hc => ?_) d hd) Iff.rfl
      rw [hpc] at hc
      exact hu (congrArg Push.unit (ConsPc.popFlag.inj hc)).symm

/-- `remove_unit` marks a unit that is queued or on its way into the queue. -/
theorem markRemoved (h : Inv s chain) (hpc : s.cons c = .remMark t) (hrem : s.removed t = false) :
    Inv ({ s with
      removed := Function.update s.removed t true
      hits := s.hits ++ [s.cur t] }.setCons c (.remUnlock true)) chain := by
  have hin := (h.consOk c).mark t hpc
  have hold : (s.cons c).holds = true := by rw [hpc]; rfl
  have hnh : s.cur t ∉ s.hits := fun hm => by
    have := (h.unitOk t).hit hin hm
    rw [hrem] at this; cases this
  -- the push is queued or before its exchange, so it has not been taken off
  have hwhere : .unit t ∈ chain ∨ (s.push t).early = true := by
    obtain hm | he | ⟨d, hd⟩ := (h.unitOk t).located hin
    · exact .inl hm
    · exact .inr he
    · have := h.lock_unique hold (show (s.cons d).holds = true by rw [hd]; rfl)
      rw [this, hpc] at hd
      cases hd
  have hno : ∀ r, (s.cur t, r) ∉ s.out := by
    intro r hr
    obtain hm | he := hwhere
    · exact h.not_mem_of_out hr hm
    · exact (h.unitOk t).fresh he (h.out_pushed hr)
  generalize hs' : ({ s with
    removed := Function.update s.removed t true
    hits := s.hits ++ [s.cur t] } : State).setCons c (.remUnlock true) = s'
  have hcons : ∀ d, d ≠ c → s'.cons d = s.cons d := by
    subst hs'; exact fun d hd => Function.update_of_ne hd _ _
  have hself : s'.cons c = .remUnlock true := by subst hs'; exact Function.update_self ..
  subst hs'
  refine .mk ⟨?_, h.head, h.tail, h.lockKept hcons hself hold rfl rfl, h.crashed, h.history,
    h.nodup, h.nums, fun p hp => ?_, ?_, fun p r hp => ?_, h.result⟩ (fun u => ?_)
    (h.consKept hcons hself hold (fun _ hq => hq) (.plain rfl rfl rfl nofun))
  · exact h.broken.congr (fun _ _ => rfl) fun u _ v _ hp => hp.cons (by rw [hpc]; nofun) hcons rfl
  · obtain hp | hp := List.mem_append.mp hp
    · exact h.hitNums p hp
    · rw [List.mem_singleton.mp hp]; exact Nat.le_refl _
  · show (s.hits ++ [s.cur t]).Nodup
    rw [List.nodup_append]
    refine ⟨h.hitNodup, List.nodup_singleton _, ?_⟩
    rintro p hp q hq rfl
    exact hnh (List.mem_singleton.mp hq ▸ hp)
  · have hne : p ≠ s.cur t := by rintro rfl; exact hno r hp
    refine (h.fate p r hp).trans ?_
    show p ∈ s.hits ↔ p ∈ s.hits ++ [s.cur t]
    rw [List.mem_append, List.mem_singleton]
    exact (or_iff_left hne).symm
  · by_cases hu : u = t
    · subst hu
      exact ⟨(h.unitOk _).link, (h.unitOk _).member, (h.unitOk _).early, (h.unitOk _).cleared,
        fun _ => hwhere.imp id .inl, (h.unitOk _).fresh,
        fun _ => ⟨List.mem_append_right _ (List.mem_singleton_self _), .inl hin⟩,
        fun _ _ => Function.update_self ..⟩
    · refine (h.unitOk u).congr rfl rfl (Function.update_of_ne hu _ _) rfl (fun _ h1 h2 => ⟨h1, h2⟩)
        Iff.rfl (fun _ => rfl) (kept hcons (by rw [hpc]; nofun)) id
        (fun d hd _ => kept hcons (by rw [hpc]; nofun) d hd) ?_
      show s.cur u ∈ s.hits ++ [s.cur t] ↔ s.cur u ∈ s.hits
      rw [List.mem_append, List.mem_singleton]
      exact or_iff_left fun he => hu (congrArg Push.unit he)

/-- A consumer's call returns. -/
theorem back (h : Inv s chain) {r : Result} {lk : Option Nat} {count : Int}
    (hlk : ∀ d, d ≠ c → (s.lk = some d ↔ lk = some d)) (hlk' : lk ≠ some c)
    (hr : ∀ p, r = .popped (some p) → (p, some c) ∈ s.out)
    (hpc : s.cons c = .popUnlock none ∨ (∃ p, s.cons c = .popCount p) ∨
      s.cons c = .remUnlock false ∨ s.cons c = .remCount) :
    Inv ({ s with lk := lk, count := count }.back c r) chain := by
  have hq : (s.cons c).quiet = true := by
    obtain hpc | ⟨p, hpc⟩ | hpc | hpc := hpc <;> rw [hpc] <;> rfl
  have hidle : ConsOk s chain c .idle := .plain rfl rfl rfl nofun
  have hmove := h.goto rfl hq hlk (iff_of_false (by nofun) hlk') hidle
  refine { hmove with
    unitOk := fun t => { hmove.unitOk t with }
    consOk := fun d => { hmove.consOk d with }
    result := fun d p hd => ?_ }
  by_cases hdc : d = c
  · subst hdc
    have hd : Function.update s.result d (some r) d = some (.popped (some p)) := hd
    rw [Function.update_self] at hd
    exact hr p (Option.some.inj hd)
  · have hd : Function.update s.result c (some r) d = some (.popped (some p)) := hd
    rw [Function.update_of_ne hdc] at hd
    exact h.result d p hd

end Inv

end Mpsc
end AbtReconverse
