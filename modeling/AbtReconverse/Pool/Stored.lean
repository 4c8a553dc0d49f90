import AbtReconverse.Lib.Doubly
import AbtReconverse.Lib.Stub
import AbtReconverse.Pool.Memory

/-!
# AbtReconverse.Pool.Stored

What the two representations of a built-in pool hold. `Inv c s ch`: pool `p` links the units `ch p`,
in that order; on the single-consumer path some of them may be marked as removed, and what the pool
holds are the others. `Holds c s q n`: the pools hold the queues `q`, and no pool links more than
`n` units.

Every operation gets its specification on the queues: `push_spec` and `pop_spec` here, the others in
`Pool.Agree`. A pop of the two paths differs only in what it does with a unit at the front that is
pinned elsewhere (`takeList`, `takeMpsc`); the loop of `pop_mpsc` makes one turn for every marked
unit at the front, so fuel for as many turns as units are linked is enough.
-/

namespace AbtReconverse
namespace Storage

open Lts

/-- The units of a chain that are not marked. -/
def unmarked (s : State) (l : List Nat) : List Nat := l.filter fun t => !s.removed t

structure Inv (c : Config) (s : State) (ch : Nat → List Nat) : Prop where
  list : ∀ p, c.single p = false → Doubly s.lprev s.lnext (s.lhead p) (s.ltail p) (ch p)
  mpsc : ∀ p, c.single p = true →
    Stubbed s.next (.stub p) (s.head p) (s.tail p) ((ch p).map .unit)
  mem : ∀ t, s.inPool t = true ↔ ∃ p, t ∈ ch p
  pool : ∀ p t, t ∈ ch p → s.pool t = some p
  marks : ∀ t, s.removed t = true → ∃ p, c.single p = true ∧ t ∈ ch p
  count : ∀ p, s.count p = (unmarked s (ch p)).length

/-- Every pool `p` holds the queue `q p`. -/
def Holds (c : Config) (s : State) (q : Nat → List Nat) (n : Nat) : Prop :=
  ∃ ch, Inv c s ch ∧ ∀ p, q p = unmarked s (ch p) ∧ (ch p).length ≤ n

section

variable {c : Config} {s s' : State} {ch : Nat → List Nat} {q : Nat → List Nat} {n p t : Nat}
  {l l₁ l₂ : List Nat} {v : Node}

namespace Inv

theorem one_pool (h : Inv c s ch) {p' : Nat} (ht : t ∈ ch p) (ht' : t ∈ ch p') : p' = p :=
  Option.some.inj ((h.pool p' t ht').symm.trans (h.pool p t ht))

theorem nodup (h : Inv c s ch) (p : Nat) : (ch p).Nodup := by
  cases hs : c.single p with
  | false => exact (h.list p hs).nodup
  | true => exact (h.mpsc p hs).nodup.of_map _

theorem unmarked_list (h : Inv c s ch) (hs : c.single p = false) : unmarked s (ch p) = ch p := by
  refine List.filter_eq_self.mpr fun t ht => ?_
  cases hr : s.removed t with
  | false => rfl
  | true =>
    obtain ⟨p', hp', ht'⟩ := h.marks t hr
    rw [h.one_pool ht ht', hs] at hp'
    cases hp'

theorem not_mem (h : Inv c s ch) (ht : s.inPool t = false) (p : Nat) : t ∉ ch p := by
  intro hm
  rw [(h.mem t).mpr ⟨p, hm⟩] at ht
  cases ht

theorem not_removed (h : Inv c s ch) (ht : s.inPool t = false) : s.removed t = false := by
  cases hr : s.removed t with
  | false => rfl
  | true =>
    obtain ⟨p, _, hp⟩ := h.marks t hr
    exact absurd hp (h.not_mem ht p)

/-- A unit that no pool links may be associated with any of them. -/
theorem associate (h : Inv c s ch) (ht : s.inPool t = false) (o : Option Nat) :
    Inv c { s with pool := Function.update s.pool t o } ch where
  list := h.list
  mpsc := h.mpsc
  mem := h.mem
  pool p u hu := by
    have hne : u ≠ t := fun he => h.not_mem ht p (he ▸ hu)
    exact (Function.update_of_ne hne _ _).trans (h.pool p u hu)
  marks := h.marks
  count := h.count

end Inv

theorem Holds.nodup (h : Holds c s q n) (p : Nat) : (q p).Nodup := by
  obtain ⟨ch, hi, hq⟩ := h
  rw [(hq p).1]
  exact (hi.nodup p).filter _

theorem unmarked_congr (hr : ∀ u ∈ l, s'.removed u = s.removed u) : unmarked s' l = unmarked s l :=
  List.filter_congr fun u hu => by rw [hr u hu]

/-- A step on pool `p`: the parts of the invariant that are about the other pools. -/
theorem Inv.on_pool (h : Inv c s ch)
    (hlist : ∀ p', p' ≠ p → c.single p' = false →
      Doubly s'.lprev s'.lnext (s'.lhead p') (s'.ltail p') (ch p'))
    (hmpsc : ∀ p', p' ≠ p → c.single p' = true →
      Stubbed s'.next (.stub p') (s'.head p') (s'.tail p') ((ch p').map .unit))
    (hpl : c.single p = false → Doubly s'.lprev s'.lnext (s'.lhead p) (s'.ltail p) l)
    (hpm : c.single p = true →
      Stubbed s'.next (.stub p) (s'.head p) (s'.tail p) (l.map .unit))
    (hmem : ∀ u, s'.inPool u = true ↔ u ∈ l ∨ ∃ p', p' ≠ p ∧ u ∈ ch p')
    (hpool : ∀ u ∈ l, s'.pool u = some p)
    (hpool' : ∀ p' u, p' ≠ p → u ∈ ch p' → s'.pool u = some p')
    (hrem : ∀ p', p' ≠ p → ∀ u ∈ ch p', s'.removed u = s.removed u)
    (hmarks : ∀ u, s'.removed u = true → c.single p = true ∧ u ∈ l ∨
      s.removed u = true ∧ u ∉ ch p)
    (hcount : ∀ p', p' ≠ p → s'.count p' = s.count p')
    (hcp : s'.count p = (unmarked s' l).length) : Inv c s' (Function.update ch p l) := by
  have hself : Function.update ch p l p = l := Function.update_self ..
  have hother : ∀ p', p' ≠ p → Function.update ch p l p' = ch p' := fun p' hp =>
    Function.update_of_ne hp _ _
  refine ⟨fun p' hs => ?_, fun p' hs => ?_, fun u => ?_, fun p' u hu => ?_, fun u hu => ?_,
    fun p' => ?_⟩
  · by_cases hp : p' = p
    · subst hp; rw [hself]; exact hpl hs
    · rw [hother p' hp]; exact hlist p' hp hs
  · by_cases hp : p' = p
    · subst hp; rw [hself]; exact hpm hs
    · rw [hother p' hp]; exact hmpsc p' hp hs
  · rw [hmem u]
    constructor
    · rintro (hu | ⟨p', hp, hu⟩)
      · exact ⟨p, by rwa [hself]⟩
      · exact ⟨p', by rwa [hother p' hp]⟩
    · rintro ⟨p', hu⟩
      by_cases hp : p' = p
      · rw [hp, hself] at hu; exact .inl hu
      · rw [hother p' hp] at hu; exact .inr ⟨p', hp, hu⟩
  · by_cases hp : p' = p
    · subst hp; rw [hself] at hu; exact hpool u hu
    · rw [hother p' hp] at hu; exact hpool' p' u hp hu
  · obtain ⟨hs, hl⟩ | ⟨hr, hn⟩ := hmarks u hu
    · exact ⟨p, hs, by rwa [hself]⟩
    · obtain ⟨p', hs, hp'⟩ := h.marks u hr
      have hne : p' ≠ p := fun he => hn (he ▸ hp')
      exact ⟨p', hs, by rwa [hother p' hne]⟩
  · by_cases hp : p' = p
    · subst hp; rw [hself]; exact hcp
    · rw [hother p' hp, hcount p' hp, h.count p', unmarked_congr (hrem p' hp)]

/-- Pool `p` goes from the chain `ch p` to `l` and holds `k` then. -/
theorem Holds.on_pool (hq : ∀ p, q p = unmarked s (ch p) ∧ (ch p).length ≤ n)
    (hi : Inv c s' (Function.update ch p l))
    (hrem : ∀ p', p' ≠ p → ∀ u ∈ ch p', s'.removed u = s.removed u) {m : Nat} (hm : n ≤ m)
    (hl : l.length ≤ m) : Holds c s' (Function.update q p (unmarked s' l)) m := by
  refine ⟨_, hi, fun p' => ?_⟩
  by_cases hp : p' = p
  · subst hp
    rw [Function.update_self, Function.update_self]
    exact ⟨rfl, hl⟩
  · rw [Function.update_of_ne hp, Function.update_of_ne hp, unmarked_congr (hrem p' hp)]
    exact ⟨(hq p').1, Nat.le_trans (hq p').2 hm⟩

/-! ## Push -/

theorem pushList_doubly (h : Doubly s.lprev s.lnext (s.lhead p) (s.ltail p) l) (ht : t ∉ l) :
    Doubly (s.pushList p t).lprev (s.pushList p t).lnext ((s.pushList p t).lhead p)
      ((s.pushList p t).ltail p) (l ++ [t]) := by
  have h' : Doubly (Function.update s.lprev t (s.ltail p)) (Function.update s.lnext t none)
      (s.lhead p) (s.ltail p) l :=
    h.congr (fun u hu => Function.update_of_ne (fun he : u = t => ht (he ▸ hu)) _ _)
      fun u hu => Function.update_of_ne (fun he : u = t => ht (he ▸ hu)) _ _
  have htl : (s.pushList p t).ltail p = some t := Function.update_self ..
  rw [htl]
  refine h'.snoc ht (Function.update_self ..) (Function.update_self ..) ?_ (fun z hz => ?_)
    fun hz => ?_
  · cases hz : s.ltail p with
    | none => simp [State.pushList, hz]
    | some z => simp [State.pushList, hz]
  · simp only [State.pushList, hz]
  · simp only [State.pushList, hz]

/-- The list operations of another pool do not touch this one. -/
theorem pushList_other (h : Doubly s.lprev s.lnext (s.lhead p) (s.ltail p) l) {p' : Nat}
    {l' : List Nat} (h' : Doubly s.lprev s.lnext (s.lhead p') (s.ltail p') l') (hp : p' ≠ p)
    (ht : t ∉ l') (hdis : ∀ u ∈ l, u ∉ l') :
    Doubly (s.pushList p t).lprev (s.pushList p t).lnext ((s.pushList p t).lhead p')
      ((s.pushList p t).ltail p') l' := by
  have hne : ∀ u ∈ l', u ≠ t := fun u hu he => ht (he ▸ hu)
  have hlh : (s.pushList p t).lhead p' = s.lhead p' := by
    cases hz : s.ltail p with
    | some z => simp only [State.pushList, hz]
    | none => simp only [State.pushList, hz]; exact Function.update_of_ne hp _ _
  have hlt : (s.pushList p t).ltail p' = s.ltail p' := Function.update_of_ne hp _ _
  rw [hlh, hlt]
  refine h'.congr (fun u hu => ?_) fun u hu => Function.update_of_ne (hne u hu) _ _
  cases hz : s.ltail p with
  | some z =>
    have hzl : z ∈ l := List.mem_of_getLast? (h.tail_eq.symm.trans hz)
    simp only [State.pushList, hz]
    rw [Function.update_of_ne (fun he : u = z => hdis z hzl (he ▸ hu)),
      Function.update_of_ne (hne u hu)]
  | none =>
    simp only [State.pushList, hz]
    exact Function.update_of_ne (hne u hu) _ _

theorem pushMpsc_other {p' : Nat} {w : Node} {k k' : List Nat}
    (h : Stubbed s.next (.stub p) (s.head p) (s.tail p) (k.map .unit))
    (h' : Stubbed s.next (.stub p') (s.head p') (s.tail p') (k'.map .unit)) (hp : p' ≠ p)
    (hw : w ≠ .stub p' ∧ w ∉ k'.map Node.unit) (hdis : ∀ u ∈ k, u ∉ k') :
    Stubbed (s.pushMpsc p w).next (.stub p') ((s.pushMpsc p w).head p') ((s.pushMpsc p w).tail p')
      (k'.map .unit) := by
  have htail : s.tail p ≠ .stub p' ∧ s.tail p ∉ k'.map Node.unit := by
    obtain he | he := h.tl_mem
    · rw [he]
      exact ⟨fun hc => hp (Node.stub.inj hc).symm, by simp⟩
    · obtain ⟨u, hu, he⟩ := List.mem_map.mp he
      rw [← he]
      refine ⟨by simp, fun hm => ?_⟩
      obtain ⟨v, hv, hv'⟩ := List.mem_map.mp hm
      exact hdis u hu (Node.unit.inj hv' ▸ hv)
  have ht' : (s.pushMpsc p w).tail p' = s.tail p' := Function.update_of_ne hp _ _
  rw [ht']
  refine h'.congr ?_ fun u hu => ?_
  · simp only [State.pushMpsc]
    rw [Function.update_of_ne htail.1.symm, Function.update_of_ne hw.1.symm]
  · have h1 : u ≠ s.tail p := fun he => htail.2 (he ▸ hu)
    have h2 : u ≠ w := fun he => hw.2 (he ▸ hu)
    simp only [State.pushMpsc]
    rw [Function.update_of_ne h1, Function.update_of_ne h2]

theorem pushMpsc_stubbed (h : Stubbed s.next (.stub p) (s.head p) (s.tail p) (l.map .unit))
    (ht : t ∉ l) : Stubbed (s.pushMpsc p (.unit t)).next (.stub p) ((s.pushMpsc p (.unit t)).head p)
      ((s.pushMpsc p (.unit t)).tail p) ((l ++ [t]).map .unit) := by
  have hw : Node.unit t ∉ l.map Node.unit := fun hm => by
    obtain ⟨u, hu, he⟩ := List.mem_map.mp hm
    exact ht (Node.unit.inj he ▸ hu)
  have h' : Stubbed (Function.update s.next (.unit t) none) (.stub p) (s.head p) (s.tail p)
      (l.map .unit) := h.congr (Function.update_of_ne (by simp) _ _)
    fun u hu => Function.update_of_ne (fun he : u = .unit t => hw (he ▸ hu)) _ _
  have htl : (s.pushMpsc p (.unit t)).tail p = .unit t := Function.update_self ..
  rw [List.map_append, htl]
  exact h'.append hw (by simp) (Function.update_self ..)

theorem exists_pool_iff (p : Nat) : (∃ p', t ∈ ch p') ↔ t ∈ ch p ∨ ∃ p', p' ≠ p ∧ t ∈ ch p' := by
  constructor
  · rintro ⟨p', hp'⟩
    by_cases hpp : p' = p
    · exact .inl (hpp ▸ hp')
    · exact .inr ⟨p', hpp, hp'⟩
  · rintro (hu | ⟨p', _, hp'⟩)
    · exact ⟨p, hu⟩
    · exact ⟨p', hp'⟩

theorem unmarked_snoc (ht : s.removed t = false) : unmarked s (l ++ [t]) = unmarked s l ++ [t] := by
  simp [unmarked, List.filter_append, ht]

/-- A unit that no pool links is pushed to the pool it is associated with. -/
theorem Inv.push (hi : Inv c s ch) (ht : s.inPool t = false) (hp : s.pool t = some p) :
    ∃ s', push c s p t = .ok s' ∧ Inv c s' (Function.update ch p (ch p ++ [t])) ∧
      s'.removed = s.removed := by
  have hnot := hi.not_mem ht
  have hrt := hi.not_removed ht
  have hdis : ∀ p', p' ≠ p → ∀ u ∈ ch p, u ∉ ch p' := fun p' hne u hu hu' =>
    hne (hi.one_pool hu hu')
  let s₁ := s.setInPool t true
  let s₂ := if c.single p then s₁.pushMpsc p (.unit t) else s₁.pushList p t
  have hrem : (s₂.addCount p 1).removed = s.removed := by
    show s₂.removed = s.removed
    simp only [s₂]; split <;> rfl
  have hunm : unmarked (s₂.addCount p 1) (ch p ++ [t]) = unmarked s (ch p) ++ [t] := by
    rw [← unmarked_snoc hrt]
    exact unmarked_congr fun u _ => by rw [hrem]
  have hin : (s₂.addCount p 1).inPool = Function.update s.inPool t true := by
    show s₂.inPool = _
    simp only [s₂]; split <;> rfl
  have hpl : (s₂.addCount p 1).pool = s.pool := by
    show s₂.pool = _
    simp only [s₂]; split <;> rfl
  have hcnt : (s₂.addCount p 1).count = Function.update s.count p (s.count p + 1) := by
    have : s₂.count = s.count := by simp only [s₂]; split <;> rfl
    simp only [State.addCount, this]
  refine ⟨s₂.addCount p 1, ?_, ?_, hrem⟩
  · simp only [Storage.push, ht, Bool.false_eq_true, if_false]
    rfl
  refine hi.on_pool (fun p' hne hs' => ?_) (fun p' hne hs' => ?_) (fun hs => ?_) (fun hs => ?_)
    (fun u => ?_) (fun u hu => ?_) (fun p' u hne hu => ?_) (fun p' _ u _ => by rw [hrem])
    (fun u hu => ?_) (fun p' hne => ?_) ?_
  · show Doubly s₂.lprev s₂.lnext (s₂.lhead p') (s₂.ltail p') (ch p')
    cases hs : c.single p with
    | true =>
      simp only [s₂, hs, if_true]
      exact hi.list p' hs'
    | false =>
      simp only [s₂, hs, Bool.false_eq_true, if_false]
      exact pushList_other (s := s₁) (hi.list p hs) (hi.list p' hs') hne (hnot p') (hdis p' hne)
  · show Stubbed s₂.next (.stub p') (s₂.head p') (s₂.tail p') ((ch p').map .unit)
    cases hs : c.single p with
    | true =>
      simp only [s₂, hs, if_true]
      refine pushMpsc_other (s := s₁) (hi.mpsc p hs) (hi.mpsc p' hs') hne ⟨by simp, fun hm => ?_⟩
        (hdis p' hne)
      obtain ⟨u, hu, he⟩ := List.mem_map.mp hm
      exact hnot p' (Node.unit.inj he ▸ hu)
    | false =>
      simp only [s₂, hs, Bool.false_eq_true, if_false]
      exact hi.mpsc p' hs'
  · show Doubly s₂.lprev s₂.lnext (s₂.lhead p) (s₂.ltail p) (ch p ++ [t])
    simp only [s₂, hs, Bool.false_eq_true, if_false]
    exact pushList_doubly (s := s₁) (hi.list p hs) (hnot p)
  · show Stubbed s₂.next (.stub p) (s₂.head p) (s₂.tail p) ((ch p ++ [t]).map .unit)
    simp only [s₂, hs, if_true]
    exact pushMpsc_stubbed (s := s₁) (hi.mpsc p hs) (hnot p)
  · rw [hin, Function.update_apply]
    split
    · rename_i hu
      simp [hu]
    · rename_i hu
      rw [hi.mem u]
      simp only [List.mem_append, List.mem_singleton, hu, or_false]
      exact exists_pool_iff p
  · rw [hpl]
    obtain hu | hu := List.mem_append.mp hu
    · exact hi.pool p u hu
    · rw [List.mem_singleton.mp hu]; exact hp
  · rw [hpl]; exact hi.pool p' u hu
  · rw [hrem] at hu
    obtain ⟨p', hs', hu'⟩ := hi.marks u hu
    by_cases hpp : p' = p
    · exact .inl ⟨hpp ▸ hs', List.mem_append_left _ (hpp ▸ hu')⟩
    · exact .inr ⟨hu, fun hc => hpp (hi.one_pool hc hu')⟩
  · rw [hcnt, Function.update_of_ne hne]
  · rw [hcnt, Function.update_self, hi.count p, hunm]
    simp

theorem push_spec (h : Holds c s q n) (ht : s.inPool t = false) (hp : s.pool t = some p) :
    ∃ s', push c s p t = .ok s' ∧ Holds c s' (Function.update q p (q p ++ [t])) (n + 1) := by
  obtain ⟨ch, hi, hq⟩ := h
  obtain ⟨s', hs', hi', hrem⟩ := hi.push ht hp
  refine ⟨s', hs', ?_⟩
  have hlen := (hq p).2
  have hh := Holds.on_pool (m := n + 1) hq hi' (fun p' _ u _ => by rw [hrem]) (by omega)
    (by rw [List.length_append, List.length_singleton]; omega)
  rw [unmarked_congr (s := s) fun u _ => by rw [hrem], unmarked_snoc (hi.not_removed ht),
    ← (hq p).1] at hh
  exact hh

/-! ## The list path -/

theorem listUnlink_eq (s : State) (p t : Nat) : s.listUnlink p t = { s with
    lnext := Function.update (match s.lprev t with
      | some u => Function.update s.lnext u (s.lnext t)
      | none => s.lnext) t none
    lhead := match s.lprev t with
      | some _ => s.lhead
      | none => Function.update s.lhead p (s.lnext t)
    lprev := Function.update (match s.lnext t with
      | some v => Function.update s.lprev v (s.lprev t)
      | none => s.lprev) t none
    ltail := match s.lnext t with
      | some _ => s.ltail
      | none => Function.update s.ltail p (s.lprev t) } := by
  cases hp : s.lprev t with
  | none => cases hn : s.lnext t <;> simp only [State.listUnlink, hp, hn]
  | some u =>
    -- a unit that is its own neighbour would not change the field read next
    have he : Function.update s.lnext u (s.lnext t) t = s.lnext t := by
      by_cases hu : t = u
      · rw [hu, Function.update_self]
      · rw [Function.update_of_ne hu]
    cases hn : s.lnext t <;> rw [hn] at he <;> simp only [State.listUnlink, hp, hn, he]

theorem listUnlink_doubly
    (h : Doubly s.lprev s.lnext (s.lhead p) (s.ltail p) (l₁ ++ t :: l₂)) :
    Doubly (s.listUnlink p t).lprev (s.listUnlink p t).lnext ((s.listUnlink p t).lhead p)
      ((s.listUnlink p t).ltail p) (l₁ ++ l₂) := by
  have ht : t ∉ l₁ ++ l₂ := by
    have hnd := h.nodup
    rw [List.nodup_append] at hnd
    rw [List.mem_append, not_or]
    exact ⟨fun hm => hnd.2.2 t hm t (List.mem_cons_self ..) rfl, (List.nodup_cons.mp hnd.2.1).1⟩
  have hne : ∀ u ∈ l₁ ++ l₂, u ≠ t := fun u hu he => ht (he ▸ hu)
  rw [listUnlink_eq]
  refine Doubly.congr (Doubly.unlink h ?_ (fun u hu => ?_) (fun hu => ?_) ?_ (fun v hv => ?_)
    fun hv => ?_) (fun u hu => Function.update_of_ne (hne u hu) _ _)
    fun u hu => Function.update_of_ne (hne u hu) _ _
  · cases hp : s.lprev t <;> simp
  · simp only [hu]
  · simp only [hu]
  · cases hn : s.lnext t <;> simp
  · simp only [hv]
  · simp only [hv]

theorem listUnlink_other (h : Doubly s.lprev s.lnext (s.lhead p) (s.ltail p) (l₁ ++ t :: l₂))
    {p' : Nat} (h' : Doubly s.lprev s.lnext (s.lhead p') (s.ltail p') l) (hp : p' ≠ p)
    (hdis : ∀ u ∈ l₁ ++ t :: l₂, u ∉ l) :
    Doubly (s.listUnlink p t).lprev (s.listUnlink p t).lnext ((s.listUnlink p t).lhead p')
      ((s.listUnlink p t).ltail p') l := by
  have hne : ∀ u ∈ l, u ≠ t := fun u hu he => hdis t (by simp) (he ▸ hu)
  have hprev : ∀ u, s.lprev t = some u → ∀ v ∈ l, v ≠ u := by
    intro u hu v hv he
    rw [h.prev_eq] at hu
    exact hdis u (List.mem_append_left _ (List.mem_of_getLast? hu)) (he ▸ hv)
  have hnext : ∀ u, s.lnext t = some u → ∀ v ∈ l, v ≠ u := by
    intro u hu v hv he
    rw [h.next_eq] at hu
    exact hdis u (List.mem_append_right _ (List.mem_cons_of_mem _ (List.mem_of_head? hu))) (he ▸ hv)
  rw [listUnlink_eq]
  have hlh : (match s.lprev t with
      | some _ => s.lhead
      | none => Function.update s.lhead p (s.lnext t)) p' = s.lhead p' := by
    cases s.lprev t with
    | some u => rfl
    | none => exact Function.update_of_ne hp _ _
  have hlt : (match s.lnext t with
      | some _ => s.ltail
      | none => Function.update s.ltail p (s.lprev t)) p' = s.ltail p' := by
    cases s.lnext t with
    | some u => rfl
    | none => exact Function.update_of_ne hp _ _
  simp only [hlh, hlt]
  refine h'.congr (fun u hu => ?_) fun u hu => ?_
  · rw [Function.update_of_ne (hne u hu)]
    cases hv : s.lprev t with
    | some v => exact Function.update_of_ne (hprev v hv u hu) _ _
    | none => rfl
  · rw [Function.update_of_ne (hne u hu)]
    cases hv : s.lnext t with
    | some v => exact Function.update_of_ne (hnext v hv u hu) _ _
    | none => rfl

/-- `list_unlink` and what its callers do with the unit. -/
theorem Inv.unlink (hi : Inv c s ch) (hs : c.single p = false) (hch : ch p = l₁ ++ t :: l₂) :
    Inv c (((s.listUnlink p t).setInPool t false).addCount p (-1))
      (Function.update ch p (l₁ ++ l₂)) := by
  have hd := hi.list p hs
  rw [hch] at hd
  have hnd := hd.nodup
  have hmem : ∀ u, u ∈ ch p ↔ u = t ∨ u ∈ l₁ ++ l₂ := by
    intro u
    rw [hch]
    simp only [List.mem_append, List.mem_cons]
    constructor
    · rintro (h | h | h)
      · exact .inr (.inl h)
      · exact .inl h
      · exact .inr (.inr h)
    · rintro (h | h | h)
      · exact .inr (.inl h)
      · exact .inl h
      · exact .inr (.inr h)
  have ht : t ∉ l₁ ++ l₂ := by
    rw [List.nodup_append] at hnd
    rw [List.mem_append, not_or]
    exact ⟨fun hm => hnd.2.2 t hm t (List.mem_cons_self ..) rfl, (List.nodup_cons.mp hnd.2.1).1⟩
  have hdis : ∀ p', p' ≠ p → ∀ u ∈ l₁ ++ t :: l₂, u ∉ ch p' := fun p' hne u hu hu' =>
    hne (hi.one_pool (hch ▸ hu) hu')
  have hst : s.listUnlink p t = { s with
      lnext := (s.listUnlink p t).lnext, lhead := (s.listUnlink p t).lhead
      lprev := (s.listUnlink p t).lprev, ltail := (s.listUnlink p t).ltail } := by
    rw [listUnlink_eq]
  have hrem : (s.listUnlink p t).removed = s.removed := by rw [hst]
  have hnorem : ∀ u ∈ ch p, s.removed u = false := by
    intro u hu
    have := List.filter_eq_self.mp (hi.unmarked_list hs) u hu
    simpa using this
  refine hi.on_pool (fun p' hne hs' => listUnlink_other hd (hi.list p' hs') hne (hdis p' hne))
    (fun p' hne hs' => ?_) (fun _ => listUnlink_doubly hd) (fun hs' => ?_) (fun u => ?_)
    (fun u hu => ?_) (fun p' u hne hu => ?_) (fun p' hne u hu => ?_) (fun u hu => ?_)
    (fun p' hne => ?_) ?_
  · rw [hst]; exact hi.mpsc p' hs'
  · rw [hs] at hs'; cases hs'
  · show Function.update (s.listUnlink p t).inPool t false u = true ↔ _
    rw [hst, Function.update_apply]
    split
    · rename_i hu
      subst hu
      refine iff_of_false (by simp) ?_
      rintro (hu | ⟨p', hne, hu⟩)
      · exact ht hu
      · exact hdis p' hne u (by simp) hu
    · rename_i hu
      rw [hi.mem u, exists_pool_iff p, hmem u, or_iff_right hu]
  · show (s.listUnlink p t).pool u = some p
    rw [hst]
    exact hi.pool p u ((hmem u).mpr (.inr hu))
  · show (s.listUnlink p t).pool u = some p'
    rw [hst]
    exact hi.pool p' u hu
  · exact congrFun hrem u
  · have hu : s.removed u = true := hrem ▸ hu
    refine .inr ⟨hu, fun hm => ?_⟩
    rw [hnorem u hm] at hu
    cases hu
  · show Function.update (s.listUnlink p t).count p _ p' = _
    rw [Function.update_of_ne hne, hst]
  · show Function.update (s.listUnlink p t).count p _ p = _
    have hun : unmarked (((s.listUnlink p t).setInPool t false).addCount p (-1)) (l₁ ++ l₂) =
        l₁ ++ l₂ := by
      refine List.filter_eq_self.mpr fun u hu => ?_
      show (!(s.listUnlink p t).removed u) = true
      rw [hrem, hnorem u ((hmem u).mpr (.inr hu))]
      rfl
    rw [Function.update_self, hun]
    show (s.listUnlink p t).count p + -1 = _
    rw [hst]
    show s.count p + -1 = _
    rw [hi.count p, hi.unmarked_list hs, hch]
    simp only [List.length_append, List.length_cons]
    omega

/-! ## Pop -/

/-- What `pop_list` takes from a queue: it steps over a pinned unit at the front. -/
def takeList (pinned : Nat → Bool) : List Nat → List Nat × Option Nat
  | [] => ([], none)
  | t :: l =>
    if pinned t then
      match l with
      | [] => ([t], none)
      | u :: l => (t :: l, some u)
    else (l, some t)

/-- What `pop_mpsc` takes from a queue: it puts a pinned unit at the front back to the end. -/
def takeMpsc (pinned : Nat → Bool) : List Nat → List Nat × Option Nat
  | [] => ([], none)
  | t :: l => if pinned t then (l ++ [t], none) else (l, some t)

def take (c : Config) (pinned : Nat → Bool) (p : Nat) (l : List Nat) : List Nat × Option Nat :=
  if c.single p then takeMpsc pinned l else takeList pinned l

theorem Inv.popList (hi : Inv c s ch) (hs : c.single p = false) (pinned : Nat → Bool) :
    ∃ s', popList pinned s p = (s', (takeList pinned (ch p)).2) ∧
      Inv c s' (Function.update ch p (takeList pinned (ch p)).1) ∧ s'.removed = s.removed := by
  have hd := hi.list p hs
  have hhd := hd.head_eq
  have hrem : ∀ u, (s.listUnlink p u).removed = s.removed := fun u => by rw [listUnlink_eq]
  have hsame : ∀ l, ch p = l → Function.update ch p l = ch := by
    rintro _ rfl; exact Function.update_eq_self ..
  cases hl : ch p with
  | nil =>
    rw [hl] at hhd
    refine ⟨s, ?_, ?_, rfl⟩
    · simp only [Storage.popList, hhd, List.head?_nil, takeList]
    · simp only [takeList]; rw [hsame _ hl]; exact hi
  | cons t l =>
    rw [hl] at hhd
    have hfirst : ch p = [] ++ t :: l := hl
    have hnext : s.lnext t = l.head? := Doubly.next_eq (hfirst ▸ hd)
    cases hpin : pinned t with
    | false =>
      refine ⟨((s.listUnlink p t).setInPool t false).addCount p (-1), ?_, ?_, ?_⟩
      · simp only [Storage.popList, hhd, List.head?_cons, hpin, Bool.false_eq_true, if_false,
          takeList]
      · simp only [takeList, hpin, Bool.false_eq_true, if_false]
        exact hi.unlink hs hfirst
      · exact hrem t
    | true =>
      cases l with
      | nil =>
        refine ⟨s, ?_, ?_, rfl⟩
        · simp only [Storage.popList, hhd, List.head?_cons, hpin, if_true, hnext, List.head?_nil,
            takeList]
        · simp only [takeList, hpin, if_true]; rw [hsame _ hl]; exact hi
      | cons u l =>
        refine ⟨((s.listUnlink p u).setInPool u false).addCount p (-1), ?_, ?_, ?_⟩
        · simp only [Storage.popList, hhd, List.head?_cons, hpin, if_true, hnext, takeList]
        · simp only [takeList, hpin, if_true]
          have hsecond : ch p = [t] ++ u :: l := hl
          exact hi.unlink hs hsecond
        · exact hrem u

/-- The first node of pool `p` is off the chain and the head at `v`; its unit is still marked as the
pool's. -/
structure Detached (c : Config) (s s' : State) (ch : Nat → List Nat) (p : Nat) (l : List Nat)
    (v : Node) : Prop where
  chain : Stubbed s'.next (.stub p) v (s'.tail p) (l.map .unit)
  others : ∀ p', p' ≠ p → c.single p' = true →
    Stubbed s'.next (.stub p') (s'.head p') (s'.tail p') ((ch p').map .unit)
  same : s' = { s with next := s'.next, head := s'.head, tail := s'.tail }

theorem Inv.firstNode (hi : Inv c s ch) (hs : c.single p = true) (hch : ch p = t :: l) :
    ∃ hd, firstNode s p = ({ s with head := hd }, some (.unit t)) ∧ hd p = .unit t ∧
      (∀ p', p' ≠ p → hd p' = s.head p') := by
  have hst := hi.mpsc p hs
  by_cases hh : s.head p = .stub p
  · rw [hh] at hst
    have hn := hst.next_stub
    rw [hch] at hn
    refine ⟨Function.update s.head p (.unit t), ?_, Function.update_self .., fun p' hp =>
      Function.update_of_ne hp _ _⟩
    simp only [Storage.firstNode, hh, if_true, hn, List.map_cons, List.head?_cons]
  · obtain ⟨l', hl', _⟩ := hst.hd_cons hh
    rw [hch, List.map_cons] at hl'
    have hhead : s.head p = .unit t := (List.cons.inj hl').1.symm
    refine ⟨s.head, ?_, hhead, fun _ _ => rfl⟩
    simp only [Storage.firstNode, hh, if_false]
    rw [hhead]

/-- The chain once the head is past the stub. -/
theorem Inv.entered (hi : Inv c s ch) (hs : c.single p = true) (hch : ch p = t :: l) :
    Stubbed s.next (.stub p) (.unit t) (s.tail p) (.unit t :: l.map .unit) := by
  have hst := hi.mpsc p hs
  by_cases hh : s.head p = .stub p
  · rw [hh] at hst
    have hn := hst.next_stub
    rw [hch] at hn
    have := hst.enter hn
    rwa [hch] at this
  · obtain ⟨l', hl', _⟩ := hst.hd_cons hh
    rw [hch, List.map_cons] at hl'
    have hhead : s.head p = .unit t := (List.cons.inj hl').1.symm
    rwa [hhead, hch] at hst

theorem Inv.detach (hi : Inv c s ch) (hs : c.single p = true) (hch : ch p = t :: l) :
    ∃ s₁ s₂ v, Storage.firstNode s p = (s₁, some (.unit t)) ∧
      successor s₁ p (.unit t) = (s₂, some v) ∧ Detached c s s₂ ch p l v := by
  obtain ⟨hd, hf, hdp, hdo⟩ := hi.firstNode hs hch
  have hst := hi.entered hs hch
  obtain ⟨l', hl', hnext, hlast⟩ := hst.hd_cons (by simp)
  obtain rfl : l' = l.map .unit := (List.cons.inj hl').2.symm
  have hdis : ∀ p', p' ≠ p → ∀ u ∈ ch p, u ∉ ch p' := fun p' hne u hu hu' =>
    hne (hi.one_pool hu hu')
  have hothers : ∀ p', p' ≠ p → c.single p' = true →
      Stubbed s.next (.stub p') (hd p') (s.tail p') ((ch p').map .unit) := fun p' hne hs' => by
    rw [hdo p' hne]; exact hi.mpsc p' hs'
  cases l with
  | cons u l =>
    refine ⟨_, { s with head := hd }, .unit u, hf, ?_, ?_, hothers, rfl⟩
    · simp only [Storage.successor, hnext, List.map_cons, List.head?_cons]
    · exact hst.take hnext
  | nil =>
    have htail : s.tail p = .unit t := (Option.some.inj hlast).symm
    let s₁ : State := { s with head := hd }
    refine ⟨s₁, s₁.pushMpsc p (.stub p), .stub p, hf, ?_, ?_, fun p' hne hs' => ?_, rfl⟩
    · have hn : s₁.next (.unit t) = none := hnext
      have ht : s₁.tail p = .unit t := htail
      simp only [Storage.successor, hn, ht, ne_eq, not_true_eq_false, if_false]
      simp [State.pushMpsc, ht]
    · have ht' : (s₁.pushMpsc p (.stub p)).tail p = .stub p := Function.update_self ..
      have hn' : (s₁.pushMpsc p (.stub p)).next =
          Function.update (Function.update s.next (.stub p) none) (.unit t) (some (.stub p)) := by
        simp only [State.pushMpsc, s₁, htail]
      rw [ht', hn']
      exact Stubbed.restub (Function.update_self ..) (by simp)
    · have hstub : Node.stub p ≠ .stub p' ∧ Node.stub p ∉ (ch p').map Node.unit :=
        ⟨fun he => hne (Node.stub.inj he).symm, by simp⟩
      have h0 : Stubbed s₁.next (.stub p) (s₁.head p) (s₁.tail p) ([t].map .unit) := by
        rw [show s₁.head p = .unit t from hdp]; exact hst
      exact pushMpsc_other (s := s₁) h0 (hothers p' hne hs') hne hstub
        fun u hu => hdis p' hne u (hch ▸ hu)

/-- The unit of the node is taken off the pool. -/
theorem Detached.inv (h : Detached c s s' ch p l v) (hi : Inv c s ch) (hs : c.single p = true)
    (hch : ch p = t :: l) {r : State}
    (hr : r = { s' with
      head := Function.update s'.head p v
      inPool := Function.update s.inPool t false
      removed := Function.update s.removed t false
      count := Function.update s.count p (s.count p - if s.removed t then 0 else 1) }) :
    Inv c r (Function.update ch p l) := by
  obtain ⟨hchain, hothers, hsame⟩ := h
  have hnd := hi.nodup p
  rw [hch] at hnd
  have ht : t ∉ l := (List.nodup_cons.mp hnd).1
  have hmem : ∀ u, u ∈ ch p ↔ u = t ∨ u ∈ l := fun u => by rw [hch, List.mem_cons]
  have htp : t ∈ ch p := (hmem t).mpr (.inl rfl)
  have hdis : ∀ p', p' ≠ p → t ∉ ch p' := fun p' hne hu => hne (hi.one_pool htp hu)
  have hsr : ∀ {A : Type} (f : State → A), f s' = f { s with
      next := s'.next, head := s'.head, tail := s'.tail } := fun f => congrArg f hsame
  subst hr
  refine hi.on_pool (fun p' _ hs' => ?_) (fun p' hne hs' => ?_) (fun hs' => ?_) (fun _ => ?_)
    (fun u => ?_) (fun u hu => ?_) (fun p' u hne hu => ?_) (fun p' hne u hu => ?_) (fun u hu => ?_)
    (fun p' hne => ?_) ?_
  · show Doubly s'.lprev s'.lnext (s'.lhead p') (s'.ltail p') (ch p')
    rw [hsr State.lprev, hsr State.lnext, hsr State.lhead, hsr State.ltail]
    exact hi.list p' hs'
  · show Stubbed s'.next (.stub p') (Function.update s'.head p v p') (s'.tail p') _
    rw [Function.update_of_ne hne]
    exact hothers p' hne hs'
  · rw [hs] at hs'; cases hs'
  · show Stubbed s'.next (.stub p) (Function.update s'.head p v p) (s'.tail p) _
    rw [Function.update_self]
    exact hchain
  · show Function.update s.inPool t false u = true ↔ _
    rw [Function.update_apply]
    split
    · rename_i hu
      subst hu
      refine iff_of_false (by simp) ?_
      rintro (hu | ⟨p', hne, hu⟩)
      · exact ht hu
      · exact hdis p' hne hu
    · rename_i hu
      rw [hi.mem u, exists_pool_iff p, hmem u, or_iff_right hu]
  · show s'.pool u = some p
    rw [hsr State.pool]
    exact hi.pool p u ((hmem u).mpr (.inr hu))
  · show s'.pool u = some p'
    rw [hsr State.pool]
    exact hi.pool p' u hu
  · show Function.update s.removed t false u = s.removed u
    exact Function.update_of_ne (fun he : u = t => hdis p' hne (he ▸ hu)) _ _
  · have hu : Function.update s.removed t false u = true := hu
    rw [Function.update_apply] at hu
    split at hu
    · cases hu
    · rename_i hut
      by_cases hul : u ∈ l
      · exact .inl ⟨hs, hul⟩
      · refine .inr ⟨hu, fun hm => ?_⟩
        exact ((hmem u).mp hm).elim hut hul
  · exact Function.update_of_ne hne _ _
  · show Function.update s.count p _ p = _
    have hun : ∀ r : State, r.removed = Function.update s.removed t false →
        unmarked r l = unmarked s l := fun r hr => unmarked_congr fun u hu => by
      rw [hr]; exact Function.update_of_ne (fun he : u = t => ht (he ▸ hu)) _ _
    rw [Function.update_self, hun _ rfl, hi.count p, hch]
    cases hr : s.removed t <;> simp [unmarked, hr]

theorem unmarked_cons (t : Nat) (l : List Nat) :
    unmarked s (t :: l) = if s.removed t then unmarked s l else t :: unmarked s l := by
  cases hr : s.removed t <;> simp [unmarked, hr]

theorem Inv.popMpsc {fuel : Nat} (pinned : Nat → Bool) (hi : Inv c s ch) (hs : c.single p = true)
    (hf : (ch p).length < fuel) :
    ∃ s' l', popMpsc c pinned fuel s p = .ok (s', (takeMpsc pinned (unmarked s (ch p))).2) ∧
      Inv c s' (Function.update ch p l') ∧
      unmarked s' l' = (takeMpsc pinned (unmarked s (ch p))).1 ∧ l'.length ≤ (ch p).length ∧
      ∀ p', p' ≠ p → ∀ u ∈ ch p', s'.removed u = s.removed u := by
  -- one turn of the loop for every marked unit at the front
  induction fuel generalizing s ch with
  | zero => omega
  | succ m ih =>
    cases hch : ch p with
    | nil =>
      have hst := hi.mpsc p hs
      rw [hch] at hst
      have hh : s.head p = .stub p := by
        by_contra hne
        obtain ⟨l', hl', _⟩ := hst.hd_cons hne
        cases hl'
      rw [hh] at hst
      have hn := hst.next_stub
      refine ⟨s, [], ?_, ?_, rfl, by simp, fun _ _ _ _ => rfl⟩
      · simp only [Storage.popMpsc, Storage.firstNode, hh, if_true, hn, List.map_nil,
          List.head?_nil, unmarked, List.filter_nil, takeMpsc]
      · rw [← hch, Function.update_eq_self]; exact hi
    | cons t l =>
      obtain ⟨s₁, s₂, v, hf₁, hf₂, hdet⟩ := hi.detach hs hch
      have hrem : s₂.removed = s.removed := by rw [hdet.same]
      have hin : s₂.inPool = s.inPool := by rw [hdet.same]
      have hcnt : s₂.count = s.count := by rw [hdet.same]
      have hpl : s₂.pool = s.pool := by rw [hdet.same]
      have hnd := hi.nodup p
      rw [hch] at hnd
      have ht : t ∉ l := (List.nodup_cons.mp hnd).1
      have htp : t ∈ ch p := by rw [hch]; exact List.mem_cons_self ..
      have hdis : ∀ p', p' ≠ p → ∀ u ∈ ch p', u ≠ t := fun p' hne u hu he =>
        hne (hi.one_pool htp (he ▸ hu))
      rw [hch] at hf
      rw [unmarked_cons]
      cases hrt : s.removed t with
      | true =>
        -- `ABT_pool_remove` has marked it: discarded
        let r : State := ({ s₂ with head := Function.update s₂.head p v }.setInPool t false).setRemoved
          t false
        have hi' : Inv c r (Function.update ch p l) := by
          refine hdet.inv hi hs hch ?_
          have hc : Function.update s.count p (s.count p - if s.removed t then 0 else 1) =
              s.count := by
            rw [hrt, if_pos rfl, Int.sub_zero, Function.update_eq_self]
          rw [hc, ← hin, ← hrem, ← hcnt]
          rfl
        have hr : r.removed = Function.update s.removed t false := by
          rw [← hrem]; rfl
        have hl : Function.update ch p l p = l := Function.update_self ..
        obtain ⟨s', l', hpop, hinv, hun, hlen, hother⟩ := ih hi'
          (by rw [hl]; simp only [List.length_cons] at hf; omega)
        have hunm : unmarked r l = unmarked s l := unmarked_congr fun u hu => by
          rw [hr]; exact Function.update_of_ne (fun he : u = t => ht (he ▸ hu)) _ _
        rw [hl, hunm] at hpop hun
        rw [Function.update_idem] at hinv
        rw [hl] at hlen
        refine ⟨s', l', ?_, hinv, ?_, ?_, fun p' hne u hu => ?_⟩
        · have hrt₂ : s₂.removed t = true := by rw [hrem]; exact hrt
          simp only [Storage.popMpsc, hf₁, hf₂, State.setInPool, hrt₂, if_true]
          exact hpop
        · rw [if_pos rfl]; exact hun
        · rw [List.length_cons]; omega
        · have hu' := hother p' hne u (by rw [Function.update_of_ne hne]; exact hu)
          rw [hu', hr]
          exact Function.update_of_ne (hdis p' hne u hu) _ _
      | false =>
        let r : State := ({ s₂ with head := Function.update s₂.head p v }.setInPool t false).addCount
          p (-1)
        have hi' : Inv c r (Function.update ch p l) := by
          refine hdet.inv hi hs hch ?_
          have hre : Function.update s.removed t false = s.removed := by
            rw [← hrt, Function.update_eq_self]
          rw [hre, hrt, ← hin, ← hcnt]
          simp only [Bool.false_eq_true, if_false, r, State.addCount, State.setInPool, ← hrem]
          rfl
        have hr : r.removed = s.removed := hrem
        have hl : Function.update ch p l p = l := Function.update_self ..
        have hrt₂ : s₂.removed t = false := by rw [hrem]; exact hrt
        have hunm : ∀ r' : State, r'.removed = s.removed → unmarked r' l = unmarked s l :=
          fun r' hr' => unmarked_congr fun u _ => by rw [hr']
        cases hpin : pinned t with
        | false =>
          refine ⟨r, l, ?_, hi', ?_, by simp, fun p' _ u _ => by rw [hr]⟩
          · simp only [Storage.popMpsc, hf₁, hf₂, State.setInPool, hrt₂, hpin, takeMpsc,
              Bool.false_eq_true, if_false]
            rfl
          · simp only [takeMpsc, hpin, Bool.false_eq_true, if_false]
            exact hunm r hr
        | true =>
          have hin' : r.inPool t = false := Function.update_self ..
          have hpool : r.pool t = some p := by
            show s₂.pool t = some p
            rw [hpl]
            exact hi.pool p t htp
          obtain ⟨s', hs', hinv, hrem'⟩ := hi'.push hin' hpool
          rw [hl, Function.update_idem] at hinv
          refine ⟨s', l ++ [t], ?_, hinv, ?_, by simp, fun p' _ u _ => by rw [hrem', hr]⟩
          · have hpush : Storage.push c r p t = .ok s' := hs'
            simp only [Storage.popMpsc, hf₁, hf₂, State.setInPool, hrt₂, hpin, takeMpsc,
              Bool.false_eq_true, if_false, if_true]
            show (Storage.push c r p t).map _ = _
            rw [hpush]
            rfl
          · simp only [takeMpsc, hpin, Bool.false_eq_true, if_false, if_true]
            rw [unmarked_snoc (by rw [hrem', hr]; exact hrt), hunm s' (hrem'.trans hr)]

/-- A pop returns, and takes from the queue what its path takes. -/
theorem pop_spec (h : Holds c s q n) {fuel : Nat} (hf : n < fuel) (pinned : Nat → Bool) (p : Nat) :
    ∃ s', pop c pinned fuel s p = .ok (s', (take c pinned p (q p)).2) ∧
      Holds c s' (Function.update q p (take c pinned p (q p)).1) n := by
  obtain ⟨ch, hi, hq⟩ := h
  cases hs : c.single p with
  | true =>
    obtain ⟨s', l', hpop, hinv, hun, hlen, hother⟩ := hi.popMpsc pinned hs
      (Nat.lt_of_le_of_lt (hq p).2 hf)
    simp only [pop, take, hs, if_true]
    rw [(hq p).1, ← hun]
    exact ⟨s', hpop, Holds.on_pool hq hinv hother (Nat.le_refl n) (Nat.le_trans hlen (hq p).2)⟩
  | false =>
    obtain ⟨s', hpop, hinv, hrem⟩ := hi.popList hs pinned
    have hun : unmarked s (ch p) = ch p := hi.unmarked_list hs
    have hlen : (takeList pinned (ch p)).1.length ≤ (ch p).length := by
      cases hch : ch p with
      | nil => simp [takeList]
      | cons t l => cases hpin : pinned t <;> cases l <;> simp [takeList, hpin]
    simp only [pop, take, hs, Bool.false_eq_true, if_false]
    rw [(hq p).1, hun]
    refine ⟨s', by rw [hpop], ?_⟩
    have hh := Holds.on_pool hq hinv (fun p' _ u _ => by rw [hrem]) (Nat.le_refl n)
      (Nat.le_trans hlen (hq p).2)
    have hun' := hinv.unmarked_list hs
    rw [Function.update_self] at hun'
    rwa [hun'] at hh

end

end Storage
end AbtReconverse
