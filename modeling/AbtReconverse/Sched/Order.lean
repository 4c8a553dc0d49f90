import AbtReconverse.Sched.Ready

/-!
# AbtReconverse.Sched.Order

Strict pool order: the PE dispatches a unit of a pool only while the pools before it have no ready
unit. `ABTI_poll_sched` keeps it (`pollSched_order`). The direct switch of `ABTI_choose_fn` chooses
before the suspended unit's own action has happened, and allows for it only in `ABT_thread_yield`:
the `CthYield` of a timed wait (`timed_overtaken`), a pending migration (`migrate_overtaken`) and the
joiners of a terminating ULT (`joiner_overtaken`) are overtaken by units of later pools.
`strict_order`: it holds wherever the pools that a suspension pushes to are covered by what is
already queued.
-/

namespace AbtReconverse
namespace Direct

open Lts

variable {Q : Type} {c : Sched Q} {s s' : State Q} {u t p : Nat}

inductive Act where
  | act (d : Do)
  | suspend (k : Stop)
  deriving DecidableEq, Repr

/-- Every program: at any time the running unit may act or suspend in any way. -/
def system (c : Sched Q) (K : Nat) (k : Kind) (p : Nat) : System (State Q) Act where
  init s := s = initial c k p
  step s
    | .act d => some (act c s d)
    | .suspend k => suspend c K s k

/-- The unit just dispatched is of the first pool with a ready unit. -/
def StrictOrder (c : Sched Q) (s : State Q) : Prop :=
  ∀ u, s.life u = .ready → c.pools.idxOf (s.pool s.cur) ≤ c.pools.idxOf (s.pool u)

/-- The pools that the suspension pushes to. -/
def released (s : State Q) : Stop → List Nat
  | .yield | .timedYield => [s.target s.cur]
  | .exit => ((s.joiners s.cur).filter fun w => s.life w = .blocked).map s.target
  | _ => []

/-- A pool at or before `p` has a unit, or no pool has one. -/
def Covered (c : Sched Q) (s : State Q) (p : Nat) : Prop :=
  (∃ p' ∈ c.pools, c.pools.idxOf p' ≤ c.pools.idxOf p ∧ (c.ops p').units (s.q p') ≠ []) ∨
    ∀ p' ∈ c.pools, (c.ops p').units (s.q p') = []

/-- A ULT that may switch directly suspends by `ABT_thread_yield` with no migration pending, or
the pools its suspension pushes to are covered. -/
def Foreseen (c : Sched Q) (K : Nat) (s : State Q) : Act → Prop
  | .act _ => True
  | .suspend k => s.kind s.cur = .ult → s.held = none → s.direct < K →
      (k = .yield ∧ s.migrate s.cur = none) ∨ ∀ p ∈ released s k, Covered c s p

instance (c : Sched Q) (s : State Q) (p : Nat) : Decidable (Covered c s p) := by
  unfold Covered; infer_instance

instance (c : Sched Q) (K : Nat) (s : State Q) (a : Act) : Decidable (Foreseen c K s a) := by
  unfold Foreseen; split <;> infer_instance

/-- A parked unit is dispatched when the pools before its own are empty. -/
theorem unpark_order (hw : Wf c s) (hh : s.held = some t)
    (hempty : ∀ p ∈ c.pools, c.pools.idxOf p < c.pools.idxOf (s.pool t) →
      (c.ops p).units (s.q p) = []) : StrictOrder c ((s.setHeld none).dispatch t) := by
  intro u hu
  simp only [State.dispatch, State.setHeld, Function.update_apply] at hu ⊢
  split at hu
  · cases hu
  · rename_i hne
    by_contra hlt
    rw [Nat.not_le] at hlt
    have hmem : s.pool u ∈ c.pools := by
      rw [← List.idxOf_lt_length_iff]
      exact Nat.lt_of_lt_of_le hlt List.idxOf_le_length
    rcases hw.ready u hu with hq | hq
    · rw [hempty _ hmem hlt] at hq
      cases hq
    · rw [hh] at hq
      exact hne (Option.some.inj hq).symm

/-- A unit popped from the first of the pools `c.pools.take n` that has one, when the parked unit
is not of these pools. -/
theorem take_order (hw : Wf c s) {q : Nat → Q} {n : Nat}
    (hp : popFirst c.ops s.q (c.pools.take n) = some (t, q))
    (hheld : ∀ h, s.held = some h → n ≤ c.pools.idxOf (s.pool h)) :
    StrictOrder c ({ s with q := q }.dispatch t) := by
  obtain ⟨p, x, hm, hpop, rfl, hbefore⟩ := popFirst_idxOf hp
  have hpool : s.pool t = p := (hw.queued p t (((c.ops p).mem_pop hpop).mpr (.inl rfl))).1
  have hidx : ∀ p' ∈ c.pools.take n, (c.pools.take n).idxOf p' = c.pools.idxOf p' := by
    intro p' hp'
    conv_rhs => rw [← List.take_append_drop n c.pools]
    rw [List.idxOf_append_of_mem hp']
  have hpn : c.pools.idxOf p < n := (List.mem_take_iff_idxOf_lt (List.mem_of_mem_take hm)).mp hm
  intro u hu
  simp only [State.dispatch, Function.update_apply] at hu ⊢
  split at hu
  · cases hu
  · by_contra hlt
    rw [Nat.not_le, hpool] at hlt
    have hmem : s.pool u ∈ c.pools := by
      rw [← List.idxOf_lt_length_iff]
      exact Nat.lt_of_lt_of_le hlt List.idxOf_le_length
    have hmem' : s.pool u ∈ c.pools.take n :=
      (List.mem_take_iff_idxOf_lt hmem).mpr (Nat.lt_trans hlt hpn)
    rcases hw.ready u hu with hq | hq
    · rw [hbefore _ hmem' (by rwa [hidx _ hmem', hidx _ hm])] at hq
      cases hq
    · have := hheld u hq
      omega

/-- `ABTI_poll_sched` keeps the order. -/
theorem pollSched_order (hw : Wf c s) (hst : pollSched c s = some s') : StrictOrder c s' := by
  unfold pollSched at hst
  split at hst
  · rename_i t hh
    split at hst
    · rename_i hp
      cases hst
      refine take_order hw hp fun h hh' => ?_
      obtain rfl := Option.some.inj (hh'.symm.trans hh)
      exact Nat.le_refl _
    · rename_i hp
      cases hst
      rw [popFirst_eq_none] at hp
      exact unpark_order hw hh fun p hm hlt => hp p ((List.mem_take_iff_idxOf_lt hm).mpr hlt)
  · rename_i hh
    split at hst
    · rename_i hp
      cases hst
      rw [← List.take_length (l := c.pools)] at hp
      exact take_order hw hp (by simp [hh])
    · cases hst

/-! ### What a suspension pushes -/

theorem awakenIfBlocked_other (hp : s.life u = .blocked → s.target u ≠ p) :
    (s.awakenIfBlocked c u).q p = s.q p := by
  unfold State.awakenIfBlocked
  split
  · rename_i hb
    exact Function.update_of_ne (Ne.symm (hp hb)) ..
  · rfl

theorem awakenIfBlocked_target {w : Nat} (hb : (s.awakenIfBlocked c u).life w = .blocked) :
    s.life w = .blocked ∧ (s.awakenIfBlocked c u).target w = s.target w := by
  unfold State.awakenIfBlocked at hb ⊢
  split at hb
  · have hne : w ≠ u := by
      rintro rfl
      simp [State.awaken] at hb
    rename_i hu
    rw [if_pos hu]
    simp only [State.awaken, Function.update_of_ne hne] at hb
    exact ⟨hb, by simp [State.target, State.awaken, hne]⟩
  · rename_i hu
    rw [if_neg hu]
    exact ⟨hb, rfl⟩

theorem foldl_other {l : List Nat} (hp : ∀ w ∈ l, s.life w = .blocked → s.target w ≠ p) :
    (l.foldl (State.awakenIfBlocked c) s).q p = s.q p := by
  induction l generalizing s with
  | nil => rfl
  | cons a l ih =>
    rw [List.forall_mem_cons] at hp
    rw [List.foldl_cons, ih, awakenIfBlocked_other hp.1]
    intro w hw hb
    obtain ⟨hb', ht⟩ := awakenIfBlocked_target hb
    rw [ht]
    exact hp.2 w hw hb'

/-- A suspension pushes to the released pools only. -/
theorem leave_other {k : Stop} (hp : p ∉ released s k) :
    (leave c s s.cur k).q p = s.q p := by
  cases k with
  | yield | timedYield =>
    simp only [released, List.mem_singleton] at hp
    exact Function.update_of_ne hp ..
  | block | join v => rfl
  | exit =>
    refine foldl_other fun w hw hb => ?_
    have hne : w ≠ s.cur := by
      rintro rfl
      simp at hb
    simp only [Function.update_of_ne hne] at hb
    rintro rfl
    refine hp (List.mem_map.mpr ⟨w, List.mem_filter.mpr ⟨hw, by simpa using hb⟩, rfl⟩)

/-- A ready unit stays in its pool while others are made ready. -/
theorem awakenIfBlocked_pool (ht : s.life t = .ready) :
    (s.awakenIfBlocked c u).pool t = s.pool t ∧ (s.awakenIfBlocked c u).life t = .ready := by
  unfold State.awakenIfBlocked
  split
  · rename_i hb
    have hne : t ≠ u := by rintro rfl; rw [ht] at hb; cases hb
    simpa [State.awaken, hne] using ht
  · exact ⟨rfl, ht⟩

theorem foldl_pool {l : List Nat} (ht : s.life t = .ready) :
    (l.foldl (State.awakenIfBlocked c) s).pool t = s.pool t := by
  induction l generalizing s with
  | nil => rfl
  | cons a l ih =>
    have ha := awakenIfBlocked_pool (c := c) (u := a) ht
    rw [List.foldl_cons, ih ha.2, ha.1]

theorem leave_pool (k : Stop) (ht : s.life t = .ready) (hne : t ≠ u) :
    (leave c s u k).pool t = s.pool t := by
  cases k with
  | yield | timedYield => exact Function.update_of_ne hne ..
  | block | join v => rfl
  | exit => exact foldl_pool (by simpa [hne] using ht)

/-- The direct switch keeps the order when the pools before the popped unit's are not pushed to. -/
theorem direct_order (hw : Wf c s) (hcur : s.life s.cur = .running) {k : Stop} {q : Nat → Q}
    {n : Nat} (hh : s.held = none) (hp : popFirst c.ops s.q c.pools = some (t, q))
    (hrel : ∀ p ∈ released s k, c.pools.idxOf (s.pool t) ≤ c.pools.idxOf p) :
    StrictOrder c ((leave c ((s.flag k).setPopped q n) s.cur k).dispatch t) := by
  obtain ⟨_, _, hready, _, _⟩ := hw.popped hp
  obtain ⟨p, x, hm, hpop, rfl, hbefore⟩ := popFirst_idxOf hp
  have hpool : s.pool t = p := (hw.queued p t (((c.ops p).mem_pop hpop).mpr (.inl rfl))).1
  have hne : t ≠ s.cur := by rintro rfl; rw [hready] at hcur; cases hcur
  generalize hs1 : (s.flag k).setPopped (Function.update s.q p x) n = s1
  have hw1 : Wf c (s1.setHeld (some t)) := by
    have hq : (s.flag k).q = s.q := by cases k <;> rfl
    have hh' : (s.flag k).held = none := by cases k <;> exact hh
    rw [← hs1]
    exact (hw.flag k).park hh' n (hq ▸ hp)
  have h1 : s1.q = Function.update s.q p x ∧ s1.cur = s.cur ∧ s1.life = s.life ∧
      s1.pool = s.pool ∧ released s1 k = released s k ∧ s1.held = none := by
    subst hs1
    cases k <;> exact ⟨rfl, rfl, rfl, rfl, rfl, hh⟩
  obtain ⟨hq1, hc1, hl1, hp1, hr1, hh1⟩ := h1
  rw [dispatch_direct hh1]
  have hl : (s1.setHeld (some t)).life s.cur = .running := by
    rw [← hcur]; exact congrFun hl1 _
  refine unpark_order (hw1.leave hl k) (by rw [leave_held]; rfl) ?_
  rw [leave_held]
  have hpt : (leave c s1 s.cur k).pool t = p := by
    rw [leave_pool k (by rw [hl1]; exact hready) hne, hp1, hpool]
  intro p' hm' hlt
  simp only [State.setHeld, hpt] at hlt ⊢
  have hnr : p' ∉ released s1 k := by
    intro hmem
    rw [hr1] at hmem
    have := hrel p' hmem
    rw [hpool] at this
    omega
  have hne' : p' ≠ p := by rintro rfl; omega
  rw [← hc1, leave_other hnr, hq1, Function.update_of_ne hne']
  exact hbefore p' hm' hlt

theorem suspend_order {K : Nat} (hw : Wf c s) (hcur : s.life s.cur = .running) {k : Stop}
    (hg : Foreseen c K s (.suspend k)) (hst : suspend c K s k = some s') : StrictOrder c s' := by
  have hs : suspends s k = true := by
    unfold suspend at hst
    split at hst
    · assumption
    · cases hst
  have hq : (s.flag k).q = s.q := by cases k <;> rfl
  have hh : (s.flag k).held = s.held := by cases k <;> rfl
  have hl : (s.flag k).life s.cur = .running := by cases k <;> exact hcur
  obtain ⟨n, he⟩ | ⟨t, q, n, hn, hp, hult, he | ⟨hpk, _, hlt, he⟩⟩ :=
    suspend_cases (c := c) (K := K) hs
  · rw [he] at hst
    have hw' : Wf c ((s.flag k).setPopped s.q n) := (hw.flag k).congr hq.symm rfl rfl rfl rfl
    exact pollSched_order (hw'.leave hl k) hst
  · rw [he] at hst
    exact pollSched_order (((hw.flag k).park (hh.trans hn) n (hq ▸ hp)).leave hl k) hst
  · rw [he] at hst
    obtain rfl := Option.some.inj hst
    refine direct_order hw hcur hn hp fun p hm => ?_
    obtain ⟨p₀, x, hm₀, hpop, _, hbefore⟩ := popFirst_idxOf hp
    have hin : t ∈ (c.ops p₀).units (s.q p₀) := ((c.ops p₀).mem_pop hpop).mpr (.inl rfl)
    have hpool : s.pool t = p₀ := (hw.queued p₀ t hin).1
    rw [hpool]
    rcases hg hult hn hlt with ⟨rfl, hmig⟩ | hcov
    · -- `ABT_thread_yield`: a unit of a later pool would have been parked
      simp only [released, State.target, hmig, Option.getD_none, List.mem_singleton] at hm
      subst hm
      by_contra hlt'
      have hne : p₀ ≠ s.pool s.cur := by rintro rfl; omega
      simp [parks, State.flag, hpool, hne] at hpk
      omega
    · rcases hcov p hm with ⟨p', hm', hle, hne⟩ | hempty
      · by_contra hlt'
        exact hne (hbefore p' hm' (by omega))
      · rw [hempty p₀ hm₀] at hin; cases hin

theorem reach_wf {K : Nat} {k : Kind} {G : State Q → Act → Prop}
    (h : Reach (system c K k p) G s) : Wf c s ∧ s.life s.cur = .running := by
  refine Reach.invariant (I := fun s => Wf c s ∧ s.life s.cur = .running) ?_ ?_ h
  · rintro _ rfl
    exact ⟨.start c k p, by simp [initial]⟩
  · rintro s a s' _ ⟨hw, hcur⟩ _ hst
    cases a with
    | act d =>
      obtain rfl := Option.some.inj hst
      exact ⟨hw.act d, act_running hw hcur d⟩
    | suspend k => exact ⟨hw.suspend hcur hst, suspend_running hst⟩

/-- For every scheduler, every burst limit and every run whose suspensions are foreseen: each
dispatch is of the first pool that has a ready unit. -/
theorem strict_order (c : Sched Q) (K : Nat) (k : Kind) (p : Nat) (s : State Q)
    (h : Reach (system c K k p) (Foreseen c K) s) (stop : Stop) (s' : State Q)
    (hg : Foreseen c K s (.suspend stop))
    (hst : (system c K k p).step s (.suspend stop) = some s') : StrictOrder c s' := by
  obtain ⟨hw, hcur⟩ := reach_wf h
  exact suspend_order hw hcur hg hst

/-- Two built-in pools, 0 before 1. -/
def twoPools : Sched (List Nat) := builtin [0, 1]

/-- A timed wait of a ULT of pool 0, while pool 0 has a unit. -/
theorem strict_order_timed : ∃ s s',
    Reach (system twoPools 1 .ult 0) (Foreseen twoPools 1) s ∧
    (system twoPools 1 .ult 0).step s (.suspend .timedYield) = some s' ∧ s'.cur = 1 ∧
    StrictOrder twoPools s' := by
  obtain ⟨s, hs, hg, hany⟩ := Reach.exists_run (M := system twoPools 1 .ult 0)
    (G := Foreseen twoPools 1) (.start rfl)
    (fun s => Foreseen twoPools 1 s (.suspend .timedYield) ∧
      (suspend twoPools 1 s .timedYield).any (fun s' => s'.cur = 1) = true)
    [.act (.create false 0), .act (.create false 1)] (by decide)
  cases hst : suspend twoPools 1 s .timedYield with
  | none => rw [hst] at hany; cases hany
  | some s' =>
    rw [hst] at hany
    exact ⟨s, s', hs, hst, of_decide_eq_true hany, strict_order twoPools 1 .ult 0 s hs _ s' hg hst⟩

theorem not_strictOrder (h : s.life u = .ready)
    (hlt : c.pools.idxOf (s.pool u) < c.pools.idxOf (s.pool s.cur)) : ¬ StrictOrder c s :=
  fun ho => absurd (ho u h) (Nat.not_le.mpr hlt)

/-- ULT 0 of pool 0 creates ULT 1 in pool 1 and waits with a timeout: ULT 1 is switched to,
although ULT 0 is ready. -/
theorem timed_overtaken : ∃ s, Reach (system twoPools 1 .ult 0) Free s ∧
    s.log = [0, 1] ∧ ¬ StrictOrder twoPools s := by
  obtain ⟨s, hs, hl, hr, hlt⟩ := Reach.exists_run (M := system twoPools 1 .ult 0) (G := Free)
    (.start rfl) (fun s => s.log = [0, 1] ∧ s.life 0 = .ready ∧
      twoPools.pools.idxOf (s.pool 0) < twoPools.pools.idxOf (s.pool s.cur))
    [.act (.create false 1), .suspend .timedYield] (by decide)
  exact ⟨s, hs, hl, not_strictOrder hr hlt⟩

/-- ULT 0 of pool 1 yields with a pending migration to pool 0; another unit of pool 1 is switched
to. -/
theorem migrate_overtaken : ∃ s, Reach (system twoPools 1 .ult 1) Free s ∧
    s.log = [0, 1] ∧ ¬ StrictOrder twoPools s := by
  obtain ⟨s, hs, hl, hr, hlt⟩ := Reach.exists_run (M := system twoPools 1 .ult 1) (G := Free)
    (.start rfl) (fun s => s.log = [0, 1] ∧ s.life 0 = .ready ∧
      twoPools.pools.idxOf (s.pool 0) < twoPools.pools.idxOf (s.pool s.cur))
    [.act (.create false 1), .act (.migrate 0 0), .suspend .yield] (by decide)
  exact ⟨s, hs, hl, not_strictOrder hr hlt⟩

/-- ULT 0 of pool 0 joins ULT 1 of pool 1, which creates ULT 2 in pool 1 and terminates: ULT 2 is
switched to before the joiner. -/
theorem joiner_overtaken : ∃ s, Reach (system twoPools 2 .ult 0) Free s ∧
    s.log = [0, 1, 2] ∧ ¬ StrictOrder twoPools s := by
  obtain ⟨s, hs, hl, hr, hlt⟩ := Reach.exists_run (M := system twoPools 2 .ult 0) (G := Free)
    (.start rfl) (fun s => s.log = [0, 1, 2] ∧ s.life 0 = .ready ∧
      twoPools.pools.idxOf (s.pool 0) < twoPools.pools.idxOf (s.pool s.cur))
    [.act (.create false 1), .suspend (.join 1), .act (.create false 1), .suspend .exit]
    (by decide)
  exact ⟨s, hs, hl, not_strictOrder hr hlt⟩

end Direct
end AbtReconverse
