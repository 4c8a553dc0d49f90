import AbtReconverse.Sched.Direct

/-!
# AbtReconverse.Sched.Ready

Where the ready units of a PE are: each is in the pool it belongs to, or parked in `ABTI_held`, and
in one place only (`Wf`). `Wf` does not mention the running unit, so it also holds between a
suspension and the next dispatch.
-/

namespace AbtReconverse
namespace Direct

open Lts

variable {Q : Type} {c : Sched Q} {s s' : State Q} {u t p : Nat}

structure Wf (c : Sched Q) (s : State Q) : Prop where
  queued : ∀ p u, u ∈ (c.ops p).units (s.q p) → s.pool u = p ∧ s.life u = .ready
  nodup : ∀ p, ((c.ops p).units (s.q p)).Nodup
  held : ∀ t, s.held = some t → s.life t = .ready ∧ s.pool t ∈ c.pools ∧
    ∀ p, t ∉ (c.ops p).units (s.q p)
  ready : ∀ u, s.life u = .ready → u ∈ (c.ops (s.pool u)).units (s.q (s.pool u)) ∨ s.held = some u
  unborn : ∀ u, s.next ≤ u → s.life u = .done

namespace Wf

theorem start (c : Sched Q) (k : Kind) (p : Nat) : Wf c (initial c k p) := by
  constructor
  case unborn =>
    intro u hu
    have : u ≠ 0 := by simp only [initial] at hu; omega
    simp [initial, this]
  all_goals simp [initial, (c.ops _).units_empty]
  intro u hu
  split at hu <;> cases hu

theorem not_queued (h : Wf c s) (hu : s.life u ≠ .ready) (p : Nat) :
    u ∉ (c.ops p).units (s.q p) := fun hm => hu (h.queued p u hm).2

/-- The lists of the PE and the flags do not matter. -/
theorem congr (h : Wf c s) (hq : s'.q = s.q) (hl : s'.life = s.life) (hp : s'.pool = s.pool)
    (hh : s'.held = s.held) (hn : s'.next = s.next) : Wf c s' := by
  obtain ⟨h1, h2, h3, h4, h5⟩ := h
  refine ⟨?_, ?_, ?_, ?_, ?_⟩
  all_goals simpa only [hq, hl, hp, hh, hn]

/-- A unit that is not ready gets another state. -/
theorem setLife (h : Wf c s) {l : Life} (hu : s.life u ≠ .ready) (hl : l ≠ .ready)
    (hn : u < s.next) : Wf c { s with life := Function.update s.life u l } := by
  have hq := h.not_queued hu
  obtain ⟨h1, h2, h3, h4, h5⟩ := h
  constructor
  all_goals simp only [Function.update_apply] at *
  all_goals grind -ring -linarith

theorem awaken (h : Wf c s) (hu : s.life u ≠ .ready) (hn : u < s.next) :
    Wf c (s.awaken c u) := by
  have hq := h.not_queued hu
  obtain ⟨h1, h2, h3, h4, h5⟩ := h
  have hmem : ∀ p w, w ∈ (c.ops p).units ((s.awaken c u).q p) ↔
      (p = s.target u ∧ w = u) ∨ w ∈ (c.ops p).units (s.q p) := by
    intro p w
    by_cases hp : p = s.target u
    · subst hp; simp [State.awaken, Queue.mem_push]
    · simp [State.awaken, hp]
  constructor
  case nodup =>
    intro p
    by_cases hp : p = s.target u
    · subst hp
      simpa [State.awaken] using (c.ops _).nodup_push (h2 _) (hq _)
    · simpa [State.awaken, hp] using h2 p
  all_goals try simp only [hmem]
  all_goals simp only [State.awaken, Function.update_apply]
  all_goals grind -ring -linarith

theorem awakenIfBlocked (h : Wf c s) : Wf c (s.awakenIfBlocked c u) := by
  unfold State.awakenIfBlocked
  split
  · rename_i hb
    refine h.awaken (by rw [hb]; simp) ?_
    by_contra hn
    have := h.unborn u (by omega)
    rw [hb] at this; cases this
  · exact h

theorem born (h : Wf c s) (k : Kind) (p : Nat) : Wf c (s.born k p) := by
  have hd := h.unborn s.next (Nat.le_refl _)
  have hq := h.not_queued (u := s.next) (by rw [hd]; simp)
  obtain ⟨h1, h2, h3, h4, h5⟩ := h
  constructor
  all_goals simp only [State.born, Function.update_apply]
  all_goals grind -ring -linarith

theorem act (h : Wf c s) (d : Do) : Wf c (act c s d) := by
  cases d with
  | create task p =>
    refine (h.born _ p).awaken ?_ ?_
    · simp [State.born]
    · simp [State.born]
  | wake u => exact h.awakenIfBlocked
  | migrate u p => exact h.congr rfl rfl rfl rfl rfl

theorem flag (h : Wf c s) (k : Stop) : Wf c (s.flag k) := by
  cases k <;> exact h.congr rfl rfl rfl rfl rfl

theorem leave (h : Wf c s) (hu : s.life u = .running) (k : Stop) : Wf c (leave c s u k) := by
  have hr : s.life u ≠ .ready := by rw [hu]; simp
  have hn : u < s.next := by
    by_contra hn
    have := h.unborn u (by omega)
    rw [hu] at this; cases this
  have hfold : ∀ (l : List Nat) (s : State Q), Wf c s →
      Wf c (l.foldl (State.awakenIfBlocked c) s) := by
    intro l
    induction l with
    | nil => intro s h; exact h
    | cons a l ih => intro s h; exact ih _ h.awakenIfBlocked
  cases k with
  | yield | timedYield => exact h.awaken hr hn
  | block => exact h.setLife hr (by simp) hn
  | join v => exact (h.setLife hr (by simp) hn).congr rfl rfl rfl rfl rfl
  | exit =>
    refine hfold _ _ ?_
    exact (h.setLife (l := .done) hr (by simp) hn).congr rfl rfl rfl rfl rfl

/-- What is left in the pools when `popFirst` has taken unit `t`. -/
theorem popped (h : Wf c s) {ps : List Nat} {q : Nat → Q}
    (hp : popFirst c.ops s.q ps = some (t, q)) :
    (∀ p w, w ∈ (c.ops p).units (q p) ↔ w ∈ (c.ops p).units (s.q p) ∧ w ≠ t) ∧
    (∀ p, ((c.ops p).units (q p)).Nodup) ∧ s.life t = .ready ∧ s.pool t ∈ ps ∧
    s.held ≠ some t := by
  obtain ⟨l, p, r, x, hl, _, hpop, rfl⟩ := popFirst_eq_some hp
  have hm : t ∈ (c.ops p).units (s.q p) := ((c.ops p).mem_pop hpop).mpr (.inl rfl)
  have ht := h.queued p t hm
  have hnd := (c.ops _).nodup_pop (h.nodup _) hpop
  refine ⟨?_, ?_, ht.2, ?_, fun hh => (h.held t hh).2.2 p hm⟩
  · intro p' w
    by_cases hp' : p' = p
    · subst hp'
      rw [Function.update_self, (c.ops _).mem_pop hpop]
      grind -ring -linarith
    · rw [Function.update_of_ne hp']
      refine ⟨fun hw => ⟨hw, ?_⟩, And.left⟩
      rintro rfl
      exact hp' ((h.queued p' w hw).1.symm.trans ht.1)
  · intro p'
    by_cases hp' : p' = p
    · subst hp'; rw [Function.update_self]; exact hnd.2
    · rw [Function.update_of_ne hp']; exact h.nodup p'
  · rw [ht.1, hl]; simp

/-- A unit is taken out of its pool and parked. -/
theorem park (h : Wf c s) (hh : s.held = none) {q : Nat → Q} (n : Nat)
    (hp : popFirst c.ops s.q c.pools = some (t, q)) :
    Wf c ((s.setPopped q n).setHeld (some t)) := by
  obtain ⟨hmem, hnd, hl, hpool, _⟩ := h.popped hp
  obtain ⟨h1, h2, h3, h4, h5⟩ := h
  constructor
  case nodup => exact hnd
  all_goals simp only [State.setHeld, State.setPopped]
  all_goals try simp only [hmem]
  all_goals grind -ring -linarith

/-- A unit is taken out of its pool and gets the PE. -/
theorem take (h : Wf c s) {ps : List Nat} {q : Nat → Q}
    (hp : popFirst c.ops s.q ps = some (t, q)) : Wf c ({ s with q := q }.dispatch t) := by
  obtain ⟨hmem, hnd, hl, hpool, hh⟩ := h.popped hp
  obtain ⟨h1, h2, h3, h4, h5⟩ := h
  constructor
  case nodup => exact hnd
  all_goals simp only [State.dispatch, Function.update_apply]
  all_goals try simp only [hmem]
  all_goals grind -ring -linarith

/-- A parked unit gets the PE. -/
theorem unpark (h : Wf c s) (hh : s.held = some t) :
    Wf c ((s.setHeld none).dispatch t) := by
  obtain ⟨h1, h2, h3, h4, h5⟩ := h
  have ht := h3 t hh
  have hnt : t < s.next := by
    by_contra hn
    have := h5 t (by omega)
    rw [ht.1] at this; cases this
  constructor
  all_goals simp only [State.dispatch, State.setHeld, Function.update_apply]
  all_goals grind -ring -linarith

theorem pollSched (h : Wf c s) (hst : pollSched c s = some s') : Wf c s' := by
  unfold Direct.pollSched at hst
  split at hst
  · rename_i t hh
    split at hst
    · rename_i hp; cases hst; exact h.take hp
    · cases hst; exact h.unpark hh
  · split at hst
    · rename_i hp; cases hst; exact h.take hp
    · cases hst

end Wf

/-- The running unit goes on running while it acts. -/
theorem act_running (hw : Wf c s) (hcur : s.life s.cur = .running) (d : Do) :
    (act c s d).life (act c s d).cur = .running := by
  cases d with
  | create task p =>
    have hne : s.cur ≠ s.next := by
      intro he
      have := hw.unborn s.next (Nat.le_refl _)
      rw [← he, hcur] at this; cases this
    simpa [act, State.awaken, State.born, hne] using hcur
  | wake u =>
    simp only [act, State.awakenIfBlocked]
    split
    · rename_i hb
      have hne : s.cur ≠ u := by rintro rfl; rw [hcur] at hb; cases hb
      simpa [State.awaken, hne] using hcur
    · exact hcur
  | migrate u p => exact hcur

theorem pollSched_running (hst : pollSched c s = some s') : s'.life s'.cur = .running := by
  unfold pollSched at hst
  (repeat' split at hst) <;> cases hst
  all_goals simp [State.dispatch]

theorem suspend_running {K : Nat} {k : Stop} (hst : suspend c K s k = some s') :
    s'.life s'.cur = .running := by
  unfold suspend at hst
  split at hst
  · split at hst
    · split at hst
      · cases hst; simp [State.dispatch]
      · exact pollSched_running hst
    · exact pollSched_running hst
  · cases hst

/-! ### The direct switch is a parked unit that runs at once -/

theorem awakenIfBlocked_held (s : State Q) (x : Option Nat) (u : Nat) :
    (s.setHeld x).awakenIfBlocked c u = (s.awakenIfBlocked c u).setHeld x := by
  have hl : (s.setHeld x).life u = s.life u := rfl
  unfold State.awakenIfBlocked
  rw [hl]
  split <;> rfl

theorem foldl_held (l : List Nat) (s : State Q) (x : Option Nat) :
    l.foldl (State.awakenIfBlocked c) (s.setHeld x) =
      (l.foldl (State.awakenIfBlocked c) s).setHeld x := by
  induction l generalizing s with
  | nil => rfl
  | cons a l ih => rw [List.foldl_cons, awakenIfBlocked_held, ih]; rfl

theorem leave_held (s : State Q) (x : Option Nat) (u : Nat) (k : Stop) :
    leave c (s.setHeld x) u k = (leave c s u k).setHeld x := by
  cases k with
  | exit => exact foldl_held _ { s with life := _, joiners := _ } x
  | _ => rfl

theorem setHeld_self (hh : s.held = none) : s.setHeld none = s := by
  unfold State.setHeld
  rw [← hh]

/-- After the switch to `t`: as if `t` had been parked and then chosen. -/
theorem dispatch_direct (hh : s.held = none) (u t : Nat) (k : Stop) :
    (leave c s u k).dispatch t =
      ((leave c (s.setHeld (some t)) u k).setHeld none).dispatch t := by
  rw [leave_held]
  conv_lhs => rw [← setHeld_self hh, leave_held]
  rfl

theorem chooseFn_cases (c : Sched Q) (K : Nat) (s : State Q) (u : Nat) :
    chooseFn c K s u = (s.setPopped s.q 0, none) ∨
    ∃ t q, s.held = none ∧ popFirst c.ops s.q c.pools = some (t, q) ∧
      ((parks c s u t = true ∧ chooseFn c K s u = ((s.setPopped q 0).setHeld (some t), none)) ∨
      (parks c s u t = false ∧ K ≠ 0 ∧ s.direct < K ∧
        chooseFn c K s u = (s.setPopped q (s.direct + 1), some t))) := by
  unfold chooseFn
  split
  · rename_i hK
    split
    · rename_i t q hp
      refine .inr ⟨t, q, hK.2.1, hp, ?_⟩
      split
      · rename_i hpk; exact .inl ⟨hpk, rfl⟩
      · rename_i hpk; exact .inr ⟨by simpa using hpk, hK.1, hK.2.2, rfl⟩
    · exact .inl rfl
  · exact .inl rfl

/-- The three ways from a suspension to the next dispatch: to the scheduler, to the scheduler with
a unit parked, and the direct switch. -/
theorem suspend_cases {K : Nat} {k : Stop} (hs : suspends s k = true) :
    (∃ n, suspend c K s k = pollSched c (leave c ((s.flag k).setPopped s.q n) s.cur k)) ∨
    ∃ t q n, s.held = none ∧ popFirst c.ops s.q c.pools = some (t, q) ∧ s.kind s.cur = .ult ∧
      (suspend c K s k =
        pollSched c (leave c (((s.flag k).setPopped q n).setHeld (some t)) s.cur k) ∨
      (parks c (s.flag k) s.cur t = false ∧ K ≠ 0 ∧ s.direct < K ∧
        suspend c K s k = some ((leave c ((s.flag k).setPopped q n) s.cur k).dispatch t))) := by
  have hq : (s.flag k).q = s.q := by cases k <;> rfl
  have hh : (s.flag k).held = s.held := by cases k <;> rfl
  have hd : (s.flag k).direct = s.direct := by cases k <;> rfl
  unfold suspend
  rw [if_pos hs]
  split
  · rename_i hult
    obtain hch | ⟨t, q, hn, hp, ⟨_, hch⟩ | ⟨hpk, hK, hlt, hch⟩⟩ :=
      chooseFn_cases c K (s.flag k) s.cur
    · rw [hch, hq]; exact .inl ⟨0, rfl⟩
    · rw [hch]; exact .inr ⟨t, q, 0, hh ▸ hn, hq ▸ hp, hult, .inl rfl⟩
    · rw [hch]; exact .inr ⟨t, q, _, hh ▸ hn, hq ▸ hp, hult, .inr ⟨hpk, hK, hd ▸ hlt, rfl⟩⟩
  · refine .inl ⟨s.direct, ?_⟩
    rw [← hq, ← hd]
    rfl

theorem Wf.suspend (h : Wf c s) {K : Nat} {k : Stop} (hcur : s.life s.cur = .running)
    (hst : suspend c K s k = some s') : Wf c s' := by
  have hs : suspends s k = true := by
    unfold Direct.suspend at hst
    split at hst
    · assumption
    · cases hst
  have hq : (s.flag k).q = s.q := by cases k <;> rfl
  have hh : (s.flag k).held = s.held := by cases k <;> rfl
  have hl : (s.flag k).life s.cur = .running := by cases k <;> exact hcur
  have hf := h.flag k
  obtain ⟨n, he⟩ | ⟨t, q, n, hn, hp, _, he | ⟨_, _, _, he⟩⟩ := suspend_cases (c := c) (K := K) hs
  · rw [he] at hst
    have hw : Wf c ((s.flag k).setPopped s.q n) := hf.congr hq.symm rfl rfl rfl rfl
    exact (hw.leave hl k).pollSched hst
  · rw [he] at hst
    exact (Wf.leave (hf.park (hh.trans hn) n (hq ▸ hp)) hl k).pollSched hst
  · rw [he] at hst
    obtain rfl := Option.some.inj hst
    rw [dispatch_direct (s := (s.flag k).setPopped q n) (hh.trans hn)]
    refine Wf.unpark (Wf.leave (hf.park (hh.trans hn) n (hq ▸ hp)) hl k) ?_
    rw [leave_held]; rfl

end Direct
end AbtReconverse
