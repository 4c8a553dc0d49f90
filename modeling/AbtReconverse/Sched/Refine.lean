import AbtReconverse.Sched.Ready

/-!
# AbtReconverse.Sched.Refine

The direct switch against the scheduler loop. `turn` runs the current unit up to its next
suspension and dispatches the next unit; a program says what a unit does from the units dispatched
so far. `Sim` relates the PE with direct switches to the PE without: the parked unit is put back at
the front of its pool. With FIFO pools the two dispatch the same units (`direct_refines`); with a
pool that takes the newest unit first they do not (`direct_lifo`).
-/

namespace AbtReconverse
namespace Direct

open Lts

variable {Q : Type} {c : Sched Q} {s s₀ : State Q} {u t p : Nat}

/-- What a unit does from its dispatch to its suspension. -/
structure Burst where
  acts : List Do
  stop : Stop

/-- A unit's behaviour, given the units dispatched so far (the last one runs). -/
def Program := List Nat → Burst

/-- No timed wait, no join and no migration. -/
def Burst.Plain (b : Burst) : Prop :=
  (∀ d ∈ b.acts, ∀ u p, d ≠ .migrate u p) ∧ (b.stop = .yield ∨ b.stop = .block ∨ b.stop = .exit)

def turn (c : Sched Q) (K : Nat) (prog : Program) (s : State Q) : Option (State Q) :=
  suspend c K ((prog s.log).acts.foldl (act c) s) (prog s.log).stop

/-- `s` is a PE with direct switches, `s₀` the same PE without. -/
structure Sim (c : Sched Q) (s s₀ : State Q) : Prop where
  held : s₀.held = none
  life : s₀.life = s.life
  kind : s₀.kind = s.kind
  pool : s₀.pool = s.pool
  next : s₀.next = s.next
  cur : s₀.cur = s.cur
  log : s₀.log = s.log
  migrate : s.migrate = (fun _ => none) ∧ s₀.migrate = fun _ => none
  joiners : s.joiners = (fun _ => []) ∧ s₀.joiners = fun _ => []
  same : ∀ p, (∀ t, s.held = some t → s.pool t ≠ p) → s₀.q p = s.q p
  parked : ∀ t, s.held = some t →
    (c.ops (s.pool t)).pop (s₀.q (s.pool t)) = some (t, s.q (s.pool t))

namespace Sim

theorem start (c : Sched Q) (k : Kind) (p : Nat) : Sim c (initial c k p) (initial c k p) := by
  constructor <;> simp [initial]

theorem awaken (h : Sim c s s₀) (hw : Wf c s) (hfifo : ∀ p ∈ c.pools, (c.ops p).Fifo) (u : Nat) :
    Sim c (s.awaken c u) (s₀.awaken c u) := by
  have htar : s.target u = s.pool u := by simp [State.target, h.migrate.1]
  have htar₀ : s₀.target u = s.pool u := by simp [State.target, h.migrate.2, h.pool]
  have hpool : (s.awaken c u).pool = s.pool := by simp [State.awaken, htar]
  refine ⟨h.held, ?_, h.kind, ?_, h.next, h.cur, h.log, ?_, h.joiners, ?_, ?_⟩
  · simp only [State.awaken, h.life]
  · simp only [State.awaken, htar, htar₀, h.pool]
  · simp [State.awaken, h.migrate.1, h.migrate.2]
  · intro p hp
    rw [hpool] at hp
    have hs := h.same p hp
    simp only [State.awaken, htar, htar₀, Function.update_apply]
    split
    · rename_i he; rw [← he, hs]
    · exact hs
  · intro t ht
    rw [hpool]
    have hpk := h.parked t ht
    simp only [State.awaken, htar, htar₀, Function.update_apply]
    split
    · -- the push does not come before the parked unit
      rename_i he
      rw [← he]
      exact hfifo _ (hw.held t ht).2.1 _ _ _ _ hpk
    · exact hpk

theorem awakenIfBlocked (h : Sim c s s₀) (hw : Wf c s) (hfifo : ∀ p ∈ c.pools, (c.ops p).Fifo)
    (u : Nat) : Sim c (s.awakenIfBlocked c u) (s₀.awakenIfBlocked c u) := by
  unfold State.awakenIfBlocked
  rw [h.life]
  split
  · exact h.awaken hw hfifo u
  · exact h

theorem born (h : Sim c s s₀) (hw : Wf c s) (k : Kind) (p : Nat) :
    Sim c (s.born k p) (s₀.born k p) := by
  have hne : ∀ t, s.held = some t → t ≠ s.next := by
    rintro t ht rfl
    have := hw.unborn s.next (Nat.le_refl _)
    rw [(hw.held _ ht).1] at this; cases this
  obtain ⟨h1, h2, h3, h4, h5, h6, h7, h8, h9, h10, h11⟩ := h
  constructor
  all_goals simp only [State.born, Function.update_apply, h2, h3, h4, h5, h8, h9] at *
  all_goals grind -ring -linarith

theorem act (h : Sim c s s₀) (hw : Wf c s) (hfifo : ∀ p ∈ c.pools, (c.ops p).Fifo) {d : Do}
    (hd : ∀ u p, d ≠ .migrate u p) : Sim c (act c s d) (act c s₀ d) := by
  cases d with
  | create task p =>
    simp only [Direct.act, h.next]
    exact (h.born hw _ p).awaken (hw.born _ p) hfifo _
  | wake u => exact h.awakenIfBlocked hw hfifo u
  | migrate u p => exact absurd rfl (hd u p)

theorem acts (h : Sim c s s₀) (hw : Wf c s) (hfifo : ∀ p ∈ c.pools, (c.ops p).Fifo)
    {l : List Do} (hl : ∀ d ∈ l, ∀ u p, d ≠ .migrate u p) :
    Sim c (l.foldl (Direct.act c) s) (l.foldl (Direct.act c) s₀) ∧
      Wf c (l.foldl (Direct.act c) s) := by
  induction l generalizing s s₀ with
  | nil => exact ⟨h, hw⟩
  | cons d l ih =>
    rw [List.forall_mem_cons] at hl
    exact ih (h.act hw hfifo hl.1) (hw.act d) hl.2

theorem leave (h : Sim c s s₀) (hw : Wf c s) (hfifo : ∀ p ∈ c.pools, (c.ops p).Fifo) (u : Nat)
    {k : Stop} (hk : k = .yield ∨ k = .block ∨ k = .exit) :
    Sim c (leave c s u k) (leave c s₀ u k) := by
  rcases hk with rfl | rfl | rfl
  · exact h.awaken hw hfifo u
  · refine ⟨h.held, ?_, h.kind, h.pool, h.next, h.cur, h.log, h.migrate, h.joiners, h.same,
      h.parked⟩
    simp only [Direct.leave, h.life]
  · simp only [Direct.leave, h.joiners.1, h.joiners.2, List.foldl_nil]
    refine ⟨h.held, ?_, h.kind, h.pool, h.next, h.cur, h.log, h.migrate, ?_, h.same, h.parked⟩
    · simp only [h.life]
    · simp

theorem dispatch (h : Sim c s s₀) (t : Nat) : Sim c (s.dispatch t) (s₀.dispatch t) := by
  refine ⟨h.held, ?_, h.kind, h.pool, h.next, rfl, ?_, h.migrate, h.joiners, h.same, h.parked⟩
  · simp only [State.dispatch, h.life]
  · simp only [State.dispatch, h.log]

/-- The loop pops the parked unit where `ABTI_poll_sched` would run it. -/
theorem pollSched (h : Sim c s s₀) (hw : Wf c s) :
    Option.Rel (Sim c) (pollSched c s) (pollSched c s₀) := by
  have h₀ : Direct.pollSched c s₀ =
      (popFirst c.ops s₀.q c.pools).map fun e => { s₀ with q := e.2 }.dispatch e.1 := by
    unfold Direct.pollSched
    rw [h.held]
    cases popFirst c.ops s₀.q c.pools <;> rfl
  rw [h₀]
  unfold Direct.pollSched
  cases hh : s.held with
  | none =>
    have hq : s₀.q = s.q := funext fun p => h.same p (by simp [hh])
    simp only [hq]
    cases hp : popFirst c.ops s.q c.pools with
    | none => exact .none
    | some e =>
      refine .some (Sim.dispatch ?_ e.1)
      exact ⟨h.held, h.life, h.kind, h.pool, h.next, h.cur, h.log, h.migrate, h.joiners,
        fun _ _ => rfl, by simp⟩
  | some t =>
    have hm := (hw.held t hh).2.1
    have hpk := h.parked t hh
    -- the pools before the parked unit's own, that pool, and the rest
    obtain ⟨hnot, r, hsplit⟩ := split_idxOf hm
    have hsame : ∀ p ∈ c.pools.take (c.pools.idxOf (s.pool t)), s₀.q p = s.q p := by
      intro p hp
      refine h.same p fun t' ht' => ?_
      obtain rfl := Option.some.inj (hh.symm.trans ht')
      rintro rfl
      exact hnot hp
    simp only
    generalize c.pools.take (c.pools.idxOf (s.pool t)) = l at *
    rw [hsplit]
    cases hp : popFirst c.ops s.q l with
    | some e =>
      obtain ⟨p, hpm, x, hx, hp₀⟩ := popFirst_congr hsame hp
      have hne : s.pool t ≠ p := by rintro rfl; exact hnot hpm
      rw [popFirst_append_some hp₀]
      refine .some (Sim.dispatch ?_ e.1)
      refine ⟨h.held, h.life, h.kind, h.pool, h.next, h.cur, h.log, h.migrate, h.joiners, ?_, ?_⟩
      · intro p' hp'
        have hs := h.same p' fun t' ht' => hp' t' (hh.symm.trans ht')
        simp only [hx, Function.update_apply, hs]
      · intro t' ht'
        obtain rfl : t = t' := Option.some.inj ht'
        simpa only [hx, Function.update_of_ne hne] using hpk
    | none =>
      rw [popFirst_append (popFirst_congr_none hsame hp)]
      simp only [popFirst, hpk, Option.map_some]
      refine .some (Sim.dispatch ?_ t)
      refine ⟨h.held, h.life, h.kind, h.pool, h.next, h.cur, h.log, h.migrate, h.joiners, ?_,
        by simp [State.setHeld]⟩
      intro p' _
      by_cases hp' : p' = s.pool t
      · subst hp'; simp [State.setHeld]
      · simp only [Function.update_of_ne hp']
        refine h.same p' fun t' ht' => ?_
        obtain rfl := Option.some.inj (hh.symm.trans ht')
        exact Ne.symm hp'

/-- The flags and the length of the chain do not matter. -/
theorem congr (h : Sim c s s₀) (k k₀ : Stop) (n n₀ : Nat) :
    Sim c ((s.flag k).setPopped s.q n) ((s₀.flag k₀).setPopped s₀.q n₀) := by
  cases k <;> cases k₀ <;>
  exact ⟨h.held, h.life, h.kind, h.pool, h.next, h.cur, h.log, h.migrate, h.joiners, h.same,
    h.parked⟩

/-- The popped unit is parked: in the loop it is still in its pool. -/
theorem park (h : Sim c s s₀) (hw : Wf c s) (hh : s.held = none) {q : Nat → Q}
    (hp : popFirst c.ops s.q c.pools = some (t, q)) (n : Nat) :
    Sim c ((s.setPopped q n).setHeld (some t)) s₀ := by
  obtain ⟨l, p, r, x, _, _, hpop, rfl⟩ := popFirst_eq_some hp
  have hq : s₀.q = s.q := funext fun p => h.same p (by simp [hh])
  have hpool : s.pool t = p := (hw.queued p t (((c.ops p).mem_pop hpop).mpr (.inl rfl))).1
  refine ⟨h.held, h.life, h.kind, h.pool, h.next, h.cur, h.log, h.migrate, h.joiners, ?_, ?_⟩
  · intro p' hp'
    have hne : p' ≠ p := fun he => hp' t rfl (hpool.trans he.symm)
    simp [State.setHeld, State.setPopped, hq, hne]
  · intro t' ht'
    obtain rfl : t = t' := Option.some.inj ht'
    simpa [State.setHeld, State.setPopped, hq, hpool] using hpop

end Sim

/-- Switching directly to the popped unit is parking it and letting the scheduler choose: the
suspended unit is not pushed to a pool before the popped unit's. -/
theorem direct_poll (hw : Wf c s) {k : Stop} {q : Nat → Q} {n : Nat} (hh : s.held = none)
    (hp : popFirst c.ops s.q c.pools = some (t, q)) (hpk : parks c (s.flag k) s.cur t = false)
    (hk : k = .yield ∨ k = .block ∨ k = .exit) (hmig : s.migrate = fun _ => none)
    (hjoin : s.joiners = fun _ => []) :
    pollSched c (leave c (((s.flag k).setPopped q n).setHeld (some t)) s.cur k) =
      some ((leave c ((s.flag k).setPopped q n) s.cur k).dispatch t) := by
  obtain ⟨p, x, hm, hpop, rfl, hbefore⟩ := popFirst_idxOf hp
  have hpool : s.pool t = p := (hw.queued p t (((c.ops p).mem_pop hpop).mpr (.inl rfl))).1
  have hh' : ((s.flag k).setPopped (Function.update s.q p x) n).held = none := by
    cases k <;> exact hh
  have hpk' : k = .yield → c.pools.idxOf p ≤ c.pools.idxOf (s.pool s.cur) := by
    rintro rfl
    by_contra hlt
    have hne : p ≠ s.pool s.cur := by rintro rfl; omega
    simp [parks, State.flag, hpool, hne] at hpk
    omega
  -- the unit keeps its pool, and the pools before it stay empty
  have hleave : (leave c ((s.flag k).setPopped (Function.update s.q p x) n) s.cur k).pool t = p ∧
      ∀ p' ∈ c.pools, c.pools.idxOf p' < c.pools.idxOf p → (c.ops p').units
        ((leave c ((s.flag k).setPopped (Function.update s.q p x) n) s.cur k).q p') = [] := by
    have hupd : ∀ p' ∈ c.pools, c.pools.idxOf p' < c.pools.idxOf p →
        (c.ops p').units (Function.update s.q p x p') = [] := by
      intro p' hm' hlt
      have hne : p' ≠ p := by rintro rfl; omega
      rw [Function.update_of_ne hne]
      exact hbefore p' hm' hlt
    rcases hk with rfl | rfl | rfl
    · have htar : s.target s.cur = s.pool s.cur := by simp [State.target, hmig]
      have hle := hpk' rfl
      refine ⟨by simp [leave, State.awaken, State.flag, State.setPopped, State.target, hmig, hpool],
        fun p' hm' hlt => ?_⟩
      have hne : p' ≠ s.pool s.cur := by rintro rfl; omega
      have := hupd p' hm' hlt
      simpa [leave, State.awaken, State.flag, State.setPopped, State.target, hmig, hne] using this
    · exact ⟨hpool, hupd⟩
    · simp only [leave, State.flag, State.setPopped, hjoin, List.foldl_nil]
      exact ⟨hpool, hupd⟩
  rw [dispatch_direct hh', leave_held]
  generalize leave c ((s.flag k).setPopped (Function.update s.q p x) n) s.cur k = s1 at hleave ⊢
  have hnone : popFirst c.ops s1.q (c.pools.take (c.pools.idxOf (s1.pool t))) = none := by
    rw [popFirst_eq_none, hleave.1]
    intro p' hp'
    have hm' := List.mem_of_mem_take hp'
    exact hleave.2 p' hm' ((List.mem_take_iff_idxOf_lt hm').mp hp')
  simp only [pollSched, State.setHeld, hnone]

theorem suspends_sim (h : Sim c s s₀) (k : Stop) : suspends s₀ k = suspends s k := by
  cases k <;> simp only [suspends, h.kind, h.life, h.cur]

/-- The loop: every suspension goes back to `ABTI_poll_sched`. -/
theorem suspend_zero {k : Stop} (hs : suspends s k = true) :
    ∃ n, suspend c 0 s k = pollSched c (leave c ((s.flag k).setPopped s.q n) s.cur k) := by
  have hq : (s.flag k).q = s.q := by cases k <;> rfl
  unfold suspend
  rw [if_pos hs]
  split
  · refine ⟨0, ?_⟩
    simp [chooseFn, hq]
  · refine ⟨(s.flag k).direct, ?_⟩
    rw [← hq]
    rfl

theorem Sim.suspend (h : Sim c s s₀) (hw : Wf c s) (hcur : s.life s.cur = .running)
    (hfifo : ∀ p ∈ c.pools, (c.ops p).Fifo) (K : Nat) {k : Stop}
    (hk : k = .yield ∨ k = .block ∨ k = .exit) :
    Option.Rel (Sim c) (suspend c K s k) (suspend c 0 s₀ k) := by
  cases hs : suspends s k with
  | false =>
    have hs₀ : suspends s₀ k = false := (suspends_sim h k).trans hs
    simp only [Direct.suspend, hs, hs₀]
    exact .none
  | true =>
    obtain ⟨n₀, he₀⟩ := suspend_zero (c := c) ((suspends_sim h k).trans hs)
    have hq : (s.flag k).q = s.q := by cases k <;> rfl
    have hh : (s.flag k).held = s.held := by cases k <;> rfl
    have hl : (s.flag k).life s.cur = .running := by cases k <;> exact hcur
    rw [he₀, h.cur]
    -- it is enough to relate the states before the post-switch action
    have hgo : ∀ s1 : State Q, Sim c s1 ((s₀.flag k).setPopped s₀.q n₀) → Wf c s1 →
        s1.life s.cur = .running →
        Option.Rel (Sim c) (Direct.pollSched c (Direct.leave c s1 s.cur k))
          (Direct.pollSched c (Direct.leave c ((s₀.flag k).setPopped s₀.q n₀) s.cur k)) :=
      fun s1 h1 hw1 hl1 => (h1.leave hw1 hfifo s.cur hk).pollSched (hw1.leave hl1 k)
    obtain ⟨n, he⟩ | ⟨t, q, n, hn, hp, _, hc⟩ := suspend_cases (c := c) (K := K) hs
    · rw [he]
      exact hgo _ (h.congr k k n n₀) ((hw.flag k).congr hq.symm rfl rfl rfl rfl) hl
    · have hpark : Direct.suspend c K s k = Direct.pollSched c
          (Direct.leave c (((s.flag k).setPopped q n).setHeld (some t)) s.cur k) := by
        obtain he | ⟨hpk, _, _, he⟩ := hc
        · exact he
        · rw [he, direct_poll hw hn hp hpk hk h.migrate.1 h.joiners.1]
      rw [hpark]
      have hw' : Wf c ((s.flag k).setPopped s.q n) := (hw.flag k).congr hq.symm rfl rfl rfl rfl
      refine hgo _ ?_ ((hw.flag k).park (hh.trans hn) n (hq ▸ hp)) hl
      exact (h.congr k k n n₀).park hw' (hh.trans hn) hp n

theorem acts_running (hw : Wf c s) (hcur : s.life s.cur = .running) (l : List Do) :
    (l.foldl (act c) s).life (l.foldl (act c) s).cur = .running := by
  induction l generalizing s with
  | nil => exact hcur
  | cons d l ih => exact ih (hw.act d) (act_running hw hcur d)

/-- Both PEs take the same turn. -/
theorem turn_sim {prog : Program} (hplain : ∀ log, (prog log).Plain)
    (hfifo : ∀ p ∈ c.pools, (c.ops p).Fifo) (K : Nat)
    (h : Sim c s s₀ ∧ Wf c s ∧ s.life s.cur = .running) :
    Option.Rel (fun s s₀ => Sim c s s₀ ∧ Wf c s ∧ s.life s.cur = .running)
      (turn c K prog s) (turn c 0 prog s₀) := by
  obtain ⟨hsim, hw, hcur⟩ := h
  obtain ⟨hacts, hstop⟩ := hplain s.log
  obtain ⟨hsim', hw'⟩ := hsim.acts hw hfifo hacts
  have hcur' := acts_running hw hcur (prog s.log).acts
  have hrel := hsim'.suspend hw' hcur' hfifo K hstop
  unfold turn
  rw [hsim.log]
  cases hst : suspend c K ((prog s.log).acts.foldl (act c) s) (prog s.log).stop with
  | none =>
    rw [hst] at hrel
    cases hst₀ : suspend c 0 ((prog s.log).acts.foldl (act c) s₀) (prog s.log).stop with
    | none => exact .none
    | some s' => rw [hst₀] at hrel; cases hrel
  | some s' =>
    rw [hst] at hrel
    cases hst₀ : suspend c 0 ((prog s.log).acts.foldl (act c) s₀) (prog s.log).stop with
    | none => rw [hst₀] at hrel; cases hrel
    | some s₀' =>
      rw [hst₀] at hrel
      cases hrel with
      | some hr => exact .some ⟨hr, hw'.suspend hcur' hst, suspend_running hst⟩

/-- On a PE whose scheduler has FIFO pools only, a program whose units yield, block on wait lists
or terminate runs the same units with the direct switch as without, for every burst limit. -/
theorem direct_refines (c : Sched Q) (hfifo : ∀ p ∈ c.pools, (c.ops p).Fifo) (prog : Program)
    (hplain : ∀ log, (prog log).Plain) (K : Nat) (k : Kind) (p n : Nat) :
    (runFor (turn c K prog) n (initial c k p)).map State.log =
      (runFor (turn c 0 prog) n (initial c k p)).map State.log := by
  have hrel := runFor_rel (fun _ _ => turn_sim hplain hfifo K)
    ⟨.start c k p, .start c k p, by simp [initial]⟩ n
  revert hrel
  generalize runFor (turn c K prog) n (initial c k p) = x
  generalize runFor (turn c 0 prog) n (initial c k p) = y
  intro hrel
  cases hrel with
  | some h => exact congrArg some h.1.log.symm
  | none => rfl

/-- Unit 0 creates a ULT in its own pool and a tasklet in the next one, and yields; every other
dispatch ends its unit. -/
def spawnYield : Program := fun log =>
  if log = [0] then ⟨[.create true 1, .create false 0], .yield⟩ else ⟨[], .exit⟩

theorem spawnYield_plain (log : List Nat) : (spawnYield log).Plain := by
  unfold spawnYield
  split
  · exact ⟨by simp, .inl rfl⟩
  · exact ⟨by simp, .inr (.inr rfl)⟩

theorem direct_refines_spawn :
    (runFor (turn (builtin [0, 1]) 2 spawnYield) 3 (initial (builtin [0, 1]) .ult 0)).map State.log =
      (runFor (turn (builtin [0, 1]) 0 spawnYield) 3 (initial (builtin [0, 1]) .ult 0)).map
        State.log ∧
    (runFor (turn (builtin [0, 1]) 0 spawnYield) 3 (initial (builtin [0, 1]) .ult 0)).map
      State.log = some [0, 2, 0, 1] :=
  ⟨direct_refines (builtin [0, 1]) (fun _ _ => Queue.fifo_fifo Nat) spawnYield spawnYield_plain 2
    .ult 0 3, by decide⟩

/-- Two user-defined pools that take the newest unit first. -/
def lifoSched : Sched (List Nat) where
  pools := [0, 1]
  ops := fun _ => Queue.lifo Nat

/-- The loop pushes the yielder back and pops it again; the direct switch runs the other unit. -/
theorem direct_lifo : (∀ log, (spawnYield log).Plain) ∧
    (runFor (turn lifoSched 1 spawnYield) 1 (initial lifoSched .ult 0)).map State.log =
      some [0, 2] ∧
    (runFor (turn lifoSched 0 spawnYield) 1 (initial lifoSched .ult 0)).map State.log =
      some [0, 0] :=
  ⟨spawnYield_plain, by decide, by decide⟩

end Direct
end AbtReconverse
