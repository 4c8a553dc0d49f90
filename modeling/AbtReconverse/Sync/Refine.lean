import AbtReconverse.Sync.Guarded
import AbtReconverse.Sync.Stranded

/-!
# AbtReconverse.Sync.Refine

Objects guarded by a mutex refine monitors: `reach_sim` relates every state such an object reaches
to a state that `Monitor.system` reaches. The code between two calls on the machine below is a turn
of the monitor; the steps of the machine below, the wake-ups on the way out and the unlock are
none.

When the mutex is free the lists of the condition variables are the queues of the monitor
(`Sim.onList_iff`), so what is proved of the monitor's queues holds of the waiter records.
-/

namespace AbtReconverse
namespace Guarded

open Lts Sync

/-! ## The steps of the machine below -/

section

variable {V L R : Type} {cf : Config} {s : State V L R} {x' : Sync.State} {q : Obj → List Rec}
  {ch : Nat → List Rec} {m : Monitor.State V L Nat R} {t : Nat} {op : Op} {p : Phase L R} {pc : Pc}

/-- The phases at whose end the mutex is given up. -/
def Phase.ends : Phase L R → Bool
  | .leaving _ _ | .unlocking _ => true
  | _ => false

theorem Phase.calls_uses (hc : p.calls op) : Uses p.ends op := by
  cases p with
  | out => exact absurd hc id
  | locking l => obtain rfl := hc; exact ⟨rfl, rfl⟩
  | waiting c l => obtain rfl := hc; exact ⟨rfl, rfl, rfl⟩
  | leaving ws r => obtain ⟨w, rfl⟩ := hc; cases w <;> exact rfl
  | unlocking r => obtain rfl := hc; exact ⟨rfl, rfl⟩

theorem Phase.left_eq_nil (he : p.ends = false) : p.left = [] := by
  cases p with
  | leaving ws r => cases he
  | _ => rfl

theorem not_acts_of_lock {n : Nat} (hin : pc.within (.lock n)) : ¬ acts pc := by
  intro ha
  cases pc with
  | unlock n' k =>
    cases k with
    | user => cases hin
    | cond c n'' tm => cases hin.2
  | condEnter | signal | broadcast => cases hin
  | _ => exact ha

/-- Who acts on a condition variable, or unlocks, has the mutex. -/
theorem Phase.inside_of_acts (hc : p.calls op) (hin : pc.within op) (ha : acts pc) :
    p.inside pc := by
  cases p with
  | out => exact hc
  | locking l => obtain rfl := hc; exact absurd ha (not_acts_of_lock hin)
  | waiting c l => exact .inr ha
  | leaving ws r => exact trivial
  | unlocking r => exact ha

theorem not_within_wakeOp_unlock (w : Monitor.Wake Nat) (n : Nat) (k : UnlockRet) :
    ¬ (Pc.unlock n k).within (wakeOp w) := by
  intro h
  cases k with
  | user => cases w <;> cases h
  | cond c n' tm =>
    obtain ⟨_, h⟩ := h
    cases w <;> cases h

theorem Phase.eq_leaving_of_wake (hc : p.calls op) {w : Monitor.Wake Nat}
    (hin : (wakeOp w).start.within op) : ∃ ws r, p = .leaving ws r := by
  cases p with
  | out => exact absurd hc id
  | locking l => obtain rfl := hc; cases w <;> cases hin
  | waiting c l => obtain rfl := hc; cases w <;> cases hin
  | leaving ws r => exact ⟨ws, r, rfl⟩
  | unlocking r => obtain rfl := hc; cases w <;> cases hin

theorem after_of_not_acts (q : Nat → List Nat) (t : Nat) (ha : ¬ acts pc) : after q t pc = q := by
  cases pc with
  | condEnter | signal | broadcast => exact absurd trivial ha
  | _ => rfl

theorem queues_of_free (ho : (s.sync.mutex 0).owner = none) : queues s q = waiters q := by
  unfold queues; rw [ho]

theorem queues_of_owner (ho : (s.sync.mutex 0).owner = some t) :
    queues s q = Monitor.wakeAll (after (waiters q) t (s.sync.pc t)) (s.phase t).left := by
  unfold queues; rw [ho]

variable {pc' : Pc}

theorem Phase.inside_of_acquire (hc : p.calls op) (he : p.ends = false) : p.inside .idle := by
  cases p with
  | out => exact hc
  | locking l => exact rfl
  | waiting c l => exact .inl rfl
  | leaving ws r => cases he
  | unlocking r => cases he

/-- After the unlock the caller is not inside, and it has no wake-ups left. -/
theorem Phase.not_inside_of_release {n : Nat} {k : UnlockRet} (hc : p.calls op)
    (hin : (Pc.unlock n k).within op) (ha : ¬ acts pc') (hidle : pc' = .idle → p.ends = true) :
    p.left = [] ∧ ¬ p.inside pc' := by
  cases p with
  | out => exact absurd hc id
  | locking l => exact ⟨rfl, fun hi => (by cases hidle hi)⟩
  | waiting c l => exact ⟨rfl, fun hi => hi.elim (fun hi => (by cases hidle hi)) ha⟩
  | leaving ws r =>
    obtain ⟨w, rfl⟩ := hc
    exact absurd hin (not_within_wakeOp_unlock w n k)
  | unlocking r => exact ⟨rfl, ha⟩

theorem Phase.inside_of_quiet (hc : p.calls op) (hin : pc.within op) (ha : ¬ acts pc)
    (ha' : ¬ acts pc') (hidle : pc' = .idle → p.ends = true) : p.inside pc' ↔ p.inside pc := by
  have hne : pc ≠ .idle := by rintro rfl; exact hin
  cases p with
  | out => exact absurd hc id
  | locking l => exact ⟨fun hi => (by cases hidle hi), fun hi => absurd hi hne⟩
  | waiting c l =>
    exact ⟨fun hi => hi.elim (fun hi => (by cases hidle hi)) fun h => absurd h ha',
      fun hi => hi.elim (fun hi => absurd hi hne) fun h => absurd h ha⟩
  | leaving ws r => exact Iff.rfl
  | unlocking r => exact ⟨fun h => absurd h ha', fun h => absurd h ha⟩

/-- The owner stays: the others keep what they have, so only `t` has to be looked at. -/
theorem Sim.owner_kept (h : Sim cf s q ch m) (hother : ∀ u, u ≠ t → x'.pc u = s.sync.pc u)
    (hm : x'.mutex 0 = s.sync.mutex 0)
    (ht : (s.phase t).inside (x'.pc t) ↔ (s.phase t).inside (s.sync.pc t)) (u : Nat) :
    (x'.mutex 0).owner = some u ↔ (s.phase u).inside (x'.pc u) := by
  rw [hm, h.owner u]
  by_cases hu : u = t
  · subst hu; exact ht.symm
  · rw [hother u hu]

/-- The mutex after a section, and the queues of the monitor. -/
theorem Sim.section {q' : Obj → List Rec} (h : Sim cf s q ch m) (hc : (s.phase t).calls op)
    (hin : (s.sync.pc t).within op) (hin' : x'.pc t = .idle ∨ (x'.pc t).within op)
    (hother : ∀ u, u ≠ t → x'.pc u = s.sync.pc u)
    (hsec : Section s.sync x' t (s.phase t).ends q q') :
    (∀ u, (x'.mutex 0).owner = some u ↔ (s.phase u).inside (x'.pc u)) ∧
    (x'.mutex 0).locked = (x'.mutex 0).owner.isSome ∧ (x'.mutex 0).nesting = 0 ∧
    queues { s with sync := x' } q' = queues s q := by
  have howns := fun ha => (h.owner t).mpr (Phase.inside_of_acts hc hin ha)
  have hothers : ∀ u, u ≠ t → ((s.phase u).inside (x'.pc u) ↔ (s.sync.mutex 0).owner = some u) := by
    intro u hu; rw [hother u hu]; exact (h.owner u).symm
  cases hsec with
  | acquire k hpc hpc' hfree hm hcm hq =>
    rw [hpc] at hin
    obtain ⟨_, he⟩ := (Phase.calls_uses hc).lock_within hin
    have ho : (s.sync.mutex 0).owner = none := by
      have := h.locked
      rw [hfree] at this
      simpa using this.symm
    refine ⟨fun u => ?_, by rw [hm]; rfl, by rw [hm], ?_⟩
    · by_cases hu : u = t
      · subst hu
        rw [hm, hpc']
        exact ⟨fun _ => Phase.inside_of_acquire hc he, fun _ => rfl⟩
      · rw [hothers u hu, hm, ho]
        simpa using Ne.symm hu
    · rw [queues_of_free ho, queues_of_owner (t := t) (by simp [hm])]
      simp only [hpc', Phase.left_eq_nil he, hq]
      rfl
  | release k hpc hpc' hidle hm hcm hq =>
    have ho := howns (by rw [hpc]; exact trivial)
    rw [hpc] at hin
    obtain ⟨hleft, hout⟩ := Phase.not_inside_of_release hc hin hpc' hidle
    refine ⟨fun u => ?_, by rw [hm]; rfl, by rw [hm], ?_⟩
    · by_cases hu : u = t
      · subst hu; simpa [hm] using hout
      · rw [hothers u hu, hm, ho]
        simpa using Ne.symm hu
    · rw [queues_of_owner ho, queues_of_free (by simp [hm]), hleft, hpc, hq]
      rfl
  | enqueue c hpc hpc' hm hcm hq =>
    have ho := howns (by rw [hpc]; exact trivial)
    have hact : acts (x'.pc t) := by rw [hpc']; exact trivial
    have hins : (s.phase t).inside (x'.pc t) := by
      obtain hid | hw := hin'
      · rw [hid] at hact; exact absurd hact id
      · exact Phase.inside_of_acts hc hw hact
    refine ⟨h.owner_kept hother hm ⟨fun _ => (h.owner t).mp ho, fun _ => hins⟩,
      by rw [hm]; exact h.locked, by rw [hm]; exact h.nesting, ?_⟩
    rw [queues_of_owner ho, queues_of_owner (t := t) (by simp [hm, ho])]
    simp only [hpc', hq]
    rfl
  | wake w hpc hpc' hm hcm hq =>
    rw [hpc] at hin
    obtain ⟨ws, r, hp⟩ := Phase.eq_leaving_of_wake hc hin
    have ho := (h.owner t).mpr (by rw [hp]; exact trivial)
    refine ⟨h.owner_kept hother hm (by rw [hp]; exact Iff.rfl), by rw [hm]; exact h.locked,
      by rw [hm]; exact h.nesting, ?_⟩
    rw [queues_of_owner ho, queues_of_owner (t := t) (by simp [hm, ho])]
    simp only [after_of_not_acts _ t hpc', hq]
  | quiet hpc hpc' hidle hm hcm hq =>
    refine ⟨h.owner_kept hother hm (Phase.inside_of_quiet hc hin hpc hpc' hidle),
      by rw [hm]; exact h.locked, by rw [hm]; exact h.nesting, ?_⟩
    unfold queues
    simp only [hm]
    cases (s.sync.mutex 0).owner with
    | none => exact hq
    | some u =>
      have hafter : after (waiters q') u (x'.pc u) = after (waiters q) u (s.sync.pc u) := by
        by_cases hu : u = t
        · subst hu; rw [after_of_not_acts _ _ hpc, after_of_not_acts _ _ hpc', hq]
        · rw [hother u hu, hq]
      simp only [hafter]

theorem section_conds {q' : Obj → List Rec} {b : Bool} {x : Sync.State}
    (hsec : Section x x' t b q q') (h : ∀ c, x.condMutex c = none ∨ x.condMutex c = some 0) (c : Nat) :
    x'.condMutex c = none ∨ x'.condMutex c = some 0 := by
  cases hsec with
  | enqueue c' _ _ _ hcm _ =>
    rw [hcm, Function.update_apply]
    split
    · exact .inr rfl
    · exact h c
  | acquire _ _ _ _ _ hcm _ => rw [hcm]; exact h c
  | release _ _ _ _ _ hcm _ => rw [hcm]; exact h c
  | wake _ _ _ _ hcm _ => rw [hcm]; exact h c
  | quiet _ _ _ _ hcm _ => rw [hcm]; exact h c

/-- A step of the machine below changes nothing in the monitor. -/
theorem Sim.go (h : Sim cf s q ch m) (hrec : cf.recursive 0 = false)
    (hst : advance cf s.sync t = some x') :
    Sim cf { s with sync := x' } (queueAfter cf s.sync t q) (chainsAfter cf s.sync t q ch) m := by
  have hother := advance_other hst
  have hne : s.sync.pc t ≠ .idle := by intro he; simp [advance, he] at hst
  obtain ⟨op, hc, hin⟩ := (h.calls t).resolve_left hne
  have hin' := advance_within hin hst
  have hsec := advance_section (q := q) (Phase.calls_uses hc) hin h.nesting hrec h.conds hst
  obtain ⟨howner, hlocked, hnest, hq⟩ := h.section hc hin hin' hother hsec
  refine ⟨h.plain.go hst, fun u => ?_, fun u hu => ?_, howner, hlocked, hnest,
    section_conds hsec h.conds, h.data, h.queue.trans hq.symm, h.pos, h.result⟩
  · by_cases hut : u = t
    · subst hut; exact hin'.imp id fun hw => ⟨op, hc, hw⟩
    · rw [hother u hut]; exact h.calls u
  · have hut : u ≠ t := by rintro rfl; exact hne (h.outside u hu)
    rw [hother u hut]; exact h.outside u hu

/-! ## The steps of the object -/

variable {s' : State V L R} {v : V}

theorem enter_eq (hst : s.enter cf t op v p = some s') :
    s.sync.pc t = .idle ∧ s' =
      { sync := ({ s.sync with op := Function.update s.sync.op t (s.sync.op t + 1) } :
          Sync.State).leave t (.to op.start)
        data := v, phase := Function.update s.phase t p, result := s.result } := by
  unfold State.enter at hst
  simp only [Sync.step] at hst
  split at hst
  · rename_i hidle
    exact ⟨hidle, by simpa using hst.symm⟩
  · cases hst

theorem queues_enter (hst : s.enter cf t op v p = some s') :
    queues s' q = if (s.sync.mutex 0).owner = some t then
      Monitor.wakeAll (after (waiters q) t op.start) p.left else queues s q := by
  obtain ⟨_, rfl⟩ := enter_eq hst
  unfold queues
  simp only [leave_mutex]
  cases ho : (s.sync.mutex 0).owner with
  | none => rfl
  | some u =>
    by_cases hu : u = t
    · subst hu; simp [Exit.to]
    · simp [hu]

/-- A call on the machine below, in the phase `p`. -/
theorem Sim.enter {m' : Monitor.State V L Nat R} (h : Sim cf s q ch m)
    (hst : s.enter cf t op v p = some s') (huntimed : Untimed s.sync (.call t op))
    (hcalls : p.calls op) (hown : p.inside op.start ↔ (s.phase t).inside .idle)
    (hdata : m'.data = v) (hqueue : m'.queue = queues s' q)
    (hpos : ∀ u, m'.pos u = (Function.update s.phase t p u).pos m'.queue u)
    (hres : m'.result = s.result) : Sim cf s' q ch m' := by
  obtain ⟨hidle, rfl⟩ := enter_eq hst
  have hout : p ≠ .out := by rintro rfl; exact hcalls
  refine ⟨h.plain.call huntimed hidle, fun u => ?_, fun u hu => ?_, fun u => ?_, h.locked, h.nesting,
    h.conds, hdata, hqueue, hpos, hres⟩
  · by_cases hut : u = t
    · subst hut
      simp only [leave_pc, Function.update_self]
      exact .inr ⟨op, hcalls, start_within op⟩
    · simp only [leave_pc, Function.update_of_ne hut]; exact h.calls u
  · have hut : u ≠ t := by
      rintro rfl
      simp only [Function.update_self] at hu
      exact hout hu
    simp only [Function.update_of_ne hut] at hu
    simp only [leave_pc, Function.update_of_ne hut]
    exact h.outside u hu
  · by_cases hut : u = t
    · subst hut
      simp only [leave_pc, leave_mutex, Function.update_self]
      rw [h.owner u, hidle]
      exact hown.symm
    · simp only [leave_pc, leave_mutex, Function.update_of_ne hut]
      exact h.owner u

/-- A caller goes on to the phase `p` without a call on the machine below. -/
theorem Sim.between {m' : Monitor.State V L Nat R} {res : Nat → Option R} (h : Sim cf s q ch m)
    (hidle : s.sync.pc t = .idle) (hown : (s.sync.mutex 0).owner = some t ↔ p.inside .idle)
    (hdata : m'.data = v)
    (hqueue : m'.queue = queues { s with phase := Function.update s.phase t p } q)
    (hpos : ∀ u, m'.pos u = (Function.update s.phase t p u).pos m'.queue u)
    (hres : m'.result = res) :
    Sim cf { s with
      data := v
      phase := Function.update s.phase t p
      result := res } q ch m' := by
  refine ⟨h.plain, fun u => ?_, fun u hu => ?_, fun u => ?_, h.locked, h.nesting, h.conds, hdata,
    hqueue, hpos, hres⟩
  · by_cases hut : u = t
    · subst hut; exact .inl hidle
    · simp only [Function.update_of_ne hut]; exact h.calls u
  · by_cases hut : u = t
    · subst hut; exact hidle
    · simp only [Function.update_of_ne hut] at hu; exact h.outside u hu
  · by_cases hut : u = t
    · subst hut
      simp only [Function.update_self, hidle]
      exact hown
    · simp only [Function.update_of_ne hut]; exact h.owner u

/-- A caller in user code is on no list. -/
theorem Sim.not_waiter (h : Sim cf s q ch m) (hidle : s.sync.pc t = .idle) (c : Nat) :
    t ∉ waiters q c := by
  intro hm
  obtain ⟨w, hw, rfl⟩ := List.mem_map.mp hm
  have hl := (h.plain.lists.listed (.cond c) w trivial).mp hw
  obtain ⟨_, md, hwait⟩ := h.plain.lists.onList _ w trivial hl
  rw [hidle] at hwait
  cases hwait

/-- The owner of the mutex between two calls: the queues are the lists. -/
theorem Sim.turn (h : Sim cf s q ch m) (hidle : s.sync.pc t = .idle) {l : L}
    (hp : s.phase t = .locking l ∨ ∃ c, s.phase t = .waiting c l) :
    (s.sync.mutex 0).owner = some t ∧ m.queue = waiters q ∧ ∃ o, m.pos t = .ready o l := by
  have hin : (s.phase t).inside (s.sync.pc t) := by
    rw [hidle]
    obtain hp | ⟨c, hp⟩ := hp <;> rw [hp]
    · exact rfl
    · exact .inl rfl
  have ho := (h.owner t).mpr hin
  have hq : m.queue = waiters q := by
    rw [h.queue, queues_of_owner ho, hidle]
    obtain hp | ⟨c, hp⟩ := hp <;> rw [hp] <;> rfl
  refine ⟨ho, hq, ?_⟩
  rw [h.pos t, hq]
  obtain hp | ⟨c, hp⟩ := hp <;> rw [hp]
  · exact ⟨none, rfl⟩
  · exact ⟨some c, if_neg (h.not_waiter hidle c)⟩

theorem Phase.settle_pos {q₁ q₂ : Nat → List Nat} (hsub : ∀ c, q₂ c ⊆ q₁ c) (p : Phase L R)
    (t : Nat) : Monitor.settle q₂ t (p.pos q₁ t) = p.pos q₂ t := by
  cases p with
  | waiting c l =>
    by_cases h₁ : t ∈ q₁ c
    · simp [Phase.pos, Monitor.settle, h₁]
    · have h₂ : t ∉ q₂ c := fun hm => h₁ (hsub c hm)
      simp [Phase.pos, Monitor.settle, h₁, h₂]
  | _ => rfl

variable {P : Monitor.Prog V L Nat R} {l : L}

/-- The section ends in a wait. -/
theorem Sim.wait {c : Nat} {l' : L} (h : Sim cf s q ch m) (hidle : s.sync.pc t = .idle)
    (hp : s.phase t = .locking l ∨ ∃ c, s.phase t = .waiting c l)
    (hP : P t l s.data = (v, .wait c l'))
    (hst : s.enter cf t (.condWait c 0 false) v (.waiting c l') = some s') :
    ∃ m', Monitor.step P m (.turn t) = some m' ∧ Sim cf s' q ch m' := by
  obtain ⟨ho, hq, o, hpos⟩ := h.turn hidle hp
  refine ⟨_, Monitor.step_turn hpos, ?_⟩
  rw [Monitor.turn_wait (by rw [h.data]; exact hP)]
  have hin : (s.phase t).inside .idle := by rw [← hidle]; exact (h.owner t).mp ho
  refine h.enter hst rfl rfl ⟨fun _ => hin, fun _ => .inr trivial⟩ rfl ?_ (fun u => ?_) h.result
  · rw [queues_enter hst, if_pos ho, hq]; rfl
  · by_cases hut : u = t
    · subst hut
      simp [Phase.pos]
    · simp only [Function.update_of_ne hut]
      rw [h.pos u]
      cases s.phase u with
      | waiting c' l₁ =>
        by_cases hc : c' = c
        · subst hc; simp [Phase.pos, hut]
        · simp [Phase.pos, hc]
      | _ => rfl

/-- The section ends the call. -/
theorem Sim.done {ws : List (Monitor.Wake Nat)} {r : R} (h : Sim cf s q ch m)
    (hidle : s.sync.pc t = .idle)
    (hp : s.phase t = .locking l ∨ ∃ c, s.phase t = .waiting c l)
    (hP : P t l s.data = (v, .done ws r)) :
    ∃ m', Monitor.step P m (.turn t) = some m' ∧ Sim cf
      { s with data := v, phase := Function.update s.phase t (.leaving ws r) } q ch m' := by
  obtain ⟨ho, hq, o, hpos⟩ := h.turn hidle hp
  refine ⟨_, Monitor.step_turn hpos, ?_⟩
  rw [Monitor.turn_done (by rw [h.data]; exact hP)]
  refine h.between hidle ⟨fun _ => trivial, fun _ => ho⟩ rfl ?_ (fun u => ?_) h.result
  · unfold queues
    simp only [ho, hidle, hq, Function.update_self]
    rfl
  · by_cases hut : u = t
    · subst hut; simp [Phase.pos]
    · simp only [Function.update_of_ne hut]
      rw [h.pos u]
      exact Phase.settle_pos (fun c => (Monitor.wakeAll_sublist _ _ c).subset) _ _

/-- A wake-up on the way out: the monitor has made it already. -/
theorem Sim.leave {w : Monitor.Wake Nat} {ws : List (Monitor.Wake Nat)} {r : R}
    (h : Sim cf s q ch m) (hidle : s.sync.pc t = .idle) (hp : s.phase t = .leaving (w :: ws) r)
    (hst : s.enter cf t (wakeOp w) s.data (.leaving ws r) = some s') : Sim cf s' q ch m := by
  have ho := (h.owner t).mpr (by rw [hp]; exact trivial)
  refine h.enter hst (by cases w <;> exact trivial) ⟨w, rfl⟩ (by rw [hp]; exact Iff.rfl) h.data ?_
    (fun u => ?_) h.result
  · rw [queues_enter hst, if_pos ho, h.queue, queues_of_owner ho, hp, hidle]
    cases w <;> rfl
  · rw [h.pos u]
    by_cases hut : u = t
    · subst hut; rw [hp, Function.update_self]; rfl
    · rw [Function.update_of_ne hut]

/-- The unlock at the end of the call. -/
theorem Sim.unlock {r : R} (h : Sim cf s q ch m) (hidle : s.sync.pc t = .idle)
    (hp : s.phase t = .leaving [] r)
    (hst : s.enter cf t (.unlock 0) s.data (.unlocking r) = some s') : Sim cf s' q ch m := by
  have ho := (h.owner t).mpr (by rw [hp]; exact trivial)
  refine h.enter hst trivial rfl (by rw [hp]; exact Iff.rfl) h.data ?_ (fun u => ?_) h.result
  · rw [queues_enter hst, if_pos ho, h.queue, queues_of_owner ho, hp, hidle]
    rfl
  · rw [h.pos u]
    by_cases hut : u = t
    · subst hut; rw [hp, Function.update_self]; rfl
    · rw [Function.update_of_ne hut]

/-- A new call. -/
theorem Sim.call (h : Sim cf s q ch m) (hp : s.phase t = .out)
    (hst : s.enter cf t (.lock 0) s.data (.locking l) = some s') :
    ∃ m', Monitor.step P m (.call t l) = some m' ∧ Sim cf s' q ch m' := by
  have hpos : m.pos t = .out := by rw [h.pos t, hp]; rfl
  have ho : (s.sync.mutex 0).owner ≠ some t := by
    intro ho
    have := (h.owner t).mp ho
    rw [hp] at this
    exact this
  refine ⟨_, Monitor.step_call l hpos, ?_⟩
  refine h.enter hst trivial rfl ?_ h.data ?_ (fun u => ?_) h.result
  · rw [hp]
    exact ⟨fun hi => (by cases hi), fun hi => absurd hi id⟩
  · rw [queues_enter hst, if_neg ho]; exact h.queue
  · by_cases hut : u = t
    · subst hut; simp [Phase.pos]
    · simp only [Function.update_of_ne hut]; exact h.pos u

/-- The return of a call. -/
theorem Sim.ret {r : R} (h : Sim cf s q ch m) (hidle : s.sync.pc t = .idle)
    (hp : s.phase t = .unlocking r) :
    ∃ m', Monitor.step P m (.ret t) = some m' ∧ Sim cf
      { s with
        phase := Function.update s.phase t .out
        result := Function.update s.result t (some r) } q ch m' := by
  have hpos : m.pos t = .finished r := by rw [h.pos t, hp]; rfl
  have ho : (s.sync.mutex 0).owner ≠ some t := by
    intro ho
    have := (h.owner t).mp ho
    rw [hp, hidle] at this
    exact this
  refine ⟨_, Monitor.step_ret hpos, ?_⟩
  refine h.between hidle ⟨fun hi => absurd hi ho, fun hi => absurd hi id⟩ h.data ?_ (fun u => ?_)
    (by rw [← h.result])
  · rw [h.queue]
    unfold queues
    cases hu : (s.sync.mutex 0).owner with
    | none => rfl
    | some u =>
      have hut : u ≠ t := by rintro rfl; exact ho hu
      simp only [Function.update_of_ne hut]
  · by_cases hut : u = t
    · subst hut; simp [Phase.pos]
    · simp only [Function.update_of_ne hut]; exact h.pos u

/-- A step of the object is a step of the monitor or none. -/
theorem Sim.step {E : V → Nat → L → Prop} {a : Act L} (h : Sim cf s q ch m)
    (hrec : cf.recursive 0 = false) (hg : Calls E s a) (hst : step cf P s a = some s') :
    ∃ q' ch', Sim cf s' q' ch' m ∨
      ∃ b m', Monitor.Calls E m b ∧ Monitor.step P m b = some m' ∧ Sim cf s' q' ch' m' := by
  cases a with
  | call t l =>
    simp only [Guarded.step] at hst
    split at hst
    case h_2 => cases hst
    rename_i hp
    obtain ⟨m', hm, h'⟩ := h.call (P := P) hp hst
    refine ⟨q, ch, .inr ⟨_, m', ?_, hm, h'⟩⟩
    show E m.data t l
    rw [h.data]; exact hg
  | go t =>
    simp only [Guarded.step, Option.map_eq_some_iff] at hst
    obtain ⟨x', hst, rfl⟩ := hst
    exact ⟨_, _, .inl (h.go hrec hst)⟩
  | callback o =>
    simp only [Guarded.step, Option.map_eq_some_iff] at hst
    obtain ⟨x', hst, rfl⟩ := hst
    have hun : Untimed s.sync (.callback o) := trivial
    have hplain := h.plain.step hun hst
    obtain ⟨_, _, ha, _⟩ | ⟨_, ha, _⟩ | ⟨_, _, _, _, rfl⟩ := step_untimed hun hst
    · cases ha
    · cases ha
    · exact ⟨q, ch, .inl ⟨hplain, h.calls, h.outside, h.owner, h.locked, h.nesting, h.conds, h.data,
        h.queue, h.pos, h.result⟩⟩
  | run t =>
    simp only [Guarded.step] at hst
    split at hst
    case isFalse => cases hst
    rename_i hidle
    have hturn : ∀ l, (s.phase t = .locking l ∨ ∃ c, s.phase t = .waiting c l) →
        (∀ v c l', P t l s.data = (v, .wait c l') →
          s.enter cf t (.condWait c 0 false) v (.waiting c l') = some s') →
        (∀ v ws r, P t l s.data = (v, .done ws r) →
          some { s with data := v, phase := Function.update s.phase t (.leaving ws r) } = some s') →
        ∃ m', Monitor.step P m (.turn t) = some m' ∧ Sim cf s' q ch m' := by
      intro l hp hwait hdone
      cases hP : P t l s.data with
      | mk v o =>
        cases o with
        | wait c l' => exact h.wait hidle hp hP (hwait v c l' hP)
        | done ws r => cases hdone v ws r hP; exact h.done hidle hp hP
    refine ⟨q, ch, ?_⟩
    unfold run at hst
    cases hp : s.phase t with
    | out => simp only [hp] at hst; cases hst
    | locking l =>
      simp only [hp] at hst
      obtain ⟨m', hm, h'⟩ := hturn l (.inl hp) (fun v c l' hP => by simpa only [hP] using hst)
        fun v ws r hP => by simpa only [hP] using hst
      exact .inr ⟨.turn t, m', trivial, hm, h'⟩
    | waiting c l =>
      simp only [hp] at hst
      obtain ⟨m', hm, h'⟩ := hturn l (.inr ⟨c, hp⟩)
        (fun v c l' hP => by simpa only [hP] using hst) fun v ws r hP => by simpa only [hP] using hst
      exact .inr ⟨.turn t, m', trivial, hm, h'⟩
    | leaving ws r =>
      cases ws with
      | nil => simp only [hp] at hst; exact .inl (h.unlock hidle hp hst)
      | cons w ws => simp only [hp] at hst; exact .inl (h.leave hidle hp hst)
    | unlocking r =>
      simp only [hp] at hst
      cases hst
      obtain ⟨m', hm, h'⟩ := h.ret (P := P) hidle hp
      exact .inr ⟨.ret t, m', trivial, hm, h'⟩

/-- Every state the object reaches is matched by one that the monitor reaches. -/
theorem reach_sim {ult : Nat → Bool} {v₀ : V} {E : V → Nat → L → Prop}
    (hr : Reach (system ult P v₀) (Calls E) s) :
    ∃ m, Reach (Monitor.system P v₀) (Monitor.Calls E) m ∧ ∃ q ch, Sim (config ult) s q ch m := by
  refine hr.simulation (R := fun s m => ∃ q ch, Sim (config ult) s q ch m) ?_ ?_
  · rintro s rfl
    refine ⟨_, rfl, fun _ => [], fun _ => [], .initial, fun _ => .inl rfl, fun _ _ => rfl, fun _ => ?_,
      rfl, rfl, fun _ => .inl rfl, rfl, rfl, fun _ => rfl, rfl⟩
    exact ⟨fun ho => (by cases ho), fun hi => absurd hi id⟩
  · rintro s m a s' ⟨q, ch, h⟩ hg hst
    obtain ⟨q', ch', h' | ⟨b, m', hb, hm, h'⟩⟩ := h.step rfl hg hst
    · exact .inl ⟨q', ch', h'⟩
    · exact .inr ⟨b, m', hb, hm, q', ch', h'⟩

/-! ## The lists when the mutex is free -/

/-- The caller's record was put on the list of `c` and is not there any more, and the caller has not
looked at the data since. -/
def Signalled (s : State V L R) (c t : Nat) (l : L) : Prop :=
  s.phase t = .waiting c l ∧ ¬ acts (s.sync.pc t) ∧ ¬ OnList s.sync c t

theorem Sim.owner_free (h : Sim cf s q ch m) (hfree : (s.sync.mutex 0).locked = false) :
    (s.sync.mutex 0).owner = none := by
  have := h.locked
  rw [hfree] at this
  simpa using this.symm

theorem Sim.onList_iff (h : Sim cf s q ch m) (hfree : (s.sync.mutex 0).locked = false) (c t : Nat) :
    OnList s.sync c t ↔ t ∈ m.queue c := by
  rw [h.queue, queues_of_free (h.owner_free hfree)]
  constructor
  · intro hl
    exact List.mem_map.mpr ⟨_, (h.plain.lists.listed (.cond c) _ trivial).mpr hl, rfl⟩
  · intro hm
    obtain ⟨w, hw, rfl⟩ := List.mem_map.mp hm
    have hl := (h.plain.lists.listed (.cond c) w trivial).mp hw
    have hslot : w.slot = .wait := h.plain.lists.typedPlace _ w hl
    show (s.sync.waiter ⟨w.owner, .wait⟩).place = _
    rw [← hslot]; exact hl

/-- A caller that is ready after a wait was signalled. -/
theorem Sim.signalled (h : Sim cf s q ch m) (hfree : (s.sync.mutex 0).locked = false) {c : Nat}
    (hpos : m.pos t = .ready (some c) l) : Signalled s c t l := by
  rw [h.pos t] at hpos
  cases hp : s.phase t with
  | waiting c' l' =>
    rw [hp] at hpos
    simp only [Phase.pos] at hpos
    split at hpos
    · cases hpos
    · rename_i hn
      obtain ⟨rfl, rfl⟩ : c' = c ∧ l' = l := by simpa using hpos
      refine ⟨hp, fun ha => ?_, fun hl => hn ((h.onList_iff hfree _ _).mp hl)⟩
      have ho := (h.owner t).mpr (by rw [hp]; exact .inr ha)
      rw [h.owner_free hfree] at ho
      cases ho
  | out => rw [hp] at hpos; cases hpos
  | locking l' => rw [hp] at hpos; cases hpos
  | leaving ws r => rw [hp] at hpos; cases hpos
  | unlocking r => rw [hp] at hpos; cases hpos

/-- A signalled caller that is still in its wait is woken, or a waker is at work on its record. -/
theorem Sim.released (h : Sim cf s q ch m) {c : Nat} (hs : Signalled s c t l) {md : Mode}
    (hw : (s.sync.pc t).wait = some (.cond c, md)) :
    Woken s.sync ⟨t, .wait⟩ ∨ ∃ x, ToWake s.sync x ⟨t, .wait⟩ := by
  obtain hl | ⟨_, x, n, hpl⟩ := ((h.plain.lists.waits t).record _ md hw trivial).place
  · exact absurd hl hs.2.2
  · exact (h.plain.toWake hw hpl).imp id fun hx => ⟨x, hx⟩

/-- The object is a monitor: data and results are the same, and while the mutex is free the lists of
the condition variables are its queues. -/
theorem guarded_refines {ult : Nat → Bool} {v₀ : V} {E : V → Nat → L → Prop}
    (hr : Reach (system ult P v₀) (Calls E) s) :
    ∃ m, Reach (Monitor.system P v₀) (Monitor.Calls E) m ∧ m.data = s.data ∧ m.result = s.result ∧
      ((s.sync.mutex 0).locked = false → ∀ c t, OnList s.sync c t ↔ t ∈ m.queue c) := by
  obtain ⟨m, hm, q, ch, hsim⟩ := reach_sim hr
  exact ⟨m, hm, hsim.data, hsim.result, hsim.onList_iff⟩

end

end Guarded
end AbtReconverse
