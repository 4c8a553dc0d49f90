import AbtReconverse.Pool.Atomic
import AbtReconverse.Pool.ListPath

/-!
# AbtReconverse.Pool.Listed

The list path of a built-in pool follows `Pool.Atomic`, for any number of producers and consumers
and with at most one unit (the primary ULT) that some PEs may not resume. A push takes effect where
it links its unit, a pop where it unlinks one, a removal where it unlinks its unit or finds it not
queued; all of these are inside a section under `lk`. `list_pool` collects what this says about the
pointers, `in_pool`, the results and `size`.
-/

namespace AbtReconverse
namespace ListPath

open Lts
open Waiting (StoreAct)
open Atomic (Follows Phase)

/-- `pinned c`: the units that the PE of consumer `c` may not resume. -/
def system (pinned : Nat → Nat → Bool) (pool : Nat → Option Nat) : System State StoreAct where
  init s := s = initial pool
  step := step pinned

def label : StoreAct → Atomic.Label
  | .enter t | .push t => .push t
  | .count => .count
  | .pop c => .call c .pop
  | .remove c t => .call c (.remove t)
  | .call c => .cons c

def Result.atomic : Result → Atomic.Result
  | .popped t => .popped t
  | .removed hit => .removed hit

def ConsPc.atomic : ConsPc → Phase
  | .idle => .idle
  | .popLock | .popTake => .called .pop
  | .popFlag t | .popUnlock (some t) | .popCount t => .decided (.popped (some t))
  | .popUnlock none => .decided (.popped none)
  | .remLock t | .remTest t | .remUnlink t => .called (.remove t)
  | .remUnlock hit => .decided (.removed hit)
  | .remFlag _ | .remCount => .decided (.removed true)

/-- The pool with list `l`, as the specification sees it. -/
def State.atomic (s : State) (l : List Nat) : Atomic.State where
  queue := l
  phase := fun c => (s.cons c).atomic
  result := fun c => (s.result c).map Result.atomic

def rules (pinned : Nat → Nat → Bool) (pool : Nat → Option Nat) : Atomic.Rules where
  resume := fun c t => !pinned c t
  mine := fun t => pool t = some 0
  inFlight := false

/-- Units keep their pool, and a removal that goes on to unlink has tested it. -/
structure Associated (pool : Nat → Option Nat) (s : State) : Prop where
  same : s.mem.pool = pool
  unlink : ∀ c t, s.cons c = .remUnlink t → pool t = some 0

/-- With no operation in flight. -/
def Quiet (s : State) : Prop :=
  (∀ t, s.push t = .idle) ∧ s.linked = 0 ∧ ∀ c, s.cons c = .idle

section

variable {pinned : Nat → Nat → Bool} {pool : Nat → Option Nat} {s s' : State} {l : List Nat}
  {c t : Nat} {pc : ConsPc} {a : StoreAct}

/-! ### What a pop takes -/

/-- The first unit that the consumer may resume: at most one is pinned. -/
theorem Inv.first_eq (h : Inv s l) (hone : ∀ t u, pinned c t = true → pinned c u = true → t = u) :
    s.first (pinned c) = l.find? fun t => !pinned c t := by
  have hhead := h.list.head_eq
  unfold State.first
  rw [hhead]
  cases l with
  | nil => rfl
  | cons t k =>
    have hlist : Doubly s.mem.lprev s.mem.lnext (s.mem.lhead 0) (s.mem.ltail 0) ([] ++ t :: k) :=
      h.list
    have hnext : s.mem.lnext t = k.head? := hlist.next_eq
    cases hp : pinned c t with
    | false => simp [hp]
    | true =>
      rw [List.find?_cons_of_neg (by simp [hp])]
      simp only [List.head?_cons, hp, if_true, hnext]
      cases k with
      | nil => rfl
      | cons u k =>
        have hne : u ≠ t := by
          rintro rfl
          have := h.list.nodup
          simp at this
        have hu : pinned c u = false := by
          rw [Bool.eq_false_iff]
          exact fun hu => hne (hone u t hu hp)
        rw [List.find?_cons_of_pos (by simp [hu])]
        rfl

/-! ### The pool of a unit -/

theorem listUnlink_pool (m : Storage.State) (t : Nat) : (m.listUnlink 0 t).pool = m.pool := by
  rw [Storage.listUnlink_eq]

theorem Associated.start : Associated pool (initial pool) := ⟨rfl, by simp [initial]⟩

theorem Associated.push (h : Associated pool s) (hm : s'.mem.pool = s.mem.pool)
    (hc : s'.cons = s.cons) : Associated pool s' :=
  ⟨hm.trans h.same, by rw [hc]; exact h.unlink⟩

theorem Associated.cons (h : Associated pool s) (hm : s'.mem.pool = s.mem.pool)
    (hc : s'.cons = Function.update s.cons c pc) (hpc : ∀ t, pc = .remUnlink t → pool t = some 0) :
    Associated pool s' := by
  refine ⟨hm.trans h.same, fun d u hu => ?_⟩
  rw [hc] at hu
  by_cases hd : d = c
  · subst hd
    rw [Function.update_self] at hu
    exact hpc u hu
  · rw [Function.update_of_ne hd] at hu
    exact h.unlink d u hu

theorem Associated.step (h : Associated pool s) (hs : step pinned s a = some s') :
    Associated pool s' := by
  unfold ListPath.step at hs
  split at hs
  · cases hs
  cases a with
  | enter t =>
    cases hs
    unfold enter
    split <;> exact h.push rfl rfl
  | push t =>
    unfold pushStep at hs
    dsimp only at hs
    generalize hpc : s.push t = pc at hs
    cases pc with
    | idle => cases hs
    | lock =>
      simp only [Option.ite_none_right_eq_some] at hs
      cases hs.2
      exact h.push rfl rfl
    | link | unlock =>
      cases hs
      exact h.push rfl rfl
  | count =>
    simp only [countStep, Option.ite_none_right_eq_some] at hs
    cases hs.2
    exact h.push rfl rfl
  | pop c | remove c t =>
    simp only [Option.ite_none_right_eq_some] at hs
    cases hs.2
    exact h.cons rfl rfl (by simp)
  | call c =>
    unfold consStep at hs
    dsimp only at hs
    generalize hpc : s.cons c = pc at hs
    cases pc with
    | idle => cases hs
    | popLock | remLock t =>
      simp only [Option.ite_none_right_eq_some] at hs
      cases hs.2
      exact h.cons rfl rfl (by simp)
    | popTake =>
      cases hf : s.first (pinned c) with
      | some t =>
        simp only [hf] at hs
        cases hs
        exact h.cons (listUnlink_pool ..) rfl (by simp)
      | none =>
        simp only [hf] at hs
        cases hs
        exact h.cons rfl rfl (by simp)
    | popUnlock o =>
      cases o with
      | none => cases hs; exact h.cons rfl rfl (by simp)
      | some t => cases hs; exact h.cons rfl rfl (by simp)
    | remTest t =>
      cases hs
      refine h.cons rfl rfl fun u hu => ?_
      split at hu
      · rename_i hin
        cases hu
        rw [← h.same]
        exact hin.2
      · cases hu
    | remUnlink t =>
      cases hs
      exact h.cons (listUnlink_pool ..) rfl (by simp)
    | remUnlock hit =>
      cases hit with
      | true => cases hs; exact h.cons rfl rfl (by simp)
      | false => cases hs; exact h.cons rfl rfl (by simp)
    | popFlag t | popCount t | remFlag t | remCount =>
      cases hs
      exact h.cons rfl rfl (by simp)

/-! ### The specification is followed -/

theorem atomic_push (hc : s'.cons = s.cons) (hr : s'.result = s.result) (k : List Nat) :
    s'.atomic k = { s.atomic l with queue := k } := by
  unfold State.atomic
  rw [hc, hr]

theorem atomic_cons (hc : s'.cons = Function.update s.cons c pc) (hr : s'.result = s.result)
    (k : List Nat) : s'.atomic k = { s.atomic l with queue := k }.setPhase c pc.atomic := by
  unfold State.atomic Atomic.State.setPhase
  rw [hc, hr]
  congr
  exact Function.comp_update ConsPc.atomic s.cons c pc

/-- A step of a call that is a step of the specification. -/
theorem follows_cons {R : Atomic.Rules} {b : Atomic.Act} {k : List Nat}
    (hc : s'.cons = Function.update s.cons c pc) (hr : s'.result = s.result)
    (hst : Atomic.step R (s.atomic l) b =
      some ({ s.atomic l with queue := k }.setPhase c pc.atomic)) :
    Follows R b.label (s.atomic l) (s'.atomic k) :=
  .inr ⟨b, rfl, by rw [hst, atomic_cons hc hr]⟩

/-- A step of a push that the specification does not see. -/
theorem follows_push {R : Atomic.Rules} {x : Atomic.Label} (hc : s'.cons = s.cons)
    (hr : s'.result = s.result) : Follows R x (s.atomic l) (s'.atomic l) :=
  .inl (atomic_push (l := l) hc hr l)

/-- A step of a call that the specification does not see. -/
theorem follows_same {R : Atomic.Rules} {x : Atomic.Label} {pc₀ : ConsPc} (hpc : s.cons c = pc₀)
    (hc : s'.cons = Function.update s.cons c pc) (hr : s'.result = s.result)
    (hph : pc.atomic = pc₀.atomic) : Follows R x (s.atomic l) (s'.atomic l) := by
  refine .inl ?_
  rw [atomic_cons (l := l) hc hr, hph, ← hpc]
  exact congrArg (fun f => { s.atomic l with phase := f })
    (Function.update_eq_self c (s.atomic l).phase)

/-- The call returns what was decided. -/
theorem follows_back {R : Atomic.Rules} {pc₀ : ConsPc} {r : Result} (hpc : s.cons c = pc₀)
    (hph : pc₀.atomic = .decided r.atomic) {m : Storage.State} {lk : Option (Nat ⊕ Nat)} :
    Follows R (.cons c) (s.atomic l) (State.atomic ({ s with mem := m, lk := lk }.back c r) l) := by
  refine .inr ⟨.back c r.atomic, rfl, ?_⟩
  have hc : (s.atomic l).phase c = .decided r.atomic := by
    show (s.cons c).atomic = _
    rw [hpc, hph]
  simp only [Atomic.step, hc, if_true, Option.some.injEq]
  unfold State.atomic State.back Atomic.State.setPhase
  congr
  · exact (Function.comp_update ConsPc.atomic s.cons c .idle).symm
  · exact (Function.comp_update (Option.map Result.atomic) s.result c (some r)).symm

theorem consStep_follows (hone : ∀ c t u, pinned c t = true → pinned c u = true → t = u)
    (h : Inv s l) (hp : Associated pool s) (hs : consStep pinned s c = some s') :
    Follows (rules pinned pool) (.cons c) (s.atomic l) (s'.atomic (s.after pinned l (.call c))) := by
  have hphase : (s.atomic l).phase c = (s.cons c).atomic := rfl
  unfold consStep at hs
  dsimp only [State.after]
  generalize hpc : s.cons c = pc at hs hphase
  cases pc with
  | idle => cases hs
  | popLock | remLock t =>
    simp only [Option.ite_none_right_eq_some] at hs
    cases hs.2
    exact follows_same hpc rfl rfl rfl
  | popTake =>
    have hfirst := h.first_eq (hone c)
    cases hf : s.first (pinned c) with
    | some t =>
      simp only [hf] at hs
      cases hs
      have hfind : (s.atomic l).queue.find? ((rules pinned pool).resume c) = some t :=
        hfirst.symm.trans hf
      refine follows_cons (b := .take c) rfl rfl ?_
      simp only [Atomic.step, hphase, ConsPc.atomic, if_true, hfind, Option.map_some]
      rfl
    | none =>
      simp only [hf] at hs
      cases hs
      have hfind : (s.atomic l).queue.find? ((rules pinned pool).resume c) = none :=
        hfirst.symm.trans hf
      refine follows_cons (b := .miss c) rfl rfl ?_
      simp only [Atomic.step, hphase, ConsPc.atomic, hfind, true_or, and_self, if_true]
      rfl
  | popUnlock o =>
    cases o with
    | none => cases hs; exact follows_back hpc rfl
    | some t => cases hs; exact follows_same hpc rfl rfl rfl
  | popCount t | remCount =>
    cases hs
    exact follows_back hpc rfl
  | remTest t =>
    cases hs
    split
    · exact follows_same hpc rfl rfl rfl
    · rename_i hin
      -- the unit is not in the list, or another pool's
      have hout : (rules pinned pool).Hits (s.atomic l) t false := by
        rintro ⟨ht, hm⟩
        refine hin ⟨h.stored t ht, ?_⟩
        rw [hp.same]
        simpa [rules] using hm
      refine follows_cons (b := .remove c t false) rfl rfl ?_
      simp only [Atomic.step, hphase, ConsPc.atomic, hout, and_self, if_true, Bool.false_eq_true,
        if_false]
      rfl
  | remUnlink t =>
    cases hs
    have hhit : (rules pinned pool).Hits (s.atomic l) t true :=
      .inl ⟨h.unlink c t hpc, by simp [rules, hp.unlink c t hpc]⟩
    refine follows_cons (b := .remove c t true) rfl rfl ?_
    simp only [Atomic.step, hphase, ConsPc.atomic, hhit, and_self, if_true]
    rfl
  | remUnlock hit =>
    cases hit with
    | false => cases hs; exact follows_back hpc rfl
    | true => cases hs; exact follows_same hpc rfl rfl rfl
  | popFlag t | remFlag t =>
    cases hs
    exact follows_same hpc rfl rfl rfl

theorem step_follows (hone : ∀ c t u, pinned c t = true → pinned c u = true → t = u)
    (h : Inv s l) (hp : Associated pool s) (hs : step pinned s a = some s') :
    Follows (rules pinned pool) (label a) (s.atomic l) (s'.atomic (s.after pinned l a)) := by
  unfold step at hs
  split at hs
  · cases hs
  cases a with
  | enter t =>
    cases hs
    unfold enter
    split <;> exact follows_push rfl rfl
  | push t =>
    unfold pushStep at hs
    dsimp only [State.after] at hs ⊢
    generalize hpc : s.push t = pc at hs
    cases pc with
    | idle => cases hs
    | lock =>
      simp only [Option.ite_none_right_eq_some] at hs
      cases hs.2
      exact follows_push rfl rfl
    | link =>
      cases hs
      have hout : t ∉ (s.atomic l).queue := h.early t (by rw [hpc]; rfl)
      refine .inr ⟨.arrive t, rfl, ?_⟩
      simp only [Atomic.step, hout, not_false_eq_true, if_true]
      rfl
    | unlock =>
      cases hs
      exact follows_push rfl rfl
  | count =>
    simp only [countStep, Option.ite_none_right_eq_some] at hs
    cases hs.2
    exact follows_push rfl rfl
  | pop c =>
    simp only [Option.ite_none_right_eq_some] at hs
    obtain ⟨hidle, hs⟩ := hs
    cases hs
    have hc : (s.atomic l).phase c = .idle := congrArg ConsPc.atomic hidle
    refine follows_cons (b := .call c .pop) rfl rfl ?_
    simp only [Atomic.step, hc, if_true]
    rfl
  | remove c t =>
    simp only [Option.ite_none_right_eq_some] at hs
    obtain ⟨hidle, hs⟩ := hs
    cases hs
    have hc : (s.atomic l).phase c = .idle := congrArg ConsPc.atomic hidle
    refine follows_cons (b := .call c (.remove t)) rfl rfl ?_
    simp only [Atomic.step, hc, if_true]
    rfl
  | call c => exact consStep_follows hone h hp hs

/-! ### A call returns -/

/-- How far a call is from its return. -/
def ConsPc.togo : ConsPc → Nat
  | .idle => 0
  | .popCount _ | .remCount => 1
  | .popUnlock _ | .remUnlock _ => 2
  | .popFlag _ | .remFlag _ => 3
  | .popTake | .remUnlink _ => 4
  | .popLock | .remTest _ => 5
  | .remLock _ => 6

/-- The call has to wait for `lk`. -/
def ConsPc.locks : ConsPc → Bool
  | .popLock | .remLock _ => true
  | _ => false

/-- A call that need not wait for `lk` comes closer to its return. -/
theorem consStep_closer (pinned : Nat → Nat → Bool) (hlk : (s.cons c).locks = true → s.lk = none)
    (hc : s.cons c ≠ .idle) :
    ∃ s', consStep pinned s c = some s' ∧ s'.aborted = s.aborted ∧ (s'.cons c).locks = false ∧
      (s'.cons c).togo < (s.cons c).togo := by
  cases hpc : s.cons c with
  | idle => exact absurd hpc hc
  | popLock | remLock t =>
    have hfree : s.lk = none := hlk (by rw [hpc]; rfl)
    simp [consStep, hpc, hfree, State.setCons, ConsPc.locks, ConsPc.togo]
  | popTake =>
    cases hf : s.first (pinned c) <;>
      simp [consStep, hpc, hf, State.setCons, ConsPc.locks, ConsPc.togo]
  | remTest t =>
    by_cases hin : s.mem.inPool t = true ∧ s.mem.pool t = some 0 <;>
      simp [consStep, hpc, hin, State.setCons, ConsPc.locks, ConsPc.togo]
  | popUnlock o =>
    cases o <;> simp [consStep, hpc, State.setCons, State.back, ConsPc.locks, ConsPc.togo]
  | remUnlock hit =>
    cases hit <;> simp [consStep, hpc, State.setCons, State.back, ConsPc.locks, ConsPc.togo]
  | popFlag t | remUnlink t | remFlag t | popCount t | remCount =>
    simp [consStep, hpc, State.setCons, State.back, ConsPc.locks, ConsPc.togo]

/-- A call that need not wait for `lk` returns by its own steps. -/
theorem call_returns (ha : s.aborted = false) (hlk : (s.cons c).locks = true → s.lk = none) :
    ∃ n s', runWhen (system pinned pool) Free s (List.replicate n (.call c)) = some s' ∧
      s'.cons c = .idle := by
  induction hm : (s.cons c).togo using Nat.strong_induction_on generalizing s with
  | _ m ih =>
    by_cases hc : s.cons c = .idle
    · exact ⟨0, s, rfl, hc⟩
    · obtain ⟨s₁, hst, ha₁, hl₁, hlt⟩ := consStep_closer pinned hlk hc
      obtain ⟨n, s', hr, hidle⟩ :=
        ih _ (hm ▸ hlt) (ha₁.trans ha) (fun h => by rw [hl₁] at h; cases h) rfl
      refine ⟨n + 1, s', ?_, hidle⟩
      have hst' : step pinned s (.call c) = some s₁ := by simp only [step, ha]; exact hst
      rw [List.replicate_succ, runWhen, if_pos (show Free s _ from trivial)]
      exact Option.bind_eq_some_iff.mpr ⟨s₁, hst', hr⟩

/-! ### `in_pool` and `size` -/

/-- Between the sections `in_pool` is set for the linked units and the pushes in flight. -/
theorem Inv.inPool_iff (h : Inv s l) (hlk : s.lk = none) (t : Nat) :
    s.mem.inPool t = true ↔ t ∈ l ∨ s.push t ≠ .idle := by
  refine ⟨fun hin => ?_, fun hx => hx.elim (h.stored t) (h.pushing t)⟩
  obtain hx | hx | ⟨c, hx⟩ := h.located t hin
  · exact .inl hx
  · refine .inr fun hidle => ?_
    rw [hidle] at hx
    cases hx
  · have := h.lock.right c (ConsPc.holds_of_flag hx)
    rw [hlk] at this
    cases this

theorem Inv.size_eq (h : Inv s l) (hq : Quiet s) : Storage.size s.mem 0 = l.length := by
  obtain ⟨a, e, ca, ce, hcount⟩ := h.count
  obtain ⟨hpush, hlinked, hcons⟩ := hq
  have ha : a = 0 := ca.unique (.zero fun t => by rw [hpush]; simp [PushPc.late, PushPc.phase])
  have he : e = 0 := ce.unique (.zero fun c => by rw [hcons]; simp [ConsPc.owes, ConsPc.phase])
  rw [ha, he, hlinked] at hcount
  unfold Storage.size
  split <;> omega

theorem reach_inv (h : Reach (system pinned pool) Allowed s) :
    ∃ l, Inv s l ∧ Associated pool s := by
  refine h.invariant (I := fun s => ∃ l, Inv s l ∧ Associated pool s) ?_ ?_
  · rintro _ rfl
    exact ⟨[], .start pool, .start⟩
  · rintro s a s' - ⟨l, hi, hp⟩ ha hs
    exact ⟨_, (step_spec hi ha hs).1, hp.step hs⟩

end

/-- What the list path guarantees in a state where its list is `l`. -/
structure WellFormed (s : State) (l : List Nat) : Prop where
  list : Doubly s.mem.lprev s.mem.lnext (s.mem.lhead 0) (s.mem.ltail 0) l
  nodup : l.Nodup
  inPool : s.lk = none → ∀ t, s.mem.inPool t = true ↔ t ∈ l ∨ s.push t ≠ .idle
  size : Quiet s → Storage.size s.mem 0 = l.length

theorem Inv.wellFormed {s : State} {l : List Nat} (h : Inv s l) : WellFormed s l :=
  ⟨h.list, h.list.nodup, h.inPool_iff, h.size_eq⟩

/-- The list path, for every interleaving of pushes, pops and removals in which no removal meets an
unlinked push of its unit, and with at most one unit that a PE may not resume: the list is well
formed, and every step follows the specification, so that a pop takes the first unit that its PE may
resume, a removal hits exactly if its unit is linked and unlinks it, and the others keep their
order. A call that need not wait for `lk` returns by its own steps. -/
theorem list_pool (pinned : Nat → Nat → Bool)
    (hone : ∀ c t u, pinned c t = true → pinned c u = true → t = u) (pool : Nat → Option Nat)
    (s : State) (h : Reach (system pinned pool) Allowed s) :
    (∃ l, WellFormed s l ∧ ∀ a s', Allowed s a → step pinned s a = some s' →
      ∃ l', WellFormed s' l' ∧
        Follows (rules pinned pool) (label a) (s.atomic l) (s'.atomic l') ∧
        (l'.Sublist l ∨ ∃ t, t ∉ l ∧ l' = l ++ [t])) ∧
    ∀ c, s.aborted = false → ((s.cons c).locks = true → s.lk = none) →
      ∃ n s', runWhen (system pinned pool) Free s (List.replicate n (.call c)) = some s' ∧
        s'.cons c = .idle := by
  refine ⟨?_, fun c => call_returns⟩
  obtain ⟨l, hi, hp⟩ := reach_inv h
  refine ⟨l, hi.wellFormed, fun a s' ha hs => ?_⟩
  have hf := step_follows hone hi hp hs
  exact ⟨_, (step_spec hi ha hs).1.wellFormed, hf, hf.order⟩

instance (s : State) (a : StoreAct) : Decidable (Allowed s a) :=
  inferInstanceAs (Decidable ((store fun _ => none).Allowed s a))

/-- A whole push. -/
def pushAll (t : Nat) : List StoreAct := [.enter t, .push t, .push t, .push t, .count]

/-- PE 1 may not resume unit 0, the first of the list, and takes the next one. -/
theorem list_pool_pinned : ∃ s s', Reach
      (system (fun c t => c == 1 && t == 0) fun _ => some 0) Allowed s ∧
    WellFormed s [0, 1, 2] ∧
    step (fun c t => c == 1 && t == 0) s (.call 1) = some s' ∧ s'.cons 1 = .popFlag 1 := by
  obtain ⟨s, hr, h₀, h₁, h₂, h₃, hpop⟩ := Reach.exists_run (G := Allowed)
    (.start (M := system (fun c t => c == 1 && t == 0) fun _ => some 0) rfl)
    (fun s => s.mem.lhead 0 = some 0 ∧ s.mem.lnext 0 = some 1 ∧ s.mem.lnext 1 = some 2 ∧
      s.mem.lnext 2 = none ∧
      (step (fun c t => c == 1 && t == 0) s (.call 1)).any fun s' =>
        decide (s'.cons 1 = .popFlag 1))
    (pushAll 0 ++ pushAll 1 ++ pushAll 2 ++ [StoreAct.pop 1, .call 1]) (by decide)
  obtain ⟨⟨l, hw, -⟩, -⟩ := list_pool (fun c t => c == 1 && t == 0)
    (fun c t u ht hu => by simp at ht hu; omega) (fun _ => some 0) s hr
  have hpath : Path s.mem.lnext (s.mem.lhead 0) [0, 1, 2] := ⟨h₀, h₁, h₂, h₃⟩
  obtain rfl := hw.list.fwd.unique hpath
  cases hs : step (fun c t => c == 1 && t == 0) s (.call 1) with
  | none => rw [hs] at hpop; cases hpop
  | some s' =>
    rw [hs] at hpop
    exact ⟨s, s', hr, hw, hs, of_decide_eq_true hpop⟩

end ListPath
end AbtReconverse
