import AbtReconverse.Pool.Stored

/-!
# AbtReconverse.Pool.Agree

The two representations of a built-in pool against one specification, a queue for every pool
(`specStep`). On the list path every run follows it. On the single-consumer path a removed unit stays
linked, with `in_pool` set, until a pop discards it: a push of it aborts, and freeing it breaks the
chain (`removed_not_detached`). `pools_agree`: in every run that pushes or frees a removed unit only
after it was discarded, pools of any access mode give back the same units and sizes.
-/

namespace AbtReconverse
namespace Storage

open Lts

/-! ## Remove, free, size -/

section

variable {c : Config} {s s' : State} {ch : Nat → List Nat} {q : Nat → List Nat} {n p t : Nat}
  {l : List Nat}

theorem Inv.mem_of_pool (h : Inv c s ch) (ht : s.inPool t = true) (hp : s.pool t = some p) :
    t ∈ ch p := by
  obtain ⟨p', hp'⟩ := (h.mem t).mp ht
  have := (h.pool p' t hp').symm.trans hp
  rwa [← Option.some.inj this]

/-- The single-consumer path marks the unit. -/
theorem Inv.mark (h : Inv c s ch) (hs : c.single p = true) (ht : t ∈ ch p)
    (hr : s.removed t = false) : Inv c ((s.setRemoved t true).addCount p (-1)) ch ∧
      unmarked ((s.setRemoved t true).addCount p (-1)) (ch p) = (unmarked s (ch p)).erase t := by
  have hnd := (h.nodup p).filter fun u => !s.removed u
  have hun : unmarked ((s.setRemoved t true).addCount p (-1)) (ch p) =
      (unmarked s (ch p)).erase t := by
    rw [show (unmarked s (ch p)).erase t = (unmarked s (ch p)).filter (· != t) from
      hnd.erase_eq_filter t, unmarked, unmarked, List.filter_filter]
    refine List.filter_congr fun u _ => ?_
    show (!(Function.update s.removed t true u)) = _
    by_cases hu : u = t
    · subst hu; simp
    · rw [Function.update_of_ne hu]; simp [hu]
  refine ⟨⟨h.list, h.mpsc, h.mem, h.pool, fun u hu => ?_, fun p' => ?_⟩, hun⟩
  · have hu : Function.update s.removed t true u = true := hu
    rw [Function.update_apply] at hu
    split at hu
    · rename_i hut; exact ⟨p, hs, hut ▸ ht⟩
    · exact h.marks u hu
  · show Function.update s.count p (s.count p + -1) p' = _
    by_cases hp : p' = p
    · subst hp
      have hmem : t ∈ unmarked s (ch p') := List.mem_filter.mpr ⟨ht, by simp [hr]⟩
      have hpos := List.length_pos_of_mem hmem
      rw [Function.update_self, hun, List.length_erase_of_mem hmem, h.count p']
      omega
    · rw [Function.update_of_ne hp, h.count p']
      congr 2
      refine (unmarked_congr fun u hu => ?_).symm
      exact Function.update_of_ne (fun he : u = t => hp (h.one_pool ht (he ▸ hu))) _ _

/-- `ABT_pool_remove` takes the unit out of the queue of the pool, if it is there. -/
theorem remove_spec (h : Holds c s q n) (p t : Nat) :
    Holds c (removeUnit c s p t).1 (Function.update q p ((q p).erase t)) n := by
  obtain ⟨ch, hi, hq⟩ := h
  have hout : t ∉ unmarked s (ch p) → Holds c s (Function.update q p ((q p).erase t)) n := by
    intro ht
    rw [(hq p).1, List.erase_of_not_mem ht, ← (hq p).1, Function.update_eq_self]
    exact ⟨ch, hi, hq⟩
  unfold removeUnit
  split
  · rename_i hc
    have ht := hi.mem_of_pool hc.1 hc.2
    cases hs : c.single p with
    | true =>
      simp only [if_true]
      cases hr : s.removed t with
      | true =>
        refine hout fun hm => ?_
        have := (List.mem_filter.mp hm).2
        rw [hr] at this
        cases this
      | false =>
        obtain ⟨hi', hun⟩ := hi.mark hs ht hr
        simp only [Bool.false_eq_true, if_false]
        have hh := Holds.on_pool (p := p) (l := ch p) hq (by rwa [Function.update_eq_self])
          (fun p' hne u hu => Function.update_of_ne
            (fun he : u = t => hne (hi.one_pool ht (he ▸ hu))) _ _) (Nat.le_refl n) (hq p).2
        rwa [hun, ← (hq p).1] at hh
    | false =>
      obtain ⟨l₁, l₂, hch⟩ := List.append_of_mem ht
      have hi' := hi.unlink hs hch
      have hrem : (s.listUnlink p t).removed = s.removed := by rw [listUnlink_eq]
      simp only [Bool.false_eq_true, if_false]
      have hlen := (hq p).2
      have hh := Holds.on_pool (p := p) hq hi' (fun p' _ u _ => congrFun hrem u) (Nat.le_refl n)
        (by rw [hch] at hlen; simp only [List.length_append, List.length_cons] at hlen ⊢; omega)
      have hun := hi'.unmarked_list hs
      rw [Function.update_self] at hun
      have hnd := hi.nodup p
      rw [hch, List.nodup_append] at hnd
      have ht₁ : t ∉ l₁ := fun hm => hnd.2.2 t hm t (List.mem_cons_self ..) rfl
      rw [hun] at hh
      rw [(hq p).1, hi.unmarked_list hs, hch, List.erase_append_right _ ht₁, List.erase_cons_head]
      exact hh
  · rename_i hc
    refine hout fun hm => hc ?_
    have ht := (List.mem_filter.mp hm).1
    exact ⟨(hi.mem t).mpr ⟨p, ht⟩, hi.pool p t ht⟩

/-- A descriptor that no pool links can go. -/
theorem free_spec (h : Holds c s q n) (ht : s.inPool t = false) : Holds c (free s t) q n := by
  obtain ⟨ch, hi, hq⟩ := h
  have hne : ∀ p u, u ∈ ch p → u ≠ t := fun p u hu he => hi.not_mem ht p (he ▸ hu)
  have hrem : ∀ p, ∀ u ∈ ch p, (free s t).removed u = s.removed u := fun p u hu =>
    Function.update_of_ne (hne p u hu) _ _
  refine ⟨ch, ⟨fun p hs => ?_, fun p hs => ?_, fun u => ?_, fun p u hu => ?_, fun u hu => ?_,
    fun p => ?_⟩, fun p => ⟨(hq p).1.trans (unmarked_congr (hrem p)).symm, (hq p).2⟩⟩
  · exact (hi.list p hs).congr (fun u hu => Function.update_of_ne (hne p u hu) _ _)
      fun u hu => Function.update_of_ne (hne p u hu) _ _
  · refine (hi.mpsc p hs).congr ?_ fun w hw => ?_
    · show Function.update s.next (.unit t) none (.stub p) = s.next (.stub p)
      rw [Function.update_of_ne (by simp)]
    obtain ⟨u, hu, rfl⟩ := List.mem_map.mp hw
    exact Function.update_of_ne (fun he => hne p u hu (Node.unit.inj he)) _ _
  · show Function.update s.inPool t false u = true ↔ _
    by_cases hu : u = t
    · subst hu
      rw [Function.update_self]
      exact iff_of_false (by simp) fun ⟨p, hp⟩ => hi.not_mem ht p hp
    · rw [Function.update_of_ne hu]; exact hi.mem u
  · exact (Function.update_of_ne (hne p u hu) _ _).trans (hi.pool p u hu)
  · have hu : Function.update s.removed t false u = true := hu
    rw [Function.update_apply] at hu
    split at hu
    · cases hu
    · exact hi.marks u hu
  · rw [unmarked_congr (hrem p)]; exact hi.count p

theorem size_spec (h : Holds c s q n) (p : Nat) : size s p = (q p).length := by
  obtain ⟨ch, hi, hq⟩ := h
  unfold size
  rw [(hq p).1, hi.count p]
  split
  · simp
  · omega

theorem Holds.initial (c : Config) : Holds c Storage.initial (fun _ => []) 0 := by
  refine ⟨fun _ => [], ⟨fun _ _ => .nil, fun _ _ => .empty rfl, fun t => ?_, fun _ _ h => ?_,
    fun _ h => ?_, fun _ => rfl⟩, fun _ => ⟨rfl, Nat.le_refl 0⟩⟩
  · exact iff_of_false (by simp [Storage.initial]) fun ⟨_, h⟩ => List.not_mem_nil h
  · cases h
  · cases h

end

/-! ## Runs -/

/-- A queue for every pool. -/
def specStep (q : Nat → List Nat) : Op → (Nat → List Nat) × Out
  | .push p t => (Function.update q p (q p ++ [t]), .done)
  | .pop p => (Function.update q p (q p).tail, .popped (q p).head?)
  | .remove p t => (Function.update q p ((q p).erase t), .done)
  | .size p => (q, .size (q p).length)
  | .free _ => (q, .done)

def specRun : (Nat → List Nat) → List Op → List Out
  | _, [] => []
  | q, o :: os => (specStep q o).2 :: specRun (specStep q o).1 os

/-- The user's rule: a unit is pushed, or freed, when it is logically in no pool. -/
def Allowed (q : Nat → List Nat) : Op → Prop
  | .push _ t | .free t => ∀ p, t ∉ q p
  | _ => True

def Valid : (Nat → List Nat) → List Op → Prop
  | _, [] => True
  | q, o :: os => Allowed q o ∧ Valid (specStep q o).1 os

/-- No pool links the unit that is pushed or freed: a pop has discarded it if it was removed on the
single-consumer path. -/
def Discarded (s : State) : Op → Prop
  | .push _ t | .free t => s.inPool t = false
  | _ => True

/-- Every operation of the run meets `Discarded`. -/
def AllDiscarded (c : Config) (fuel : Nat) : State → List Op → Prop
  | _, [] => True
  | s, o :: os => Discarded s o ∧ match step c fuel s o with
    | .ok r => AllDiscarded c fuel r.1 os
    | .error _ => True

section

variable {c : Config} {s : State} {q : Nat → List Nat} {n fuel : Nat}

theorem take_unpinned (c : Config) (p : Nat) (l : List Nat) :
    take c (fun _ => false) p l = (l.tail, l.head?) := by
  unfold take
  split <;> cases l <;> simp [takeMpsc, takeList]

theorem step_spec (h : Holds c s q n) (hf : n < fuel) {o : Op} (hd : Discarded s o) :
    ∃ s', step c fuel s o = .ok (s', (specStep q o).2) ∧ Holds c s' (specStep q o).1 (n + 1) := by
  have hmono : ∀ {s' q'}, Holds c s' q' n → Holds c s' q' (n + 1) := fun ⟨ch, hi, hq⟩ =>
    ⟨ch, hi, fun p => ⟨(hq p).1, Nat.le_succ_of_le (hq p).2⟩⟩
  cases o with
  | push p t =>
    obtain ⟨ch, hi, hq⟩ := h
    have h' : Holds c { s with pool := Function.update s.pool t (some p) } q n :=
      ⟨ch, hi.associate hd _, hq⟩
    obtain ⟨s', hs', hh⟩ := push_spec h' hd (Function.update_self ..)
    refine ⟨s', ?_, hh⟩
    simp only [step, poolPush, hs']
    rfl
  | pop p =>
    obtain ⟨s', hs', hh⟩ := pop_spec h hf (fun _ => false) p
    rw [take_unpinned] at hs' hh
    refine ⟨s', ?_, hmono hh⟩
    simp only [step, hs']
    rfl
  | remove p t => exact ⟨_, rfl, hmono (remove_spec h p t)⟩
  | size p => exact ⟨s, by simp only [step, specStep, size_spec h p], hmono h⟩
  | free t => exact ⟨_, rfl, hmono (free_spec h hd)⟩

theorem run_spec {ops : List Op} (h : Holds c s q n) (hf : n + ops.length < fuel)
    (hd : AllDiscarded c fuel s ops) : run c fuel s ops = .ok (specRun q ops) := by
  induction ops generalizing s q n with
  | nil => rfl
  | cons o os ih =>
    rw [List.length_cons] at hf
    obtain ⟨hd, hds⟩ := hd
    have hn : n < fuel := by omega
    obtain ⟨s', hs', hh⟩ := step_spec h hn hd
    rw [hs'] at hds
    have hrest := ih hh (by omega) hds
    simp only [run, hs', specRun]
    show (run c fuel s' os >>= fun outs => _) = _
    rw [hrest]
    rfl

/-- On the list path what is logically in no pool is linked by none. -/
theorem allDiscarded_of_list (hc : ∀ p, c.single p = false) {ops : List Op} (h : Holds c s q n)
    (hf : n + ops.length < fuel) (hv : Valid q ops) : AllDiscarded c fuel s ops := by
  induction ops generalizing s q n with
  | nil => trivial
  | cons o os ih =>
    rw [List.length_cons] at hf
    have hd : Discarded s o := by
      obtain ⟨ch, hi, hq⟩ := h
      have hout : ∀ t, (∀ p, t ∉ q p) → s.inPool t = false := by
        intro t ht
        rw [Bool.eq_false_iff]
        intro hin
        obtain ⟨p, hp⟩ := (hi.mem t).mp hin
        refine ht p ?_
        rw [(hq p).1, hi.unmarked_list (hc p)]
        exact hp
      cases o with
      | push p t => exact hout t hv.1
      | free t => exact hout t hv.1
      | pop | remove | size => trivial
    have hn : n < fuel := by omega
    obtain ⟨s', hs', hh⟩ := step_spec h hn hd
    refine ⟨hd, ?_⟩
    rw [hs']
    exact ih hh (by omega) hv.2

end

/-- Pools of any access mode follow the specification, so they give back the same units and sizes
and do not abort: on the list path in every run, on the single-consumer path in every run that pushes
or frees a removed unit only after a pop has discarded it. -/
theorem pools_agree (ops : List Op) (fuel : Nat) (hf : ops.length < fuel)
    (hv : Valid (fun _ => []) ops) :
    (∀ c : Config, (∀ p, c.single p = false) →
      run c fuel initial ops = .ok (specRun (fun _ => []) ops)) ∧
    ∀ c : Config, AllDiscarded c fuel initial ops →
      run c fuel initial ops = .ok (specRun (fun _ => []) ops) := by
  have hlen : 0 + ops.length < fuel := by omega
  exact ⟨fun c hc => run_spec (Holds.initial c) hlen (allDiscarded_of_list hc (Holds.initial c) hlen hv),
    fun c hd => run_spec (Holds.initial c) hlen hd⟩

def onePath (a : PoolAccess) : Config := ⟨fun _ => a⟩

/-- Unit 2 is removed, discarded by the pop of unit 3, and pushed again. -/
def removeAndReuse : List Op :=
  [.push 0 1, .push 0 2, .push 0 3, .remove 0 2, .size 0, .pop 0, .pop 0, .push 0 2, .pop 0]

theorem pools_agree_reused :
    run (onePath .mpsc) 10 initial removeAndReuse = run (onePath .mpmc) 10 initial removeAndReuse ∧
    run (onePath .mpsc) 10 initial removeAndReuse =
      .ok [.done, .done, .done, .done, .size 2, .popped (some 1), .popped (some 3), .done,
        .popped (some 2)] := by
  have hv : Valid (fun _ => []) removeAndReuse := by
    simp only [removeAndReuse, Valid, Allowed, specStep, and_true, true_and]
    refine ⟨fun p => ?_, fun p => ?_, fun p => ?_, fun p => ?_⟩ <;> by_cases hp : p = 0 <;> simp [hp]
  have hd : AllDiscarded (onePath .mpsc) 10 initial removeAndReuse :=
    And.intro rfl (And.intro rfl (And.intro rfl (And.intro trivial (And.intro trivial
      (And.intro trivial (And.intro trivial (And.intro rfl (And.intro trivial trivial))))))))
  have hspec := pools_agree removeAndReuse 10 (by decide) hv
  have h1 := hspec.2 (onePath .mpsc) hd
  exact ⟨h1.trans (hspec.1 (onePath .mpmc) fun _ => rfl).symm, h1⟩

/-- A unit that was removed on the single-consumer path and is pushed again before the next pop
aborts the program; one that is freed takes the units behind it out of reach. On the list path
nothing happens. -/
theorem removed_not_detached :
    (Valid (fun _ => []) [.push 0 1, .remove 0 1, .push 0 1] ∧
      run (onePath .mpmc) 10 initial [.push 0 1, .remove 0 1, .push 0 1] =
        .ok [.done, .done, .done] ∧
      run (onePath .mpsc) 10 initial [.push 0 1, .remove 0 1, .push 0 1] = .error .abort) ∧
    Valid (fun _ => [])
      [.push 0 1, .push 0 2, .push 0 3, .remove 0 2, .free 2, .pop 0, .pop 0, .size 0] ∧
      run (onePath .mpmc) 10 initial
        [.push 0 1, .push 0 2, .push 0 3, .remove 0 2, .free 2, .pop 0, .pop 0, .size 0] =
        .ok [.done, .done, .done, .done, .done, .popped (some 1), .popped (some 3), .size 0] ∧
      run (onePath .mpsc) 10 initial
        [.push 0 1, .push 0 2, .push 0 3, .remove 0 2, .free 2, .pop 0, .pop 0, .size 0] =
        .ok [.done, .done, .done, .done, .done, .popped (some 1), .popped none, .size 1] := by
  refine ⟨⟨?_, rfl, rfl⟩, ?_, rfl, rfl⟩
  · simp only [Valid, Allowed, specStep, and_true, true_and]
    refine ⟨fun p => ?_, fun p => ?_⟩ <;> by_cases hp : p = 0 <;> simp [hp]
  · simp only [Valid, Allowed, specStep, and_true, true_and]
    refine ⟨fun p => ?_, fun p => ?_, fun p => ?_, fun p => ?_⟩ <;> by_cases hp : p = 0 <;> simp [hp]

end Storage
end AbtReconverse
