import Mathlib.Data.List.Nodup
import AbtReconverse.Join.Protocol

/-!
# AbtReconverse.Join.Safety

What a join guarantees: success means that the flag is set, a free mutex and a set flag mean that
nobody is left on the list, and a ULT that enters the list is awakened once, while it is BLOCKED. The
end that has the list wakes all of it (`wake_loop`), so nobody is left behind.
-/

namespace AbtReconverse
namespace JoinProtocol

open Lts

structure JoinSafe (c : Config) (s : State) : Prop where
  /-- A join returns success only after the flag is set. -/
  success : ∀ j o, s.ret j = some (o, .success) → (s.obj o).flag = true
  empty : ∀ o, (s.obj o).jm = none → (s.obj o).flag = true → (s.obj o).joiners = []
  /-- The joiner that an end passes to `CthAwakenIfBlocked` next is BLOCKED. -/
  blocked : ∀ o k j js, s.exit o k = .wake (j :: js) → s.pc j = .blocked o ∧ s.blk j = true
  /-- A joiner that is not BLOCKED any more was awakened after the flag was set. -/
  woken : ∀ j o, s.pc j = .blocked o → s.blk j = false → (s.obj o).flag = true
  /-- Every entry into a list has been answered by one call of `CthAwakenIfBlocked`, but for the
  one of a joiner that still waits. -/
  once : ∀ o j, s.entered o j = s.awakened o j + if Waits s j o then 1 else 0
  /-- A waiting joiner is on the list, or on that of one end. -/
  listed : ∀ j o, Waits s j o ↔ j ∈ (s.obj o).joiners ∨ ∃ k, j ∈ (s.exit o k).list
  /-- Once the flag is set and the mutex free, an end walks over every joiner that still waits. -/
  behind : ∀ j o, (s.obj o).jm = none → (s.obj o).flag = true → Waits s j o →
    ∃ k l, s.exit o k = .wake l ∧ j ∈ l
  /-- That end awakens the whole list; its steps are always enabled. -/
  walk : ∀ o k l, s.exit o k = .wake l → l ≠ [] →
    ∃ s', runWhen (system c) Free s (List.replicate l.length (.exit o k)) = some s' ∧
      s'.exit o k = .done ∧
      ∀ j ∈ l, s'.pc j = .blocked o ∧ s'.blk j = false ∧ s'.awakened o j = s.awakened o j + 1
  /-- A joiner that was awakened returns. -/
  back : ∀ j o, s.pc j = .blocked o → s.blk j = false →
    ∃ s', step c s (.join j) = some s' ∧ s'.ret j = some (o, .success)

section

variable {c : Config} {s s' : State} {W : Nat → List Nat} {j o k : Nat}

/-- The loop of an end over its list. -/
theorem wake_loop (c : Config) {l : List Nat} (hk : s.exit o k = .wakeRest l) (hnd : l.Nodup) :
    ∃ s', runWhen (system c) Free s (List.replicate l.length (.exit o k)) = some s' ∧
      s'.exit o k = .done ∧ s'.pc = s.pc ∧ (∀ j, j ∉ l → s'.blk j = s.blk j) ∧
      (∀ j ∈ l, s'.blk j = false) ∧
      ∀ j, s'.awakened o j = s.awakened o j + if j ∈ l then 1 else 0 := by
  induction l generalizing s with
  | nil => exact ⟨s, rfl, hk, rfl, fun _ _ => rfl, nofun, fun _ => rfl⟩
  | cons j l ih =>
    obtain ⟨hj, hnd⟩ := List.nodup_cons.mp hnd
    have hst : step c s (.exit o k) = some ({ s with
        blk := Function.update s.blk j false
        awakened := bump s.awakened o j }.setExit o k (.wakeRest l)) := by
      simp only [step, exitStep, hk, ExitPc.wakeRest]
    obtain ⟨s', hr, hd, hpc, hkeep, hblk, haw⟩ := ih (s := { s with
        blk := Function.update s.blk j false
        awakened := bump s.awakened o j }.setExit o k (.wakeRest l))
      (by rw [setExit_exit, if_pos ⟨rfl, rfl⟩]) hnd
    refine ⟨s', ?_, hd, hpc, fun u hu => ?_, fun u hu => ?_, fun u => ?_⟩
    · rw [List.length_cons, List.replicate_succ, runWhen, if_pos (show Free s _ from trivial)]
      show (step c s (.exit o k)).bind _ = _
      rw [hst]
      exact hr
    · rw [List.mem_cons, not_or] at hu
      rw [hkeep u hu.2]
      exact Function.update_of_ne hu.1 _ _
    · obtain rfl | hu := List.mem_cons.mp hu
      · rw [hkeep u hj]; exact Function.update_self ..
      · exact hblk u hu
    · rw [haw u]
      show bump s.awakened o j o u + _ = _
      rw [bump_apply]
      by_cases hu : u = j
      · subst hu; simp [hj]
      · simp [hu]

end

theorem join_protocol {c : Config} {s : State} (h : Reach (system c) Free s) : JoinSafe c s := by
  obtain ⟨W, hi⟩ := reach_inv h
  have hempty : ∀ o, (s.obj o).jm = none → (s.obj o).flag = true → (s.obj o).joiners = [] := by
    intro o hl hf
    refine (hi.object o).empty hf fun k hk => ?_
    have hjm := ((hi.object o).exit k).mp (by rw [hk]; rfl)
    rw [hl] at hjm
    cases hjm
  have hlisted : ∀ j o, Waits s j o ↔ j ∈ (s.obj o).joiners ∨ ∃ k, j ∈ (s.exit o k).list := by
    intro j o
    refine Iff.trans ((hi.caller j).mem o).symm ?_
    constructor
    · intro hj
      obtain ⟨hW, _⟩ | ⟨_, k, hW, _⟩ := (hi.object o).held
      · exact .inl (by rwa [hW])
      · exact .inr ⟨k, by rwa [hW]⟩
    · rintro (hj | ⟨k, hj⟩)
      · obtain ⟨hW, _⟩ | ⟨hW, _⟩ := (hi.object o).held
        · rwa [hW] at hj
        · rw [hW] at hj; cases hj
      · have hne : (s.exit o k).list ≠ [] := List.ne_nil_of_mem hj
        rw [(hi.walks hne).1]
        exact hj
  refine ⟨fun j => (hi.caller j).ret, hempty, fun o k j js hk => ?_,
    fun j => (hi.caller j).woken, fun o j => ?_, hlisted, fun j o hl hf hw => ?_,
    fun o k l hk hne => ?_, fun j o hpc hb => ?_⟩
  · exact hi.walked (k := k) (by rw [hk]; exact List.mem_cons_self ..)
  · rw [(hi.object o).count j]
    congr 1
    split
    · rename_i hw
      exact List.count_eq_one_of_mem (hi.object o).nodup (((hi.caller j).mem o).mpr hw)
    · rename_i hw
      exact List.count_eq_zero_of_not_mem fun hm => hw (((hi.caller j).mem o).mp hm)
  · obtain hj | ⟨k, hj⟩ := (hlisted j o).mp hw
    · rw [hempty o hl hf] at hj; cases hj
    · cases hk : s.exit o k with
      | wake l => rw [hk] at hj; exact ⟨k, l, hk, hj⟩
      | unlock l =>
        have hjm := ((hi.object o).exit k).mp (by rw [hk]; rfl)
        rw [hl] at hjm
        cases hjm
      | _ => rw [hk] at hj; cases hj
  · have hwk : s.exit o k = .wakeRest l := by
      cases l with
      | nil => exact absurd rfl hne
      | cons j js => exact hk
    have hlist : (s.exit o k).list = l := by rw [hk]; rfl
    have hW : W o = l := by rw [(hi.walks (o := o) (k := k) (by rw [hlist]; exact hne)).1, hlist]
    obtain ⟨s', hr, hd, hpc, _, hblk, haw⟩ := wake_loop c hwk (hW ▸ (hi.object o).nodup)
    refine ⟨s', hr, hd, fun j hj => ⟨?_, hblk j hj, ?_⟩⟩
    · rw [hpc]
      exact (hi.walked (k := k) (by rw [hlist]; exact hj)).1
    · rw [haw j, if_pos hj]
  · refine ⟨s.back j o .success, ?_, ?_⟩
    · simp only [step, joinStep, hpc, hb, Bool.false_eq_true, if_false]
    · simp only [State.back, Function.update_self]

/-- A thread and an xstream, joined by ULTs 0 and 1 and by the external thread 2. -/
def threadAndXstream : Config :=
  ⟨fun o => if o = 0 then .thread 9 else .xstream false, fun j => j != 2⟩

/-- ULTs 0 and 1 join the thread, which ends and has awakened one of them; caller 2 spins in the join
of the xstream. -/
def endOfThread : List Act :=
  [Act.call 0 0 false] ++ List.replicate 6 (Act.join 0) ++ [Act.callback 0, .call 1 0 false] ++
    List.replicate 6 (Act.join 1) ++ [Act.callback 0, .call 2 1 false] ++
    List.replicate 4 (Act.join 2) ++ List.replicate 6 (Act.exit 0 0) ++ [Act.join 0]

theorem join_protocol_walking : ∃ s, Reach (system threadAndXstream) Free s ∧
    (s.ret 0 = some (0, .success) ∧ s.exit 0 0 = .wake [1] ∧ s.pc 2 = .spin 1 ∧
      s.entered 0 0 = 1) ∧ (s.obj 0).flag = true ∧ s.blk 1 = true := by
  obtain ⟨s, hr, hs⟩ := (Reach.start rfl : Reach (system threadAndXstream) Free
    JoinProtocol.initial).exists_run
    (fun s => s.ret 0 = some (0, .success) ∧ s.exit 0 0 = .wake [1] ∧ s.pc 2 = .spin 1 ∧
      s.entered 0 0 = 1) endOfThread (by decide)
  have h := join_protocol hr
  exact ⟨s, hr, hs, h.success 0 0 hs.1, (h.blocked 0 0 1 [] hs.2.1).2⟩

end JoinProtocol
end AbtReconverse
