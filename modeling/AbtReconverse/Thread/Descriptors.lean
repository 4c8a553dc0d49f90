import AbtReconverse.Thread.Machine

/-!
# AbtReconverse.Thread.Descriptors

Whose a descriptor is. As long as every descriptor is destroyed after its `ABTI_thread_terminated`
(`DestroyAfterExit`), a unit that has not ended lives at the address of its descriptor, no two units
share one, and none is cached twice or given out while a unit has it (`descriptors_apart`). What
joins and ends do to each other does not matter here.
-/

namespace AbtReconverse
namespace Join

open Lts

/-- The unit a caller frees. -/
def FreePc.frees : FreePc → Option Nat
  | .out => none
  | .joining u | .destroy u => some u

/-- What a step does. -/
inductive Step (task : Nat → Bool) (s : State) : Act → State → Prop where
  | create {j : Caller} {r a : Nat} {type : ThreadType} {s₁ : State}
    (ha : s.alloc (j.creates r (task s.nextId)) a = some s₁) :
    Step task s (.create j r a type) (s₁.create a type)
  | refused {j : Caller} {u : Nat} {free : Bool} : Step task s (.call j u free) s
  | call {j : Caller} {u : Nat} {free : Bool} {J : JoinProtocol.State}
    (hJ : JoinProtocol.step (protocol task) s.join (.call j.num u false) = some J)
    (hmem : s.mem (s.addr u) = .unit u) (hfr : ¬ (free = true ∧ s.freeing u = true))
    (hn : s.type (s.addr u) = .named) :
    Step task s (.call j u free)
      { s with
        join := J
        free := Function.update s.free j (if free then .joining u else .out)
        freeing := Function.update s.freeing u (s.freeing u || free) }
  | join {j : Caller} {J : JoinProtocol.State}
    (hJ : JoinProtocol.step (protocol task) s.join (.join j.num) = some J) :
    Step task s (.join j) { s with join := J }
  | callback {u : Nat} {J : JoinProtocol.State}
    (hJ : JoinProtocol.step (protocol task) s.join (.callback u) = some J) :
    Step task s (.callback u) { s with join := J }
  | joined {j : Caller} {u r : Nat} (hj : s.free j = .joining u)
    (hret : s.join.ret j.num = some (u, .success)) : Step task s (.free j r) (s.setFree j (.destroy u))
  | failed {j : Caller} {u r : Nat} (hj : s.free j = .joining u) :
    Step task s (.free j r) (s.setFree j .out)
  | destroys {j : Caller} {u r : Nat} (hj : s.free j = .destroy u) :
    Step task s (.free j r) ((s.setFree j .out).release (j.os r) (s.addr u))
  | exit {u : Nat} (hu : u < s.nextId) (hrun : s.exit u = .running) :
    Step task s (.exit u) (s.setExit u .ending)
  | ends {u r : Nat} {J : JoinProtocol.State} (hpc : s.exit u = .ending)
    (hJ : JoinProtocol.exitStep s.join u 0 = some J) :
    Step task s (.terminated u r) { s with join := J }
  | test {u r : Nat} (hpc : s.exit u = .ending) (hd : s.join.exit u 0 = .done) :
    Step task s (.terminated u r)
      (s.setExit u (if s.type (s.addr u) = .detached then .release else .done))
  | release {u r : Nat} (hpc : s.exit u = .release) :
    Step task s (.terminated u r) ((s.setExit u .done).release (.pe r) (s.addr u))

theorem step_cases {task : Nat → Bool} {s s' : State} {a : Act} (hst : step task s a = some s') :
    Step task s a s' := by
  cases a with
  | create j r a type =>
    obtain ⟨s₁, ha, rfl⟩ := Option.map_eq_some_iff.mp hst
    exact .create ha
  | call j u free =>
    simp only [step, Join.call, Option.ite_none_right_eq_some] at hst
    obtain ⟨⟨-, -, hmem, hfr⟩, hst⟩ := hst
    split at hst
    · cases hst; exact .refused
    · rename_i hn
      obtain ⟨J, hJ, rfl⟩ := Option.map_eq_some_iff.mp hst
      exact .call hJ hmem hfr (not_not.mp (not_or.mp hn).1)
  | join j => obtain ⟨J, hJ, rfl⟩ := Option.map_eq_some_iff.mp hst; exact .join hJ
  | callback u => obtain ⟨J, hJ, rfl⟩ := Option.map_eq_some_iff.mp hst; exact .callback hJ
  | free j r =>
    cases hj : s.free j with
    | out => simp [step, freeStep, hj] at hst
    | joining u =>
      simp only [step, freeStep, hj, Option.ite_none_right_eq_some] at hst
      obtain ⟨-, hst⟩ := hst
      split at hst <;> cases hst
      · exact .joined hj ‹_›
      · exact .failed hj
    | destroy u =>
      simp only [step, freeStep, hj] at hst
      cases hst
      exact .destroys hj
  | exit u =>
    simp only [step, Option.ite_none_right_eq_some] at hst
    obtain ⟨⟨hu, hrun, -⟩, hst⟩ := hst
    cases hst
    exact .exit hu hrun
  | terminated u r =>
    cases hpc : s.exit u with
    | running | done => simp [step, exitStep, hpc] at hst
    | ending =>
      simp only [step, exitStep, hpc] at hst
      split at hst
      · rename_i hd
        cases hst
        exact .test hpc hd
      · obtain ⟨J, hJ, rfl⟩ := Option.map_eq_some_iff.mp hst
        exact .ends hpc hJ
    | release =>
      simp only [step, exitStep, hpc] at hst
      cases hst
      exact .release hpc

/-- What `ABTI_thread_alloc` and `ABTI_thread_release` leave. -/
theorem alloc_frame {s s' : State} {os : Os} {a : Nat} (ha : s.alloc os a = some s') :
    ∃ cache, s' = { s with cache := cache } := by
  unfold State.alloc at ha
  repeat' split at ha
  all_goals cases ha
  all_goals exact ⟨_, rfl⟩

theorem release_frame (s : State) (os : Os) (a : Nat) :
    ∃ cache mem, s.release os a = { s with cache := cache, mem := mem } := by
  unfold State.release
  split <;> exact ⟨_, _, rfl⟩

structure Inv (s : State) : Prop where
  memOk : ∀ a u, s.mem a = .unit u → u < s.nextId ∧ s.addr u = a ∧ s.type a = s.kind u
  live : ∀ u, u < s.nextId → s.exit u ≠ .done → s.mem (s.addr u) = .unit u
  begun : ∀ u, s.exit u ≠ .running → u < s.nextId
  cached : ∀ os a, a ∈ s.cache os → s.mem a = .cached
  cacheNodup : ∀ os, (s.cache os).Nodup
  cacheApart : ∀ os os' a, a ∈ s.cache os → a ∈ s.cache os' → os = os'
  frees : ∀ j u, (s.free j).frees = some u →
    s.mem (s.addr u) = .unit u ∧ s.freeing u = true ∧ s.kind u = .named
  freesOnce : ∀ j j' u, (s.free j).frees = some u → (s.free j').frees = some u → j = j'
  release : ∀ u, s.exit u = .release → s.kind u = .detached

theorem inv_initial : Inv initial := by
  refine ⟨?_, ?_, ?_, ?_, ?_, ?_, ?_, ?_, ?_⟩ <;> simp [initial, FreePc.frees]

namespace Inv

variable {s s' : State} {j : Caller} {u : Nat}

/-- New memory is not in use, and not in a cache any more. -/
theorem alloc (h : Inv s) {os : Os} {a : Nat} (ha : s.alloc os a = some s') :
    (∀ u, s.mem a ≠ .unit u) ∧ ∃ cache, s' = { s with cache := cache } ∧ (∀ os', a ∉ cache os') ∧
      ∀ os', (cache os').Nodup ∧ ∀ b ∈ cache os', b ∈ s.cache os' := by
  unfold State.alloc at ha
  cases hc : s.cache os with
  | cons m rest =>
    simp only [hc, Option.ite_none_right_eq_some] at ha
    obtain ⟨rfl, ha⟩ := ha
    cases ha
    have hmem : a ∈ s.cache os := by simp [hc]
    have hnd := h.cacheNodup os
    rw [hc, List.nodup_cons] at hnd
    refine ⟨fun u hu => ?_, _, rfl, fun os' hm => ?_, fun os' => ?_⟩
    · rw [h.cached os a hmem] at hu
      cases hu
    · rw [Function.update_apply] at hm
      split at hm
      · exact hnd.1 hm
      · rename_i hne
        exact hne (h.cacheApart os' os a hm hmem)
    · show (Function.update s.cache os rest os').Nodup ∧ _
      rw [Function.update_apply]
      split
      · rename_i hos
        rw [hos, hc]
        exact ⟨hnd.2, fun b hb => List.mem_cons_of_mem a hb⟩
      · exact ⟨h.cacheNodup os', fun b hb => hb⟩
  | nil =>
    simp only [hc, Option.ite_none_right_eq_some] at ha
    obtain ⟨hraw, ha⟩ := ha
    cases ha
    refine ⟨fun u hu => ?_, s.cache, rfl, fun os' hm => ?_, fun os' => ?_⟩
    · rw [hraw] at hu
      cases hu
    · have := h.cached os' a hm
      rw [hraw] at this
      cases this
    · exact ⟨h.cacheNodup os', fun b hb => hb⟩

theorem create (h : Inv s) {os : Os} {a : Nat} {type : ThreadType} (ha : s.alloc os a = some s') :
    Inv (s'.create a type) := by
  obtain ⟨hfree, cache, rfl, hnot, hsub⟩ := h.alloc ha
  have hmem : ∀ {b u}, s.mem b = .unit u → b ≠ a ∧ u < s.nextId := by
    intro b u hb
    refine ⟨?_, (h.memOk b u hb).1⟩
    rintro rfl
    exact hfree u hb
  have hold : ∀ {α : Type} (f : Nat → α) (x : α) {u : Nat}, u < s.nextId →
      Function.update f s.nextId x u = f u := fun f x u hu =>
    Function.update_of_ne (Nat.ne_of_lt hu) x f
  have hunit : ∀ {u}, s.mem (s.addr u) = .unit u → Function.update s.mem a (.unit s.nextId)
      (Function.update s.addr s.nextId a u) = .unit u := by
    intro u hu
    rw [hold s.addr a (hmem hu).2, Function.update_of_ne (hmem hu).1, hu]
  unfold State.create
  refine { h with
    memOk := fun b u hb => ?memOk
    live := fun u hu he => ?live
    begun := fun u he => Nat.lt_succ_of_lt (h.begun u he)
    cached := fun os' b hb => ?cached
    cacheNodup := fun os' => (hsub os').1
    cacheApart := fun i k b hi hk => h.cacheApart i k b ((hsub i).2 b hi) ((hsub k).2 b hk)
    frees := fun j u hu => ?frees
    release := fun u hu => ?release }
  case memOk =>
    dsimp only at hb ⊢
    by_cases hba : b = a
    · subst hba
      rw [Function.update_self] at hb
      cases hb
      rw [Function.update_self, Function.update_self, Function.update_self]
      exact ⟨Nat.lt_succ_self _, rfl, rfl⟩
    · rw [Function.update_of_ne hba] at hb
      obtain ⟨hu, haddr, htype⟩ := h.memOk b u hb
      rw [hold s.addr a hu, hold s.kind type hu, Function.update_of_ne hba]
      exact ⟨Nat.lt_succ_of_lt hu, haddr, htype⟩
  case live =>
    dsimp only at hu he ⊢
    by_cases hn : u = s.nextId
    · subst hn
      rw [Function.update_self, Function.update_self]
    · exact hunit (h.live u (by omega) he)
  case cached =>
    dsimp only
    have hne : b ≠ a := by
      rintro rfl
      exact hnot os' hb
    rw [Function.update_of_ne hne]
    exact h.cached os' b ((hsub os').2 b hb)
  case frees =>
    obtain ⟨hm, hfr, hk⟩ := h.frees j u hu
    exact ⟨hunit hm, hfr, (hold s.kind type (hmem hm).2).trans hk⟩
  case release =>
    exact (hold s.kind type (h.begun u (by rw [hu]; simp))).trans (h.release u hu)

/-- A caller goes on in `ABT_thread_free`, or enters it. -/
theorem calls (h : Inv s) (J : JoinProtocol.State) {pc : FreePc} {freeing : Nat → Bool}
    (hf : ∀ u, pc.frees = some u → s.mem (s.addr u) = .unit u ∧ freeing u = true ∧
      s.kind u = .named ∧ ∀ i, i ≠ j → (s.free i).frees ≠ some u)
    (hfreeing : ∀ u, s.freeing u = true → freeing u = true) :
    Inv { s with join := J, free := Function.update s.free j pc, freeing := freeing } := by
  refine { h with
    frees := fun i u hi => ?frees
    freesOnce := fun i k u hi hk => ?freesOnce }
  case frees =>
    obtain ⟨-, hi⟩ | ⟨-, hi⟩ := update_cases (P := fun p : FreePc => p.frees = some u) hi
    · exact ⟨(hf u hi).1, (hf u hi).2.1, (hf u hi).2.2.1⟩
    · exact ⟨(h.frees i u hi).1, hfreeing u (h.frees i u hi).2.1, (h.frees i u hi).2.2⟩
  case freesOnce =>
    obtain ⟨hij, hi⟩ | ⟨hij, hi⟩ := update_cases (P := fun p : FreePc => p.frees = some u) hi
    · obtain ⟨hkj, -⟩ | ⟨hkj, hk⟩ := update_cases (P := fun p : FreePc => p.frees = some u) hk
      · exact hij.trans hkj.symm
      · exact absurd hk ((hf u hi).2.2.2 k hkj)
    · obtain ⟨-, hk⟩ | ⟨-, hk⟩ := update_cases (P := fun p : FreePc => p.frees = some u) hk
      · exact absurd hi ((hf u hk).2.2.2 i hij)
      · exact h.freesOnce i k u hi hk

theorem setFree (h : Inv s) {pc : FreePc} (hf : ∀ u, pc.frees = some u → (s.free j).frees = some u) :
    Inv (s.setFree j pc) := by
  refine h.calls s.join (fun v hv => ?_) fun _ hv => hv
  obtain ⟨hm, hfr, hk⟩ := h.frees j v (hf v hv)
  exact ⟨hm, hfr, hk, fun i hi hv' => hi (h.freesOnce i j v hv' (hf v hv))⟩

/-- `ABTI_thread_release` of the descriptor of a unit that nobody else frees. -/
theorem free (h : Inv s) {os : Os} {u : Nat} (hmem : s.mem (s.addr u) = .unit u)
    (hd : s.exit u = .done) (hf : ∀ j, (s.free j).frees ≠ some u) : Inv (s.release os (s.addr u)) := by
  -- the memory of the unit is not used for another
  have hother : ∀ {m : Mem} {v : Nat}, v ≠ u → s.mem (s.addr v) = .unit v →
      Function.update s.mem (s.addr u) m (s.addr v) = .unit v := by
    intro m v hv hmv
    rw [Function.update_of_ne, hmv]
    intro ha
    rw [ha, hmem] at hmv
    cases hmv
    exact hv rfl
  have hunit : ∀ {m : Mem} {b v : Nat}, m ≠ .unit v →
      Function.update s.mem (s.addr u) m b = .unit v → s.mem b = .unit v := by
    intro m b v hm hb
    obtain ⟨-, hb⟩ | ⟨-, hb⟩ := update_cases (P := fun x : Mem => x = .unit v) hb
    · exact absurd hb hm
    · exact hb
  have hlive : ∀ {m : Mem} {v : Nat}, v < s.nextId → s.exit v ≠ .done →
      Function.update s.mem (s.addr u) m (s.addr v) = .unit v := by
    intro m v hv he
    refine hother ?_ (h.live v hv he)
    rintro rfl
    exact he hd
  have hfrees : ∀ {m : Mem} {j : Caller} {v : Nat}, (s.free j).frees = some v →
      Function.update s.mem (s.addr u) m (s.addr v) = .unit v ∧ s.freeing v = true ∧
        s.kind v = .named := by
    intro m j v hv
    obtain ⟨hmv, hfr⟩ := h.frees j v hv
    refine ⟨hother ?_ hmv, hfr⟩
    rintro rfl
    exact hf j hv
  have hnot : ∀ {k b}, b ∈ s.cache k → b ≠ s.addr u := by
    rintro k b hb rfl
    rw [h.cached k _ hb] at hmem
    cases hmem
  unfold State.release
  split
  · have hcase : ∀ {k b}, b ∈ Function.update s.cache os (s.addr u :: s.cache os) k →
        (k = os ∧ b = s.addr u) ∨ (b ≠ s.addr u ∧ b ∈ s.cache k) := by
      intro k b hb
      obtain ⟨hk, hb⟩ | ⟨-, hb⟩ := update_cases (P := fun l => b ∈ l) hb
      · obtain rfl | hb := List.mem_cons.mp hb
        · exact .inl ⟨hk, rfl⟩
        · exact .inr ⟨hnot hb, hk ▸ hb⟩
      · exact .inr ⟨hnot hb, hb⟩
    refine { h with
      memOk := fun b v hb => h.memOk b v (hunit (by simp) hb)
      live := fun v hv he => hlive hv he
      cached := fun k b hb => ?cached
      cacheNodup := fun k => ?cacheNodup
      cacheApart := fun k k' b hk hk' => ?cacheApart
      frees := fun j v hv => hfrees hv }
    case cached =>
      obtain ⟨-, rfl⟩ | ⟨hne, hb⟩ := hcase hb
      · exact Function.update_self ..
      · exact (Function.update_of_ne hne ..).trans (h.cached k b hb)
    case cacheNodup =>
      show (Function.update s.cache os (s.addr u :: s.cache os) k).Nodup
      rw [Function.update_apply]
      split
      · exact List.nodup_cons.mpr ⟨fun hm => hnot hm rfl, h.cacheNodup os⟩
      · exact h.cacheNodup k
    case cacheApart =>
      obtain ⟨hk, hb⟩ | ⟨hb, hk⟩ := hcase hk
      · obtain ⟨hk', -⟩ | ⟨hb', -⟩ := hcase hk'
        · exact hk.trans hk'.symm
        · exact absurd hb hb'
      · obtain ⟨-, hb'⟩ | ⟨-, hk'⟩ := hcase hk'
        · exact absurd hb' hb
        · exact h.cacheApart k k' b hk hk'
  · refine { h with
      memOk := fun b v hb => h.memOk b v (hunit (by simp) hb)
      live := fun v hv he => hlive hv he
      cached := fun k b hb => ?cached
      frees := fun j v hv => hfrees hv }
    case cached => exact (Function.update_of_ne (hnot hb) ..).trans (h.cached k b hb)

/-- A unit that is not done with its descriptor moves. -/
theorem setExit (h : Inv s) {pc : ExitPc} (hd : s.exit u ≠ .done) (hu : u < s.nextId)
    (hr : pc = .release → s.kind u = .detached) : Inv (s.setExit u pc) := by
  refine { h with
    live := fun v hv he => ?live
    begun := fun v he => ?begun
    release := fun v he => ?release }
  case live =>
    obtain ⟨rfl, -⟩ | ⟨-, he⟩ := update_cases (P := fun e : ExitPc => e ≠ .done) he
    · exact h.live v hu hd
    · exact h.live v hv he
  case begun =>
    obtain ⟨rfl, -⟩ | ⟨-, he⟩ := update_cases (P := fun e : ExitPc => e ≠ .running) he
    · exact hu
    · exact h.begun v he
  case release =>
    obtain ⟨rfl, hpc⟩ | ⟨-, he⟩ := update_cases (P := fun e : ExitPc => e = .release) he
    · exact hr hpc
    · exact h.release v he

end Inv

/-- A descriptor is destroyed only after `ABTI_thread_terminated` is done with it. -/
def DestroyAfterExit (s : State) : Act → Prop
  | .free j _ => match s.free j with
    | .destroy u => s.exit u = .done
    | _ => True
  | _ => True

instance (s : State) (a : Act) : Decidable (DestroyAfterExit s a) := by
  unfold DestroyAfterExit
  split
  · split <;> infer_instance
  · infer_instance

section

variable {task : Nat → Bool} {s s' : State}

theorem step_inv {a : Act} (h : Inv s) (hg : DestroyAfterExit s a)
    (hst : step task s a = some s') : Inv s' := by
  cases step_cases hst with
  | create ha => exact h.create ha
  | refused => exact h
  | join | callback | ends => exact { h with }
  | @call j u free J _ hmem hfr hn =>
    refine h.calls J (fun v hv => ?_) fun v hv => ?_
    · cases free with
      | false => cases hv
      | true =>
        cases hv
        refine ⟨hmem, ?_, (h.memOk _ u hmem).2.2 ▸ hn, fun i _ hi => hfr ⟨rfl, (h.frees i u hi).2.1⟩⟩
        exact (Function.update_self ..).trans (Bool.or_true _)
    · by_cases hvu : v = u
      · subst hvu
        exact (Function.update_self ..).trans (by rw [hv, Bool.true_or])
      · exact (Function.update_of_ne hvu ..).trans hv
  | joined hj => exact h.setFree fun v hv => by rw [hj]; exact hv
  | failed hj => exact h.setFree nofun
  | @destroys j u r hj =>
    have hfr : (s.free j).frees = some u := by rw [hj]; rfl
    have hd : s.exit u = .done := by simpa only [DestroyAfterExit, hj] using hg
    have h' : Inv (s.setFree j .out) := h.setFree nofun
    -- the caller is the only one that frees the unit
    refine h'.free (h.frees j u hfr).1 hd fun i hi => ?_
    obtain ⟨-, hi⟩ | ⟨hij, hi⟩ := update_cases (P := fun p : FreePc => p.frees = some u) hi
    · cases hi
    · exact hij (h.freesOnce i j u hi hfr)
  | exit hu hrun => exact h.setExit (by simp [hrun]) hu nofun
  | @test u r hpc _ =>
    have hu := h.begun u (by simp [hpc])
    refine h.setExit (by simp [hpc]) hu fun ht => ?_
    rw [← (h.memOk _ u (h.live u hu (by simp [hpc]))).2.2]
    by_contra hne
    rw [if_neg hne] at ht
    cases ht
  | @release u r hpc =>
    have hu := h.begun u (by simp [hpc])
    have h' : Inv (s.setExit u .done) := h.setExit (by simp [hpc]) hu nofun
    refine h'.free (h.live u hu (by simp [hpc])) (Function.update_self ..) fun j hj => ?_
    have hk := (h.frees j u hj).2.2
    rw [h.release u hpc] at hk
    cases hk

theorem reach_inv (h : Reach (system task) DestroyAfterExit s) : Inv s := by
  refine Reach.invariant ?_ ?_ h
  · rintro _ rfl; exact inv_initial
  · intro s a s' _ hinv hg hst; exact step_inv hinv hg hst

end

/-- Thread 0, named, at address 5, up to the end of the walk in `ABTI_thread_terminated`. -/
def endThread : List Act :=
  .create (.ext 0) 1 5 .named :: .exit 0 :: List.replicate 5 (.terminated 0 1)

/-- Units that have not ended share no descriptor, none is cached twice, and `ABTI_thread_alloc` gives
out none that a unit has. -/
theorem descriptors_apart {task : Nat → Bool} {s : State}
    (h : Reach (system task) DestroyAfterExit s) :
    (∀ u v, u < s.nextId → v < s.nextId → s.exit u ≠ .done → s.exit v ≠ .done →
      s.addr u = s.addr v → u = v) ∧
    (∀ os, (s.cache os).Nodup) ∧ (∀ os os' a, a ∈ s.cache os → a ∈ s.cache os' → os = os') ∧
    ∀ os a s' u, s.alloc os a = some s' → s.mem a ≠ .unit u := by
  have hinv := reach_inv h
  refine ⟨fun u v hu hv hdu hdv heq => ?_, hinv.cacheNodup, hinv.cacheApart,
    fun os a s' u ha => (hinv.alloc ha).1 u⟩
  have hm := hinv.live u hu hdu
  rw [heq, hinv.live v hv hdv] at hm
  cases hm
  rfl

theorem descriptors_apart_freed : ∃ s, Reach (system fun _ => false) DestroyAfterExit s ∧
    s.cache (.ext 0) = [5] ∧ s.mem 5 ≠ .unit 0 := by
  have h0 : Reach (system fun _ => false) DestroyAfterExit initial := .start rfl
  obtain ⟨s, hr, hc⟩ := h0.exists_run (fun s => s.cache (.ext 0) = [5])
    (endThread ++ [Act.terminated 0 1, .call (.ext 0) 0 true, .join (.ext 0), .free (.ext 0) 0,
      .free (.ext 0) 0]) (by decide)
  exact ⟨s, hr, hc, (descriptors_apart hr).2.2.2 (.ext 0) 5 _ 0 (by simp only [State.alloc, hc]; rfl)⟩

end Join
end AbtReconverse
