import AbtReconverse.Objects.Live

/-!
# AbtReconverse.Objects.References

Pools and xstreams are destroyed by counters that do not count descriptors: a thread that has
terminated and is not yet freed is in no pool and blocks nothing, and nobody counts `last_xstream`.
`dangling` runs an xstream with its default scheduler, lets a named ULT terminate on it, and frees
the xstream before the ULT. `live_references`: in every run that frees the descriptors first
(`Settled`) all pointers stay good.
-/

namespace AbtReconverse
namespace Objects

open Lts

/-- The pool of every descriptor is null or live, and so is its last xstream. -/
def LiveRefs (s : State) : Prop :=
  ∀ t, (s.thread t).life ≠ .dead →
    (∀ p, (s.thread t).pool = some p → (s.pool p).live = true) ∧
    ∀ x, (s.thread t).lastXstream = some x → (s.xstream x).live = true

/-- Calls that follow a pointer of a descriptor. -/
inductive Query where
  | threadFree (t : Nat)
  | getLastPoolId (t : Nat)
  | getLastXstream (t : Nat)
  | migrate (t : Nat)
  deriving DecidableEq, Repr

namespace Query

def thread : Query → Nat
  | .threadFree t | .getLastPoolId t | .getLastXstream t | .migrate t => t

/-- The pool it reads: `t->pool->user` in `ABTI_pool_disassociate`, `t->pool->id`. -/
def readsPool (s : State) : Query → Option Nat
  | .threadFree t | .getLastPoolId t => (s.thread t).pool
  | _ => none

/-- The xstream it reads or hands out: `t->last_xstream->rank` in `ABT_thread_migrate`. -/
def readsXstream (s : State) : Query → Option Nat
  | .getLastXstream t | .migrate t => (s.thread t).lastXstream
  | _ => none

end Query

/-- The user's rule: no `ABT_pool_free` of a pool with associated units. -/
def UserRules (s : State) : Act → Prop
  | .poolFree p => ∀ t < s.nextThread, (s.thread t).life ≠ .dead → (s.thread t).pool ≠ some p
  | _ => True

/-- What is destroyed is not referred to: no descriptor points to it (the caller of
`set_main_sched` has moved, the primary ULT goes with `ABT_finalize`), no scheduler holds the pool,
no other xstream has the scheduler. -/
def Settled (s : State) : Act → Prop
  | .poolFree p => ¬ Refers s p ∧ ∀ i < s.nextSched, (s.sched i).live → p ∉ (s.sched i).pools
  | .schedFree i =>
    Clear s i ∧ ∀ y < s.nextXstream, (s.xstream y).live → (s.xstream y).mainSched ≠ i
  | .xstreamFree x =>
    (∀ t < s.nextThread, (s.thread t).life ≠ .dead → (s.thread t).lastXstream ≠ some x) ∧
    ((s.sched (s.xstream x).mainSched).automatic → Clear s (s.xstream x).mainSched ∧
      ∀ y < s.nextXstream, (s.xstream y).live →
        (s.xstream y).mainSched = (s.xstream x).mainSched → y = x)
  | .setMainSched x i self =>
    (s.sched (s.xstream x).mainSched).automatic →
      Clear (s.replaceSched x i self) (s.xstream x).mainSched ∧
      ∀ y < s.nextXstream, (s.xstream y).live →
        (s.xstream y).mainSched = (s.xstream x).mainSched → y = x
  | .finalize =>
    Clear (s.setThread 0 { s.thread 0 with life := .dead, pool := none })
      (s.xstream 0).mainSched ∧
    ∀ t < s.nextThread, t ≠ 0 → (s.thread t).life ≠ .dead → (s.thread t).lastXstream ≠ some 0
  | _ => True

instance (s : State) (i p : Nat) : Decidable (Doomed s i p) := by
  unfold Doomed; infer_instance

instance (s : State) (p : Nat) : Decidable (Refers s p) := by
  unfold Refers; infer_instance

instance (s : State) (i : Nat) : Decidable (Clear s i) := by
  unfold Clear; infer_instance

instance (s : State) (a : Act) : Decidable (UserRules s a) := by
  unfold UserRules; split <;> infer_instance

instance (s : State) (a : Act) : Decidable (Settled s a) := by
  unfold Settled; split <;> infer_instance

/-- Destroying a scheduler does not look at the xstreams. -/
theorem foldl_drop_xstream (l : List Nat) (s : State) (x : Nat) (o : Xstream) :
    l.foldl State.drop (s.setXstream x o) = (l.foldl State.drop s).setXstream x o := by
  induction l generalizing s with
  | nil => rfl
  | cons a l ih => exact ih (s.drop a)

theorem destroySched_xstream (s : State) (i x : Nat) (o : Xstream) :
    (s.destroySched i).setXstream x o = (s.setXstream x o).destroySched i := by
  have h := foldl_drop_xstream (s.sched i).pools s x o
  unfold State.destroySched
  rw [show ((s.setXstream x o).sched i) = s.sched i from rfl, h]
  rfl

namespace Inv

variable {s s' : State}

/-- A pool is freed that nobody refers to. -/
theorem killPool (h : Inv s) {p : Nat} (hr : ¬ Refers s p)
    (hs : ∀ i < s.nextSched, (s.sched i).live → p ∉ (s.sched i).pools) :
    Inv (s.setPool p { s.pool p with live := false }) := by
  have hkeep : ∀ q, q ≠ p → (s.setPool p { s.pool p with live := false }).pool q = s.pool q :=
    fun q hq => Function.update_of_ne hq ..
  refine ⟨?_, ?_, h.main, ?_, ?_, h.unbornSched, h.unbornXstream, h.unbornThread⟩
  · intro q hq
    have hne : q ≠ p := by
      rintro rfl
      simp [State.setPool] at hq
    rw [hkeep q hne] at hq ⊢
    rw [h.held q hq]
    exact (holders_congr rfl rfl q).symm
  · intro i hi q hq
    have hlt : i < s.nextSched := h.sched_lt hi
    have hne : q ≠ p := by
      rintro rfl
      exact hs i hlt hi hq
    rw [hkeep q hne]
    exact h.pools i hi q hq
  · intro t ht
    obtain ⟨ha, hb, hc⟩ := h.thread t ht
    refine ⟨fun q hq => ?_, fun q hq => ?_, hc⟩
    · have hne : q ≠ p := by
        rintro rfl
        exact hr ⟨t, h.thread_lt ht, ht, .inl hq⟩
      rw [hkeep q hne]
      exact ha q hq
    · have hne : q ≠ p := by
        rintro rfl
        exact hr ⟨t, h.thread_lt ht, ht, .inr hq⟩
      rw [hkeep q hne]
      exact hb q hq
  · intro q hq
    by_cases hne : q = p
    · subst hne; simp [State.setPool]
    · rw [hkeep q hne]
      exact h.unbornPool q hq

theorem newXstream (h : Inv s) {i : Nat} (r : Nat) (hi : (s.sched i).live = true) :
    Inv (s.newXstream i r) := by
  suffices h' : Inv { s with
      xstream := Function.update s.xstream s.nextXstream ⟨true, r, i, false, false, false, false⟩
      nextXstream := s.nextXstream + 1 } from h'.setUsedBy i (some s.nextXstream)
  have hd := h.unbornXstream s.nextXstream (Nat.le_refl _)
  refine ⟨h.held, h.pools, ?_, ?_, h.unbornPool, h.unbornSched, ?_, h.unbornThread⟩
  · intro x hx
    by_cases hne : x = s.nextXstream
    · subst hne
      simpa using hi
    · simp only [Function.update_of_ne hne] at hx ⊢
      exact h.main x hx
  · intro t ht
    obtain ⟨ha, hb, hc⟩ := h.thread t ht
    refine ⟨ha, hb, fun x hx => ?_⟩
    have hne : x ≠ s.nextXstream := by
      rintro rfl
      have := hc _ hx
      rw [hd] at this; cases this
    simp only [Function.update_of_ne hne]
    exact hc x hx
  · intro x hx
    have hle : s.nextXstream + 1 ≤ x := hx
    have hne : x ≠ s.nextXstream := by omega
    simp only [Function.update_of_ne hne]
    exact h.unbornXstream x (by omega)

theorem giveBack (h : Inv s) {x : Nat} (hx : (s.xstream x).live = true) : Inv (s.giveBack x) :=
  h.setXstream hx (fun _ => h.main x hx) fun hd => absurd (hx.symm.trans hd) (by simp)

/-- An xstream and its scheduler go together. -/
theorem killBoth (h : Inv s) {x i : Nat} (hx : (s.xstream x).live = true)
    (hi : (s.sched i).live = true) (hc : Clear s i)
    (hm : ∀ y < s.nextXstream, (s.xstream y).live → (s.xstream y).mainSched = i → y = x)
    (hr : ∀ t < s.nextThread, (s.thread t).life ≠ .dead → (s.thread t).lastXstream ≠ some x) :
    Inv ((s.destroySched i).setXstream x { s.xstream x with live := false }) := by
  rw [destroySched_xstream]
  have h1 := h.setXstream (o := { s.xstream x with live := false }) hx (by simp)
    fun _ t ht => hr t (h.thread_lt ht) ht
  refine h1.destroySched hi hc fun y hy => ?_
  have hne : y ≠ x := by
    rintro rfl
    simp [State.setXstream] at hy
  simp only [State.setXstream, Function.update_of_ne hne] at hy ⊢
  exact fun he => hne (hm y (h.xstream_lt hy) hy he)

end Inv

theorem step_inv {s s' : State} {a : Act} (h : Inv s) (hg : Settled s a)
    (hs : step s a = some s') : Inv s' := by
  cases a with
  | poolCreate a =>
    simp only [step, Option.some.injEq] at hs
    subst hs
    exact h.newPool a
  | poolFree p =>
    simp only [step] at hs
    split at hs <;> cases hs
    exact h.killPool hg.1 hg.2
  | schedCreate l a u =>
    simp only [step] at hs
    split at hs <;> cases hs
    rename_i hl
    obtain ⟨h1, h2, _⟩ := h.newPools l hl
    exact h1.addSched a u h2
  | schedFree i =>
    simp only [step] at hs
    split at hs <;> cases hs
    rename_i hc
    exact h.destroySched hc.1 hg.1 fun y hy => hg.2 y (h.xstream_lt hy) hy
  | xstreamCreate i r =>
    simp only [step] at hs
    split at hs <;> cases hs
    rename_i hc
    exact h.newXstream r hc.1
  | xstreamJoin x =>
    simp only [step] at hs
    split at hs <;> cases hs
    rename_i hc
    exact h.setXstream hc.1 (fun _ => h.main x hc.1) fun hd => absurd (hc.1.symm.trans hd) (by simp)
  | idle x =>
    simp only [step] at hs
    split at hs <;> cases hs
    rename_i hc
    exact h.giveBack hc.1
  | runnerStart x i =>
    simp only [step] at hs
    split at hs <;> cases hs
    rename_i hc
    exact h.addThread (fun p hp => h.pools i hc.1 p (List.mem_of_head? hp)) (by simp) hc.2
  | runnerEnd x =>
    simp only [step] at hs
    split at hs <;> cases hs
    rename_i hc
    exact h.giveBack hc.1
  | release x =>
    simp only [step] at hs
    split at hs <;> cases hs
    rename_i hc
    have h1 := h.setXstream (o := { s.xstream x with finished := true }) hc.1
      (fun _ => h.main x hc.1) fun hd => absurd (hc.1.symm.trans hd) (by simp)
    exact h1.setUsedBy _ none
  | xstreamFree x =>
    simp only [step] at hs
    split at hs <;> cases hs
    rename_i hc
    obtain ⟨hr, hauto⟩ := hg
    split
    · rename_i ha
      obtain ⟨hclear, hm⟩ := hauto ha
      exact h.killBoth hc.1 (h.main x hc.1) hclear hm hr
    · exact h.setXstream hc.1 (by simp) fun _ t ht => hr t (h.thread_lt ht) ht
  | setMainSched x i self =>
    simp only [step] at hs
    split at hs <;> cases hs
    rename_i hc
    obtain ⟨hx, hi, hne, _, hself⟩ := hc
    have h1 := h.replaceSched hx hi fun t ht => by rw [hself t ht]; simp
    split
    · rename_i ha
      obtain ⟨hclear, hm⟩ := hg ha
      obtain ⟨th, sc, he, hsc⟩ := Inv.replaceSched_frame s x i self
      have hl : ((s.replaceSched x i self).sched (s.xstream x).mainSched).live = true := by
        obtain ⟨u, hu⟩ := hsc (s.xstream x).mainSched
        rw [he]
        simp only [hu]
        exact h.main x hx
      refine h1.destroySched hl hclear fun y hy => ?_
      simp only [he] at hy ⊢
      by_cases hyx : y = x
      · subst hyx
        simpa using hne
      · rw [Function.update_of_ne hyx] at hy ⊢
        exact fun he => hyx (hm y (h.xstream_lt hy) hy he)
    · exact h1
  | threadCreate p k =>
    simp only [step] at hs
    split at hs <;> cases hs
    rename_i hc
    exact h.newThread hc.1 k
  | threadCreateOnXstream x k =>
    simp only [step] at hs
    split at hs
    · rename_i hc
      split at hs <;> cases hs
      rename_i p l hp
      exact h.newThread (h.pools _ (h.main x hc.1) p (by rw [hp]; exact List.mem_cons_self)) k
    · cases hs
  | pop p t =>
    simp only [step] at hs
    split at hs <;> cases hs
    exact h.setPool rfl rfl
  | push p t =>
    simp only [step] at hs
    split at hs <;> cases hs
    rename_i hc
    obtain ⟨hp, ht, _⟩ := hc
    have hl : (s.thread t).life ≠ .dead := by rw [ht]; simp
    have h1 := (h.push t (some p)).1
    obtain ⟨_, hb, hx⟩ := h1.thread t hl
    refine h1.setThread hl fun _ => ⟨?_, hb, hx⟩
    rintro q ⟨⟩
    simpa [State.push, State.setPool] using hp
  | run x t =>
    simp only [step] at hs
    split at hs <;> cases hs
    rename_i hc
    obtain ⟨hx, ht, _⟩ := hc
    have hl : (s.thread t).life ≠ .dead := by rw [ht]; simp
    obtain ⟨ha, hb, _⟩ := h.thread t hl
    exact h.setThread hl fun _ => ⟨ha, hb, fun y hy => (hx y hy).1⟩
  | yield t =>
    simp only [step] at hs
    split at hs <;> cases hs
    rename_i ht
    exact h.awaken (by rw [ht]; simp)
  | block t =>
    simp only [step] at hs
    split at hs
    · rename_i ht
      have hl : (s.thread t).life ≠ .dead := by rw [ht]; simp
      split at hs <;> cases hs
      · exact h.setThread hl fun _ => h.thread t hl
      rename_i q _ _
      have h1 := h.setPool (p := q)
        (o := { s.pool q with numBlocked := (s.pool q).numBlocked + 1 }) rfl rfl
      exact h1.setThread hl fun _ => h1.thread t hl
    · cases hs
  | wake t =>
    simp only [step] at hs
    split at hs <;> cases hs
    rename_i ht
    exact h.awaken (by rw [ht]; simp)
  | exit t =>
    simp only [step] at hs
    split at hs
    · rename_i ht
      have hl : (s.thread t).life ≠ .dead := by rw [ht]; simp
      split at hs <;> cases hs
      · exact h.setThread hl fun _ => h.thread t hl
      all_goals exact h.setThread hl fun hd => absurd rfl hd
    · cases hs
  | threadFree t =>
    simp only [step] at hs
    split at hs <;> cases hs
    rename_i hc
    exact h.setThread (by rw [hc.1]; simp) fun hd => absurd rfl hd
  | migrateToPool t p =>
    simp only [step] at hs
    split at hs <;> cases hs
    rename_i hc
    obtain ⟨ha, _, hx⟩ := h.thread t hc.1
    refine h.setThread hc.1 fun _ => ⟨ha, ?_, hx⟩
    rintro q ⟨⟩
    exact hc.2
  | migrateToXstream t x =>
    simp only [step] at hs
    split at hs
    · rename_i hc
      split at hs <;> cases hs
      rename_i p l hp
      obtain ⟨ha, _, hx⟩ := h.thread t hc.1
      refine h.setThread hc.1 fun _ => ⟨ha, ?_, hx⟩
      rintro q ⟨⟩
      exact h.pools _ (h.main x hc.2) p (by rw [hp]; exact List.mem_cons_self)
    · cases hs
  | setAssociatedPool t p =>
    simp only [step] at hs
    split at hs <;> cases hs
    rename_i hc
    obtain ⟨_, hb, hx⟩ := h.thread t hc.1
    refine h.setThread hc.1 fun _ => ⟨?_, hb, hx⟩
    rintro q ⟨⟩
    exact hc.2
  | finalize =>
    simp only [step] at hs
    split at hs <;> cases hs
    rename_i hc
    obtain ⟨hx, ht, hothers, _⟩ := hc
    obtain ⟨hclear, hr⟩ := hg
    have h1 := h.setThread (o := { s.thread 0 with life := .dead, pool := none })
      (by rw [ht]; simp) fun hd => absurd rfl hd
    refine h1.killBoth hx (h.main 0 hx) hclear (fun y hy hl _ => ?_) fun t htn hl => ?_
    · by_contra hne
      exact absurd (hl.symm.trans (hothers y hy hne)) (by simp)
    · have hne : t ≠ 0 := by
        rintro rfl
        simp [State.setThread] at hl
      simp only [State.setThread, Function.update_of_ne hne] at hl ⊢
      exact hr t htn hne hl

theorem reach_inv {s : State} (h : Reach system Settled s) : Inv s :=
  h.invariant (fun _ h0 => h0 ▸ Inv.start) fun _ _ _ _ hi hg hs => step_inv hi hg hs

/-- Whatever a call reads of a descriptor in such a state is live. -/
theorem LiveRefs.reads {s : State} (h : LiveRefs s) {q : Query}
    (hq : (s.thread q.thread).life ≠ .dead) :
    (∀ p, q.readsPool s = some p → (s.pool p).live = true) ∧
    ∀ x, q.readsXstream s = some x → (s.xstream x).live = true := by
  obtain ⟨ha, hb⟩ := h _ hq
  cases q with
  | threadFree t | getLastPoolId t => exact ⟨ha, by simp [Query.readsXstream]⟩
  | getLastXstream t | migrate t => exact ⟨by simp [Query.readsPool], hb⟩

/-- A run in which what is destroyed is not referred to keeps every pointer of every descriptor
good, and no call reads a destroyed object. -/
theorem live_references {s : State} (h : Reach system Settled s) :
    LiveRefs s ∧ ∀ q : Query, (s.thread q.thread).life ≠ .dead →
      (∀ p, q.readsPool s = some p → (s.pool p).live = true) ∧
      ∀ x, q.readsXstream s = some x → (s.xstream x).live = true := by
  have hl : LiveRefs s := fun t ht => by
    obtain ⟨ha, _, hc⟩ := (reach_inv h).thread t ht
    exact ⟨ha, hc⟩
  exact ⟨hl, fun q hq => hl.reads hq⟩

/-- An xstream with its default scheduler runs a ULT to its end and is joined. -/
def finishedRun : List Act :=
  [.schedCreate [none] true false, .xstreamCreate 1 1, .threadCreate 1 .named, .pop 1 1,
    .run (some 1) 1, .exit 1, .xstreamJoin 1, .idle 1, .release 1]

/-- The ULT is freed before the xstream; the xstream, its scheduler and its pool are gone. -/
theorem live_references_freed : ∃ s, (Reach system Settled s ∧ (s.xstream 1).live = false ∧
    (s.pool 1).live = false ∧ (s.thread 0).life = .running) ∧
    (LiveRefs s ∧ ∀ q : Query, (s.thread q.thread).life ≠ .dead →
      (∀ p, q.readsPool s = some p → (s.pool p).live = true) ∧
      ∀ x, q.readsXstream s = some x → (s.xstream x).live = true) := by
  obtain ⟨s, hr, hp⟩ := (Reach.start (M := system) (G := Settled) (s := initial) rfl).exists_run
    (fun s => (s.xstream 1).live = false ∧ (s.pool 1).live = false ∧ (s.thread 0).life = .running)
    (finishedRun ++ [Act.threadFree 1, .xstreamFree 1]) (by decide)
  exact ⟨s, ⟨hr, hp⟩, live_references hr⟩

/-- The xstream is freed before the ULT: the user's rule is kept, `ABT_thread_free` and
`ABT_thread_get_last_pool_id` read a destroyed pool, `ABT_thread_get_last_xstream` hands out and
`ABT_thread_migrate` reads a deleted xstream. -/
theorem dangling : ∃ s, Reach system UserRules s ∧ (s.thread 1).life = .terminated ∧
    (∀ q ∈ [Query.threadFree 1, .getLastPoolId 1], q.readsPool s = some 1) ∧
    (s.pool 1).live = false ∧
    (∀ q ∈ [Query.getLastXstream 1, .migrate 1], q.readsXstream s = some 1) ∧
    (s.xstream 1).live = false ∧ ¬ LiveRefs s := by
  obtain ⟨s, hr, hl, h1, hp, h2, hx⟩ :=
    (Reach.start (M := system) (G := UserRules) (s := initial) rfl).exists_run
      (fun s => (s.thread 1).life = .terminated ∧
        (∀ q ∈ [Query.threadFree 1, .getLastPoolId 1], q.readsPool s = some 1) ∧
        (s.pool 1).live = false ∧
        (∀ q ∈ [Query.getLastXstream 1, .migrate 1], q.readsXstream s = some 1) ∧
        (s.xstream 1).live = false)
      (finishedRun ++ [Act.xstreamFree 1]) (by decide)
  refine ⟨s, hr, hl, h1, hp, h2, hx, fun h => ?_⟩
  have hpool := (h 1 (by rw [hl]; simp)).1 1 (h1 (.threadFree 1) (by simp))
  rw [hp] at hpool; cases hpool

end Objects
end AbtReconverse
