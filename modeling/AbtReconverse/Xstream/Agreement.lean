import AbtReconverse.Xstream.Lease

/-!
# AbtReconverse.Xstream.Agreement

The installed table and the lease of a PE agree whenever the table's scheduler has a unit, in every
run that keeps to `Calm`: a scheduler that a PE still lists gets no unit and is not destroyed once
it is no longer the main scheduler of the xstream that has the lease.

Without that condition they do not agree. `ABT_xstream_set_main_sched` writes `main_sched`, and
destroys the old scheduler, while its table is installed (`table_lags`);
`ABTI_xstream_release` forgets the xstream before the table is swapped (`lease_lags`); the scheduler
of a joined xstream can be replaced (`table_without_lease`) or given to another xstream and then
destroyed with the first (`table_outlives`).
-/

namespace AbtReconverse
namespace Lease

open Lts Objects

/-- `ABTI_poll_sched` of scheduler `j` on PE `r` has a unit: the parked one or one of a pool. -/
def State.yields (s : State) (r j : Nat) : Bool :=
  (s.pe r).held.isSome || (s.obj.sched j).pools.any fun p => (s.obj.pool p).units ≠ []

/-- The lease of PE `r` agrees with a table that polls scheduler `j`. -/
def Agrees (s : State) (r j : Nat) : Prop :=
  ∃ x, (s.pe r).tls = some x ∧ (s.obj.xstream x).live = true ∧ (s.obj.xstream x).rank = r ∧
    (s.obj.xstream x).mainSched = j ∧ (s.obj.sched j).live = true

/-- No PE lists the scheduler. -/
def Unlisted (s : State) (i : Nat) : Prop := ∀ r < s.numPes, ¬ (s.pe r).Entry i

instance (s : State) (i : Nat) : Decidable (Unlisted s i) := by
  unfold Unlisted; infer_instance

/-- A scheduler is destroyed only when no PE lists it, a listed scheduler that is not current gets
no unit, and only an xstream that has its lease gets another scheduler, when the old one has
nothing to run. -/
def Calm (s : State) : Act → Prop
  | .obj a =>
    (∀ p ∈ pushes s.obj a, ∀ r < s.numPes, ∀ j < s.obj.nextSched, (s.pe r).Entry j →
      p ∈ (s.obj.sched j).pools → Current s.obj r j) ∧
    ∀ i ∈ destroys s.obj a, Unlisted s i
  | .setMainSched x i self _ =>
    (s.obj.xstream x).released = false ∧
    ((s.pe (s.obj.xstream x).rank).Entry (s.obj.xstream x).mainSched →
      Quiet s.obj (s.pe (s.obj.xstream x).rank) (s.obj.xstream x).mainSched) ∧
    ∀ j ∈ destroys s.obj (.setMainSched x i self), Unlisted s j
  | .park r _ _ => ∀ j < s.obj.nextSched, (s.pe r).Entry j → Current s.obj r j
  | _ => True

instance (s : State) (a : Act) : Decidable (Calm s a) := by
  unfold Calm; split <;> infer_instance

section
variable {o o' : Objects.State} {n r : Nat} {e : Pe}

theorem ObjInv.effect (h : ObjInv o n) {d p : Option Nat} (he : Effect o o' d p) :
    ObjInv o' n := by
  refine ⟨?_, ?_, ?_, ?_, ?_, ?_⟩
  · intro i hi
    exact he.unborn i hi (h.unbornSched i (he.nextSched.trans hi))
  · intro x hx
    by_contra hl
    have hl' := he.live x (by simpa using hl)
    rw [h.unbornXstream x (he.nextXstream ▸ hx)] at hl'; cases hl'
  · intro x hx
    rw [he.main]
    exact (h.main x (he.nextXstream ▸ hx)).trans_le he.nextSched
  · intro x y hx hy hxy
    rw [he.rank, he.rank] at hxy
    exact h.slot x y (he.live x hx) (he.live y hy) hxy
  · intro x hx hf
    rw [he.finished] at hf
    rw [he.released]
    exact h.finished x (he.nextXstream ▸ hx) hf
  · intro x hx
    rw [he.rank]
    exact h.rank x (he.live x hx)

/-- A step that sends nothing keeps every lease, if it neither destroys a listed scheduler nor
pushes to one that is not current. -/
theorem Keeps.effect (h : PeInv o n r e) (ho : ObjInv o n) {d p : Option Nat}
    (he : Effect o o' d p) (hd : ∀ i ∈ d, ¬ e.Entry i)
    (hp : ∀ q ∈ p, ∀ j, e.Entry j → q ∈ (o.sched j).pools → Current o r j) : Keeps o o' r e where
  nextXstream := he.nextXstream.ge
  nextSched := he.nextSched
  rank y _ := he.rank y
  same y _ _ := ⟨he.main y, he.released y, he.finished y⟩
  live y hy _ := ⟨ho.xstream_lt (he.live y hy), he.live y hy⟩
  freed := he.freed
  userDef := he.userDef
  listed j hj := by
    obtain ⟨_, hlt, hl, _⟩ := h.listed j hj
    exact (he.sched j hlt hl).resolve_right fun hdj => hd j hdj hj
  quiet j hj hq := by
    by_cases hc : Current o r j
    · exact .inr hc
    · refine .inl ⟨hq.1, fun q hqm => ?_⟩
      rw [he.pools j (h.listed j hj).2.1] at hqm
      exact (he.units q (hq.2 q hqm)).resolve_right fun hpq => hc (hp q hpq j hj hqm)

/-- `ABT_xstream_set_main_sched`, on the PE of the xstream. -/
theorem PeInv.setMainSched (h : PeInv o n r e) (ho : ObjInv o n) {x i : Nat} {here : Bool}
    (hx : (o.xstream x).live = true) (hxr : (o.xstream x).rank = r)
    (hrel : (o.xstream x).released = false) (hi : (o.sched i).live = true)
    (hxs : o'.xstream = Function.update o.xstream x { o.xstream x with mainSched := i })
    (hnx : o'.nextXstream = o.nextXstream) (hns : o'.nextSched = o.nextSched)
    (hs : ∀ j, (o'.sched j).pools = (o.sched j).pools ∧
      (o'.sched j).userDef = (o.sched j).userDef)
    (hl : ∀ j, e.Entry j ∨ j = i → (o'.sched j).live = true)
    (hu : ∀ q, (o'.pool q).units = (o.pool q).units)
    (hq : e.Entry (o.xstream x).mainSched → Quiet o e (o.xstream x).mainSched) :
    PeInv o' n r (replaced o e x i here) := by
  obtain ⟨l, lq, lt, ltab, lh, hlease, hrelease, hinst, hrun⟩ := replaced_spec o e x i here
  have hself : o'.xstream x = { o.xstream x with mainSched := i } := by
    rw [hxs]; exact Function.update_self ..
  have hother : ∀ y, y ≠ x → o'.xstream y = o.xstream y := fun y hy => by
    rw [hxs]; exact Function.update_of_ne hy ..
  have hsame : ∀ y, (o'.xstream y).live = (o.xstream y).live ∧
      (o'.xstream y).rank = (o.xstream y).rank ∧
      (o'.xstream y).released = (o.xstream y).released ∧
      (o'.xstream y).finished = (o.xstream y).finished := by
    intro y
    by_cases hy : y = x
    · subst hy; rw [hself]; exact ⟨rfl, rfl, rfl, rfl⟩
    · rw [hother y hy]; exact ⟨rfl, rfl, rfl, rfl⟩
  have honly : ∀ y, (o.xstream y).live = true → (o.xstream y).rank = r → y = x :=
    fun y hy hyr => ho.slot y x hy hx (hyr.trans hxr.symm)
  have hi' : i < o.nextSched := by
    by_contra hn
    rw [ho.unbornSched i (by omega)] at hi; cases hi
  have hent : ∀ j, (replaced o e x i here).Entry j →
      e.Entry j ∨ j = i ∧ (o.sched i).userDef = false := by
    intro j hj
    rcases hj with ht | hm
    · rw [ltab] at ht
      exact .inl (.inl ht)
    · rw [lq] at hm
      rcases List.mem_append.mp hm with hm | hm
      · exact .inl (.inr hm)
      · exact .inr (hinst j hm)
  constructor
  case sent =>
    intro y hy
    rw [lq] at hy
    rw [(hsame y).2.1, (hsame y).2.2.1, hnx]
    exact h.sent y ((List.mem_append.mp hy).resolve_right (hrelease y))
  case lease =>
    intro y hy
    rw [lq] at hy
    rw [(hsame y).2.1, hnx]
    rcases List.mem_append.mp hy with hy | hy
    · exact h.lease y hy
    · rw [hlease y hy]
      exact ⟨ho.xstream_lt hx, hxr⟩
  case tls =>
    intro y hy
    rw [(hsame y).2.1, hnx]
    exact h.tls y (lt.symm.trans hy)
  case runner =>
    intro k hk
    rw [(hs k).2, hns]
    rcases hrun k hk with hk | ⟨rfl, hk⟩
    · exact h.runner k hk
    · exact ⟨hi', hk⟩
  case listed =>
    intro j hj
    rw [(hs j).2, hns]
    rcases hent j hj with hj | ⟨rfl, hj⟩
    · obtain ⟨h1, h2, _, h4⟩ := h.listed j hj
      exact ⟨h1, h2, hl j (.inl hj), h4⟩
    · exact ⟨hxr ▸ ho.rank x hx, hi', hl j (.inr rfl), hj⟩
  case entry =>
    intro j hj
    by_cases hji : j = i
    · subst hji
      refine .inr ⟨x, hnx ▸ ho.xstream_lt hx, ?_⟩
      rw [hself]
      exact ⟨hx, hrel, hxr, rfl⟩
    · have hj' : e.Entry j := (hent j hj).resolve_right fun h => hji h.1
      have hqj : Quiet o e j := by
        rcases h.entry j hj' with hqj | ⟨y, _, hy, _, hyr, hym⟩
        · exact hqj
        · rw [honly y hy hyr] at hym
          subst hym
          exact hq hj'
      refine .inl ⟨lh.trans hqj.1, fun p hp => ?_⟩
      rw [hu]
      exact hqj.2 p ((hs j).1 ▸ hp)
  case leased =>
    intro y hy hyr _
    rw [(hsame y).1] at hy
    rw [(hsame y).2.1] at hyr
    rw [honly y hy hyr]
    obtain ⟨hle, hkn⟩ := (h.leased x hx hxr hrel).send hlease
    refine ⟨fun z hz => hle z (by rw [lq] at hz; exact hz), hkn.imp lt.trans ?_⟩
    rintro ⟨ht, l₁, l₂, hq', hi'⟩
    exact ⟨ltab.trans ht, l₁, l₂, lq.trans hq', hi'⟩
  case closing =>
    intro y hy hyr hyrel
    rw [(hsame y).1] at hy
    rw [(hsame y).2.1] at hyr
    rw [(hsame y).2.2.1, honly y hy hyr, hrel] at hyrel; cases hyrel
  case free =>
    intro hall
    have hf := hall x (by rw [(hsame x).1]; exact hx) (by rw [(hsame x).2.1]; exact hxr)
    rw [(hsame x).2.2.2] at hf
    rw [ho.finished x (ho.xstream_lt hx) hf] at hrel; cases hrel

theorem ObjInv.setMainSched (h : ObjInv o n) {x i : Nat} (hi : (o.sched i).live = true)
    (hxs : o'.xstream = Function.update o.xstream x { o.xstream x with mainSched := i })
    (hnx : o'.nextXstream = o.nextXstream) (hns : o'.nextSched = o.nextSched)
    (hl : ∀ j, (o.sched j).live = false → (o'.sched j).live = false) : ObjInv o' n := by
  have hsame : ∀ y, (o'.xstream y).live = (o.xstream y).live ∧
      (o'.xstream y).rank = (o.xstream y).rank ∧
      (o'.xstream y).released = (o.xstream y).released ∧
      (o'.xstream y).finished = (o.xstream y).finished := by
    intro y
    rw [hxs]
    by_cases hy : y = x
    · subst hy; simp
    · simp [hy]
  refine ⟨?_, ?_, ?_, ?_, ?_, ?_⟩
  · intro j hj
    exact hl j (h.unbornSched j (hns ▸ hj))
  · intro y hy
    rw [(hsame y).1]
    exact h.unbornXstream y (hnx ▸ hy)
  · intro y hy
    rw [hxs, hns]
    by_cases hyx : y = x
    · subst hyx
      simp only [Function.update_self]
      by_contra hn
      rw [h.unbornSched i (by omega)] at hi; cases hi
    · rw [Function.update_of_ne hyx]
      exact h.main y (hnx ▸ hy)
  · intro y z hy hz hyz
    rw [(hsame y).1] at hy
    rw [(hsame z).1] at hz
    rw [(hsame y).2.1, (hsame z).2.1] at hyz
    exact h.slot y z hy hz hyz
  · intro y hy hf
    rw [(hsame y).2.2.2] at hf
    rw [(hsame y).2.2.1]
    exact h.finished y (hnx ▸ hy) hf
  · intro y hy
    rw [(hsame y).1] at hy
    rw [(hsame y).2.1]
    exact h.rank y hy

end

/-! ### Every step -/

section
variable {s s' : State}

theorem Inv.effect (h : Inv s) {o : Objects.State} {d p : Option Nat} (he : Effect s.obj o d p)
    (hd : ∀ i ∈ d, Unlisted s i)
    (hp : ∀ q ∈ p, ∀ r < s.numPes, ∀ j < s.obj.nextSched, (s.pe r).Entry j →
      q ∈ (s.obj.sched j).pools → Current s.obj r j) : Inv (s.setObj o) := by
  refine ⟨h.obj.effect he, fun r => (h.pe r).keep h.obj (.effect (h.pe r) h.obj he ?_ ?_)⟩
  · intro i hi hent
    exact hd i hi r ((h.pe r).listed i hent).1 hent
  · intro q hq j hj hqj
    obtain ⟨hr, hlt, _⟩ := (h.pe r).listed j hj
    exact hp q hq r hr j hlt hj hqj

theorem pop_effect {o : Objects.State} {p t : Nat} (hs : Objects.step s.obj (.pop p t) = some o) :
    Effect s.obj o none none :=
  step_effect hs (by simp) (by simp) (by simp) (by simp) (by simp) (by simp)

theorem handle_inv (h : Inv s) {r : Nat} {m : Msg} {q : List Msg}
    (hq : (s.pe r).queue = m :: q) :
    Inv (handle s r { s.pe r with queue := q } m) := by
  have hpe := h.pe r
  cases m with
  | lease x =>
    obtain ⟨hx, _⟩ := hpe.lease x (by rw [hq]; exact List.mem_cons_self)
    simp only [handle]
    split
    · rename_i hu
      refine h.setPe (hpe.handle (m := .lease x) ⟨hq, rfl, rfl, rfl, rfl⟩ ?_ (by simp))
      intro i hi
      rcases List.mem_cons.mp hi with rfl | hi
      · exact ⟨h.obj.main x hx, hu⟩
      · exact hpe.runner i hi
    · exact h.setPe (hpe.handle (m := .lease x) ⟨hq, rfl, rfl, rfl, rfl⟩ hpe.runner (by simp))
  | install t =>
    exact h.setPe (hpe.handle (m := .install t) ⟨hq, rfl, rfl, rfl, rfl⟩ hpe.runner (by simp))
  | release x =>
    obtain ⟨hx, hrel, hxr⟩ := hpe.sent x (by rw [hq]; exact List.mem_cons_self)
    have hh : Handles (s.pe r) (.release x) q { s.pe r with queue := q } := ⟨hq, rfl, rfl, rfl, rfl⟩
    simp only [handle]
    split
    · rename_i hl
      refine h.update (h.obj.finish hrel) (fun r' hr' => ?_) (hpe.finish h.obj hh rfl hl)
      have hf := finish_xstream s.obj x
      have hsc := finish_sched s.obj x
      refine .one (x := x) h.obj (Nat.le_refl _) rfl (fun y hy => ?_) ?_ (fun _ => (hf x).2.1)
        (fun hl => (hf x).1.trans hl) (fun j => (hsc j).2)
        (fun j hj => (hsc j).1.trans ((h.pe r').listed j hj).2.2.1) fun _ => rfl
      · simp [State.finish, State.setSched, State.setXstream, hy]
      · rw [(hf x).2.1, hxr]
        exact Ne.symm hr'
    · rename_i hl
      refine h.setPe (hpe.handle hh hpe.runner ?_)
      rintro y ⟨⟩
      simpa using hl

theorem giveBack_inv (h : Inv s) {r x : Nat} {e : Pe} (he : PeInv s.obj s.numPes r e)
    (ht : e.tls = some x) (hx : (s.obj.xstream x).live = true)
    (hq : ∀ j, e.Entry j → (s.obj.xstream x).mainSched = j → Quiet s.obj e j) :
    Inv ((s.setObj (s.obj.giveBack x)).setPe r (e.giveBack x)) := by
  have hg := giveBack_xstream s.obj x x
  refine h.update (h.obj.giveBack x) (fun r' hr' => ?_) (he.giveBack h.obj ht hx hq)
  refine .one (x := x) h.obj (Nat.le_refl _) rfl (fun y hy => giveBack_other hy) ?_
    (fun _ => hg.2.1) (fun hl => hg.1.trans hl) (fun _ => ⟨rfl, rfl⟩)
    (fun j hj => ((h.pe r').listed j hj).2.2.1) fun _ => rfl
  rw [hg.2.1, (he.tls x ht).2]
  exact Ne.symm hr'

theorem setMainSched_inv (h : Inv s) {x i : Nat} {self : Option Nat} {here : Bool}
    {o : Objects.State} (hs : Objects.step s.obj (.setMainSched x i self) = some o)
    (hg : Calm s (.setMainSched x i self here)) :
    Inv ((s.setObj o).setPe (s.obj.xstream x).rank
      (replaced s.obj (s.pe (s.obj.xstream x).rank) x i here)) := by
  obtain ⟨⟨hx, hi, hne⟩, hxs, hnx, hns, hsc, hu⟩ := setMainSched_effect hs
  obtain ⟨hrel, hq, hd⟩ := hg
  have hlive : ∀ r j, (s.pe r).Entry j → (o.sched j).live = true := by
    intro r j hj
    obtain ⟨hr, _, hl, _⟩ := (h.pe r).listed j hj
    rcases (hsc j).2.2 with he | ⟨_, he⟩
    · exact he.trans hl
    · exact absurd hj (hd j he r hr)
  have hilive : (o.sched i).live = true := by
    rcases (hsc i).2.2 with he | ⟨_, he⟩
    · exact he.trans hi
    · simp only [destroys] at he
      split at he
      · exact absurd (Option.some.inj he).symm hne
      · cases he
  have hself : (o.xstream x).rank = (s.obj.xstream x).rank := by rw [hxs]; simp
  refine h.update (h.obj.setMainSched hi hxs hnx hns fun j hj => ?_) (fun r' hr' => ?_)
    ((h.pe _).setMainSched h.obj hx rfl hrel hi hxs hnx hns (fun j => ⟨(hsc j).1, (hsc j).2.1⟩)
      (fun j hj => ?_) hu hq)
  · rcases (hsc j).2.2 with he | ⟨he, _⟩
    · exact he.trans hj
    · exact he
  · refine .one (x := x) h.obj hnx.ge hns (fun y hy => by rw [hxs, Function.update_of_ne hy])
      (by rw [hself]; exact Ne.symm hr') (fun _ => hself) (fun hl => by rw [hxs]; simpa using hl)
      (fun j => ⟨(hsc j).1, (hsc j).2.1⟩) (hlive r') hu
  · rcases hj with hj | rfl
    · exact hlive _ j hj
    · exact hilive

theorem step_inv {a : Act} (h : Inv s) (hg : Calm s a) (hs : step s a = some s') : Inv s' := by
  cases a with
  | obj a =>
    simp only [step] at hs
    split at hs
    · rename_i hloc
      obtain ⟨o, ho, rfl⟩ := Option.map_eq_some_iff.mp hs
      have he : Effect s.obj o (destroys s.obj a) (pushes s.obj a) := by
        refine step_effect ho ?_ ?_ ?_ ?_ ?_ ?_ <;> intros <;> rintro rfl <;> cases hloc
      exact h.effect he hg.2 hg.1
    · cases hs
  | xstreamCreate i r =>
    simp only [step] at hs
    split at hs
    · rename_i hr
      obtain ⟨o, ho, rfl⟩ := Option.map_eq_some_iff.mp hs
      simp only [Objects.step] at ho
      split at ho <;> cases ho
      rename_i hc
      obtain ⟨hi, _, _, hslot⟩ := hc
      have hslot' : ∀ y, (s.obj.xstream y).live = true → (s.obj.xstream y).rank ≠ r :=
        fun y hy => hslot y (h.obj.xstream_lt hy) hy
      have hsc : ∀ j, (((s.obj.newXstream i r).sched j).pools = (s.obj.sched j).pools ∧
          ((s.obj.newXstream i r).sched j).userDef = (s.obj.sched j).userDef) ∧
          ((s.obj.newXstream i r).sched j).live = (s.obj.sched j).live := by
        intro j
        by_cases hj : j = i
        · subst hj; simp [State.newXstream]
        · simp [State.newXstream, hj]
      refine h.update (h.obj.newXstream hi hr hslot') (fun r' hr' => ?_)
        ((h.pe r).newXstream h.obj hi hr hslot')
      refine .one (x := s.obj.nextXstream) h.obj (Nat.le_succ _) rfl
        (fun y hy => Function.update_of_ne hy ..) ?_ (fun hlt => absurd hlt (by omega))
        (fun hl => absurd (h.obj.xstream_lt hl) (by omega)) (fun j => (hsc j).1)
        (fun j hj => (hsc j).2.trans ((h.pe r').listed j hj).2.2.1) fun _ => rfl
      simpa [State.newXstream] using Ne.symm hr'
    · cases hs
  | setMainSched x i self here =>
    simp only [step] at hs
    obtain ⟨o, ho, rfl⟩ := Option.map_eq_some_iff.mp hs
    exact setMainSched_inv h ho hg
  | deliver r =>
    simp only [step] at hs
    split at hs
    · rename_i m q hq
      cases hs
      exact handle_inv h hq
    · cases hs
  | idle r =>
    simp only [step] at hs
    split at hs
    · rename_i x ht
      split at hs
      · rename_i hheld
        obtain ⟨o, ho, rfl⟩ := Option.map_eq_some_iff.mp hs
        simp only [Objects.step] at ho
        split at ho <;> cases ho
        rename_i hc
        obtain ⟨hx, _, _, hd⟩ := hc
        refine giveBack_inv h (h.pe r) ht hx fun j _ hm => ⟨hheld, fun p hp => ?_⟩
        subst hm
        simp only [State.drained, Bool.and_eq_true, List.all_eq_true, decide_eq_true_eq] at hd
        exact (hd.1 p hp).1
      · cases hs
    · cases hs
  | runnerEnd r i =>
    simp only [step] at hs
    split at hs
    · rename_i hi
      have hpe : PeInv s.obj s.numPes r
          { s.pe r with runners := (s.pe r).runners.erase i } :=
        (h.pe r).congr rfl rfl rfl (fun k hk => List.mem_of_mem_erase hk) (h.pe r).entry
      split at hs
      · rename_i x ht
        split at hs <;> cases hs
        · rename_i hc
          obtain ⟨hx, hm⟩ := hc
          -- the table of a user-defined scheduler has no entry for it
          refine giveBack_inv h hpe ht hx fun j hj hmj => ?_
          have hud := ((h.pe r).runner i hi).2
          rw [← hm, hmj, ((h.pe r).listed j hj).2.2.2] at hud; cases hud
        · exact h.setPe hpe
      · cases hs
        exact h.setPe hpe
    · cases hs
  | park r p t =>
    simp only [step] at hs
    split at hs
    · split at hs
      · obtain ⟨o, ho, rfl⟩ := Option.map_eq_some_iff.mp hs
        have he := pop_effect ho
        have hpe : PeInv s.obj s.numPes r { s.pe r with held := some t } :=
          (h.pe r).congr rfl rfl rfl (fun _ hk => hk)
            fun j hj => .inr (hg j ((h.pe r).listed j hj).2.1 hj)
        exact (h.setPe hpe).effect he (by simp) (by simp)
      · cases hs
    · cases hs
  | unpark r =>
    simp only [step] at hs
    split at hs <;> cases hs
    exact h.setPe ((h.pe r).congr rfl rfl rfl (fun _ hk => hk)
      fun j hj => ((h.pe r).entry j hj).imp_left fun hq => ⟨rfl, hq.2⟩)
  | poll r p t =>
    simp only [step] at hs
    split at hs
    · split at hs
      · obtain ⟨o, ho, rfl⟩ := Option.map_eq_some_iff.mp hs
        exact h.effect (pop_effect ho) (by simp) (by simp)
      · cases hs
    · cases hs

end

theorem reach_inv {s : State} (h : Reach system Calm s) : Inv s :=
  h.invariant (fun _ ⟨n, hn, hs⟩ => hs ▸ Inv.start n hn) fun _ _ _ _ hi hg hs => step_inv hi hg hs

/-- In every run that keeps to `Calm`, the scheduler of an installed table exists, and when it has
a unit the PE has the lease of an xstream of its own rank whose main scheduler it is. -/
theorem lease_table_agreement {s : State} (h : Reach system Calm s) (r j : Nat)
    (ht : (s.pe r).table = some j) :
    (s.obj.sched j).live = true ∧ (s.yields r j = true → Agrees s r j) := by
  have hi := reach_inv h
  have hent : (s.pe r).Entry j := .inl ht
  obtain ⟨_, _, hl, _⟩ := (hi.pe r).listed j hent
  refine ⟨hl, fun hy => ?_⟩
  rcases (hi.pe r).entry j hent with ⟨hh, hq⟩ | ⟨x, _, hx, hrel, hr, hm⟩
  · simp only [State.yields, hh, Option.isSome_none, Bool.false_or, List.any_eq_true,
      decide_eq_true_eq] at hy
    obtain ⟨p, hp, hne⟩ := hy
    exact absurd (hq p hp) hne
  · refine ⟨x, ?_, hx, hr, hm, hl⟩
    rcases ((hi.pe r).leased x hx hr hrel).known with htls | ⟨hnone, _⟩
    · exact htls
    · rw [hnone] at ht; cases ht

/-- An xstream on PE 1 that has its lease and its table, over pool 1 of scheduler 1. -/
def leasedRun (automatic : Bool) : List Act :=
  [.obj (.schedCreate [none] automatic false), .xstreamCreate 1 1, .deliver 1, .deliver 1]

/-- Its scheduler is replaced while it has nothing to run; once the table is there, the new one
gets a unit. -/
theorem lease_table_agreement_replaced : ∃ s, (Reach system Calm s ∧
    (s.pe 1).table = some 2 ∧ s.yields 1 2 = true) ∧
    ((s.obj.sched 2).live = true ∧ (s.yields 1 2 = true → Agrees s 1 2)) := by
  obtain ⟨s, hr, ht, hy⟩ :=
    (Reach.start (M := system) (G := Calm) (s := initial 2) ⟨2, by decide, rfl⟩).exists_run
      (fun s => (s.pe 1).table = some 2 ∧ s.yields 1 2 = true)
      (leasedRun false ++ [Act.obj (.schedCreate [none] true false), .setMainSched 1 2 none false,
        .deliver 1, .obj (.threadCreate 2 .named)]) (by decide)
  exact ⟨s, ⟨hr, ht, hy⟩, lease_table_agreement hr 1 2 ht⟩

/-- `ABT_xstream_set_main_sched` with a unit in the old pool: until PE 1 handles the install, its
table polls the old scheduler, which is destroyed and not the main one any more. -/
theorem table_lags : ∃ s, Reach system Free s ∧ (s.pe 1).table = some 1 ∧ s.yields 1 1 = true ∧
    (s.obj.sched 1).live = false ∧ ¬ Agrees s 1 1 := by
  obtain ⟨s, hr, ht, hy, hl⟩ :=
    (Reach.start (M := system) (G := Free) (s := initial 2) ⟨2, by decide, rfl⟩).exists_run
      (fun s => (s.pe 1).table = some 1 ∧ s.yields 1 1 = true ∧ (s.obj.sched 1).live = false)
      (leasedRun true ++ [Act.obj (.schedCreate [none] true false), .obj (.threadCreate 1 .named),
        .setMainSched 1 2 none false]) (by decide)
  refine ⟨s, hr, ht, hy, hl, ?_⟩
  rintro ⟨x, _, _, _, _, hl'⟩
  rw [hl] at hl'; cases hl'

/-- A unit is pushed after the idle hook has given the lease back and before the default table is
installed. -/
theorem lease_lags : ∃ s, Reach system Free s ∧ (s.pe 1).table = some 1 ∧ s.yields 1 1 = true ∧
    (s.pe 1).tls = none := by
  exact (Reach.start (M := system) (G := Free) (s := initial 2) ⟨2, by decide, rfl⟩).exists_run
    (fun s => (s.pe 1).table = some 1 ∧ s.yields 1 1 = true ∧ (s.pe 1).tls = none)
    (leasedRun true ++ [Act.obj (.xstreamJoin 1), .idle 1, .obj (.threadCreate 1 .named)]) (by decide)

/-- The scheduler of a joined xstream is replaced: its table is installed on a PE without a
lease. -/
theorem table_without_lease : ∃ s, Reach system Free s ∧ (s.pe 1).table = some 2 ∧
    s.yields 1 2 = true ∧ (s.pe 1).tls = none := by
  exact (Reach.start (M := system) (G := Free) (s := initial 2) ⟨2, by decide, rfl⟩).exists_run
    (fun s => (s.pe 1).table = some 2 ∧ s.yields 1 2 = true ∧ (s.pe 1).tls = none)
    (leasedRun true ++ [Act.obj (.xstreamJoin 1), .idle 1, .deliver 1, .deliver 1,
      .obj (.schedCreate [none] true false), .setMainSched 1 2 none false, .deliver 1,
      .obj (.threadCreate 2 .named)]) (by decide)

/-- The scheduler of a joined xstream runs another one, on PE 2, when the first is freed and
destroys it. -/
theorem table_outlives : ∃ s, Reach system Free s ∧ (s.pe 2).table = some 1 ∧
    s.yields 2 1 = true ∧ (s.pe 2).tls = some 2 ∧ (s.obj.xstream 2).mainSched = 1 ∧
    (s.obj.sched 1).live = false := by
  exact (Reach.start (M := system) (G := Free) (s := initial 3) ⟨3, by decide, rfl⟩).exists_run
    (fun s => (s.pe 2).table = some 1 ∧ s.yields 2 1 = true ∧ (s.pe 2).tls = some 2 ∧
      (s.obj.xstream 2).mainSched = 1 ∧ (s.obj.sched 1).live = false)
    (leasedRun true ++ [Act.obj (.xstreamJoin 1), .idle 1, .deliver 1, .deliver 1,
      .xstreamCreate 1 2, .deliver 2, .deliver 2, .obj (.threadCreate 1 .named),
      .obj (.xstreamFree 1)]) (by decide)

end Lease
end AbtReconverse
