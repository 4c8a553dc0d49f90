import Mathlib.Data.List.Nodup
import AbtReconverse.Lib.Place
import AbtReconverse.Lib.Update
import AbtReconverse.Runtime.Steps

/-!
# AbtReconverse.Runtime.Conservation

Units are neither lost nor duplicated: whatever PEs and wakers do, every unit that has been created
and has not terminated is in exactly one place (`unit_conservation`), and neither `CmiAbort` is reached:
not the one of `ABTI_pool::push` (the unit is already queued), not the one of `ABTI_choose_fn` (the
popped ULT is not READY).

`At s l u` reads off the state that unit `u` is in place `l`. The invariant `Inv` names the place of
every unit by a function `loc`; the state and the `in_pool` flag of a descriptor are functions of
its place (`Fits`). A step moves one unit (`Inv.of_frame`) or none (`Unmoved`, `Inv.unmoved`).
-/

namespace AbtReconverse
namespace Runtime

open Lts

/-- Where a unit can be. `waking`: in `ABTI_thread_awaken_fn` or at the start of `push`;
`linking`: in `push`, past the exchange of `in_pool`; `queue`: linked in the pool; `popped`: just
popped by the PE; `held`: parked in the PE's `ABTI_held`. -/
inductive Place where
  | running (r : Nat)
  | queue (p : Nat)
  | waking (w : Nat)
  | linking (w p : Nat)
  | popped (r : Nat)
  | held (r : Nat)
  | blocked
  deriving DecidableEq, Repr

/-- The ULT on whose stack a `pop` runs. -/
@[grind] def Caller.units : Caller → List Nat
  | .poll => []
  | .choose u _ => [u]

/-- The units that have the PE: the one on it, and the one it is being switched to. -/
@[grind] def PePc.units : PePc → List Nat
  | .sched => []
  | .unlinked _ _ b | .popped _ _ b => b.units
  | .running u | .choosing u _ | .leaving u _ none => [u]
  | .leaving u _ (some t) => [u, t]

@[grind] def PePc.got : PePc → Option Nat
  | .unlinked t _ _ | .popped t _ _ => some t
  | _ => none

/-- The unit a waker is making ready, before `in_pool` is set. -/
@[grind] def WakePc.unit : WakePc → Option Nat
  | .enter t | .sub t | .migrate t | .push t _ => some t
  | .idle | .link _ _ | .count _ _ => none

/-- The unit a waker is linking, and the pool. -/
def WakePc.linked : WakePc → Option (Nat × Nat)
  | .link t p => some (t, p)
  | _ => none

theorem WakePc.linked_eq_some {x : WakePc} {t p : Nat} : x.linked = some (t, p) ↔ x = .link t p := by
  cases x <;> simp [WakePc.linked]

def At (s : State) : Place → Nat → Prop
  | .running r, u => u ∈ (s.pe r).units
  | .queue p, u => u ∈ s.queue p
  | .waking w, u => (s.wake w).unit = some u
  | .linking w p, u => s.wake w = .link u p
  | .popped r, u => (s.pe r).got = some u
  | .held r, u => s.held r = some u
  | .blocked, u => (s.thr u).state = .blocked

/-- The state of a unit in a given place. -/
def Place.state : Place → UnitState
  | .running _ => .running
  | .queue _ | .waking _ | .linking _ _ | .popped _ | .held _ => .ready
  | .blocked => .blocked

/-- Whether `in_pool` is set for a unit in a given place. -/
def Place.inPool (c : Config) : Place → Bool
  | .queue p | .linking _ p => !c.user p
  | _ => false

def Fits (c : Config) (th : Thread) : Option Place → Prop
  | none => (th.state = .unborn ∨ th.state = .terminated) ∧ th.inPool = false
  | some l => th.state = l.state ∧ th.inPool = l.inPool c

structure Inv (c : Config) (s : State) (loc : Nat → Option Place) : Prop where
  placed : Placed (At s) loc
  fits : ∀ u, Fits c (s.thr u) (loc u)
  queueNodup : ∀ p, (s.queue p).Nodup
  peNodup : ∀ r, (s.pe r).units.Nodup
  running : s.aborted = false

/-- A step that moves no unit: every PE and every waker has the units it had. -/
structure Unmoved (s s' : State) : Prop where
  state : ∀ u, (s'.thr u).state = (s.thr u).state
  inPool : ∀ u, (s'.thr u).inPool = (s.thr u).inPool
  units : ∀ r, (s'.pe r).units = (s.pe r).units
  got : ∀ r, (s'.pe r).got = (s.pe r).got
  unit : ∀ w, (s'.wake w).unit = (s.wake w).unit
  linked : ∀ w, (s'.wake w).linked = (s.wake w).linked
  queue : s'.queue = s.queue
  held : s'.held = s.held
  running : s'.aborted = s.aborted

theorem Unmoved.refl (s : State) : Unmoved s s :=
  ⟨fun _ => rfl, fun _ => rfl, fun _ => rfl, fun _ => rfl, fun _ => rfl, fun _ => rfl, rfl, rfl, rfl⟩

theorem Unmoved.at_iff {s s' : State} (hq : Unmoved s s') (l : Place) (u : Nat) :
    At s' l u ↔ At s l u := by
  cases l with
  | running r => simp only [At, hq.units]
  | queue p => simp only [At, hq.queue]
  | waking w => simp only [At, hq.unit]
  | linking w p => simp only [At, ← WakePc.linked_eq_some, hq.linked]
  | popped r => simp only [At, hq.got]
  | held r => simp only [At, hq.held]
  | blocked => simp only [At, hq.state]

namespace Inv

variable {c : Config} {s s' : State} {loc : Nat → Option Place}

theorem at_eq (h : Inv c s loc) {l : Place} {t : Nat} (ht : At s l t) : loc t = some l :=
  (h.placed l t).mp ht

theorem fits_at (h : Inv c s loc) {l : Place} {t : Nat} (ht : At s l t) :
    (s.thr t).state = l.state ∧ (s.thr t).inPool = l.inPool c := by
  have := h.fits t
  rwa [h.at_eq ht] at this

theorem nowhere (h : Inv c s loc) {t : Nat} (ht : (s.thr t).state = .unborn) : loc t = none := by
  have := h.fits t
  cases hl : loc t with
  | none => rfl
  | some l =>
    rw [hl, Fits, ht] at this
    cases l <;> simp [Place.state] at this

/-- What a step may do to `Placed`, `Fits` and the lists besides moving unit `t`. -/
structure Frame (c : Config) (s s' : State) (t : Nat) (l : Option Place) : Prop where
  thr : ∀ u, u ≠ t → s'.thr u = s.thr u
  fit : Fits c (s'.thr t) l
  queueNodup : ∀ p, (s'.queue p).Nodup
  peNodup : ∀ r, (s'.pe r).units.Nodup
  running : s'.aborted = s.aborted

theorem of_frame (h : Inv c s loc) {t : Nat} {l : Option Place} (hf : Frame c s s' t l)
    (hp : Placed (At s') (Function.update loc t l)) : ∃ loc', Inv c s' loc' := by
  refine ⟨_, hp, fun u => ?_, hf.queueNodup, hf.peNodup, hf.running.trans h.running⟩
  by_cases hut : u = t
  · subst hut; rw [Function.update_self]; exact hf.fit
  · rw [Function.update_of_ne hut, hf.thr u hut]; exact h.fits u

theorem unmoved (h : Inv c s loc) (hq : Unmoved s s') : ∃ loc', Inv c s' loc' := by
  refine ⟨loc, h.placed.congr hq.at_iff, fun u => ?_, fun p => ?_, fun r => ?_,
    hq.running.trans h.running⟩
  · have := h.fits u
    cases hl : loc u <;> simpa only [Fits, hl, hq.state, hq.inPool] using this
  · rw [hq.queue]; exact h.queueNodup p
  · rw [hq.units]; exact h.peNodup r

/-- A PE changes what it is doing. -/
theorem pe_nodup (h : Inv c s loc) {r : Nat} {x : PePc} (hx : x.units.Nodup) (r' : Nat) :
    (Function.update s.pe r x r').units.Nodup := by
  by_cases hr : r' = r
  · subst hr; rwa [Function.update_self]
  · rw [Function.update_of_ne hr]; exact h.peNodup r'

end Inv

theorem mem_eraseIdx_nodup {l : List Nat} {i t : Nat} (hn : l.Nodup) (hi : l[i]? = some t)
    (u : Nat) : u ∈ l.eraseIdx i ↔ u ∈ l ∧ u ≠ t := by
  obtain ⟨hlt, rfl⟩ := List.getElem?_eq_some_iff.mp hi
  rw [← hn.erase_getElem i hlt, hn.mem_erase_iff, and_comm]

section Steps

variable {c : Config} {s s' : State} {loc : Nat → Option Place} {a : Act}

/-- A pop unlinks a unit; `b` says on whose behalf. -/
theorem unlink_inv (h : Inv c s loc) {r p i t : Nat} {b : Caller} (hi : (s.queue p)[i]? = some t)
    (hb : (s.pe r).units = b.units) (hg : (s.pe r).got = none) :
    ∃ loc', Inv c (s.unlink c r p i t b) loc' := by
  have hn := h.queueNodup p
  have hat : At s (.queue p) t := List.mem_of_getElem? hi
  obtain ⟨hs, hin⟩ := h.fits_at hat
  refine h.of_frame (t := t) ⟨fun u hne => by simp [State.unlink, hne], ?_, ?_, ?_, rfl⟩
    (h.placed.move (o := .queue p) (d := .popped r) hat ?_)
  · simp [Fits, Place.state, Place.inPool, hin, hs, State.unlink]
  · intro q
    by_cases hqp : q = p
    · subst hqp; simpa [State.unlink] using hn.eraseIdx i
    · simpa [State.unlink, hqp] using h.queueNodup q
  · exact h.pe_nodup (by rw [PePc.units, ← hb]; exact h.peNodup r)
  · have he := mem_eraseIdx_nodup hn hi
    intro l u
    cases l <;> simp only [At, State.unlink, Function.update_apply] <;> grind -ring -linarith

/-- After the post-switch action of `t` the PE has every unit it had except `t`. -/
theorem resume_units (h : Inv c s loc) {r t : Nat} {k : Susp} {next : Option Nat}
    (hpe : s.pe r = .leaving t k next) :
    At s (.running r) t ∧ (State.resume next).units.Nodup ∧ (State.resume next).got = none ∧
      ∀ u, u ∈ (State.resume next).units ↔ u ∈ (s.pe r).units ∧ u ≠ t := by
  have hnd := h.peNodup r
  rw [hpe] at hnd
  cases next with
  | none => simp [At, hpe, State.resume, PePc.units, PePc.got]
  | some n =>
    simp only [PePc.units, List.nodup_cons, List.mem_singleton] at hnd
    simp [At, hpe, State.resume, PePc.units, PePc.got]
    grind -ring -linarith

/-- A waker goes on with its unit. -/
theorem waker_inv (h : Inv c s loc) {w : Nat} {x y : WakePc} (hw : s.wake w = x)
    (hwake : s'.wake = Function.update s.wake w y) (hunit : y.unit = x.unit)
    (hlinked : y.linked = x.linked) (hs : Unmoved s { s' with wake := s.wake }) :
    ∃ loc', Inv c s' loc' := by
  subst hw
  refine h.unmoved { hs with unit := ?_, linked := ?_ }
  · rw [hwake]
    exact update_congr WakePc.unit hunit
  · rw [hwake]
    exact update_congr WakePc.linked hlinked

/-- A unit keeps its state and its `in_pool`. -/
theorem Unmoved.thread {t : Nat} {th : Thread} {n m : Nat → Int} (hs : th.state = (s.thr t).state)
    (hi : th.inPool = (s.thr t).inPool) :
    Unmoved s { s with thr := Function.update s.thr t th, numBlocked := n, count := m } :=
  { Unmoved.refl s with
    state := update_congr Thread.state hs
    inPool := update_congr Thread.inPool hi }

/-- A PE goes on with the units it has. -/
theorem Unmoved.pe {r : Nat} {x y : PePc} {m : Nat → Int} (hpe : s.pe r = x)
    (hunits : y.units = x.units) (hgot : y.got = x.got) :
    Unmoved s { s with pe := Function.update s.pe r y, count := m } := by
  subst hpe
  exact { Unmoved.refl s with
    units := update_congr PePc.units hunits
    got := update_congr PePc.got hgot }

theorem step_inv (h : Inv c s loc) (hst : step c s a = some s') : ∃ loc', Inv c s' loc' := by
  cases step_cases hst with
  | @createUlt t p ty hg =>
    refine h.of_frame (t := t) ⟨fun u hne => by simp [hne], ?_, h.queueNodup, h.peNodup, rfl⟩
      (h.placed.enter (d := .blocked) (h.nowhere hg.1) ?_)
    · simp [Fits, Place.state, Place.inPool, Thread.fresh]
    · have hu := hg.1
      intro l u; cases l <;> simp only [At, Function.update_apply] <;> grind -ring -linarith
  | @createTask w t p ty hg =>
    refine h.of_frame (t := t) ⟨fun u hne => by simp [hne], ?_, h.queueNodup, h.peNodup, rfl⟩
      (h.placed.enter (d := .waking w) (h.nowhere hg.1) ?_)
    · simp [Fits, Place.state, Place.inPool, Thread.fresh]
    · obtain ⟨hu, -, -, hw⟩ := hg
      intro l u; cases l <;> simp only [At, Function.update_apply] <;> grind -ring -linarith
  | @awakenIfBlocked w t hg =>
    obtain ⟨hb, hw⟩ := hg
    have hf := h.fits_at (l := .blocked) hb
    refine h.of_frame (t := t) ⟨fun u hne => by simp [hne], ?_, h.queueNodup, h.peNodup, rfl⟩
      (h.placed.move (o := .blocked) (d := .waking w) hb ?_)
    · simpa [Fits, Place.state, Place.inPool] using hf.2
    · intro l u; cases l <;> simp only [At, Function.update_apply] <;> grind -ring -linarith
  -- four steps of a waker that leave the unit with it
  | wakeCounted hw => exact waker_inv h hw rfl rfl rfl (.thread rfl rfl)
  | wakePlain hw => exact waker_inv h hw rfl rfl rfl (.refl s)
  | wakeSub hw => exact waker_inv h hw rfl rfl rfl { Unmoved.refl s with }
  | wakeMigrate hw => exact waker_inv h hw rfl rfl rfl (.thread rfl rfl)
  -- the exchange of `in_pool` finds it clear: the unit is with the waker, not in a queue
  | @pushUser w t p hw hu =>
    have hat : At s (.waking w) t := by simp [At, hw, WakePc.unit]
    obtain ⟨hs, hin⟩ := h.fits_at hat
    simp only [Place.inPool] at hin
    refine h.of_frame (t := t) ⟨fun u _ => rfl, ?_, h.queueNodup, h.peNodup, rfl⟩
      (h.placed.move (o := .waking w) (d := .linking w p) hat ?_)
    · simp [Fits, Place.state, Place.inPool, hin, hs, hu]
    · intro l u; cases l <;> simp only [At, Function.update_apply] <;> grind -ring -linarith
  | @pushTwice w t p hw hu hin =>
    have hat : At s (.waking w) t := by simp [At, hw, WakePc.unit]
    exact absurd hin (by simp [(h.fits_at hat).2, Place.inPool])
  | @pushEnter w t p hw hu hin =>
    have hat : At s (.waking w) t := by simp [At, hw, WakePc.unit]
    have hs := (h.fits_at hat).1
    refine h.of_frame (t := t) ⟨fun u hne => by simp [hne], ?_, h.queueNodup, h.peNodup, rfl⟩
      (h.placed.move (o := .waking w) (d := .linking w p) hat ?_)
    · simp [Fits, Place.state, Place.inPool, hs, hu]
    · intro l u; cases l <;> simp only [At, Function.update_apply] <;> grind -ring -linarith
  | @pushLink w t p hw =>
    have hat : At s (.linking w p) t := hw
    have hnot : t ∉ s.queue p := fun hm =>
      Place.noConfusion (h.placed.unique hat (show At s (.queue p) t from hm))
    refine h.of_frame (t := t) ⟨fun u _ => rfl, ?_, ?_, h.peNodup, rfl⟩
      (h.placed.move (o := .linking w p) (d := .queue p) hat ?_)
    · simpa [Fits, Place.state, Place.inPool] using h.fits_at hat
    · intro q
      by_cases hqp : q = p
      · subst hqp
        have := h.queueNodup q
        simp only [Function.update_self, List.nodup_append, List.mem_singleton]
        grind -ring -linarith
      · simpa [hqp] using h.queueNodup q
    · intro l u; cases l <;> simp only [At, Function.update_apply] <;> grind -ring -linarith
  | pushCount hw => exact waker_inv h hw rfl rfl rfl { Unmoved.refl s with }
  | migrateToPool => exact h.unmoved (.thread rfl rfl)
  | associate => exact h.unmoved (.thread rfl rfl)
  | blockAdd => exact h.unmoved (.thread rfl rfl)
  | blockPool => exact h.unmoved (.thread rfl rfl)
  | blockFlag => exact h.unmoved (.thread rfl rfl)
  | pollPop hpe hi => exact unlink_inv h hi (by rw [hpe]; rfl) (by rw [hpe]; rfl)
  | popCount hpe => exact h.unmoved (.pe hpe rfl rfl)
  | @putBack r w t p b hpe hg =>
    have hw := hg.2
    have hat : At s (.popped r) t := by simp [At, hpe, PePc.got]
    have hunits : b.back.units = b.units := by cases b <;> rfl
    have hgot : b.back.got = none := by cases b <;> rfl
    refine h.of_frame (t := t) ⟨fun u _ => rfl, ?_, h.queueNodup, h.pe_nodup ?_, rfl⟩
      (h.placed.move (o := .popped r) (d := .waking w) hat ?_)
    · simpa [Fits, Place.state, Place.inPool] using h.fits_at hat
    · cases b <;> simp [PePc.units, Caller.back]
    · intro l u; cases l <;> simp only [At, Function.update_apply] <;> grind -ring -linarith
  | @takeHeld r t hpe hh =>
    have hat : At s (.held r) t := hh
    refine h.of_frame (t := t) ⟨fun u _ => rfl, ?_, h.queueNodup, h.pe_nodup ?_, rfl⟩
      (h.placed.move (o := .held r) (d := .popped r) hat ?_)
    · simpa [Fits, Place.state, Place.inPool] using h.fits_at hat
    · simp [PePc.units, Caller.units]
    · intro l u; cases l <;> simp only [At, Function.update_apply] <;> grind -ring -linarith
  | @runPopped r t p hpe hg =>
    have hrd := hg.1
    have hat : At s (.popped r) t := by simp [At, hpe, PePc.got]
    refine h.of_frame (t := t) ⟨fun u hne => by simp [hne], ?_, h.queueNodup, h.pe_nodup ?_, rfl⟩
      (h.placed.move (o := .popped r) (d := .running r) hat ?_)
    · simpa [Fits, Place.state, Place.inPool] using (h.fits_at hat).2
    · simp [PePc.units]
    · intro l u; cases l <;> simp only [At, Function.update_apply] <;> grind -ring -linarith
  | @taskExit r t hpe =>
    have hat : At s (.running r) t := by simp [At, hpe, PePc.units]
    obtain ⟨hs, hin⟩ := h.fits_at hat
    refine h.of_frame (t := t) ⟨fun u hne => by simp [hne], ?_, h.queueNodup, h.pe_nodup ?_, rfl⟩
      (h.placed.leave (o := .running r) hat ?_)
    · simpa [Fits, Place.inPool] using hin
    · simp [PePc.units]
    · simp only [Place.state] at hs
      intro l u; cases l <;> simp only [At, Function.update_apply] <;> grind -ring -linarith
  | suspend hpe => exact h.unmoved (.pe hpe (by split <;> rfl) (by split <;> rfl))
  | choosePop hpe hi => exact unlink_inv h hi (by rw [hpe]; rfl) (by rw [hpe]; rfl)
  | chooseNone hpe => exact h.unmoved (.pe hpe rfl rfl)
  | @choosePark r t p u k hpe hg =>
    have hh := hg.1
    have hat : At s (.popped r) t := by simp [At, hpe, PePc.got]
    refine h.of_frame (t := t)
      ⟨fun u _ => rfl, ?_, h.queueNodup, h.pe_nodup (by simp [PePc.units]), rfl⟩
      (h.placed.move (o := .popped r) (d := .held r) hat ?_)
    · simpa [Fits, Place.state, Place.inPool] using h.fits_at hat
    · intro l u; cases l <;> simp only [At, Function.update_apply] <;> grind -ring -linarith
  | @chooseDirect r t p u k hpe _ hs =>
    have hat : At s (.popped r) t := by simp [At, hpe, PePc.got]
    have hatu : At s (.running r) u := by simp [At, hpe, PePc.units, Caller.units]
    have hne : u ≠ t := by rintro rfl; cases h.placed.unique hat hatu
    refine h.of_frame (t := t) ⟨fun u hne => by simp [hne], ?_, h.queueNodup, h.pe_nodup ?_, rfl⟩
      (h.placed.move (o := .popped r) (d := .running r) hat ?_)
    · simpa [Fits, Place.state, Place.inPool] using (h.fits_at hat).2
    · simp [PePc.units, hne]
    · intro l u; cases l <;> simp only [At, Function.update_apply] <;> grind -ring -linarith
  | @chooseAbort r t p u k hpe _ hr =>
    -- the popped ULT is READY, so `CthClaimReady` succeeds
    have hat : At s (.popped r) t := by simp [At, hpe, PePc.got]
    exact absurd (h.fits_at hat).1 hr
  | @postYield r w t next hpe hw =>
    obtain ⟨hat, hnd, hgot, hmem⟩ := resume_units h hpe
    have hgot' : (s.pe r).got = none := by rw [hpe]; rfl
    refine h.of_frame (t := t)
      ⟨fun u hne => by simp [hne], ?_, h.queueNodup, h.pe_nodup hnd, rfl⟩
      (h.placed.move (o := .running r) (d := .waking w) hat ?_)
    · simpa [Fits, Place.state, Place.inPool] using (h.fits_at hat).2
    · have hs := (h.fits_at hat).1
      simp only [Place.state] at hs
      intro l u; cases l <;> simp only [At, Function.update_apply] <;> grind -ring -linarith
  | @postBlock r t next hpe =>
    obtain ⟨hat, hnd, hgot, hmem⟩ := resume_units h hpe
    have hgot' : (s.pe r).got = none := by rw [hpe]; rfl
    refine h.of_frame (t := t)
      ⟨fun u hne => by simp [hne], ?_, h.queueNodup, h.pe_nodup hnd, rfl⟩
      (h.placed.move (o := .running r) (d := .blocked) hat ?_)
    · simpa [Fits, Place.state, Place.inPool] using (h.fits_at hat).2
    · have hs := (h.fits_at hat).1
      simp only [Place.state] at hs
      intro l u; cases l <;> simp only [At, Function.update_apply] <;> grind -ring -linarith
  | @postExit r t next hpe =>
    obtain ⟨hat, hnd, hgot, hmem⟩ := resume_units h hpe
    have hgot' : (s.pe r).got = none := by rw [hpe]; rfl
    refine h.of_frame (t := t)
      ⟨fun u hne => by simp [hne], ?_, h.queueNodup, h.pe_nodup hnd, rfl⟩
      (h.placed.leave (o := .running r) hat ?_)
    · simpa [Fits, Place.inPool] using (h.fits_at hat).2
    · have hs := (h.fits_at hat).1
      simp only [Place.state] at hs
      intro l u; cases l <;> simp only [At, Function.update_apply] <;> grind -ring -linarith

end Steps

theorem initial_inv (c : Config) (p : Nat) :
    Inv c (initial c p) (Function.update (fun _ => none) 0 (some (.running c.home))) := by
  refine ⟨?_, ?_, fun _ => List.nodup_nil, ?_, rfl⟩
  · intro l u
    cases l <;> simp only [At, initial, Function.update_apply] <;> grind -ring -linarith [Thread.fresh]
  · intro u
    by_cases hu : u = 0 <;> simp [initial, hu, Fits, Place.state, Place.inPool, Thread.fresh]
  · intro r
    by_cases hr : r = c.home <;> simp [initial, hr, PePc.units]

theorem reach_inv {c : Config} {p : Nat} {s : State} (h : Reach (system c p) Free s) :
    ∃ loc, Inv c s loc := by
  refine h.invariant (I := fun s => ∃ loc, Inv c s loc) ?_ ?_
  · rintro s rfl; exact ⟨_, initial_inv c p⟩
  · rintro s a s' _ ⟨loc, hi⟩ _ hst; exact step_inv hi hst

/-- Every unit that exists and has not terminated is in exactly one place, no pool links a unit
twice, and `CmiAbort` is not reached. -/
theorem unit_conservation {c : Config} {p : Nat} {s : State} (h : Reach (system c p) Free s) :
    (∀ u, (s.thr u).state ≠ .unborn → (s.thr u).state ≠ .terminated → ∃! l, At s l u) ∧
      (∀ q, (s.queue q).Nodup) ∧ s.aborted = false := by
  obtain ⟨loc, hi⟩ := reach_inv h
  refine ⟨fun u hb ht => ?_, hi.queueNodup, hi.running⟩
  have hf := hi.fits u
  cases hl : loc u with
  | none => rw [hl] at hf; exact absurd hf.1 (not_or.mpr ⟨hb, ht⟩)
  | some l => exact hi.placed.existsUnique hl

/-- A ULT that has run and blocked is in one place. -/
theorem unit_conservation_blocked : ∃ s, Reach (system .builtin 0) Free s ∧
    (s.thr 1).state = .blocked ∧ (∃! l, At s l 1) ∧ s.aborted = false := by
  obtain ⟨s, hr, hst⟩ := (start_builtin Free).exists_run
    (fun s => (s.thr 1).state = .blocked) blockUlt (by decide)
  have hc := unit_conservation hr
  exact ⟨s, hr, hst, hc.1 1 (by simp [hst]) (by simp [hst]), hc.2.2⟩

end Runtime
end AbtReconverse
