import AbtReconverse.Lib.Count
import AbtReconverse.Runtime.Conservation

/-!
# AbtReconverse.Runtime.Counters

What the two counters of a pool count, in every reachable state.

* `num_blocked` of `q` (`BlockedInv.blocked`): one for every ULT that is past the `fetch_add` of
  `ABTI_thread_block` on `q` and whose waker is not yet past the matching `fetch_sub`. The unit is
  held by the ULT until its `blocked_counted` is exchanged, then by the waker (`HoldsBlocked`).
* `count` of `q` (`CountInv`): the linked units, plus the pops that have unlinked a unit and not
  yet subtracted it, minus the pushes that have linked a unit and not yet added it.
-/

namespace AbtReconverse
namespace Runtime

open Lts

/-- A party that goes from one program counter to another is at none of the others, before and
after. -/
theorem update_at_iff {A : Type} {f : Nat → A} {i : Nat} {x y z : A} (hx : f i = x) (hxz : x ≠ z)
    (hyz : y ≠ z) (j : Nat) : Function.update f i y j = z ↔ f j = z := by
  by_cases hj : j = i
  · subst hj
    rw [Function.update_self, hx]
    exact iff_of_false hyz hxz
  · rw [Function.update_of_ne hj]

/-- What `Inv` says about single units, in the form the counters need. -/
structure Settled (s : State) : Prop where
  woken : ∀ w u, (s.wake w).unit = some u → (s.thr u).state = .ready
  wokenOnce : ∀ w w' u, (s.wake w).unit = some u → (s.wake w').unit = some u → w = w'
  onPe : ∀ r u, u ∈ (s.pe r).units → (s.thr u).state = .running
  onePe : ∀ r r' u, u ∈ (s.pe r).units → u ∈ (s.pe r').units → r = r'
  popped : ∀ r u, (s.pe r).got = some u → (s.thr u).state = .ready ∧ ∀ w, (s.wake w).unit ≠ some u

theorem Inv.settled {c : Config} {s : State} {loc : Nat → Option Place} (h : Inv c s loc) :
    Settled s where
  woken w _ hw := (h.fits_at (l := .waking w) hw).1
  wokenOnce w w' u hw hw' :=
    Place.waking.inj (h.placed.unique (show At s (.waking w) u from hw)
      (show At s (.waking w') u from hw'))
  onPe r _ hr := (h.fits_at (l := .running r) hr).1
  onePe r r' u hr hr' :=
    Place.running.inj (h.placed.unique (show At s (.running r) u from hr)
      (show At s (.running r') u from hr'))
  popped r u hr := ⟨(h.fits_at (l := .popped r) hr).1, fun w hw =>
    Place.noConfusion (h.placed.unique (show At s (.popped r) u from hr)
      (show At s (.waking w) u from hw))⟩

/-! ## `num_blocked` -/

/-- The ULT a PE is suspending, and why. -/
@[grind] def PePc.susp : PePc → Option (Nat × Susp)
  | .unlinked _ _ (.choose u k) | .popped _ _ (.choose u k) | .choosing u k | .leaving u k _ =>
    some (u, k)
  | .unlinked _ _ .poll | .popped _ _ .poll | .sched | .running _ => none

theorem PePc.susp_units {x : PePc} {u : Nat} {k : Susp} (h : x.susp = some (u, k)) :
    u ∈ x.units := by
  cases x with
  | sched | running _ => simp [PePc.susp] at h
  | unlinked _ _ b | popped _ _ b => cases b <;> simp_all [PePc.susp, PePc.units, Caller.units]
  | choosing _ _ => simp_all [PePc.susp, PePc.units]
  | leaving _ _ next => cases next <;> simp_all [PePc.susp, PePc.units]

/-- ULT `u` is counted in `num_blocked` of `q`: it is past the `fetch_add`, and its waker, if it
has one, is not past the `fetch_sub`. -/
def HoldsBlocked (s : State) (q u : Nat) : Prop :=
  (s.thr u).blk = .added q ∨ (s.thr u).blk = .pooled q ∨
    (((s.thr u).blockedCounted = true ∨ ∃ w, s.wake w = .sub u) ∧ (s.thr u).blockedPool = some q)

/-- The pool a ULT is counted in is recorded; it is the ULT's own as long as the ULT is not associated
with another one (`still`). -/
def Recorded (still : Bool) (x : Thread) : Prop :=
  ∃ p, x.blockedPool = some p ∧ (still = true → p = x.pool)

/-- How the fields of one ULT that `ABTI_thread_block` writes go together. -/
structure UnitOk (still : Bool) (s : State) (u : Nat) : Prop where
  counted : (s.thr u).blockedCounted = true → (s.thr u).blk = .flagged ∧
    Recorded still (s.thr u) ∧
    ((s.thr u).state = .running ∨ (s.thr u).state = .blocked ∨ ∃ w, s.wake w = .enter u)
  flagged : (s.thr u).blk = .flagged → (s.thr u).state = .running ∨ (s.thr u).state = .blocked →
    (s.thr u).blockedCounted = true
  added : ∀ q, (s.thr u).blk = .added q → (s.thr u).state = .running ∧
    (still = true → q = (s.thr u).pool)
  pooled : ∀ q, (s.thr u).blk = .pooled q → (s.thr u).state = .running ∧
    (still = true → q = (s.thr u).pool) ∧ (s.thr u).blockedPool = some q
  sub : ∀ w, s.wake w = .sub u → (s.thr u).blk = .flagged ∧ Recorded still (s.thr u)
  susp : ∀ r k, (s.pe r).susp = some (u, k) →
    (k = .block → (s.thr u).blk = .flagged) ∧ (k ≠ .block → (s.thr u).blk = .out)
  task : (s.thr u).isTask = true → (s.thr u).blk = .out

theorem UnitOk.of {still : Bool} {s : State} {u : Nat} {x : Thread} (hx : s.thr u = x)
    (counted : x.blockedCounted = true → x.blk = .flagged ∧ Recorded still x ∧
      (x.state = .running ∨ x.state = .blocked ∨ ∃ w, s.wake w = .enter u))
    (flagged : x.blk = .flagged → x.state = .running ∨ x.state = .blocked →
      x.blockedCounted = true)
    (added : ∀ q, x.blk = .added q → x.state = .running ∧ (still = true → q = x.pool))
    (pooled : ∀ q, x.blk = .pooled q → x.state = .running ∧ (still = true → q = x.pool) ∧
      x.blockedPool = some q)
    (sub : ∀ w, s.wake w = .sub u → x.blk = .flagged ∧ Recorded still x)
    (susp : ∀ r k, (s.pe r).susp = some (u, k) →
      (k = .block → x.blk = .flagged) ∧ (k ≠ .block → x.blk = .out))
    (task : x.isTask = true → x.blk = .out) : UnitOk still s u := by
  subst hx
  exact ⟨counted, flagged, added, pooled, sub, susp, task⟩

theorem holdsBlocked_iff {s : State} {q u : Nat} {x : Thread} (hx : s.thr u = x) :
    HoldsBlocked s q u ↔ x.blk = .added q ∨ x.blk = .pooled q ∨
      ((x.blockedCounted = true ∨ ∃ w, s.wake w = .sub u) ∧ x.blockedPool = some q) := by
  rw [HoldsBlocked, hx]

structure BlockedInv (still : Bool) (s : State) : Prop where
  unit : ∀ u, UnitOk still s u
  blocked : ∀ q, Counts (s.numBlocked q) (HoldsBlocked s q)

/-- A step does nothing with unit `u`. -/
structure Apart (s s' : State) (u : Nat) : Prop where
  thr : s'.thr u = s.thr u
  wake : ∀ w, s'.wake w = s.wake w ∨ ((s.wake w).unit ≠ some u ∧ (s'.wake w).unit ≠ some u)
  pe : ∀ r, (s'.pe r).susp = (s.pe r).susp ∨ ∀ k, (s'.pe r).susp ≠ some (u, k)

namespace Apart

variable {still : Bool} {s s' : State} {u : Nat}

theorem wake_iff (h : Apart s s' u) {w : Nat} {x : WakePc} (hx : x.unit = some u) :
    s'.wake w = x ↔ s.wake w = x := by
  rcases h.wake w with he | ⟨h1, h2⟩
  · rw [he]
  · constructor
    · rintro rfl; exact absurd hx h2
    · rintro rfl; exact absurd hx h1

/-- A waker of unit `t` moves. -/
theorem wake_update {t w : Nat} {x y : WakePc} (hu : u ≠ t) (hw : s.wake w = x)
    (hx : x.unit = some t ∨ x.unit = none) (hy : y.unit = some t ∨ y.unit = none) (w' : Nat) :
    Function.update s.wake w y w' = s.wake w' ∨
      ((s.wake w').unit ≠ some u ∧ (Function.update s.wake w y w').unit ≠ some u) := by
  by_cases hw' : w' = w
  · subst hw'
    have hne : ∀ z : WakePc, z.unit = some t ∨ z.unit = none → z.unit ≠ some u := by
      rintro z (hz | hz) he
      · exact hu (Option.some.inj (he.symm.trans hz))
      · rw [hz] at he; cases he
    rw [hw, Function.update_self]
    exact .inr ⟨hne x hx, hne y hy⟩
  · exact .inl (Function.update_of_ne hw' _ _)

/-- A PE moves that does not suspend `u` then. -/
theorem pe_update {r : Nat} {y : PePc} (hy : y.susp = (s.pe r).susp ∨ ∀ k, y.susp ≠ some (u, k))
    (r' : Nat) : (Function.update s.pe r y r').susp = (s.pe r').susp ∨
      ∀ k, (Function.update s.pe r y r').susp ≠ some (u, k) := by
  by_cases hr : r' = r
  · subst hr; rw [Function.update_self]; exact hy
  · exact .inl (by rw [Function.update_of_ne hr])

theorem holds_iff (h : Apart s s' u) {q : Nat} : HoldsBlocked s' q u ↔ HoldsBlocked s q u := by
  simp only [HoldsBlocked, h.thr, h.wake_iff (x := .sub u) rfl]

theorem unitOk (h : Apart s s' u) (hu : UnitOk still s u) : UnitOk still s' u := by
  obtain ⟨h1, h2, h3, h4, h5, h6, h7⟩ := hu
  refine ⟨?_, ?_, ?_, ?_, ?_, ?_, ?_⟩ <;> rw [h.thr]
  · simpa only [h.wake_iff (x := .enter u) rfl] using h1
  · exact h2
  · exact h3
  · exact h4
  · simpa only [h.wake_iff (x := .sub u) rfl] using h5
  · intro r k hk
    rcases h.pe r with he | hn
    · exact h6 r k (he ▸ hk)
    · exact absurd hk (hn k)
  · exact h7

end Apart

namespace BlockedInv

variable {still : Bool} {s s' : State} {t : Nat}

theorem unit_of_apart (h : BlockedInv still s) (hap : ∀ u, u ≠ t → Apart s s' u) (hok : UnitOk still s' t)
    (u : Nat) : UnitOk still s' u := by
  by_cases hut : u = t
  · exact hut ▸ hok
  · exact (hap u hut).unitOk (h.unit u)

/-- A step of unit `t` that does not change where `t` is counted. -/
theorem keep (h : BlockedInv still s) (hap : ∀ u, u ≠ t → Apart s s' u) (hok : UnitOk still s' t)
    (hn : s'.numBlocked = s.numBlocked) (hq : ∀ q, HoldsBlocked s' q t ↔ HoldsBlocked s q t) :
    BlockedInv still s' := by
  refine ⟨h.unit_of_apart hap hok, fun q => ?_⟩
  rw [hn]
  refine (h.blocked q).congr fun u => ?_
  by_cases hut : u = t
  · exact hut ▸ hq q
  · exact (hap u hut).holds_iff

/-- A step of unit `t` that leaves the fields of `ABTI_thread_block` as they are. -/
theorem state (h : BlockedInv still s) (hap : ∀ u, u ≠ t → Apart s s' u) {st : UnitState}
    {m : Option Nat} {i : Bool}
    (hthr : s'.thr t = { s.thr t with state := st, migrateTo := m, inPool := i })
    (hsub : ∀ w, s'.wake w = .sub t ↔ s.wake w = .sub t)
    (hcnt : (s.thr t).blockedCounted = true → (s.thr t).blk = .flagged →
      (s.thr t).state = .running ∨ (s.thr t).state = .blocked ∨ (∃ w, s.wake w = .enter t) →
      st = .running ∨ st = .blocked ∨ ∃ w, s'.wake w = .enter t)
    (hback : st = .running ∨ st = .blocked →
      (s.thr t).state = .running ∨ (s.thr t).state = .blocked)
    (hrun : (s.thr t).state = .running → st = .running ∨ (s.thr t).blk = .out ∨
      (s.thr t).blk = .flagged)
    (hsusp : ∀ r k, (s'.pe r).susp = some (t, k) →
      (k = .block → (s.thr t).blk = .flagged) ∧ (k ≠ .block → (s.thr t).blk = .out))
    (hn : s'.numBlocked = s.numBlocked) : BlockedInv still s' := by
  obtain ⟨h1, h2, h3, h4, h5, h6, h7⟩ := h.unit t
  have hrun' : (s.thr t).state = .running → (s.thr t).blk ≠ .out → (s.thr t).blk ≠ .flagged →
      st = .running := fun hs ho hf => (hrun hs).resolve_right fun he => he.elim ho hf
  refine h.keep hap (.of hthr ?_ (fun hb hs => h2 hb (hback hs)) ?_ ?_
    (fun w hw => h5 w ((hsub w).mp hw)) hsusp h7) hn fun q => ?_
  · intro hc
    obtain ⟨hb, hp, hs⟩ := h1 hc
    exact ⟨hb, hp, hcnt hc hb hs⟩
  · intro q hq
    obtain ⟨hs, hp⟩ := h3 q hq
    exact ⟨hrun' hs (by rw [hq]; nofun) (by rw [hq]; nofun), hp⟩
  · intro q hq
    obtain ⟨hs, hp⟩ := h4 q hq
    exact ⟨hrun' hs (by rw [hq]; nofun) (by rw [hq]; nofun), hp⟩
  · rw [holdsBlocked_iff hthr]
    simp only [HoldsBlocked, hsub]

/-- A unit that is neither running nor blocked nor with a waker is not counted. -/
theorem not_holds (h : BlockedInv still s) (hr : (s.thr t).state ≠ .running)
    (hb : (s.thr t).state ≠ .blocked) (hw : ∀ w, (s.wake w).unit ≠ some t) (q : Nat) :
    ¬ HoldsBlocked s q t := by
  rintro (hq | hq | ⟨hc | ⟨w, hs⟩, _⟩)
  · exact hr ((h.unit t).added q hq).1
  · exact hr ((h.unit t).pooled q hq).1
  · obtain hs | hs | ⟨w, hs⟩ := ((h.unit t).counted hc).2.2
    · exact hr hs
    · exact hb hs
    · exact hw w (by rw [hs]; rfl)
  · exact hw w (by rw [hs]; rfl)

/-- A unit that is not counted starts outside of `ABTI_thread_block`. -/
theorem outside (h : BlockedInv still s) (hap : ∀ u, u ≠ t → Apart s s' u)
    (hno : ∀ q, ¬ HoldsBlocked s q t) {x : Thread} (hthr : s'.thr t = x) (hblk : x.blk = .out)
    (hcnt : x.blockedCounted = false) (hsub : ∀ w, s'.wake w ≠ .sub t)
    (hsusp : ∀ r k, (s'.pe r).susp ≠ some (t, k)) (hn : s'.numBlocked = s.numBlocked) :
    BlockedInv still s' := by
  refine h.keep hap (.of hthr (by rw [hcnt]; nofun) (by rw [hblk]; nofun) (by rw [hblk]; nofun)
    (by rw [hblk]; nofun) (fun w hw => absurd hw (hsub w)) (fun r k hk => absurd hk (hsusp r k))
    fun _ => hblk) hn fun q => iff_of_false ?_ (hno q)
  rw [holdsBlocked_iff hthr, hblk, hcnt]
  rintro (hq | hq | ⟨hc | ⟨w, hs⟩, _⟩)
  · cases hq
  · cases hq
  · cases hc
  · exact hsub w hs

theorem same (h : BlockedInv still s) (hap : ∀ u, Apart s s' u) (hn : s'.numBlocked = s.numBlocked) :
    BlockedInv still s' :=
  h.keep (t := 0) (fun u _ => hap u) ((hap 0).unitOk (h.unit 0)) hn fun _ => (hap 0).holds_iff

/-- A step of unit `t` that changes the count of pool `p`. -/
theorem change (h : BlockedInv still s) (hap : ∀ u, u ≠ t → Apart s s' u) (hok : UnitOk still s' t)
    {p : Nat} {n : Int} (hn : s'.numBlocked = Function.update s.numBlocked p n)
    (hp : Counts n (HoldsBlocked s' p))
    (hq : ∀ q, q ≠ p → (HoldsBlocked s' q t ↔ HoldsBlocked s q t)) : BlockedInv still s' := by
  refine ⟨h.unit_of_apart hap hok, fun q => ?_⟩
  rw [hn]
  by_cases hqp : q = p
  · subst hqp; rw [Function.update_self]; exact hp
  · rw [Function.update_of_ne hqp]
    refine (h.blocked q).congr fun u => ?_
    by_cases hut : u = t
    · exact hut ▸ hq q hqp
    · exact (hap u hut).holds_iff

/-- The `fetch_add` of unit `t`. -/
theorem add (h : BlockedInv still s) (hap : ∀ u, u ≠ t → Apart s s' u) (hok : UnitOk still s' t) {p : Nat}
    (hn : s'.numBlocked = Function.update s.numBlocked p (s.numBlocked p + 1))
    (hno : ∀ q, ¬ HoldsBlocked s q t) (hq : ∀ q, HoldsBlocked s' q t ↔ q = p) :
    BlockedInv still s' := by
  refine h.change hap hok hn ((h.blocked p).insert (hno p) fun u => ?_) fun q hqp => ?_
  · by_cases hut : u = t
    · subst hut; simp [hq]
    · simp [hut, (hap u hut).holds_iff]
  · simp [hq, hqp, hno]

/-- The `fetch_sub` for unit `t`. -/
theorem take (h : BlockedInv still s) (hap : ∀ u, u ≠ t → Apart s s' u) (hok : UnitOk still s' t) {p : Nat}
    (hn : s'.numBlocked = Function.update s.numBlocked p (s.numBlocked p - 1))
    (hq : ∀ q, HoldsBlocked s q t ↔ q = p) (hno : ∀ q, ¬ HoldsBlocked s' q t) :
    BlockedInv still s' := by
  refine h.change hap hok hn ((h.blocked p).erase ((hq p).mpr rfl) fun u => ?_) fun q hqp => ?_
  · by_cases hut : u = t
    · subst hut; simp [hno]
    · simp [hut, (hap u hut).holds_iff]
  · simp [hq, hqp, hno]

end BlockedInv

/-- Runs without `ABT_thread_set_associated_pool`, which moves a unit to another pool behind the
counters' back. -/
def NoAssociate (_ : State) : Act → Prop
  | .associate _ _ => False
  | _ => True

instance (s : State) (a : Act) : Decidable (NoAssociate s a) := by
  cases a <;> simp only [NoAssociate] <;> infer_instance

section Steps

variable {still : Bool} {c : Config} {s s' : State} {a : Act}

/-- A descriptor that has not been allocated is with no waker and on no PE. -/
theorem Settled.unborn (hs : Settled s) {t : Nat} (hu : (s.thr t).state = .unborn) :
    (∀ w, (s.wake w).unit ≠ some t) ∧ ∀ r k, (s.pe r).susp ≠ some (t, k) := by
  refine ⟨fun w hw => ?_, fun r k hk => ?_⟩
  · have := hs.woken w t hw
    rw [hu] at this; cases this
  · have := hs.onPe r t (PePc.susp_units hk)
    rw [hu] at this; cases this

/-- A descriptor is set up; `wake'` is where the wakers are then. -/
theorem fresh_blocked (hs : Settled s) (h : BlockedInv still s) {t : Nat} {x : Thread}
    {wake' : Nat → WakePc} (hu : (s.thr t).state = .unborn) (hblk : x.blk = .out)
    (hcnt : x.blockedCounted = false)
    (hap : ∀ u, u ≠ t → ∀ w, wake' w = s.wake w ∨
      ((s.wake w).unit ≠ some u ∧ (wake' w).unit ≠ some u))
    (hsub : ∀ w, wake' w = .sub t ↔ s.wake w = .sub t) :
    BlockedInv still { s with thr := Function.update s.thr t x, wake := wake' } := by
  obtain ⟨hw, hp⟩ := hs.unborn hu
  refine h.outside (t := t) (fun u hne => ⟨Function.update_of_ne hne _ _, hap u hne,
    fun _ => .inl rfl⟩) (h.not_holds (by simp [hu]) (by simp [hu]) hw) (Function.update_self ..)
    hblk hcnt (fun w he => hw w ?_) hp rfl
  rw [(hsub w).mp he]
  rfl

/-- The only waker of a unit is past its `fetch_sub`: the unit is not counted. -/
theorem Settled.past (hs : Settled s) (h : BlockedInv still s) {w t : Nat} {x : WakePc}
    (hw : s.wake w = x) (hx : x.unit = some t) (he : x ≠ .enter t) (hb : x ≠ .sub t) :
    (s.thr t).blockedCounted = false ∧ (∀ w', s.wake w' ≠ .sub t) ∧
      ∀ q, ¬ HoldsBlocked s q t := by
  have hst := hs.woken w t (hw ▸ hx)
  have hone : ∀ w' y, s.wake w' = y → y.unit = some t → y = x := by
    intro w' y hy hyt
    rw [← hy, ← hw, hs.wokenOnce w w' t (hw ▸ hx) (hy ▸ hyt)]
  have hsub : ∀ w', s.wake w' ≠ .sub t := fun w' hw' => hb (hone w' _ hw' rfl).symm
  have hcnt : (s.thr t).blockedCounted = false := by
    rw [Bool.eq_false_iff]
    intro hc
    obtain hr | hr | ⟨w', hw'⟩ := ((h.unit t).counted hc).2.2
    · rw [hst] at hr; cases hr
    · rw [hst] at hr; cases hr
    · exact he (hone w' _ hw' rfl).symm
  refine ⟨hcnt, hsub, ?_⟩
  rintro q (hq | hq | ⟨hc | ⟨w', hw'⟩, _⟩)
  · have := ((h.unit t).added q hq).1
    rw [hst] at this; cases this
  · have := ((h.unit t).pooled q hq).1
    rw [hst] at this; cases this
  · rw [hcnt] at hc; cases hc
  · exact hsub w' hw'

theorem awakenIfBlocked_blocked (h : BlockedInv still s) {w t : Nat} (hb : (s.thr t).state = .blocked)
    (hi : s.wake w = .idle) :
    BlockedInv still { s with
      thr := Function.update s.thr t { s.thr t with state := .ready }
      wake := Function.update s.wake w (.enter t) } := by
  refine h.state (t := t) (fun u hne => ⟨Function.update_of_ne hne _ _,
    Apart.wake_update hne hi (.inr rfl) (.inl rfl), fun _ => .inl rfl⟩) (Function.update_self ..)
    (update_at_iff hi nofun nofun) (fun _ _ _ => .inr (.inr ⟨w, Function.update_self ..⟩)) ?_ ?_
    (h.unit t).susp rfl
  · rintro (hs | hs) <;> cases hs
  · intro hr; rw [hb] at hr; cases hr

/-- The waker takes the unit of `num_blocked` over. -/
theorem wakeExchange_counted (hs : Settled s) (h : BlockedInv still s) {w t : Nat}
    (hw : s.wake w = .enter t) (hc : (s.thr t).blockedCounted = true) :
    BlockedInv still { s with
      thr := Function.update s.thr t { s.thr t with blockedCounted := false }
      wake := Function.update s.wake w (.sub t) } := by
  obtain ⟨h1, _, h3, h4, _, h6, h7⟩ := h.unit t
  have hready := hs.woken w t (by rw [hw]; rfl)
  refine h.keep (t := t) (fun u hne => ⟨Function.update_of_ne hne _ _,
    Apart.wake_update hne hw (.inl rfl) (.inl rfl), fun _ => .inl rfl⟩)
    (.of (Function.update_self ..) nofun ?_ h3 h4 (fun _ _ => ⟨(h1 hc).1, (h1 hc).2.1⟩) h6 h7) rfl fun q => ?_
  · rintro _ (hr | hr) <;> cases hready.symm.trans hr
  · have hsub : ∃ w', Function.update s.wake w (.sub t) w' = .sub t := ⟨w, Function.update_self ..⟩
    rw [holdsBlocked_iff (Function.update_self ..)]
    simp only [HoldsBlocked, hc, hsub, true_or, or_true]

theorem wakeExchange_plain (h : BlockedInv still s) {w t : Nat} (hw : s.wake w = .enter t)
    (hc : (s.thr t).blockedCounted = false) :
    BlockedInv still { s with wake := Function.update s.wake w (.migrate t) } := by
  refine h.state (t := t) (fun u hne => ⟨rfl, Apart.wake_update hne hw (.inl rfl) (.inl rfl),
    fun _ => .inl rfl⟩) rfl (update_at_iff hw nofun nofun) (fun hc' => ?_) id .inl (h.unit t).susp rfl
  rw [hc] at hc'; cases hc'

theorem wakeSub_blocked (hs : Settled s) (h : BlockedInv still s) {w t p : Nat} (hw : s.wake w = .sub t)
    (hp : (s.thr t).blockedPool = some p) :
    BlockedInv still { s with
      numBlocked := Function.update s.numBlocked p (s.numBlocked p - 1)
      wake := Function.update s.wake w (.migrate t) } := by
  obtain ⟨h1, h2, h3, h4, h5, h6, h7⟩ := h.unit t
  have hready := hs.woken w t (by rw [hw]; rfl)
  have hone : ∀ w' y, s.wake w' = y → y.unit = some t → w' = w := fun w' y hy hyt =>
    (hs.wokenOnce w w' t (by rw [hw]; rfl) (hy ▸ hyt)).symm
  have hcnt : ¬ (s.thr t).blockedCounted = true := by
    intro hc
    obtain hr | hr | ⟨w', hw'⟩ := (h1 hc).2.2
    · rw [hready] at hr; cases hr
    · rw [hready] at hr; cases hr
    · rw [hone w' _ hw' rfl, hw] at hw'; cases hw'
  have hnosub : ∀ w', Function.update s.wake w (.migrate t) w' ≠ .sub t := by
    intro w' hw'
    by_cases he : w' = w
    · rw [he, Function.update_self] at hw'; cases hw'
    · rw [Function.update_of_ne he] at hw'; exact he (hone w' _ hw' rfl)
  have hrun : (s.thr t).state ≠ .running := by rw [hready]; nofun
  refine h.take (t := t) (fun u hne => ⟨rfl, Apart.wake_update hne hw (.inl rfl) (.inl rfl),
    fun _ => .inl rfl⟩) ⟨fun hc => absurd hc hcnt, h2, h3, h4, fun w' hw' => absurd hw' (hnosub w'),
    h6, h7⟩ rfl (fun q => ?_) fun q => ?_
  · constructor
    · rintro (hq | hq | ⟨_, hq⟩)
      · exact absurd (h3 q hq).1 hrun
      · exact absurd (h4 q hq).1 hrun
      · exact Option.some.inj (hq.symm.trans hp)
    · rintro rfl
      exact .inr (.inr ⟨.inr ⟨w, hw⟩, hp⟩)
  · rintro (hq | hq | ⟨hc | ⟨w', hw'⟩, _⟩)
    · exact hrun (h3 q hq).1
    · exact hrun (h4 q hq).1
    · exact hcnt hc
    · exact hnosub w' hw'

theorem wakeMigrate_blocked (hs : Settled s) (h : BlockedInv still s) {w t p : Nat}
    (hw : s.wake w = .migrate t) :
    BlockedInv still { s with
      thr := Function.update s.thr t { s.thr t with pool := p, migrateTo := none }
      wake := Function.update s.wake w (.push t p) } := by
  obtain ⟨_, h2, h3, h4, _, h6, h7⟩ := h.unit t
  obtain ⟨hcnt, hsub, hno⟩ := hs.past h hw rfl nofun nofun
  have hready := hs.woken w t (by rw [hw]; rfl)
  have hnosub : ∀ w', Function.update s.wake w (.push t p) w' ≠ .sub t := fun w' hw' =>
    hsub w' ((update_at_iff hw (by nofun) (by nofun) w').mp hw')
  have hnot : ∀ q, (s.thr t).blk ≠ .added q ∧ (s.thr t).blk ≠ .pooled q := by
    refine fun q => ⟨fun hq => ?_, fun hq => ?_⟩
    · exact hno q (.inl hq)
    · exact hno q (.inr (.inl hq))
  refine h.keep (t := t) (fun u hne => ⟨Function.update_of_ne hne _ _,
    Apart.wake_update hne hw (.inl rfl) (.inl rfl), fun _ => .inl rfl⟩)
    (.of (Function.update_self ..) (fun hc => ?_) h2 (fun q hq => absurd hq (hnot q).1)
      (fun q hq => absurd hq (hnot q).2) (fun w' hw' => absurd hw' (hnosub w')) h6 h7)
    rfl fun q => iff_of_false ?_ (hno q)
  · cases hcnt.symm.trans hc
  · rw [holdsBlocked_iff (Function.update_self ..)]
    rintro (hq | hq | ⟨hc | ⟨w', hw'⟩, _⟩)
    · exact (hnot q).1 hq
    · exact (hnot q).2 hq
    · cases hcnt.symm.trans hc
    · exact hnosub w' hw'

/-- A waker in `ABTI_pool::push`. -/
theorem push_blocked (h : BlockedInv still s) {w t : Nat} {x y : WakePc} {i : Bool}
    (hthr : s'.thr = Function.update s.thr t { s.thr t with inPool := i })
    (hwake : s'.wake = Function.update s.wake w y) (hpe : s'.pe = s.pe)
    (hn : s'.numBlocked = s.numBlocked) (hw : s.wake w = x)
    (hx : x.unit = some t ∨ x.unit = none) (hy : y.unit = some t ∨ y.unit = none)
    (hxe : ∀ u, x ≠ .enter u ∧ x ≠ .sub u) (hye : ∀ u, y ≠ .enter u ∧ y ≠ .sub u) :
    BlockedInv still s' := by
  refine h.state (t := t) (fun u hne => ⟨?_, ?_, fun _ => .inl (by rw [hpe])⟩)
    (by rw [hthr]; exact Function.update_self ..) ?_ (fun _ _ hc => ?_) id .inl ?_ hn
  · rw [hthr]; exact Function.update_of_ne hne _ _
  · rw [hwake]; exact Apart.wake_update hne hw hx hy
  · rw [hwake]; exact update_at_iff hw (hxe t).2 (hye t).2
  · obtain hr | hr | ⟨w', hw'⟩ := hc
    · exact .inl hr
    · exact .inr (.inl hr)
    · refine .inr (.inr ⟨w', ?_⟩)
      rw [hwake]
      exact (update_at_iff hw (hxe t).1 (hye t).1 w').mpr hw'
  · rw [hpe]; exact (h.unit t).susp

/-- A waker in `ABTI_pool::push` that does not write the descriptor. -/
theorem link_blocked (h : BlockedInv still s) {w t : Nat} {x y : WakePc} {q : Nat → List Nat}
    {n : Nat → Int} (hw : s.wake w = x) (hx : x.unit = some t ∨ x.unit = none)
    (hy : y.unit = some t ∨ y.unit = none) (hxe : ∀ u, x ≠ .enter u ∧ x ≠ .sub u)
    (hye : ∀ u, y ≠ .enter u ∧ y ≠ .sub u) :
    BlockedInv still { s with queue := q, count := n, wake := Function.update s.wake w y } :=
  push_blocked h (Function.update_eq_self t s.thr).symm rfl rfl rfl hw hx hy hxe hye

theorem associate_blocked (h : BlockedInv still s) {t p : Nat} (hne : still ≠ true) :
    BlockedInv still { s with thr := Function.update s.thr t { s.thr t with pool := p } } := by
  obtain ⟨h1, h2, h3, h4, h5, h6, h7⟩ := h.unit t
  have hstill : ∀ q, still = true → q = p := fun _ hs => absurd hs hne
  have hrec : Recorded still (s.thr t) → Recorded still { s.thr t with pool := p } := by
    rintro ⟨q, hq, -⟩
    exact ⟨q, hq, hstill q⟩
  refine h.keep (t := t) (fun u hne => ⟨Function.update_of_ne hne _ _, fun _ => .inl rfl,
    fun _ => .inl rfl⟩) (.of (Function.update_self ..) (fun hc => ?_) h2 (fun q hq => ?_)
      (fun q hq => ?_) (fun w hw => ?_) h6 h7) rfl fun q => ?_
  · exact ⟨(h1 hc).1, hrec (h1 hc).2.1, (h1 hc).2.2⟩
  · exact ⟨(h3 q hq).1, hstill q⟩
  · exact ⟨(h4 q hq).1, hstill q, (h4 q hq).2.2⟩
  · exact ⟨(h5 w hw).1, hrec (h5 w hw).2⟩
  · rw [holdsBlocked_iff (Function.update_self ..)]
    rfl

/-- A running unit inside `ABTI_thread_block`, before it suspends. -/
theorem Settled.blocking (hs : Settled s) {r t : Nat} (hpe : s.pe r = .running t) :
    (s.thr t).state = .running ∧ (∀ w, (s.wake w).unit ≠ some t) ∧
      ∀ r' k, (s.pe r').susp ≠ some (t, k) := by
  have hmem : t ∈ (s.pe r).units := by rw [hpe]; exact List.mem_singleton_self _
  have hrun := hs.onPe r t hmem
  refine ⟨hrun, fun w hw => ?_, fun r' k hk => ?_⟩
  · have := hs.woken w t hw
    rw [hrun] at this; cases this
  · have := hs.onePe r r' t hmem (PePc.susp_units hk)
    rw [← this, hpe] at hk; cases hk

/-- A unit with no waker holds a unit of `num_blocked` itself. -/
theorem holds_alone {q t : Nat} {x : Thread} (hw : ∀ w, (s.wake w).unit ≠ some t)
    (hx : s.thr t = x) : HoldsBlocked s q t ↔ x.blk = .added q ∨ x.blk = .pooled q ∨
      (x.blockedCounted = true ∧ x.blockedPool = some q) := by
  have hsub : ¬ ∃ w, s.wake w = .sub t := fun ⟨w, he⟩ => hw w (by rw [he]; rfl)
  rw [holdsBlocked_iff hx, or_iff_left hsub]

theorem not_counted (h : BlockedInv still s) {t : Nat} {b : BlockPc} (hb : (s.thr t).blk = b)
    (hne : b ≠ .flagged) : (s.thr t).blockedCounted = false := by
  rw [Bool.eq_false_iff]
  intro hc
  exact hne (hb.symm.trans ((h.unit t).counted hc).1)

theorem blockAdd_blocked (hs : Settled s) (h : BlockedInv still s) {r t : Nat}
    (hpe : s.pe r = .running t) (htask : (s.thr t).isTask = false) (hout : (s.thr t).blk = .out) :
    BlockedInv still { s with
      numBlocked := Function.update s.numBlocked (s.thr t).pool (s.numBlocked (s.thr t).pool + 1)
      thr := Function.update s.thr t { s.thr t with blk := .added (s.thr t).pool } } := by
  obtain ⟨hrun, hw, hp⟩ := hs.blocking hpe
  have hcnt := not_counted h hout nofun
  refine h.add (t := t) (fun u hne => ⟨Function.update_of_ne hne _ _, fun _ => .inl rfl,
    fun _ => .inl rfl⟩) (.of (Function.update_self ..) ?_ nofun ?_ nofun
      (fun w he => absurd (congrArg WakePc.unit he) (hw w)) (fun r k hk => absurd hk (hp r k)) ?_)
    rfl (fun q => ?_) fun q => ?_
  · intro hc; cases hcnt.symm.trans hc
  · rintro q ⟨⟩; exact ⟨hrun, fun _ => rfl⟩
  · intro ht; cases htask.symm.trans ht
  · rw [holds_alone hw rfl, hout, hcnt]
    simp
  · rw [holds_alone (by exact hw) (Function.update_self ..)]
    simp only [hcnt, BlockPc.added.injEq, reduceCtorEq, Bool.false_eq_true, false_and, or_false]
    exact eq_comm

theorem blockPool_blocked (hs : Settled s) (h : BlockedInv still s) {r t p : Nat}
    (hpe : s.pe r = .running t) (hblk : (s.thr t).blk = .added p) :
    BlockedInv still { s with
      thr := Function.update s.thr t
        { s.thr t with blockedPool := some p, blk := .pooled p } } := by
  obtain ⟨hrun, hw, hp⟩ := hs.blocking hpe
  have hpool := ((h.unit t).added p hblk).2
  have hcnt := not_counted h hblk nofun
  refine h.keep (t := t) (fun u hne => ⟨Function.update_of_ne hne _ _, fun _ => .inl rfl,
    fun _ => .inl rfl⟩) (.of (Function.update_self ..) ?_ nofun nofun ?_
      (fun w he => absurd (congrArg WakePc.unit he) (hw w)) (fun r k hk => absurd hk (hp r k)) ?_)
    rfl fun q => ?_
  · intro hc; cases hcnt.symm.trans hc
  · rintro q ⟨⟩; exact ⟨hrun, hpool, rfl⟩
  · intro ht; cases hblk.symm.trans ((h.unit t).task ht)
  · rw [holds_alone hw rfl, holds_alone (by exact hw) (Function.update_self ..), hblk, hcnt]
    simp

theorem blockFlag_blocked (hs : Settled s) (h : BlockedInv still s) {r t p : Nat}
    (hpe : s.pe r = .running t) (hblk : (s.thr t).blk = .pooled p) :
    BlockedInv still { s with
      thr := Function.update s.thr t
        { s.thr t with blockedCounted := true, blk := .flagged } } := by
  obtain ⟨hrun, hw, hp⟩ := hs.blocking hpe
  obtain ⟨_, hpool, hbp⟩ := (h.unit t).pooled p hblk
  have hcnt := not_counted h hblk nofun
  refine h.keep (t := t) (fun u hne => ⟨Function.update_of_ne hne _ _, fun _ => .inl rfl,
    fun _ => .inl rfl⟩) (.of (Function.update_self ..) (fun _ => ⟨rfl, ⟨p, hbp, hpool⟩, .inl hrun⟩)
      (fun _ _ => rfl) nofun nofun (fun w he => absurd (congrArg WakePc.unit he) (hw w))
      (fun r k hk => absurd hk (hp r k)) ?_) rfl fun q => ?_
  · intro ht; cases hblk.symm.trans ((h.unit t).task ht)
  · rw [holds_alone hw rfl, holds_alone (by exact hw) (Function.update_self ..), hblk, hcnt, hbp]
    simp

theorem unlink_blocked (h : BlockedInv still s) {r p i t : Nat} {b : Caller}
    (hb : (s.pe r).susp = (PePc.unlinked t p b).susp) : BlockedInv still (s.unlink c r p i t b) := by
  refine h.state (t := t) (fun u hne => ⟨Function.update_of_ne hne _ _, fun _ => .inl rfl,
    Apart.pe_update (.inl hb.symm)⟩) (Function.update_self ..) (fun _ => Iff.rfl)
    (fun _ _ hc => hc) id .inl (fun r' k hk => ?_) rfl
  obtain he | he := Apart.pe_update (u := t) (.inl hb.symm) r'
  · exact (h.unit t).susp r' k (he.symm.trans hk)
  · exact absurd hk (he k)

/-- A PE whose suspending unit, if any, stays the same. -/
theorem pe_blocked (h : BlockedInv still s) {r : Nat} {y : PePc} (hthr : s'.thr = s.thr)
    (hwake : s'.wake = s.wake) (hpe : s'.pe = Function.update s.pe r y)
    (hn : s'.numBlocked = s.numBlocked) (hy : y.susp = (s.pe r).susp) : BlockedInv still s' := by
  refine h.same (fun u => ⟨by rw [hthr], fun _ => .inl (by rw [hwake]), fun r' => ?_⟩) hn
  rw [hpe]
  exact Apart.pe_update (.inl hy) r'

/-- A popped unit starts to run. -/
theorem run_blocked (hs : Settled s) (h : BlockedInv still s) {r t : Nat} {y : PePc}
    (hgot : (s.pe r).got = some t) (hthr : s'.thr = Function.update s.thr t
      { s.thr t with state := .running, blk := .out })
    (hwake : s'.wake = s.wake) (hpe : s'.pe = Function.update s.pe r y)
    (hn : s'.numBlocked = s.numBlocked) (hy : y.susp = (s.pe r).susp) : BlockedInv still s' := by
  obtain ⟨hready, hw⟩ := hs.popped r t hgot
  have hno := h.not_holds (by rw [hready]; nofun) (by rw [hready]; nofun) hw
  have hsusp : ∀ r k, (s.pe r).susp ≠ some (t, k) := fun r k hk => by
    have := hs.onPe r t (PePc.susp_units hk)
    rw [hready] at this; cases this
  have hself : s'.thr t = { s.thr t with state := .running, blk := .out } := by
    rw [hthr]; exact Function.update_self ..
  refine h.outside (t := t) (fun u hne => ⟨?_, fun _ => .inl (by rw [hwake]), ?_⟩) hno hself rfl
    ?_ ?_ ?_ hn
  · rw [hthr]; exact Function.update_of_ne hne _ _
  · rw [hpe]; exact Apart.pe_update (.inl hy)
  · show (s.thr t).blockedCounted = false
    rw [Bool.eq_false_iff]
    intro hc
    obtain ⟨p, hp, _⟩ := ((h.unit t).counted hc).2.1
    exact hno p (.inr (.inr ⟨.inl hc, hp⟩))
  · rw [hwake]
    intro w he
    exact hw w (by rw [he]; rfl)
  · intro r' k hk
    rw [hpe] at hk
    obtain he | he := Apart.pe_update (u := t) (.inl hy) r'
    · exact hsusp r' k (he.symm.trans hk)
    · exact he k hk

theorem taskExit_blocked (h : BlockedInv still s) {r t : Nat} (hpe : s.pe r = .running t)
    (ht : (s.thr t).isTask = true) :
    BlockedInv still { s with
      thr := Function.update s.thr t { s.thr t with state := .terminated }
      pe := Function.update s.pe r .sched } := by
  have hout := (h.unit t).task ht
  have hy : PePc.sched.susp = (s.pe r).susp := by rw [hpe]; rfl
  refine h.state (t := t) (fun u hne => ⟨Function.update_of_ne hne _ _, fun _ => .inl rfl,
    Apart.pe_update (.inl hy)⟩) (Function.update_self ..) (fun _ => Iff.rfl) (fun _ hf => ?_)
    ?_ (fun _ => .inr (.inl hout)) (fun r' k hk => ?_) rfl
  · rw [hout] at hf; cases hf
  · rintro (hs | hs) <;> cases hs
  · obtain he | he := Apart.pe_update (u := t) (.inl hy) r'
    · exact (h.unit t).susp r' k (he.symm.trans hk)
    · exact absurd hk (he k)

/-- A ULT asks to leave its PE, in a state that fits the reason `k`. -/
theorem suspend_blocked (h : BlockedInv still s) {r t : Nat} {k : Susp} {y : PePc}
    (hy : y.susp = some (t, k)) (hk : (k = .block → (s.thr t).blk = .flagged) ∧
      (k ≠ .block → (s.thr t).blk = .out)) :
    BlockedInv still { s with pe := Function.update s.pe r y } := by
  have hinj : ∀ {u k'}, y.susp = some (u, k') → t = u ∧ k = k' := fun he =>
    Prod.mk.inj (Option.some.inj (hy.symm.trans he))
  refine h.state (t := t) (fun u hne => ⟨rfl, fun _ => .inl rfl, Apart.pe_update (.inr ?_)⟩) rfl
    (fun _ => Iff.rfl) (fun _ _ hc => hc) id .inl (fun r' k' hk' => ?_) rfl
  · exact fun k' hk' => hne (hinj hk').1.symm
  · have hk' : (Function.update s.pe r y r').susp = some (t, k') := hk'
    by_cases hr : r' = r
    · rw [hr, Function.update_self] at hk'
      exact (hinj hk').2 ▸ hk
    · rw [Function.update_of_ne hr] at hk'
      exact (h.unit t).susp r' k' hk'

/-- The post-switch action of a unit that has left its PE: what it asked for, and that the PE goes
on with another unit or its scheduler. -/
theorem post_blocked (hs : Settled s) (h : BlockedInv still s) {r t : Nat} {k : Susp} {next : Option Nat}
    {st : UnitState} (hpe : s.pe r = .leaving t k next)
    (hthr : s'.thr = Function.update s.thr t { s.thr t with state := st })
    (hpe' : s'.pe = Function.update s.pe r (State.resume next))
    (hap : ∀ u, u ≠ t → ∀ w, s'.wake w = s.wake w ∨
      ((s.wake w).unit ≠ some u ∧ (s'.wake w).unit ≠ some u))
    (hsub : ∀ w, s'.wake w = .sub t ↔ s.wake w = .sub t)
    (hcnt : (s.thr t).blk = .flagged → st = .blocked ∨ ∃ w, s'.wake w = .enter t)
    (hn : s'.numBlocked = s.numBlocked) : BlockedInv still s' := by
  have hres : (State.resume next).susp = none := by cases next <;> rfl
  have hmem : t ∈ (s.pe r).units := by
    rw [hpe]; cases next <;> simp [PePc.units]
  have hblk := (h.unit t).susp r k (by rw [hpe]; rfl)
  refine h.state (t := t) (fun u hne => ⟨?_, hap u hne, ?_⟩)
    (by rw [hthr]; exact Function.update_self ..) hsub (fun _ hf _ => .inr (hcnt hf)) ?_ ?_ ?_ hn
  · rw [hthr]; exact Function.update_of_ne hne _ _
  · rw [hpe']
    refine Apart.pe_update (.inr fun k => ?_)
    rw [hres]; nofun
  · exact fun _ => .inl (hs.onPe r t hmem)
  · intro _
    by_cases hk : k = .block
    · exact .inr (.inr (hblk.1 hk))
    · exact .inr (.inl (hblk.2 hk))
  · intro r' k' hk'
    rw [hpe'] at hk'
    by_cases hr : r' = r
    · rw [hr, Function.update_self, hres] at hk'; cases hk'
    · rw [Function.update_of_ne hr] at hk'
      exact (h.unit t).susp r' k' hk'

theorem step_blocked (hs : Settled s) (h : BlockedInv still s) (ha : still = true → NoAssociate s a)
    (hst : step c s a = some s') : BlockedInv still s' := by
  cases step_cases hst with
  | createUlt hg =>
    exact fresh_blocked hs h hg.1 rfl rfl (fun _ _ _ => .inl rfl) fun _ => Iff.rfl
  | createTask hg =>
    obtain ⟨hu, -, -, hw⟩ := hg
    exact fresh_blocked hs h hu rfl rfl
      (fun _ hne => Apart.wake_update hne hw (.inr rfl) (.inl rfl))
      (update_at_iff hw (by simp) (by simp))
  | awakenIfBlocked hg => exact awakenIfBlocked_blocked h hg.1 hg.2
  | wakeCounted hw hc => exact wakeExchange_counted hs h hw hc
  | wakePlain hw hc => exact wakeExchange_plain h hw (Bool.eq_false_iff.mpr hc)
  | wakeSub hw hp => exact wakeSub_blocked hs h hw hp
  | wakeMigrate hw => exact wakeMigrate_blocked hs h hw
  | pushUser hw => exact link_blocked h hw (.inl rfl) (.inr rfl) (by simp) (by simp)
  | pushTwice => exact h.same (fun u => ⟨rfl, fun _ => .inl rfl, fun _ => .inl rfl⟩) rfl
  | pushEnter hw =>
    exact push_blocked h rfl rfl rfl rfl hw (.inl rfl) (.inr rfl) (by simp) (by simp)
  | pushLink hw | pushCount hw =>
    exact link_blocked (t := 0) h hw (.inr rfl) (.inr rfl) (by simp) (by simp)
  | @migrateToPool t =>
    exact h.state (t := t) (fun u hne => ⟨Function.update_of_ne hne _ _, fun _ => .inl rfl,
      fun _ => .inl rfl⟩) (Function.update_self ..) (fun _ => Iff.rfl) (fun _ _ hc => hc) id .inl
      (h.unit t).susp rfl
  | associate => exact associate_blocked h ha
  | blockAdd hpe hg => exact blockAdd_blocked hs h hpe hg.1 hg.2
  | blockPool hpe hblk => exact blockPool_blocked hs h hpe hblk
  | blockFlag hpe hblk => exact blockFlag_blocked hs h hpe hblk
  | pollPop hpe | choosePop hpe => exact unlink_blocked h (by rw [hpe]; rfl)
  | @popCount r t p b hpe => exact pe_blocked h rfl rfl rfl rfl (by rw [hpe]; cases b <;> rfl)
  | @putBack r w t p b hpe hg =>
    have hpush : BlockedInv still { s with wake := Function.update s.wake w (.push t p) } :=
      link_blocked h hg.2 (.inr rfl) (.inl rfl) (by simp) (by simp)
    refine pe_blocked hpush rfl rfl rfl rfl ?_
    show _ = (s.pe r).susp
    rw [hpe]
    cases b <;> rfl
  | takeHeld hpe | chooseNone hpe | choosePark hpe =>
    exact pe_blocked h rfl rfl rfl rfl (by rw [hpe]; rfl)
  | runPopped hpe | chooseDirect hpe =>
    exact run_blocked hs h (by rw [hpe]; rfl) rfl rfl rfl rfl (by rw [hpe]; rfl)
  | taskExit hpe ht => exact taskExit_blocked h hpe ht
  | suspend hpe hg =>
    refine suspend_blocked h (by split <;> rfl) ?_
    obtain ⟨hb, hf⟩ | ⟨hb, ho, _⟩ := hg.2
    · exact ⟨fun _ => hf, fun hn => absurd hb hn⟩
    · exact ⟨fun he => absurd he hb, fun _ => ho⟩
  | chooseAbort => exact h.same (fun u => ⟨rfl, fun _ => .inl rfl, fun _ => .inl rfl⟩) rfl
  | @postYield r w t next hpe hw =>
    exact post_blocked hs h hpe rfl rfl
      (fun u hne => Apart.wake_update hne hw (.inr rfl) (.inl rfl))
      (update_at_iff hw (by simp) (by simp)) (fun _ => .inr ⟨w, Function.update_self ..⟩) rfl
  | postBlock hpe =>
    exact post_blocked hs h hpe rfl rfl (fun _ _ _ => .inl rfl) (fun _ => Iff.rfl)
      (fun _ => .inl rfl) rfl
  | @postExit r t next hpe =>
    have hout := ((h.unit t).susp r .exit (by rw [hpe]; rfl)).2 (by simp)
    refine post_blocked hs h hpe rfl rfl (fun _ _ _ => .inl rfl) (fun _ => Iff.rfl)
      (fun hf => ?_) rfl
    rw [hout] at hf; cases hf

end Steps

theorem initial_blocked (still : Bool) (c : Config) (p : Nat) : BlockedInv still (initial c p) := by
  have hthr : ∀ u, ((initial c p).thr u).blk = .out ∧
      ((initial c p).thr u).blockedCounted = false := by
    intro u; by_cases hu : u = 0 <;> simp [initial, hu, Thread.fresh]
  have hsusp : ∀ r, ((initial c p).pe r).susp = none := by
    intro r; by_cases hr : r = c.home <;> simp [initial, hr, PePc.susp]
  refine ⟨fun u => ?_, fun q => Counts.zero fun u => ?_⟩
  · obtain ⟨h1, h2⟩ := hthr u
    have hwake : ∀ w, (initial c p).wake w = .idle := fun _ => rfl
    refine ⟨?_, ?_, ?_, ?_, ?_, ?_, ?_⟩ <;> simp [h1, h2, hsusp, hwake]
  · obtain ⟨h1, h2⟩ := hthr u
    have hwake : ∀ w, (initial c p).wake w = .idle := fun _ => rfl
    simp [HoldsBlocked, h1, h2, hwake]

theorem reach_blocked (still : Bool) {c : Config} {p : Nat} {G : State → Act → Prop}
    (hG : ∀ s a, G s a → still = true → NoAssociate s a) {s : State}
    (h : Reach (system c p) G s) : BlockedInv still s := by
  refine h.invariant ?_ ?_
  · rintro s rfl; exact initial_blocked still c p
  · rintro s a s' hr hi ha hst
    obtain ⟨loc, hinv⟩ := reach_inv hr.free
    exact step_blocked hinv.settled hi (hG s a ha) hst

/-! ## `count` -/

/-- Waker `w` has linked a unit in `q` and not yet added it to `count`. -/
def Adding (s : State) (q w : Nat) : Prop := ∃ t, s.wake w = .count t q

/-- PE `r` has unlinked a unit from `q` and not yet subtracted it from `count`. -/
def Taking (s : State) (q r : Nat) : Prop := ∃ t b, s.pe r = .unlinked t q b

def CountInv (c : Config) (s : State) : Prop :=
  ∀ q, c.user q = false → ∃ a b : Int, Counts a (Adding s q) ∧ Counts b (Taking s q) ∧
    s.count q + a = (s.queue q).length + b

namespace CountInv

variable {c : Config} {s s' : State}

/-- A step of nobody who has linked or unlinked a unit. -/
theorem same (h : CountInv c s) (hq : s'.queue = s.queue) (hc : s'.count = s.count)
    (hw : ∀ w t q, s'.wake w = .count t q ↔ s.wake w = .count t q)
    (hp : ∀ r t q b, s'.pe r = .unlinked t q b ↔ s.pe r = .unlinked t q b) :
    CountInv c s' := by
  intro q hu
  obtain ⟨a, b, h1, h2, h3⟩ := h q hu
  refine ⟨a, b, h1.congr fun w => ?_, h2.congr fun r => ?_, by rw [hq, hc]; exact h3⟩
  · simp only [Adding, hw]
  · simp only [Taking, hp]

theorem waker (h : CountInv c s) {w : Nat} {x y : WakePc} (hq : s'.queue = s.queue)
    (hc : s'.count = s.count) (hpe : s'.pe = s.pe) (hwake : s'.wake = Function.update s.wake w y)
    (hw : s.wake w = x) (hx : ∀ t q, x ≠ .count t q) (hy : ∀ t q, y ≠ .count t q) :
    CountInv c s' := by
  refine h.same hq hc (fun w' t q => ?_) fun _ _ _ _ => by rw [hpe]
  rw [hwake]
  exact update_at_iff hw (hx t q) (hy t q) w'

theorem pe (h : CountInv c s) {r : Nat} {x y : PePc} (hq : s'.queue = s.queue)
    (hc : s'.count = s.count) (hwake : s'.wake = s.wake) (hpe : s'.pe = Function.update s.pe r y)
    (hr : s.pe r = x) (hx : ∀ t q b, x ≠ .unlinked t q b) (hy : ∀ t q b, y ≠ .unlinked t q b) :
    CountInv c s' := by
  refine h.same hq hc (fun _ _ _ => by rw [hwake]) fun r' t q b => ?_
  rw [hpe]
  exact update_at_iff hr (hx t q b) (hy t q b) r'

theorem unlink (h : CountInv c s) {r p i t : Nat} {k : Caller} (hi : (s.queue p)[i]? = some t)
    (hpe : ∀ t q k, s.pe r ≠ .unlinked t q k) : CountInv c (s.unlink c r p i t k) := by
  intro q hu
  obtain ⟨a, b, h1, h2, h3⟩ := h q hu
  by_cases hq : q = p
  · subst hq
    obtain ⟨hlt, -⟩ := List.getElem?_eq_some_iff.mp hi
    refine ⟨a, b + 1, h1, h2.insert (a := r) (by simp [Taking, hpe]) fun r' => ?_, ?_⟩
    · by_cases hr : r' = r <;> simp [Taking, State.unlink, hr]
    · have := List.length_eraseIdx_of_lt hlt
      simp only [State.unlink, Function.update_self, this]
      omega
  · refine ⟨a, b, h1, h2.congr fun r' => ?_, by simpa [State.unlink, hq] using h3⟩
    by_cases hr : r' = r
    · subst hr
      have hne : p ≠ q := Ne.symm hq
      simp [Taking, State.unlink, hpe, hne]
    · simp [Taking, State.unlink, hr]

theorem pushLink (h : CountInv c s) {w t p : Nat} (hw : s.wake w = .link t p) :
    CountInv c { s with
      queue := Function.update s.queue p (s.queue p ++ [t])
      wake := Function.update s.wake w (.count t p) } := by
  intro q hu
  obtain ⟨a, b, h1, h2, h3⟩ := h q hu
  by_cases hq : q = p
  · subst hq
    refine ⟨a + 1, b, h1.insert (a := w) (by simp [Adding, hw]) fun w' => ?_, h2, ?_⟩
    · by_cases hw' : w' = w <;> simp [Adding, hw']
    · simp only [Function.update_self, List.length_append, List.length_singleton]
      omega
  · refine ⟨a, b, h1.congr fun w' => ?_, h2, by simpa [hq] using h3⟩
    by_cases hw' : w' = w
    · subst hw'; simp [Adding, hw, Ne.symm hq]
    · simp [Adding, hw']

theorem addCount_other {n : Nat → Int} {p q : Nat} {d : Int} (hq : q ≠ p) :
    State.addCount c n p d q = n q := by
  simp only [State.addCount]
  split <;> simp [hq]

theorem pushCount (h : CountInv c s) {w t p : Nat} (hw : s.wake w = .count t p) :
    CountInv c { s with
      count := State.addCount c s.count p 1
      wake := Function.update s.wake w .idle } := by
  intro q hu
  obtain ⟨a, b, h1, h2, h3⟩ := h q hu
  by_cases hq : q = p
  · subst hq
    refine ⟨a - 1, b, h1.erase (a := w) ⟨t, hw⟩ fun w' => ?_, h2, ?_⟩
    · by_cases hw' : w' = w <;> simp [Adding, hw']
    · simp only [State.addCount, hu, Bool.false_eq_true, if_false, Function.update_self]
      omega
  · refine ⟨a, b, h1.congr fun w' => ?_, h2, by simpa [addCount_other hq] using h3⟩
    by_cases hw' : w' = w
    · subst hw'; simp [Adding, hw, Ne.symm hq]
    · simp [Adding, hw']

theorem popCount (h : CountInv c s) {r t p : Nat} {k : Caller} (hpe : s.pe r = .unlinked t p k) :
    CountInv c { s with
      count := State.addCount c s.count p (-1)
      pe := Function.update s.pe r (.popped t p k) } := by
  intro q hu
  obtain ⟨a, b, h1, h2, h3⟩ := h q hu
  by_cases hq : q = p
  · subst hq
    refine ⟨a, b - 1, h1, h2.erase (a := r) ⟨t, k, hpe⟩ fun r' => ?_, ?_⟩
    · by_cases hr : r' = r <;> simp [Taking, hr]
    · simp only [State.addCount, hu, Bool.false_eq_true, if_false, Function.update_self]
      omega
  · refine ⟨a, b, h1, h2.congr fun r' => ?_, by simpa [addCount_other hq] using h3⟩
    by_cases hr : r' = r
    · subst hr; simp [Taking, hpe, Ne.symm hq]
    · simp [Taking, hr]

end CountInv

section Steps

variable {c : Config} {s s' : State} {a : Act}

theorem resume_ne_unlinked (next : Option Nat) (t q : Nat) (b : Caller) :
    State.resume next ≠ .unlinked t q b := by
  cases next <;> simp [State.resume]

theorem step_count (h : CountInv c s) (hst : step c s a = some s') : CountInv c s' := by
  cases step_cases hst with
  | pushLink hw => exact h.pushLink hw
  | pushCount hw => exact h.pushCount hw
  -- the other steps of a waker are before the unit is linked
  | createTask hg => exact h.waker rfl rfl rfl rfl hg.2.2.2 (by simp) (by simp)
  | awakenIfBlocked hg => exact h.waker rfl rfl rfl rfl hg.2 (by simp) (by simp)
  | wakeCounted hw | wakePlain hw | wakeSub hw | wakeMigrate hw | pushUser hw | pushEnter hw =>
    exact h.waker rfl rfl rfl rfl hw (by simp) (by simp)
  | pollPop hpe hi | choosePop hpe hi => exact h.unlink hi (by simp [hpe])
  | popCount hpe => exact h.popCount hpe
  | @putBack r w t p b hpe hg =>
    have hpush : CountInv c { s with wake := Function.update s.wake w (.push t p) } :=
      h.waker rfl rfl rfl rfl hg.2 (by simp) (by simp)
    exact hpush.pe rfl rfl rfl rfl hpe (by simp) (by cases b <;> simp [Caller.back])
  | takeHeld hpe | runPopped hpe | taskExit hpe | chooseNone hpe | choosePark hpe
  | chooseDirect hpe => exact h.pe rfl rfl rfl rfl hpe (by simp) (by simp)
  | suspend hpe => exact h.pe rfl rfl rfl rfl hpe (by simp) (by split <;> simp)
  | @postYield r w t next hpe hw =>
    have hwake : CountInv c { s with wake := Function.update s.wake w (.enter t) } :=
      h.waker rfl rfl rfl rfl hw (by simp) (by simp)
    exact hwake.pe rfl rfl rfl rfl hpe (by simp) (resume_ne_unlinked next)
  | @postBlock r t next hpe | @postExit r t next hpe =>
    exact h.pe rfl rfl rfl rfl hpe (by simp) (resume_ne_unlinked next)
  | _ => exact h.same rfl rfl (fun _ _ _ => Iff.rfl) fun _ _ _ _ => Iff.rfl

end Steps

theorem initial_count (c : Config) (p : Nat) : CountInv c (initial c p) := by
  intro q _
  refine ⟨0, 0, Counts.zero fun w => ?_, Counts.zero fun r => ?_, by simp [initial]⟩
  · simp [Adding, initial]
  · by_cases hr : r = c.home <;> simp [Taking, initial, hr]

theorem reach_count {c : Config} {p : Nat} {G : State → Act → Prop} {s : State}
    (h : Reach (system c p) G s) : CountInv c s := by
  refine h.invariant ?_ ?_
  · rintro s rfl; exact initial_count c p
  · intro s a s' _ hi _ hst; exact step_count hi hst

end Runtime
end AbtReconverse
