import AbtReconverse.Lib.Owner
import AbtReconverse.Pool.Waiting

/-!
# AbtReconverse.Pool.Wakeup

No wake-up of a built-in pool is lost. Two invariants, for any store.

* Threads in `pop_timedwait`: `notify_one` wakes one of them, so the units that are visible have to be
  covered by producers on their way to notify and by callers that are awake (`Covered`). A caller that
  holds `wm` between its last look at `count` and `wait` counts as asleep. Under a store with holes
  this needs that at most two callers wait at a time.
* PEs: a producer notifies every PE of the mask. So a PE that has found nothing, and has not been
  notified since, waits for a late push or for a producer that will still come to it, or nothing is
  left (`Kept`).
-/

namespace AbtReconverse
namespace Waiting

open Lts

variable {σ : Type}

namespace ProdPc

/-- Still to do its `count.fetch_add`. -/
def counts : ProdPc → Bool
  | .count => true
  | _ => false

/-- Still to notify a caller. -/
def tok : ProdPc → Bool
  | .loadWaiters | .lockWm | .notify => true
  | _ => false

def holds : ProdPc → Bool
  | .notify | .unlockWm => true
  | _ => false

/-- Still to come to PE `e`. -/
def near (e : Nat) : ProdPc → Bool
  | .loadWaiters | .lockWm | .notify | .unlockWm | .loadSleepers => true
  | .loadMask w => w ≤ e / 64
  | .bits w m => w < e / 64 || e ∈ m
  | _ => false

end ProdPc

namespace ConsPc

/-- In a call of the storage. -/
def inCall : ConsPc → Bool
  | .call | .pop1 | .pop2 | .hookPop | .hookPop2 => true
  | _ => false

/-- In a pop of `pop_timedwait` or of the idle hook. -/
def inPop : ConsPc → Bool
  | .pop1 | .pop2 | .hookPop | .hookPop2 => true
  | _ => false

def holds : ConsPc → Bool
  | .incr | .test | .pred | .sleep | .decr | .unlock => true
  | _ => false

/-- Counted in `waiters`. -/
def waits : ConsPc → Bool
  | .test | .pred | .sleep | .asleep | .woken | .decr => true
  | _ => false

/-- Asleep, or about to. -/
def sleeps : ConsPc → Bool
  | .sleep | .asleep => true
  | _ => false

/-- Past its first look at `count`, and going to look again or to pop. -/
def awake : ConsPc → Bool
  | .pred | .woken | .decr | .unlock | .again | .pop2 => true
  | _ => false

/-- Counted in `nsleepers`. -/
def listed : ConsPc → Bool
  | .check _ | .hookPop | .wait _ | .hookAgain | .hookPop2 | .clearBit | .sub => true
  | _ => false

/-- Marked in `smask`. -/
def marked : ConsPc → Bool
  | .add _ | .check _ | .hookPop | .wait _ | .hookAgain | .hookPop2 | .clearBit => true
  | _ => false

end ConsPc

/-- Consumer `c` has taken a unit, or is awake and may still find one. -/
def Hand (k : Nat → ConsPc) (v : View) (c : Nat) : Prop :=
  v.Owes c ∨ (k c).awake = true ∧ v.call c ≠ .gone

/-- PE `e` has found nothing since it registered. -/
def Rechecked (k : Nat → ConsPc) (v : View) (e : Nat) : Prop :=
  (∃ p, k e = .wait p) ∨ k e = .hookPop ∧ v.call e = .gone

/-- Nothing is left for PE `e`, or it will be notified. -/
def Kept (p : Nat → ProdPc) (v : View) (e : Nat) : Prop :=
  v.Late ∨ (∃ g, (p g).near e = true) ∨ ∃ d, Counts d v.Owes ∧ v.count ≤ d

/-- Who is counted and listed where. -/
structure Counters (M : Store σ) (s : State σ) : Prop where
  mem : ∀ c, c ∈ s.cv ↔ s.consumer c = .asleep
  nodup : s.cv.Nodup
  waiters : Counts s.waiters fun c => (s.consumer c).waits = true
  few : M.holes = true → s.waiters ≤ 2
  sleepers : Counts s.nsleepers fun c => (s.consumer c).listed = true
  mask : ∀ c, (s.consumer c).marked = true → s.smask c = true ∧ c < 256

/-- Which calls and pushes run. -/
structure Running (p : Nat → ProdPc) (k : Nat → ConsPc) (v : View) : Prop where
  pushes : ∀ t, v.push t ≠ .idle → ∃ g, p g = .storing t
  calls : ∀ c, (k c).inCall = false → v.call c = .idle
  pops : ∀ c, (k c).inPop = true → v.call c ≠ .idle ∧ v.call c ≠ .removing
  linked : Counts v.linked fun g => (p g).counts = true

structure Inv (M : Store σ) (s : State σ) : Prop where
  ok : M.Ok s.store
  locks : Owned ProdPc.holds ConsPc.holds s.producer s.consumer s.wm
  counters : Counters M s
  running : Running s.producer s.consumer (M.view s.store)
  covered : Covered M.holes (M.view s.store).count (M.view s.store).Late
    (fun g => (s.producer g).tok = true) (Hand s.consumer (M.view s.store)) (M.view s.store).Owes
    fun c => (s.consumer c).sleeps = true
  kept : ∀ e, Rechecked s.consumer (M.view s.store) e → s.notified e = false →
    Kept s.producer (M.view s.store) e

/-! ### One party moves -/

section

variable {p : Nat → ProdPc} {k : Nat → ConsPc} {v v' : View} {wm : Option (Nat ⊕ Nat)} {c g e : Nat}
  {pc : ConsPc} {qc : ProdPc} {holes : Bool}

/-- Outside a call a consumer has something in hand only if it is awake. -/
theorem hand_of_idle (hc : v.call c = .idle) : Hand k v c ↔ (k c).awake = true := by
  simp [Hand, View.Owes, hc]

theorem hand_update (x : Nat) (hc : v.call c = .idle) :
    Hand (Function.update k c pc) v x ↔ x = c ∧ pc.awake = true ∨ x ≠ c ∧ Hand k v x := by
  by_cases hx : x = c
  · subst hx
    rw [hand_of_idle hc]
    simp
  · simp [Hand, hx]

theorem not_owes_of_idle (hc : v.call c = .idle) : ¬ v.Owes c := by
  simp [View.Owes, hc]

/-- A party whose flags stay the same moves outside a call. -/
theorem covered_keep {tok : Nat → Prop} {count : Int} {late : Prop}
    (h : Covered holes count late tok (Hand k v) v.Owes fun c => (k c).sleeps = true)
    (hc : v.call c = .idle) (ha : pc.awake = (k c).awake) (hs : pc.sleeps = (k c).sleeps) :
    Covered holes count late tok (Hand (Function.update k c pc) v) v.Owes
      fun x => (Function.update k c pc x).sleeps = true := by
  refine h.congr id (fun _ => Iff.rfl) (fun x => ?_) (fun _ => Iff.rfl) (flag_kept hs)
  rw [hand_update x hc, ha]
  by_cases hx : x = c
  · subst hx
    simp [hand_of_idle hc]
  · simp [hx]

/-- A caller that finds units visible takes up work. -/
theorem covered_gain {tok : Nat → Prop} {count : Int} {late : Prop}
    (h : Covered holes count late tok (Hand k v) v.Owes fun c => (k c).sleeps = true)
    (hc : v.call c = .idle) (ha : pc.awake = true) (hs : pc.sleeps = (k c).sleeps) :
    Covered holes count late tok (Hand (Function.update k c pc) v) v.Owes
      fun x => (Function.update k c pc x).sleeps = true := by
  have hgain : Covered holes count late tok (Hand (Function.update k c pc) v) v.Owes
      fun x => (k x).sleeps = true := by
    refine h.gain c fun x => ?_
    rw [hand_update x hc]
    by_cases hx : x = c <;> simp [hx, ha]
  exact hgain.congr id (fun _ => Iff.rfl) (fun _ => Iff.rfl) (fun _ => Iff.rfl) (flag_kept hs)

/-- A caller that finds none goes to sleep. -/
theorem covered_sleep {tok : Nat → Prop} {count : Int} {late : Prop}
    (h : Covered holes count late tok (Hand k v) v.Owes fun c => (k c).sleeps = true)
    (hc : v.call c = .idle) (ha : pc.awake = false) (hcount : count ≤ 0) :
    Covered holes count late tok (Hand (Function.update k c pc) v) v.Owes
      fun x => (Function.update k c pc x).sleeps = true := by
  refine h.sleep hcount (not_owes_of_idle hc) fun x => ?_
  rw [hand_update x hc]
  by_cases hx : x = c <;> simp [hx, ha]

/-- A sleeper wakes by itself. -/
theorem covered_wake {tok : Nat → Prop} {count : Int} {late : Prop}
    (h : Covered holes count late tok (Hand k v) v.Owes fun c => (k c).sleeps = true)
    (hc : v.call c = .idle) (ha : pc.awake = true) (hs : pc.sleeps = false) :
    Covered holes count late tok (Hand (Function.update k c pc) v) v.Owes
      fun x => (Function.update k c pc x).sleeps = true := by
  refine h.wake (c := c) (fun x => ?_) fun x hx => ?_
  · rw [hand_update x hc]
    by_cases hx : x = c <;> simp [hx, ha]
  · obtain ⟨-, hx⟩ | ⟨-, hx⟩ := (flag_update x).mp hx
    · simp [hs] at hx
    · exact hx

end

section

variable {M : Store σ} {s s' : State σ} {c g : Nat} {pc : ConsPc} {qc : ProdPc}

/-- A consumer moves; the counters follow its flags. -/
theorem Counters.consumer (h : Counters M s) (hk : s'.consumer = Function.update s.consumer c pc)
    (hw : s'.waiters = s.waiters + pc.waits.toInt - (s.consumer c).waits.toInt)
    (hfew : M.holes = true → s'.waiters ≤ 2)
    (hn : s'.nsleepers = s.nsleepers + pc.listed.toInt - (s.consumer c).listed.toInt)
    (hmem : ∀ x, x ∈ s'.cv ↔ x = c ∧ pc = .asleep ∨ x ≠ c ∧ x ∈ s.cv) (hnd : s'.cv.Nodup)
    (hmask : ∀ x, x ≠ c → s'.smask x = s.smask x)
    (hm : pc.marked = true → s'.smask c = true ∧ c < 256) : Counters M s' := by
  refine ⟨fun x => ?_, hnd, ?_, hfew, ?_, fun x hx => ?_⟩
  · rw [hmem, hk]
    by_cases hx : x = c
    · subst hx; simp
    · simp [hx, h.mem x]
  · rw [hk, hw]
    exact h.waiters.update (f := ConsPc.waits) c pc
  · rw [hk, hn]
    exact h.sleepers.update (f := ConsPc.listed) c pc
  · rw [hk] at hx
    obtain ⟨rfl, hpc⟩ | ⟨hne, hpc⟩ := (flag_update (f := ConsPc.marked) x).mp hx
    · exact hm hpc
    · rw [hmask x hne]
      exact h.mask x hpc

/-- A consumer moves and none of the lists knows. -/
theorem Counters.plain (h : Counters M s) (hk : s'.consumer = Function.update s.consumer c pc)
    (hsame : s'.waiters = s.waiters ∧ s'.nsleepers = s.nsleepers ∧ s'.cv = s.cv ∧ s'.smask = s.smask)
    (hw : pc.waits = (s.consumer c).waits) (hn : pc.listed = (s.consumer c).listed)
    (hm : pc.marked = true → (s.consumer c).marked = true) (ha : pc ≠ .asleep)
    (hc : s.consumer c ≠ .asleep) : Counters M s' := by
  obtain ⟨e₁, e₂, e₃, e₄⟩ := hsame
  refine h.consumer hk ?_ ?_ ?_ (fun x => ?_) ?_ (fun x _ => ?_) fun hpc => ?_
  · rw [e₁, hw]; omega
  · rw [e₁]; exact h.few
  · rw [e₂, hn]; omega
  · rw [e₃]
    by_cases hx : x = c
    · subst hx
      simp [ha, h.mem x, hc]
    · simp [hx]
  · rw [e₃]; exact h.nodup
  · rw [e₄]
  · rw [e₄]
    exact h.mask c (hm hpc)

/-- A producer moves. -/
theorem Counters.producer (h : Counters M s) (hk : s'.consumer = s.consumer)
    (hsame : s'.waiters = s.waiters ∧ s'.nsleepers = s.nsleepers ∧ s'.cv = s.cv ∧ s'.smask = s.smask) :
    Counters M s' := by
  obtain ⟨e₁, e₂, e₃, e₄⟩ := hsame
  exact ⟨by rw [e₃, hk]; exact h.mem, by rw [e₃]; exact h.nodup, by rw [e₁, hk]; exact h.waiters,
    by rw [e₁]; exact h.few, by rw [e₂, hk]; exact h.sleepers, by rw [e₄, hk]; exact h.mask⟩

theorem inPop_of_not_inCall {pc : ConsPc} (h : pc.inCall = false) : pc.inPop = false := by
  revert h
  cases pc <;> simp [ConsPc.inCall, ConsPc.inPop]

theorem awake_of_call {pc : ConsPc} (h : pc.inCall = true) (hp : pc.inPop = false) :
    pc.awake = false := by
  revert h hp
  cases pc <;> simp [ConsPc.inCall, ConsPc.inPop, ConsPc.awake]

theorem Running.outside {p : Nat → ProdPc} {k : Nat → ConsPc} {v : View} (h : Running p k v)
    (hin : (k c).inCall = false) (hpc : pc.inCall = false) :
    Running p (Function.update k c pc) v := by
  refine ⟨h.pushes, fun x hx => ?_, fun x hx => ?_, h.linked⟩
  · by_cases hxc : x = c
    · subst hxc; exact h.calls x hin
    · rw [Function.update_of_ne hxc] at hx
      exact h.calls x hx
  · obtain ⟨-, hx⟩ | ⟨-, hx⟩ := (flag_update (f := ConsPc.inPop) x).mp hx
    · simp [inPop_of_not_inCall hpc] at hx
    · exact h.pops x hx

/-- A consumer moves outside the storage. -/
theorem Inv.outside (h : Inv M s) (hsame : s'.store = s.store ∧ s'.producer = s.producer)
    (hk : s'.consumer = Function.update s.consumer c pc) (hin : (s.consumer c).inCall = false)
    (hpc : pc.inCall = false)
    (hl : Owned ProdPc.holds ConsPc.holds s.producer (Function.update s.consumer c pc) s'.wm)
    (hc : Counters M s')
    (hcov : Covered M.holes (M.view s.store).count (M.view s.store).Late
      (fun g => (s.producer g).tok = true) (Hand (Function.update s.consumer c pc) (M.view s.store))
      (M.view s.store).Owes fun x => (Function.update s.consumer c pc x).sleeps = true)
    (hnot : ∀ e, e ≠ c → s'.notified e = s.notified e)
    (hwait : ∀ q, pc = .wait q → s'.notified c = false → Kept s.producer (M.view s.store) c) :
    Inv M s' := by
  obtain ⟨hstore, hp⟩ := hsame
  refine ⟨?_, ?_, hc, ?_, ?_, fun e he hn => ?_⟩
  · rw [hstore]; exact h.ok
  · rw [hp, hk]; exact hl
  · rw [hstore, hp, hk]; exact h.running.outside hin hpc
  · rw [hstore, hp, hk]; exact hcov
  · rw [hstore, hp]
    rw [hstore, hk] at he
    by_cases hec : e = c
    · subst hec
      obtain ⟨q, hq⟩ | ⟨hq, -⟩ := he
      · rw [Function.update_self] at hq
        exact hwait q hq hn
      · rw [Function.update_self] at hq
        simp [hq, ConsPc.inCall] at hpc
    · simp only [Rechecked, Function.update_of_ne hec] at he
      exact h.kept e he ((hnot e hec).symm.trans hn)

/-- A consumer moves and keeps all its flags. -/
theorem Inv.goes (h : Inv M s) (hsame : s'.store = s.store ∧ s'.producer = s.producer)
    (hk : s'.consumer = Function.update s.consumer c pc) (hin : (s.consumer c).inCall = false)
    (hpc : pc.inCall = false)
    (hl : Owned ProdPc.holds ConsPc.holds s.producer (Function.update s.consumer c pc) s'.wm)
    (hc : Counters M s') (ha : pc.awake = (s.consumer c).awake)
    (hs : pc.sleeps = (s.consumer c).sleeps) (hnot : ∀ e, e ≠ c → s'.notified e = s.notified e)
    (hwait : ∀ q, pc ≠ .wait q) : Inv M s' :=
  h.outside hsame hk hin hpc hl hc (covered_keep h.covered (h.running.calls c hin) ha hs) hnot
    fun q hq => absurd hq (hwait q)

end

/-! ### Calls of the storage -/

/-- What every unit visible is taken by. -/
def Taken (v : View) : Prop := ∃ d, Counts d v.Owes ∧ v.count ≤ d

theorem Kept.mono {p p' : Nat → ProdPc} {v v' : View} {e : Nat} (h : Kept p v e)
    (hl : v.Late → Kept p' v' e) (hn : (∃ g, (p g).near e = true) → Kept p' v' e)
    (ht : Taken v → Taken v') : Kept p' v' e := by
  obtain hx | hx | hx := h
  · exact hl hx
  · exact hn hx
  · exact .inr (.inr (ht hx))

section

variable {v : View} {ph : CallPhase} {k : Nat → ConsPc} {c x : Nat}

theorem owes_setCall : (v.setCall c ph).Owes x ↔ x = c ∧ ph = .owes ∨ x ≠ c ∧ v.Owes x := by
  by_cases hx : x = c
  · subst hx; simp [View.Owes, View.setCall]
  · simp [View.Owes, View.setCall, hx]

theorem hand_setCall : Hand k (v.setCall c ph) x ↔
    x = c ∧ (ph = .owes ∨ (k c).awake = true ∧ ph ≠ .gone) ∨ x ≠ c ∧ Hand k v x := by
  by_cases hx : x = c
  · subst hx; simp [Hand, View.Owes, View.setCall]
  · simp [Hand, View.Owes, View.setCall, hx]

/-- A consumer and its call move together. -/
theorem Running.call {p : Nat → ProdPc} {pc : ConsPc} {n : Int} (h : Running p k v)
    (hcall : pc.inCall = false → ph = .idle)
    (hpop : pc.inPop = true → ph ≠ .idle ∧ ph ≠ .removing) :
    Running p (Function.update k c pc) ({ v with count := n }.setCall c ph) := by
  refine ⟨h.pushes, fun x hx => ?_, fun x hx => ?_, h.linked⟩
  · by_cases hxc : x = c
    · subst hxc
      rw [Function.update_self] at hx
      exact (Function.update_self ..).trans (hcall hx)
    · rw [Function.update_of_ne hxc] at hx
      exact (Function.update_of_ne hxc ..).trans (h.calls x hx)
  · by_cases hxc : x = c
    · subst hxc
      rw [Function.update_self] at hx
      simpa [View.setCall] using hpop hx
    · rw [Function.update_of_ne hxc] at hx
      simpa [View.setCall, hxc] using h.pops x hx

theorem taken_keep (hc : v.call c ≠ .owes) (hph : ph ≠ .owes) (h : Taken v) :
    Taken (v.setCall c ph) := by
  obtain ⟨d, cd, hd⟩ := h
  refine ⟨d, cd.congr fun x => ?_, hd⟩
  rw [owes_setCall]
  by_cases hx : x = c
  · subst hx; simp [hph, View.Owes, hc]
  · simp [hx]

theorem taken_take (h : Taken v) : Taken (v.setCall c .owes) := by
  obtain ⟨d, cd, hd⟩ := h
  obtain ⟨d', cd', hle, -⟩ := cd.add c (Q := (v.setCall c .owes).Owes) fun x => by
    rw [owes_setCall]
    by_cases hx : x = c <;> simp [hx]
  exact ⟨d', cd', hd.trans hle⟩

theorem taken_pay (hc : v.call c = .owes) (h : Taken v) :
    Taken ({ v with count := v.count - 1 }.setCall c .idle) := by
  obtain ⟨d, cd, hd⟩ := h
  refine ⟨d - 1, cd.erase (a := c) hc fun x => ?_, ?_⟩
  · by_cases hx : x = c
    · subst hx; simp [View.Owes, View.setCall]
    · simp [View.Owes, View.setCall, hx]
  · show v.count - 1 ≤ d - 1
    omega

end

section

variable {M : Store σ} {s : State σ} {st : σ} {c : Nat} {pc : ConsPc} {ph : CallPhase}

/-- A consumer starts a call. -/
theorem Inv.begin (h : Inv M s) (hok : M.Ok st) (hin : (s.consumer c).inCall = false)
    (hpc : pc.inCall = true) (hv : M.view st = (M.view s.store).setCall c ph)
    (hph : ph = .popping ∨ ph = .removing ∧ pc.inPop = false)
    (hflags : pc.holds = (s.consumer c).holds ∧ pc.waits = (s.consumer c).waits ∧
      pc.listed = (s.consumer c).listed ∧ (pc.marked = true → (s.consumer c).marked = true) ∧
      pc.awake = (s.consumer c).awake ∧ pc.sleeps = (s.consumer c).sleeps)
    (hc : s.consumer c ≠ .asleep) :
    Inv M ({ s with store := st }.setConsumer c pc) := by
  obtain ⟨hholds, hwaits, hlisted, hmarked, hawake, hsleeps⟩ := hflags
  have hidle := h.running.calls c hin
  have hpho : ph ≠ .owes ∧ ph ≠ .gone ∧ ph ≠ .idle := by
    obtain rfl | ⟨rfl, -⟩ := hph <;> simp
  have hno : pc ≠ .asleep := by
    rintro rfl
    simp [ConsPc.inCall] at hpc
  refine ⟨hok, h.locks.keep_right hholds, h.counters.plain rfl ⟨rfl, rfl, rfl, rfl⟩ hwaits hlisted
    hmarked hno hc, ?_, ?_, fun e he hn => ?_⟩
  · dsimp only [State.setConsumer]
    rw [hv]
    refine h.running.call (n := (M.view s.store).count) (fun hx => ?_) fun hx => ?_
    · simp [hpc] at hx
    · obtain rfl | ⟨-, hp⟩ := hph
      · simp
      · simp [hp] at hx
  · dsimp only [State.setConsumer]
    rw [hv]
    refine h.covered.congr id (fun _ => Iff.rfl) (fun x => ?_) (fun x => ?_) (flag_kept hsleeps)
    · rw [hand_setCall]
      by_cases hx : x = c
      · subst hx
        simp [hpho, hawake, hand_of_idle hidle]
      · simp [hx, Hand]
    · rw [owes_setCall]
      by_cases hx : x = c
      · subst hx
        simp [hpho, View.Owes, hidle]
      · simp [hx]
  · dsimp only [State.setConsumer] at he ⊢
    rw [hv] at he ⊢
    have he' : Rechecked s.consumer (M.view s.store) e := by
      by_cases hec : e = c
      · subst hec
        simp only [Rechecked, Function.update_self, View.setCall] at he
        obtain ⟨q, rfl⟩ | ⟨-, hg⟩ := he
        · simp [ConsPc.inCall] at hpc
        · exact absurd hg hpho.2.1
      · simpa only [Rechecked, Function.update_of_ne hec, View.setCall] using he
    refine (h.kept e he' hn).mono .inl (fun hx => .inr (.inl hx)) (taken_keep ?_ hpho.1)
    simp [hidle]

/-- A step of the storage that the waiting does not see. -/
theorem Inv.same (h : Inv M s) (hok : M.Ok st) (hv : M.view st = M.view s.store) :
    Inv M { s with store := st } := by
  refine ⟨hok, h.locks, h.counters.producer rfl ⟨rfl, rfl, rfl, rfl⟩, ?_, ?_, ?_⟩ <;> dsimp only <;>
    rw [hv]
  · exact h.running
  · exact h.covered
  · exact h.kept

/-- A call goes on. -/
theorem Inv.inside (h : Inv M s) (hok : M.Ok st) (hin : (s.consumer c).inCall = true)
    (hv : M.view st = (M.view s.store).setCall c ph) (hph : ph ≠ .idle ∧ ph ≠ .removing)
    (hcov : Covered M.holes (M.view s.store).count (M.view s.store).Late
      (fun g => (s.producer g).tok = true) (Hand s.consumer ((M.view s.store).setCall c ph))
      ((M.view s.store).setCall c ph).Owes fun x => (s.consumer x).sleeps = true)
    (hkept : ph = .gone → Kept s.producer (M.view s.store) c)
    (htaken : Taken (M.view s.store) → Taken ((M.view s.store).setCall c ph)) :
    Inv M { s with store := st } := by
  have hrun : Running s.producer (Function.update s.consumer c (s.consumer c))
      ((M.view s.store).setCall c ph) :=
    h.running.call (fun hx => by simp [hin] at hx) fun _ => hph
  rw [Function.update_eq_self] at hrun
  refine ⟨hok, h.locks, h.counters.producer rfl ⟨rfl, rfl, rfl, rfl⟩, ?_, ?_, fun e he hn => ?_⟩
  · dsimp only
    rw [hv]
    exact hrun
  · dsimp only
    rw [hv]
    exact hcov
  · dsimp only at he ⊢
    rw [hv] at he ⊢
    have hk : Kept s.producer (M.view s.store) e := by
      by_cases hec : e = c
      · subst hec
        obtain ⟨q, hq⟩ | ⟨-, hg⟩ := he
        · simp [hq, ConsPc.inCall] at hin
        · exact hkept ((Function.update_self ..).symm.trans hg)
      · refine h.kept e ?_ hn
        simpa [Rechecked, View.setCall, hec] using he
    exact hk.mono .inl (fun hx => .inr (.inl hx)) htaken

/-- A call returns. -/
theorem Inv.returns (h : Inv M s) (hok : M.Ok st) {n : Int}
    (hv : M.view st = { M.view s.store with count := n }.setCall c .idle) (hpc : pc.inCall = false)
    (hflags : pc.holds = (s.consumer c).holds ∧ pc.waits = (s.consumer c).waits ∧
      pc.listed = (s.consumer c).listed ∧ (pc.marked = true → (s.consumer c).marked = true))
    (hne : pc ≠ .asleep) (hc : s.consumer c ≠ .asleep)
    (hcov : Covered M.holes n (M.view s.store).Late (fun g => (s.producer g).tok = true)
      (Hand (Function.update s.consumer c pc) ({ M.view s.store with count := n }.setCall c .idle))
      ({ M.view s.store with count := n }.setCall c .idle).Owes
      fun x => (Function.update s.consumer c pc x).sleeps = true)
    (hkept : ∀ q, pc = .wait q → s.notified c = false → Kept s.producer (M.view s.store) c)
    (htaken : Taken (M.view s.store) → Taken ({ M.view s.store with count := n }.setCall c .idle)) :
    Inv M ({ s with store := st }.setConsumer c pc) := by
  obtain ⟨hholds, hwaits, hlisted, hmarked⟩ := hflags
  refine ⟨hok, h.locks.keep_right hholds, h.counters.plain rfl ⟨rfl, rfl, rfl, rfl⟩ hwaits hlisted
    hmarked hne hc, ?_, ?_, fun e he hn => ?_⟩
  · dsimp only [State.setConsumer]
    rw [hv]
    exact h.running.call (fun _ => rfl) fun hx => by simp [inPop_of_not_inCall hpc] at hx
  · dsimp only [State.setConsumer]
    rw [hv]
    exact hcov
  · dsimp only [State.setConsumer] at he ⊢
    rw [hv] at he ⊢
    have hk : Kept s.producer (M.view s.store) e := by
      by_cases hec : e = c
      · subst hec
        simp only [Rechecked, Function.update_self] at he
        obtain ⟨q, hq⟩ | ⟨hq, -⟩ := he
        · exact hkept q hq hn
        · simp [hq, ConsPc.inCall] at hpc
      · refine h.kept e ?_ hn
        simpa [Rechecked, View.setCall, hec] using he
    exact hk.mono .inl (fun hx => .inr (.inl hx)) htaken

/-- What the consumer may go on to when its call has returned. -/
structure After (s : State σ) (c : Nat) (pc : ConsPc) : Prop where
  inCall : pc.inCall = false
  holds : pc.holds = (s.consumer c).holds
  waits : pc.waits = (s.consumer c).waits
  listed : pc.listed = (s.consumer c).listed
  marked : pc.marked = true → (s.consumer c).marked = true
  awake : pc.awake = false
  sleeps : pc.sleeps = (s.consumer c).sleeps
  asleep : pc ≠ .asleep

theorem Inv.call (h : Inv M s) {s' : State σ} {f : Bool → ConsPc}
    (ha : M.Allowed s.store (.call c)) (hin : (s.consumer c).inCall = true)
    (hf : ∀ b, After s c (f b)) (hwait : ∀ b q, f b = .wait q → b = true ∧ s.consumer c = .hookPop)
    (hs : s.call M c f = some s') : Inv M s' := by
  obtain ⟨st, hst, rfl⟩ := Option.map_eq_some_iff.mp hs
  have hok := M.ok_step h.ok ha hst
  have hm := M.moves h.ok ha hst
  have hc : s.consumer c ≠ .asleep := by
    intro hx
    simp [hx, ConsPc.inCall] at hin
  have hflags : ∀ b, (f b).holds = (s.consumer c).holds ∧ (f b).waits = (s.consumer c).waits ∧
      (f b).listed = (s.consumer c).listed ∧ ((f b).marked = true → (s.consumer c).marked = true) :=
    fun b => ⟨(hf b).holds, (hf b).waits, (hf b).listed, (hf b).marked⟩
  have hawake : ∀ b, (f b).awake = false := fun b => (hf b).awake
  have hsleeps : ∀ b x, (Function.update s.consumer c (f b) x).sleeps = true ↔
      (s.consumer x).sleeps = true := fun b => flag_kept (hf b).sleeps
  have hself : ∀ (v : View) ph, (v.setCall c ph).call c = ph := fun _ _ => Function.update_self ..
  dsimp only
  generalize hv : M.view st = v' at hm
  cases hm with
  | calling hne =>
    rw [if_neg hne]
    exact h.same hok hv
  | take hph =>
    rw [if_neg (by rw [hself]; simp)]
    refine h.inside hok hin hv (by simp) (h.covered.take (c := c) (fun x => ?_) fun x => ?_)
      (fun hg => by cases hg) taken_take
    · rw [hand_setCall]
      by_cases hx : x = c <;> simp [hx]
    · rw [owes_setCall]
      by_cases hx : x = c <;> simp [hx]
  | miss hph hmiss =>
    rw [if_neg (by rw [hself]; simp)]
    have hno : ¬ (M.view s.store).Owes c := by simp [View.Owes, hph]
    have hhand : ∀ x, Hand s.consumer ((M.view s.store).setCall c .gone) x ↔
        x ≠ c ∧ Hand s.consumer (M.view s.store) x := by
      intro x
      rw [hand_setCall]
      by_cases hx : x = c <;> simp [hx]
    refine h.inside hok hin hv (by simp) ((h.covered.miss hno hhand hmiss).congr id
      (fun _ => Iff.rfl) (fun _ => Iff.rfl) (fun x => ?_) fun _ => Iff.rfl) (fun _ => ?_)
      (taken_keep (by simp [hph]) (by simp))
    · rw [owes_setCall]
      by_cases hx : x = c
      · subst hx; simp [hno]
      · simp [hx]
    · exact hmiss.elim (fun hl => .inl hl.2) fun ht => .inr (.inr ht)
  | pay hph =>
    rw [if_pos (hself _ _)]
    refine h.returns hok hv (hf _).inCall (hflags _) (hf _).asleep hc
      ((h.covered.pay (c := c) hph (fun x => ?_) fun x => ?_).congr id (fun _ => Iff.rfl)
        (fun _ => Iff.rfl) (fun _ => Iff.rfl) (hsleeps _)) (fun q hq => ?_) (taken_pay hph)
    · by_cases hx : x = c
      · subst hx
        simp [Hand, View.Owes, View.setCall, hawake]
      · simp [Hand, View.Owes, View.setCall, hx]
    · by_cases hx : x = c
      · subst hx; simp [View.Owes, View.setCall]
      · simp [View.Owes, View.setCall, hx]
    · simp [hph] at hq
      exact absurd (hwait _ q hq).1 (by simp)
  | back hph =>
    rw [if_pos (hself _ _)]
    refine h.returns (n := (M.view s.store).count) hok hv (hf _).inCall (hflags _) (hf _).asleep hc
      (h.covered.congr id (fun _ => Iff.rfl) (fun x => ?_) (fun x => ?_) (hsleeps _))
      (fun q hq hn => ?_) (taken_keep (by simp [hph]) (by simp))
    · by_cases hx : x = c
      · subst hx
        simp [Hand, View.Owes, View.setCall, hawake, hph]
      · simp [Hand, View.Owes, View.setCall, hx]
    · by_cases hx : x = c
      · subst hx; simp [View.Owes, View.setCall, hph]
      · simp [View.Owes, View.setCall, hx]
    · exact h.kept c (.inr ⟨(hwait _ q hq).2, hph⟩) hn
  | absent hph =>
    rw [if_pos (hself _ _)]
    have hcall : (s.consumer c).awake = false := by
      refine awake_of_call hin (Bool.eq_false_iff.mpr fun hp => ?_)
      exact (h.running.pops c hp).2 hph
    refine h.returns (n := (M.view s.store).count) hok hv (hf _).inCall (hflags _) (hf _).asleep hc
      (h.covered.congr id (fun _ => Iff.rfl) (fun x => ?_) (fun x => ?_) (hsleeps _))
      (fun q hq => ?_) (taken_keep (by simp [hph]) (by simp))
    · by_cases hx : x = c
      · subst hx
        simp [Hand, View.Owes, View.setCall, hawake, hph, hcall]
      · simp [Hand, View.Owes, View.setCall, hx]
    · by_cases hx : x = c
      · subst hx; simp [View.Owes, View.setCall, hph]
      · simp [View.Owes, View.setCall, hx]
    · simp [hph] at hq
      exact absurd (hwait _ q hq).1 (by simp)

end

/-! ### Producers -/

section

variable {M : Store σ} {s s' : State σ} {st : σ} {c g t e : Nat} {qc : ProdPc}

theorem Rechecked.registered {k : Nat → ConsPc} {v : View} (h : Rechecked k v e) :
    (k e).listed = true ∧ (k e).marked = true := by
  obtain ⟨q, hq⟩ | ⟨hq, -⟩ := h <;> simp [hq, ConsPc.listed, ConsPc.marked]

/-- The flag of the producer that moves. -/
theorem near_update {p : Nat → ProdPc} (hnear : (p g).near e = true → qc.near e = true)
    (h : ∃ x, (p x).near e = true) : ∃ x, (Function.update p g qc x).near e = true := by
  obtain ⟨x, hx⟩ := h
  by_cases hxg : x = g
  · subst hxg
    exact ⟨x, by rw [Function.update_self]; exact hnear hx⟩
  · exact ⟨x, by rw [Function.update_of_ne hxg]; exact hx⟩

/-- Neither the storage nor a consumer nor one of their lists has moved. -/
def SameLists (s s' : State σ) : Prop :=
  s'.store = s.store ∧ s'.consumer = s.consumer ∧ s'.waiters = s.waiters ∧
    s'.nsleepers = s.nsleepers ∧ s'.cv = s.cv ∧ s'.smask = s.smask

/-- A producer moves outside the storage. -/
theorem Inv.produces (h : Inv M s) (hsame : SameLists s s') (hp : s'.producer = Function.update s.producer g qc)
    (hstoring : (∀ t, s.producer g ≠ .storing t) ∧ qc.counts = (s.producer g).counts)
    (hl : Owned ProdPc.holds ConsPc.holds (Function.update s.producer g qc) s.consumer s'.wm)
    (hcov : Covered M.holes (M.view s.store).count (M.view s.store).Late
      (fun x => (Function.update s.producer g qc x).tok = true) (Hand s.consumer (M.view s.store))
      (M.view s.store).Owes fun x => (s.consumer x).sleeps = true)
    (hnot : ∀ e, s'.notified e = false → s.notified e = false)
    (hnear : ∀ e, (s.consumer e).listed = true → (s.consumer e).marked = true →
      s'.notified e = false → (s.producer g).near e = true → qc.near e = true) : Inv M s' := by
  obtain ⟨hstore, hk, hlists⟩ := hsame
  refine ⟨?_, ?_, h.counters.producer hk hlists, ?_, ?_, fun e he hn => ?_⟩
  · rw [hstore]; exact h.ok
  · rw [hp, hk]; exact hl
  · rw [hstore, hp, hk]
    refine ⟨fun t ht => ?_, h.running.calls, h.running.pops,
      h.running.linked.congr (flag_kept hstoring.2)⟩
    obtain ⟨x, hx⟩ := h.running.pushes t ht
    refine ⟨x, ?_⟩
    rw [Function.update_of_ne, hx]
    rintro rfl
    exact hstoring.1 t hx
  · rw [hstore, hp, hk]; exact hcov
  · rw [hstore, hk] at he
    rw [hstore, hp]
    obtain ⟨hlisted, hmarked⟩ := he.registered
    refine (h.kept e he (hnot e hn)).mono .inl (fun hx => .inr (.inl ?_)) id
    exact near_update (hnear e hlisted hmarked hn) hx

/-- A producer moves and keeps its token. -/
theorem Inv.proceeds (h : Inv M s) (hsame : SameLists s s') (hp : s'.producer = Function.update s.producer g qc)
    (hstoring : (∀ t, s.producer g ≠ .storing t) ∧ qc.counts = (s.producer g).counts)
    (hl : Owned ProdPc.holds ConsPc.holds (Function.update s.producer g qc) s.consumer s'.wm)
    (htok : qc.tok = (s.producer g).tok)
    (hnot : ∀ e, s'.notified e = false → s.notified e = false)
    (hnear : ∀ e, (s.consumer e).listed = true → (s.consumer e).marked = true →
      s'.notified e = false → (s.producer g).near e = true → qc.near e = true) : Inv M s' :=
  h.produces hsame hp hstoring hl
    (h.covered.congr id (flag_kept htok) (fun _ => Iff.rfl) (fun _ => Iff.rfl) fun _ => Iff.rfl)
    hnot hnear

/-- Nobody sleeps while nobody is counted in `waiters`. -/
theorem Inv.none_sleeps (h : Inv M s) (hw : ¬ 0 < s.waiters) (x : Nat) :
    ¬ (s.consumer x).sleeps = true := by
  intro hx
  have hwaits : (s.consumer x).waits = true := by
    revert hx
    cases s.consumer x <;> simp [ConsPc.sleeps, ConsPc.waits]
  exact hw (h.counters.waiters.pos hwaits)

/-- Whoever is about to sleep has `wm`. -/
theorem Inv.asleep_of_sleeps (h : Inv M s) (hg : (s.producer g).holds = true) {x : Nat}
    (hx : (s.consumer x).sleeps = true) : s.consumer x = .asleep := by
  cases hpc : s.consumer x with
  | asleep => rfl
  | sleep =>
    have hlock := (h.locks.left g hg).symm.trans (h.locks.right x (by rw [hpc]; rfl))
    cases hlock
  | _ => simp [hpc, ConsPc.sleeps] at hx

/-- The spent token of a producer. -/
theorem Inv.spend (h : Inv M s) (hs : ∀ x, ¬ (s.consumer x).sleeps = true) (htok : qc.tok = false) :
    Covered M.holes (M.view s.store).count (M.view s.store).Late
      (fun x => (Function.update s.producer g qc x).tok = true) (Hand s.consumer (M.view s.store))
      (M.view s.store).Owes fun x => (s.consumer x).sleeps = true := by
  refine h.covered.spend hs fun x hx => ?_
  obtain ⟨-, hx⟩ | ⟨-, hx⟩ := (flag_update (f := ProdPc.tok) x).mp hx
  · simp [htok] at hx
  · exact hx

/-- A PE of the mask is among those of its word. -/
theorem mem_mask (hm : s.smask e = true) : e ∈ s.mask (e / 64) := by
  simp only [State.mask, List.mem_filter, List.mem_map, List.mem_range]
  exact ⟨⟨e % 64, Nat.mod_lt e (by decide), Nat.div_add_mod e 64⟩, hm⟩

/-- A caller is roused. -/
theorem Counters.rouse (h : Counters M s) (hc : c ∈ s.cv) : Counters M (s.rouse c) := by
  have hpc := (h.mem c).mp hc
  refine h.consumer rfl ?_ h.few ?_ (fun x => ?_) (h.nodup.erase c) (fun _ _ => rfl) fun hx => ?_
  · simp [State.rouse, State.setConsumer, hpc, ConsPc.waits]
  · simp [State.rouse, State.setConsumer, hpc, ConsPc.listed]
  · rw [State.rouse, State.setConsumer, h.nodup.mem_erase_iff]
    simp
  · cases hx

/-- A caller wakes without a notification. -/
theorem Inv.wake (h : Inv M s) (hc : c ∈ s.cv) : Inv M (s.rouse c) := by
  have hpc := (h.counters.mem c).mp hc
  have hin : (s.consumer c).inCall = false := by rw [hpc]; rfl
  refine h.outside ⟨rfl, rfl⟩ rfl hin rfl (h.locks.keep_right (by rw [hpc]; rfl))
    (h.counters.rouse hc) (covered_wake h.covered (h.running.calls c hin) rfl rfl)
    (fun _ _ => rfl) fun q hq => by cases hq

/-- `notify_one` wakes a caller. -/
theorem Inv.notify (h : Inv M s) (hg : s.producer g = .notify) (hc : c ∈ s.cv) :
    Inv M ((s.rouse c).setProducer g .unlockWm) := by
  have hpc := (h.counters.mem c).mp hc
  have hin : (s.consumer c).inCall = false := by rw [hpc]; rfl
  have hidle := h.running.calls c hin
  have hw := h.wake hc
  have hno : ¬ Hand s.consumer (M.view s.store) c := by
    rw [hand_of_idle hidle, hpc]
    simp [ConsPc.awake]
  have hwaits : ∀ x, (s.consumer x).sleeps = true → (s.consumer x).waits = true := by
    intro x hx
    revert hx
    cases s.consumer x <;> simp [ConsPc.sleeps, ConsPc.waits]
  have hfew : M.holes = true → ∀ a b, (s.consumer a).sleeps = true → (s.consumer b).sleeps = true →
      a ≠ c → b ≠ c → a = b := by
    intro hx a b ha hb hac hbc
    by_contra hab
    have hthree := h.counters.waiters.three (hwaits a ha) (hwaits b hb)
      (hwaits c (by rw [hpc]; rfl)) hab hac hbc
    have := h.counters.few hx
    omega
  have hcov : Covered M.holes (M.view s.store).count (M.view s.store).Late
      (fun x => (Function.update s.producer g .unlockWm x).tok = true)
      (Hand (Function.update s.consumer c .woken) (M.view s.store)) (M.view s.store).Owes
      fun x => (Function.update s.consumer c .woken x).sleeps = true := by
    refine h.covered.notify (g := g) (c := c) (by rw [hg]; rfl) (by rw [hpc]; rfl) hno (fun x => ?_)
      (fun x => ?_) (fun x => ?_) hfew
    · by_cases hx : x = g <;> simp [hx, ProdPc.tok]
    · rw [hand_update x hidle]
      by_cases hx : x = c <;> simp [hx, ConsPc.awake]
    · by_cases hx : x = c <;> simp [hx, ConsPc.sleeps]
  exact hw.produces ⟨rfl, rfl, rfl, rfl, rfl, rfl⟩ rfl
    ⟨(fun t ht => by cases hg.symm.trans ht), (congrArg ProdPc.counts hg).symm⟩
    (hw.locks.keep_left (by
      show _ = (s.producer g).holds
      rw [hg]; rfl)) hcov (fun _ hn => hn) fun _ _ _ _ _ => rfl

theorem late_setPush {v : View} {ph : PushPhase} (hph : ph ≠ .late) (hv : v.push t ≠ .late) :
    (v.setPush t ph).Late ↔ v.Late := by
  refine or_congr_left (exists_congr fun x => ?_)
  by_cases hx : x = t
  · subst hx; simp [View.setPush, hph, hv]
  · simp [View.setPush, hx]

/-- A push begins. -/
theorem Inv.enter (h : Inv M s) (ha : M.Allowed s.store (.enter t)) (hg : s.producer g = .idle)
    (hst : M.step s.store (.enter t) = some st) :
    Inv M ({ s with store := st }.setProducer g (.storing t)) := by
  have hm := M.moves h.ok ha hst
  generalize hv : M.view st = v' at hm
  cases hm with
  | enter hidle =>
    have hlate : ((M.view s.store).setPush t .early).Late ↔ (M.view s.store).Late :=
      late_setPush (by simp) (by simp [hidle])
    refine ⟨M.ok_step h.ok ha hst, h.locks.keep_left (by rw [hg]; rfl),
      h.counters.producer rfl ⟨rfl, rfl, rfl, rfl⟩, ?_, ?_, fun e he hn => ?_⟩
    · dsimp only [State.setProducer]
      rw [hv]
      refine ⟨fun u hu => ?_, h.running.calls, h.running.pops,
        h.running.linked.congr (flag_kept (by rw [hg]; rfl))⟩
      by_cases hut : u = t
      · subst hut; exact ⟨g, Function.update_self ..⟩
      · obtain ⟨x, hx⟩ := h.running.pushes u (by simpa [View.setPush, hut] using hu)
        refine ⟨x, ?_⟩
        rw [Function.update_of_ne, hx]
        rintro rfl
        cases hg.symm.trans hx
    · dsimp only [State.setProducer]
      rw [hv]
      exact h.covered.congr hlate.mpr (flag_kept (by rw [hg]; rfl)) (fun _ => Iff.rfl)
        (fun _ => Iff.rfl) fun _ => Iff.rfl
    · dsimp only [State.setProducer] at he ⊢
      rw [hv] at he ⊢
      refine (h.kept e he hn).mono (fun hx => .inl (hlate.mpr hx)) (fun hx => .inr (.inl ?_)) id
      refine near_update (fun hx => ?_) hx
      rw [hg] at hx
      cases hx

/-- A push is stored. -/
theorem Inv.stores (h : Inv M s) (ha : M.Allowed s.store (.push t)) (hg : s.producer g = .storing t)
    (hst : M.step s.store (.push t) = some st) :
    Inv M (if (M.view st).push t = .idle then { s with store := st }.setProducer g .count
      else { s with store := st }) := by
  have hok := M.ok_step h.ok ha hst
  have hm := M.moves h.ok ha hst
  generalize hv : M.view st = v' at hm
  cases hm with
  | pushing hne => rw [if_neg hne]; exact h.same hok hv
  | arrive call hearly hcall =>
    have hlate : View.Late ({ M.view s.store with call := call }.setPush t .late) :=
      .inl ⟨t, Function.update_self ..⟩
    have howes : ∀ x, call x = .owes ↔ (M.view s.store).call x = .owes := by
      intro x
      obtain hx | ⟨-, hx, hx'⟩ := hcall x
      · rw [hx]
      · simp [hx, hx']
    rw [if_neg (by simp [View.setPush])]
    refine ⟨hok, h.locks, h.counters.producer rfl ⟨rfl, rfl, rfl, rfl⟩, ?_, ?_, fun e _ _ => ?_⟩
    · dsimp only
      rw [hv]
      refine ⟨fun u hu => ?_, fun x hx => ?_, fun x hx => ?_, h.running.linked⟩
      · by_cases hut : u = t
        · subst hut; exact ⟨g, hg⟩
        · exact h.running.pushes u (by simpa [View.setPush, hut] using hu)
      · have hidle := h.running.calls x hx
        obtain hx | ⟨-, hx, -⟩ := hcall x
        · exact hx.trans hidle
        · simp [hx] at hidle
      · show call x ≠ .idle ∧ call x ≠ .removing
        obtain hx' | ⟨-, -, hx'⟩ := hcall x
        · rw [hx']; exact h.running.pops x hx
        · simp [hx']
    · dsimp only
      rw [hv]
      have harrive : Covered M.holes (M.view s.store).count
          (View.Late ({ M.view s.store with call := call }.setPush t .late))
          (fun g => (s.producer g).tok = true)
          (Hand s.consumer ({ M.view s.store with call := call }.setPush t .late))
          (M.view s.store).Owes fun c => (s.consumer c).sleeps = true := by
        refine h.covered.arrive hlate ?_ (fun x hx => .inl ((howes x).mpr hx)) ?_
        · rintro x (hx | ⟨ha, hx⟩)
          · exact .inl ((howes x).mp hx)
          · obtain hx' | ⟨-, -, hx'⟩ := hcall x
            · exact .inr ⟨ha, fun hgone => hx (hx'.trans hgone)⟩
            · exact absurd hx' hx
        · rintro hno x (hx | ⟨ha, hx⟩)
          · exact .inl ((howes x).mpr hx)
          · obtain hx' | ⟨hyes, -, -⟩ := hcall x
            · exact .inr ⟨ha, fun hgone => hx (hx'.symm.trans hgone)⟩
            · simp [hno] at hyes
      exact harrive.congr id (fun _ => Iff.rfl) (fun _ => Iff.rfl) howes fun _ => Iff.rfl
    · dsimp only
      rw [hv]
      exact .inl hlate
  | link hlate =>
    rw [if_pos (by simp [View.setPush])]
    have hnow : View.Late ({ M.view s.store with linked := (M.view s.store).linked + 1 }.setPush t
        .idle) := .inr (Nat.succ_pos _)
    have hgp : ∀ {u x}, s.producer x = .storing u → u ≠ t → x ≠ g := by
      rintro u x hx hut rfl
      cases hg.symm.trans hx
      exact hut rfl
    refine ⟨hok, h.locks.keep_left (by rw [hg]; rfl),
      h.counters.producer rfl ⟨rfl, rfl, rfl, rfl⟩, ?_, ?_, fun e _ _ => ?_⟩
    · dsimp only [State.setProducer]
      rw [hv]
      refine ⟨fun u hu => ?_, h.running.calls, h.running.pops, ?_⟩
      · by_cases hut : u = t
        · subst hut
          simp [View.setPush] at hu
        · obtain ⟨x, hx⟩ := h.running.pushes u (by simpa [View.setPush, hut] using hu)
          exact ⟨x, (Function.update_of_ne (hgp hx hut) ..).trans hx⟩
      · have := h.running.linked.update (f := ProdPc.counts) g .count
        simpa [hg, ProdPc.counts, View.setPush] using this
    · dsimp only [State.setProducer]
      rw [hv]
      exact h.covered.congr (fun _ => hnow) (flag_kept (by rw [hg]; rfl)) (fun _ => Iff.rfl)
        (fun _ => Iff.rfl) fun _ => Iff.rfl
    · dsimp only [State.setProducer]
      rw [hv]
      exact .inl hnow

/-- A push is counted. -/
theorem Inv.reveals (h : Inv M s) (ha : M.Allowed s.store .count) (hg : s.producer g = .count)
    (hst : M.step s.store .count = some st) :
    Inv M ({ s with store := st }.setProducer g .loadWaiters) := by
  have hok := M.ok_step h.ok ha hst
  have hm := M.moves h.ok ha hst
  generalize hv : M.view st = v' at hm
  cases hm with
  | reveal hpos =>
    refine ⟨hok, h.locks.keep_left (by rw [hg]; rfl),
      h.counters.producer rfl ⟨rfl, rfl, rfl, rfl⟩, ?_, ?_, fun e _ _ => ?_⟩
    · dsimp only [State.setProducer]
      rw [hv]
      refine ⟨fun u hu => ?_, h.running.calls, h.running.pops, ?_⟩
      · obtain ⟨x, hx⟩ := h.running.pushes u hu
        refine ⟨x, ?_⟩
        rw [Function.update_of_ne, hx]
        rintro rfl
        cases hg.symm.trans hx
      · have := h.running.linked.update (f := ProdPc.counts) g .loadWaiters
        simpa [hg, ProdPc.counts, Nat.cast_pred hpos] using this
    · dsimp only [State.setProducer]
      rw [hv]
      refine h.covered.reveal (g := g) (by rw [hg]; simp [ProdPc.tok]) fun x => ?_
      by_cases hx : x = g <;> simp [hx, ProdPc.tok]
    · dsimp only [State.setProducer]
      exact .inr (.inl ⟨g, by rw [Function.update_self]; rfl⟩)

theorem producerStep_inv {o : Option Nat} (h : Inv M s) (hg : Careful M s (.producer g o))
    (hs : producerStep M s g o = some s') : Inv M s' := by
  unfold producerStep at hs
  generalize hpc : s.producer g = pc at hs
  cases pc with
  | idle => cases hs
  | storing t =>
    obtain ⟨st, hst, rfl⟩ := Option.map_eq_some_iff.mp hs
    exact h.stores (hg.1 _ (by simp [State.storeAct, hpc])) hpc hst
  | count =>
    obtain ⟨st, hst, rfl⟩ := Option.map_eq_some_iff.mp hs
    exact h.reveals (hg.1 _ (by simp [State.storeAct, hpc])) hpc hst
  | loadWaiters =>
    cases hs
    by_cases hw : 0 < s.waiters
    · rw [if_pos hw]
      exact h.proceeds ⟨rfl, rfl, rfl, rfl, rfl, rfl⟩ rfl (by simp [hpc, ProdPc.counts])
        (h.locks.keep_left (by rw [hpc]; rfl)) (by rw [hpc]; rfl) (fun _ hn => hn)
        fun _ _ _ _ _ => rfl
    · rw [if_neg hw]
      exact h.produces ⟨rfl, rfl, rfl, rfl, rfl, rfl⟩ rfl (by simp [hpc, ProdPc.counts])
        (h.locks.keep_left (by rw [hpc]; rfl)) (h.spend (h.none_sleeps hw) rfl)
        (fun _ hn => hn) fun _ _ _ _ _ => rfl
  | lockWm =>
    dsimp only at hs
    split at hs
    · rename_i hwm
      cases hs
      have hl := h.locks
      rw [hwm] at hl
      exact h.proceeds ⟨rfl, rfl, rfl, rfl, rfl, rfl⟩ rfl (by simp [hpc, ProdPc.counts])
        hl.acquire_left (by rw [hpc]; rfl) (fun _ hn => hn) fun _ _ _ _ _ => rfl
    · cases hs
  | notify =>
    cases o with
    | some c =>
      dsimp only at hs
      split at hs
      · rename_i hc
        cases hs
        exact h.notify hpc hc
      · cases hs
    | none =>
      dsimp only at hs
      split at hs
      · rename_i hcv
        cases hs
        have hnone : ∀ x, ¬ (s.consumer x).sleeps = true := by
          intro x hx
          have hmem := (h.counters.mem x).mpr (h.asleep_of_sleeps (g := g) (by rw [hpc]; rfl) hx)
          simp [hcv] at hmem
        exact h.produces ⟨rfl, rfl, rfl, rfl, rfl, rfl⟩ rfl (by simp [hpc, ProdPc.counts])
          (h.locks.keep_left (by rw [hpc]; rfl)) (h.spend hnone rfl) (fun _ hn => hn)
          fun _ _ _ _ _ => rfl
      · cases hs
  | unlockWm =>
    cases hs
    exact h.proceeds ⟨rfl, rfl, rfl, rfl, rfl, rfl⟩ rfl (by simp [hpc, ProdPc.counts])
      (h.locks.release_left (by rw [hpc]; rfl) rfl) (by rw [hpc]; rfl) (fun _ hn => hn)
      fun _ _ _ _ _ => rfl
  | loadSleepers =>
    cases hs
    refine h.proceeds ⟨rfl, rfl, rfl, rfl, rfl, rfl⟩ rfl
      ⟨by simp [hpc], by rw [hpc]; split <;> rfl⟩
      (h.locks.keep_left (by rw [hpc]; split <;> rfl)) (by rw [hpc]; split <;> rfl)
      (fun _ hn => hn) fun e hlisted _ _ _ => ?_
    rw [if_pos (h.counters.sleepers.pos hlisted)]
    simp [ProdPc.near]
  | loadMask w =>
    cases hs
    refine h.proceeds ⟨rfl, rfl, rfl, rfl, rfl, rfl⟩ rfl
      ⟨by simp [hpc], by rw [hpc]; split <;> rfl⟩
      (h.locks.keep_left (by rw [hpc]; split <;> rfl)) (by rw [hpc]; split <;> rfl)
      (fun _ hn => hn) fun e _ hmarked _ hnear => ?_
    obtain ⟨hmask, hlt⟩ := h.counters.mask e hmarked
    have hw : w ≤ e / 64 := by simpa [hpc, ProdPc.near] using hnear
    rw [if_pos (by omega)]
    by_cases he : w = e / 64
    · subst he
      simp [ProdPc.near, mem_mask hmask]
    · have hlt : w < e / 64 := by omega
      simp [ProdPc.near, hlt]
  | bits w m =>
    cases m with
    | nil =>
      cases hs
      refine h.proceeds ⟨rfl, rfl, rfl, rfl, rfl, rfl⟩ rfl (by simp [hpc, ProdPc.counts])
        (h.locks.keep_left (by rw [hpc]; rfl)) (by rw [hpc]; rfl) (fun _ hn => hn)
        fun e _ _ _ hnear => ?_
      have hw : w < e / 64 := by simpa [hpc, ProdPc.near] using hnear
      simp only [ProdPc.near, decide_eq_true_eq]
      omega
    | cons r m =>
      cases hs
      have hother : ∀ e, Function.update s.notified r true e = false → e ≠ r := by
        rintro e he rfl
        simp at he
      refine h.proceeds ⟨rfl, rfl, rfl, rfl, rfl, rfl⟩ rfl (by simp [hpc, ProdPc.counts])
        (h.locks.keep_left (by rw [hpc]; rfl)) (by rw [hpc]; rfl) (fun e hn => ?_)
        fun e _ _ hn hnear => ?_
      · exact (Function.update_of_ne (hother e hn) ..).symm.trans hn
      · have hne := hother e hn
        simpa [hpc, ProdPc.near, hne] using hnear

end

/-! ### Consumers -/

section

variable {M : Store σ} {s s' : State σ} {c : Nat}

/-- What a consumer does that starts a call. -/
theorem Inv.starts (h : Inv M s) {a : StoreAct} {pc : ConsPc}
    (ha : M.Allowed s.store a) (hact : a = .pop c ∨ ∃ t, a = .remove c t ∧ pc = .call)
    (hin : (s.consumer c).inCall = false)
    (hpc : pc.inCall = true)
    (hflags : pc.holds = (s.consumer c).holds ∧ pc.waits = (s.consumer c).waits ∧
      pc.listed = (s.consumer c).listed ∧ (pc.marked = true → (s.consumer c).marked = true) ∧
      pc.awake = (s.consumer c).awake ∧ pc.sleeps = (s.consumer c).sleeps)
    (hc : s.consumer c ≠ .asleep) (hs : s.begin M c a pc = some s') : Inv M s' := by
  obtain ⟨st, hst, rfl⟩ := Option.map_eq_some_iff.mp hs
  have hok := M.ok_step h.ok ha hst
  have hm := M.moves h.ok ha hst
  generalize hv : M.view st = v' at hm
  obtain rfl | ⟨t, rfl, rfl⟩ := hact
  · cases hm with
    | pop hidle => exact h.begin hok hin hpc hv (.inl rfl) hflags hc
  · cases hm with
    | remove hidle => exact h.begin hok hin hpc hv (.inr ⟨rfl, rfl⟩) hflags hc

theorem After.of {old pc : ConsPc} (hpc : s.consumer c = old)
    (h : pc.inCall = false ∧ pc.holds = old.holds ∧ pc.waits = old.waits ∧ pc.listed = old.listed ∧
      (pc.marked = true → old.marked = true) ∧ pc.awake = false ∧ pc.sleeps = old.sleeps ∧
      pc ≠ .asleep) : After s c pc := by
  subst hpc
  obtain ⟨h₁, h₂, h₃, h₄, h₅, h₆, h₇, h₈⟩ := h
  exact ⟨h₁, h₂, h₃, h₄, h₅, h₆, h₇, h₈⟩

/-- The steps of a consumer inside the storage. -/
theorem consumerStep_call {b : Bool} (h : Inv M s) (hg : Careful M s (.consumer c b))
    (hin : (s.consumer c).inCall = true)
    (hs : consumerStep M s c b = some s') : Inv M s' := by
  unfold consumerStep at hs
  generalize hpc : s.consumer c = pc at hs
  cases pc with
  | call =>
    exact h.call (hg.1 _ (by simp [State.storeAct, hpc])) hin (fun _ => .of hpc (by decide))
      (fun _ q hq => by cases hq) hs
  | pop1 =>
    refine h.call (hg.1 _ (by simp [State.storeAct, hpc])) hin (fun null => ?_) (fun null q hq => ?_) hs
    · split
      · exact .of hpc (by decide)
      · exact .of hpc (by decide)
    · split at hq <;> cases hq
  | pop2 =>
    exact h.call (hg.1 _ (by simp [State.storeAct, hpc])) hin (fun _ => .of hpc (by decide))
      (fun _ q hq => by cases hq) hs
  | hookPop =>
    refine h.call (hg.1 _ (by simp [State.storeAct, hpc])) hin (fun null => ?_) (fun null q hq => ?_) hs
    · split
      · exact .of hpc (by decide)
      · exact .of hpc (by decide)
    · split at hq
      · rename_i hn
        exact ⟨hn, hpc⟩
      · cases hq
  | hookPop2 =>
    exact h.call (hg.1 _ (by simp [State.storeAct, hpc])) hin (fun _ => .of hpc (by decide))
      (fun _ q hq => by cases hq) hs
  | _ => simp [hpc, ConsPc.inCall] at hin

/-- A consumer moves outside the storage and the lists, with the same flags but for the lock. -/
theorem Inv.steps (h : Inv M s) {old pc : ConsPc} (hpc : s.consumer c = old)
    (hk : s'.consumer = Function.update s.consumer c pc)
    (hsame : s'.store = s.store ∧ s'.producer = s.producer ∧ s'.waiters = s.waiters ∧
      s'.nsleepers = s.nsleepers ∧ s'.cv = s.cv ∧ s'.smask = s.smask ∧ s'.notified = s.notified)
    (hflags : old.inCall = false ∧ pc.inCall = false ∧ pc.waits = old.waits ∧
      pc.listed = old.listed ∧ (pc.marked = true → old.marked = true) ∧ pc.sleeps = old.sleeps)
    (hawake : pc.awake = old.awake ∨ pc.awake = true) (hne : pc ≠ .asleep ∧ old ≠ .asleep)
    (hwait : ∀ q, pc ≠ .wait q)
    (hl : Owned ProdPc.holds ConsPc.holds s.producer (Function.update s.consumer c pc) s'.wm) :
    Inv M s' := by
  subst hpc
  obtain ⟨e₁, e₂, e₃, e₄, e₅, e₆, e₇⟩ := hsame
  obtain ⟨hin, hpc, hwaits, hlisted, hmarked, hsleeps⟩ := hflags
  have hidle := h.running.calls c hin
  refine h.outside ⟨e₁, e₂⟩ hk hin hpc hl (h.counters.plain hk ⟨e₃, e₄, e₅, e₆⟩ hwaits hlisted hmarked
    hne.1 hne.2) ?_ (fun e _ => by rw [e₇]) fun q hq => absurd hq (hwait q)
  obtain ha | ha := hawake
  · exact covered_keep h.covered hidle ha hsleeps
  · exact covered_gain h.covered hidle ha hsleeps

/-- A consumer puts itself on a list or takes itself off; `wm` and `cv` stay. -/
theorem Inv.registers (h : Inv M s) {old pc : ConsPc} (hpc : s.consumer c = old)
    (hk : s'.consumer = Function.update s.consumer c pc)
    (hsame : s'.store = s.store ∧ s'.producer = s.producer ∧ s'.wm = s.wm ∧ s'.cv = s.cv ∧
      s'.notified = s.notified)
    (hflags : old.inCall = false ∧ pc.inCall = false ∧ pc.holds = old.holds ∧
      pc.awake = old.awake ∧ pc.sleeps = old.sleeps)
    (hne : pc ≠ .asleep ∧ old ≠ .asleep) (hwait : ∀ q, pc ≠ .wait q)
    (hw : s'.waiters = s.waiters + pc.waits.toInt - old.waits.toInt)
    (hfew : M.holes = true → s'.waiters ≤ 2)
    (hn : s'.nsleepers = s.nsleepers + pc.listed.toInt - old.listed.toInt)
    (hmask : ∀ x, x ≠ c → s'.smask x = s.smask x)
    (hm : pc.marked = true → s'.smask c = true ∧ c < 256) : Inv M s' := by
  subst hpc
  obtain ⟨e₁, e₂, e₃, e₄, e₅⟩ := hsame
  obtain ⟨hin, hpc, hholds, hawake, hsleeps⟩ := hflags
  have hl : Owned ProdPc.holds ConsPc.holds s.producer (Function.update s.consumer c pc) s'.wm := by
    rw [e₃]
    exact h.locks.keep_right hholds
  refine h.goes ⟨e₁, e₂⟩ hk hin hpc hl (h.counters.consumer hk hw hfew hn (fun x => ?_) ?_ hmask hm)
    hawake hsleeps (fun e _ => by rw [e₅]) hwait
  · rw [e₄]
    by_cases hx : x = c
    · subst hx; simp [h.counters.mem x, hne]
    · simp [hx]
  · rw [e₄]
    exact h.counters.nodup

/-- The steps of a caller of `pop_timedwait` around its wait. -/
theorem consumerStep_wait {b : Bool} (h : Inv M s) (hg : Careful M s (.consumer c b))
    (hw : (s.consumer c).holds = true ∨ s.consumer c = .lock ∨ s.consumer c = .woken)
    (hs : consumerStep M s c b = some s') : Inv M s' := by
  have hin : (s.consumer c).inCall = false := by
    revert hw
    cases s.consumer c <;> simp [ConsPc.holds, ConsPc.inCall]
  have hidle := h.running.calls c hin
  have hl := h.locks
  unfold consumerStep at hs
  generalize hpc : s.consumer c = pc at hs
  cases pc with
  | lock =>
    dsimp only at hs
    split at hs
    · rename_i hwm
      cases hs
      rw [hwm] at hl
      exact h.steps hpc rfl ⟨rfl, rfl, rfl, rfl, rfl, rfl, rfl⟩ (by decide) (.inl rfl) (by decide)
        (by simp) hl.acquire_right
    · cases hs
  | incr =>
    cases hs
    refine h.registers hpc rfl ⟨rfl, rfl, rfl, rfl, rfl⟩ (by decide) (by decide) (by simp) ?_
      (fun hx => ?_) ?_ (fun _ _ => rfl) fun hx => by cases hx
    · simp [State.setConsumer, ConsPc.waits]
    · have := hg.2 c rfl hx hpc
      show s.waiters + 1 ≤ 2
      omega
    · simp [State.setConsumer, ConsPc.listed]
  | test =>
    cases hs
    split
    · exact h.steps hpc rfl ⟨rfl, rfl, rfl, rfl, rfl, rfl, rfl⟩ (by decide) (.inr rfl) (by decide)
        (by simp) (hl.keep_right (by rw [hpc]; rfl))
    · exact h.steps hpc rfl ⟨rfl, rfl, rfl, rfl, rfl, rfl, rfl⟩ (by decide) (.inr rfl) (by decide)
        (by simp) (hl.keep_right (by rw [hpc]; rfl))
  | pred =>
    cases hs
    split
    · exact h.steps hpc rfl ⟨rfl, rfl, rfl, rfl, rfl, rfl, rfl⟩ (by decide) (.inl rfl) (by decide)
        (by simp) (hl.keep_right (by rw [hpc]; rfl))
    · rename_i hcount
      exact h.outside ⟨rfl, rfl⟩ rfl hin rfl (hl.keep_right (by rw [hpc]; rfl))
        (h.counters.plain rfl ⟨rfl, rfl, rfl, rfl⟩ (by rw [hpc]; rfl) (by rw [hpc]; rfl)
          (fun hx => by cases hx) (by simp) (by simp [hpc]))
        (covered_sleep h.covered hidle rfl (by omega)) (fun _ _ => rfl) fun q hq => by cases hq
  | sleep =>
    cases hs
    have hnot : c ∉ s.cv := by simp [h.counters.mem c, hpc]
    refine h.goes ⟨rfl, rfl⟩ rfl hin rfl (hl.release_right (by rw [hpc]; rfl) rfl)
      (h.counters.consumer rfl ?_ h.counters.few ?_ (fun x => ?_)
        (List.nodup_cons.mpr ⟨hnot, h.counters.nodup⟩) (fun _ _ => rfl) fun hx => by cases hx)
      (by rw [hpc]; rfl) (by rw [hpc]; rfl) (fun _ _ => rfl) (by simp)
    · simp [State.setConsumer, hpc, ConsPc.waits]
    · simp [State.setConsumer, hpc, ConsPc.listed]
    · by_cases hx : x = c <;> simp [State.setConsumer, hx]
  | woken =>
    dsimp only at hs
    split at hs
    · rename_i hwm
      cases hs
      rw [hwm] at hl
      split
      · exact h.steps hpc rfl ⟨rfl, rfl, rfl, rfl, rfl, rfl, rfl⟩ (by decide) (.inl rfl) (by decide)
          (by simp) hl.acquire_right
      · exact h.steps hpc rfl ⟨rfl, rfl, rfl, rfl, rfl, rfl, rfl⟩ (by decide) (.inl rfl) (by decide)
          (by simp) hl.acquire_right
    · cases hs
  | decr =>
    cases hs
    refine h.registers hpc rfl ⟨rfl, rfl, rfl, rfl, rfl⟩ (by decide) (by decide) (by simp) ?_
      (fun hx => ?_) ?_ (fun _ _ => rfl) fun hx => by cases hx
    · simp [State.setConsumer, ConsPc.waits]
    · have := h.counters.few hx
      show s.waiters - 1 ≤ 2
      omega
    · simp [State.setConsumer, ConsPc.listed]
  | unlock =>
    cases hs
    exact h.steps hpc rfl ⟨rfl, rfl, rfl, rfl, rfl, rfl, rfl⟩ (by decide) (.inl rfl) (by decide)
      (by simp) (hl.release_right (by rw [hpc]; rfl) rfl)
  | _ => simp [hpc, ConsPc.holds] at hw

/-- The steps of a PE that parks, and of a caller that pops again, outside the storage. -/
theorem consumerStep_park {b : Bool} (h : Inv M s) (hg : Careful M s (.consumer c b))
    (hin : (s.consumer c).inCall = false)
    (hw : (s.consumer c).holds = false ∧ s.consumer c ≠ .lock ∧ s.consumer c ≠ .woken)
    (hs : consumerStep M s c b = some s') : Inv M s' := by
  have hl := h.locks
  unfold consumerStep at hs
  generalize hpc : s.consumer c = pc at hs
  cases pc with
  | again =>
    exact h.starts (hg.1 _ (by simp [State.storeAct, hpc])) (.inl rfl) hin rfl
      (by rw [hpc]; decide) (by simp [hpc]) hs
  | setBit k =>
    dsimp only at hs
    split at hs
    · rename_i hlt
      cases hs
      refine h.registers hpc rfl ⟨rfl, rfl, rfl, rfl, rfl⟩ ⟨rfl, rfl, rfl, rfl, rfl⟩
        ⟨by simp, by simp⟩ (by simp) ?_ h.counters.few ?_ (fun x hx => ?_) fun _ => ⟨?_, hlt⟩
      · simp [State.setConsumer, ConsPc.waits]
      · simp [State.setConsumer, ConsPc.listed]
      · exact Function.update_of_ne hx ..
      · exact Function.update_self ..
    · cases hs
  | add k =>
    cases hs
    refine h.registers hpc rfl ⟨rfl, rfl, rfl, rfl, rfl⟩ ⟨rfl, rfl, rfl, rfl, rfl⟩
      ⟨by simp, by simp⟩ (by simp) ?_ h.counters.few ?_ (fun _ _ => rfl)
      fun _ => h.counters.mask c (by rw [hpc]; rfl)
    · simp [State.setConsumer, ConsPc.waits]
    · simp [State.setConsumer, ConsPc.listed]
  | check k =>
    cases k with
    | hook =>
      exact h.starts (hg.1 _ (by simp [State.storeAct, hpc])) (.inl rfl) hin rfl
        (by rw [hpc]; decide) (by simp [hpc]) hs
    | stacked =>
      cases hs
      split
      · exact h.steps hpc rfl ⟨rfl, rfl, rfl, rfl, rfl, rfl, rfl⟩ (by decide) (.inl rfl) (by decide)
          (by simp) (hl.keep_right (by rw [hpc]; rfl))
      · rename_i hcount
        refine h.outside ⟨rfl, rfl⟩ rfl hin rfl (hl.keep_right (by rw [hpc]; rfl))
          (h.counters.plain rfl ⟨rfl, rfl, rfl, rfl⟩ (by rw [hpc]; rfl) (by rw [hpc]; rfl)
            (fun _ => by rw [hpc]; rfl) (by simp) (by simp [hpc]))
          (covered_keep h.covered (h.running.calls c hin) (by rw [hpc]; rfl) (by rw [hpc]; rfl))
          (fun _ _ => rfl) fun q _ _ => ?_
        -- the scheduler has just seen `count` at most zero
        obtain ⟨-, -, d, -, -, cd, -⟩ := h.covered.counts
        have := cd.nonneg
        push Not at hcount
        exact .inr (.inr ⟨d, cd, by omega⟩)
  | wait k =>
    dsimp only at hs
    split at hs
    · cases hs
      have hcounters : ∀ {pc : ConsPc}, pc.waits = false → pc.listed = true → pc ≠ .asleep →
          Counters M ({ s with notified := Function.update s.notified c false }.setConsumer c pc) := by
        intro pc h₁ h₂ h₃
        exact h.counters.plain rfl ⟨rfl, rfl, rfl, rfl⟩ (by rw [hpc, h₁]; rfl) (by rw [hpc, h₂]; rfl)
          (fun _ => by rw [hpc]; rfl) h₃ (by simp [hpc])
      split
      · exact h.goes ⟨rfl, rfl⟩ rfl hin rfl (hl.keep_right (by rw [hpc]; rfl))
          (hcounters rfl rfl (by simp)) (by rw [hpc]; rfl) (by rw [hpc]; rfl)
          (fun e he => Function.update_of_ne he ..) (by simp)
      · exact h.goes ⟨rfl, rfl⟩ rfl hin rfl (hl.keep_right (by rw [hpc]; rfl))
          (hcounters rfl rfl (by simp)) (by rw [hpc]; rfl) (by rw [hpc]; rfl)
          (fun e he => Function.update_of_ne he ..) (by simp)
    · cases hs
  | hookAgain =>
    exact h.starts (hg.1 _ (by simp [State.storeAct, hpc])) (.inl rfl) hin rfl
      (by rw [hpc]; decide) (by simp [hpc]) hs
  | clearBit =>
    cases hs
    refine h.registers hpc rfl ⟨rfl, rfl, rfl, rfl, rfl⟩ (by decide) (by decide) (by simp) ?_
      h.counters.few ?_ (fun x hx => ?_) fun hx => by cases hx
    · simp [State.setConsumer, ConsPc.waits]
    · simp [State.setConsumer, ConsPc.listed]
    · exact Function.update_of_ne hx ..
  | sub =>
    cases hs
    refine h.registers hpc rfl ⟨rfl, rfl, rfl, rfl, rfl⟩ (by decide) (by decide) (by simp) ?_
      h.counters.few ?_ (fun _ _ => rfl) fun hx => by cases hx
    · simp [State.setConsumer, ConsPc.waits]
    · simp [State.setConsumer, ConsPc.listed]
  | out => cases hs
  | asleep => cases hs
  | _ => simp [hpc, ConsPc.inCall, ConsPc.holds] at hin hw

theorem consumerStep_inv {b : Bool} (h : Inv M s) (hg : Careful M s (.consumer c b))
    (hs : consumerStep M s c b = some s') : Inv M s' := by
  by_cases hin : (s.consumer c).inCall = true
  · exact consumerStep_call h hg hin hs
  · by_cases hw : (s.consumer c).holds = true ∨ s.consumer c = .lock ∨ s.consumer c = .woken
    · exact consumerStep_wait h hg hw hs
    · push Not at hw
      exact consumerStep_park h hg (by simpa using hin) (by simpa using hw) hs

end

/-! ### Every run -/

section

variable {M : Store σ} {s s' : State σ} {a : Act}

theorem initial_inv (M : Store σ) : Inv M (initial M) := by
  have hv : M.view (initial M).store = View.empty := M.view_start
  refine ⟨M.ok_start, ⟨by simp [initial, ProdPc.holds], by simp [initial, ConsPc.holds]⟩, ?_, ?_, ?_, ?_⟩
  · refine ⟨by simp [initial], List.nodup_nil, .zero ?_, fun _ => by simp [initial], .zero ?_, ?_⟩
    · simp [initial, ConsPc.waits]
    · simp [initial, ConsPc.listed]
    · simp [initial, ConsPc.marked]
  · rw [hv]
    refine ⟨by simp [View.empty], by simp [View.empty], ?_, .zero ?_⟩
    · simp [initial, ConsPc.inPop]
    · simp [initial, ProdPc.counts]
  · rw [hv]
    refine ⟨by simp [View.Owes, View.empty], 0, 0, 0, .zero ?_, .zero ?_, .zero ?_, ?_, ?_⟩
    · simp [initial, ProdPc.tok]
    · simp [initial, Hand, View.Owes, View.empty, ConsPc.awake]
    · simp [View.Owes, View.empty]
    · simp [initial, ConsPc.sleeps]
    · simp [initial, ConsPc.sleeps]
  · rw [hv]
    simp [initial, Rechecked]

theorem step_inv (h : Inv M s) (hg : Careful M s a) (hs : step M s a = some s') : Inv M s' := by
  cases a with
  | push g t =>
    simp only [step, Option.ite_none_right_eq_some] at hs
    obtain ⟨hidle, hs⟩ := hs
    obtain ⟨st, hst, rfl⟩ := Option.map_eq_some_iff.mp hs
    exact h.enter (hg.1 _ rfl) hidle hst
  | producer g o => exact producerStep_inv h hg hs
  | pop c =>
    simp only [step, Option.ite_none_right_eq_some] at hs
    obtain ⟨hout, hs⟩ := hs
    exact h.starts (hg.1 _ rfl) (.inl rfl) (by rw [hout]; rfl) rfl (by rw [hout]; decide) (by simp [hout]) hs
  | remove c t =>
    simp only [step, Option.ite_none_right_eq_some] at hs
    obtain ⟨hout, hs⟩ := hs
    exact h.starts (hg.1 _ rfl) (.inr ⟨t, rfl, rfl⟩) (by rw [hout]; rfl) rfl (by rw [hout]; decide)
      (by simp [hout]) hs
  | popTimedwait c =>
    simp only [step, Option.ite_none_right_eq_some] at hs
    obtain ⟨hout, hs⟩ := hs
    exact h.starts (hg.1 _ rfl) (.inl rfl) (by rw [hout]; rfl) rfl (by rw [hout]; decide) (by simp [hout]) hs
  | park c k =>
    simp only [step, Option.ite_none_right_eq_some] at hs
    obtain ⟨hout, hs⟩ := hs
    cases hs
    exact h.steps hout rfl ⟨rfl, rfl, rfl, rfl, rfl, rfl, rfl⟩
      ⟨rfl, rfl, rfl, rfl, by simp [ConsPc.marked], rfl⟩
      (.inl rfl) ⟨by simp, by simp⟩ (by simp) (h.locks.keep_right (by rw [hout]; rfl))
  | consumer c b => exact consumerStep_inv h hg hs
  | wake c =>
    simp only [step, Option.ite_none_right_eq_some] at hs
    obtain ⟨hc, hs⟩ := hs
    cases hs
    exact h.wake hc

theorem reach_inv (h : Reach (system M) (Careful M) s) : Inv M s := by
  refine h.invariant (I := Inv M) (fun s hs => ?_) fun s a s' _ hi hg hs => step_inv hi hg hs
  cases hs
  exact initial_inv M

/-- No push, pop or remove is in flight, and no caller that was woken is still to pop. -/
structure Quiet (s : State σ) : Prop where
  producers : ∀ g, s.producer g = .idle
  consumers : ∀ c, (s.consumer c).inCall = false ∧ (s.consumer c).awake = false

/-- Consumer `c` is asleep in `pop_timedwait`, or parked in `CsdIdleWait` with no notification
pending. -/
def Asleep (s : State σ) (c : Nat) : Prop :=
  s.consumer c = .asleep ∨ (∃ k, s.consumer c = .wait k) ∧ s.notified c = false

theorem Inv.count_le {c : Nat} (h : Inv M s) (hq : Quiet s) (hc : Asleep s c) :
    (M.view s.store).count ≤ 0 := by
  have hidle : ∀ x, (M.view s.store).call x = .idle :=
    fun x => h.running.calls x (hq.consumers x).1
  have howes : ∀ x, ¬ (M.view s.store).Owes x := fun x => not_owes_of_idle (hidle x)
  have hlate : ¬ (M.view s.store).Late := by
    rintro (⟨t, ht⟩ | hpos)
    · obtain ⟨g, hg⟩ := h.running.pushes t (by simp [ht])
      simp [hq.producers g] at hg
    · have := h.running.linked.unique (.zero fun g => by simp [hq.producers g, ProdPc.counts])
      omega
  obtain hc | ⟨hc, hn⟩ := hc
  · refine h.covered.none_left (c := c) (by rw [hc]; rfl) hlate (fun g => ?_) fun x => ?_
    · simp [hq.producers g, ProdPc.tok]
    · simp [hand_of_idle (hidle x), (hq.consumers x).2]
  · obtain hx | ⟨g, hg⟩ | ⟨d, cd, hle⟩ := h.kept c (.inl hc) hn
    · exact absurd hx hlate
    · simp [hq.producers g, ProdPc.near] at hg
    · have := cd.unique (Counts.zero howes)
      omega

end

end Waiting
end AbtReconverse
