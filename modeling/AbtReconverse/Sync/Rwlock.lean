import Mathlib.Data.Finset.Card
import AbtReconverse.Sync.Refine

/-!
# AbtReconverse.Sync.Rwlock

The reader-writer lock of `sync.cpp`: a mutex, the condition variables `rd` and `wr`, the number of
readers and the writer flag. There is one unlock for both kinds of holders; it goes by the flag.

`rdHeld` and `wrHeld` are history, read by no call: the callers that hold the lock, one entry for
every hold. `Inv` says that `readers` and `writer` count them, and what the queues may hold: readers
only while there is a writer, writers only while somebody holds the lock or a signalled writer has
not looked yet. The `int` counter is an integer here.
-/

namespace AbtReconverse
namespace Rwlock

open Lts

structure Data where
  /-- An `int`; its overflow, with 2^31 holds at a time, is not modelled. -/
  readers : Int
  writer : Bool
  rdHeld : List Nat
  wrHeld : List Nat
  deriving DecidableEq, Repr

inductive Call where
  | rdlock
  | wrlock
  | unlock
  deriving DecidableEq, Repr

/-- The condition variables. -/
def rd : Nat := 0

def wr : Nat := 1

/-- `--readers`. -/
def Data.readerLeaves (d : Data) (t : Nat) : Data :=
  { d with readers := d.readers - 1, rdHeld := d.rdHeld.erase t }

/-- `ABT_rwlock_rdlock`, `ABT_rwlock_wrlock` and `ABT_rwlock_unlock` between lock and unlock of the
mutex. -/
def body (t : Nat) : Call → Data → Data × Monitor.Next Call Nat Unit
  | .rdlock, d =>
    if d.writer then (d, .wait rd .rdlock)
    else ({ d with readers := d.readers + 1, rdHeld := t :: d.rdHeld }, .done [] ())
  | .wrlock, d =>
    if d.writer ∨ d.readers ≠ 0 then (d, .wait wr .wrlock)
    else ({ d with writer := true, wrHeld := t :: d.wrHeld }, .done [] ())
  | .unlock, d =>
    if d.writer then
      ({ d with writer := false, wrHeld := d.wrHeld.erase t }, .done [.all rd, .one wr] ())
    else (d.readerLeaves t, .done (if (d.readerLeaves t).readers = 0 then [.one wr] else []) ())

/-- `ABT_rwlock_create`. -/
def create : Data := ⟨0, false, [], []⟩

/-- Unlock is called by a holder. -/
def HolderUnlocks (d : Data) (t : Nat) (l : Call) : Prop :=
  l = .unlock → t ∈ d.rdHeld ∨ t ∈ d.wrHeld

instance (d : Data) (t : Nat) (l : Call) : Decidable (HolderUnlocks d t l) :=
  inferInstanceAs (Decidable (_ → _))

abbrev Mon := Monitor.State Data Call Nat Unit

section

variable {d v : Data} {t u c : Nat} {l l' : Call} {ws : List (Monitor.Wake Nat)} {r : Unit}

theorem body_wait (hb : body t l d = (v, .wait c l')) :
    v = d ∧ l' = l ∧ ((l = .rdlock ∧ c = rd ∧ d.writer = true) ∨
      (l = .wrlock ∧ c = wr ∧ (d.writer = true ∨ d.readers ≠ 0))) := by
  cases l <;> simp only [body] at hb
  case rdlock =>
    split at hb <;> cases hb
    rename_i hw
    exact ⟨rfl, rfl, .inl ⟨rfl, rfl, hw⟩⟩
  case wrlock =>
    split at hb <;> cases hb
    rename_i hw
    exact ⟨rfl, rfl, .inr ⟨rfl, rfl, hw⟩⟩
  case unlock => split at hb <;> cases hb

theorem body_done (hb : body t l d = (v, .done ws r)) :
    (l = .rdlock ∧ d.writer = false ∧ ws = [] ∧
      v = { d with readers := d.readers + 1, rdHeld := t :: d.rdHeld }) ∨
    (l = .wrlock ∧ d.writer = false ∧ d.readers = 0 ∧ ws = [] ∧
      v = { d with writer := true, wrHeld := t :: d.wrHeld }) ∨
    (l = .unlock ∧ d.writer = true ∧ ws = [.all rd, .one wr] ∧
      v = { d with writer := false, wrHeld := d.wrHeld.erase t }) ∨
    (l = .unlock ∧ d.writer = false ∧ ws = (if v.readers = 0 then [.one wr] else []) ∧
      v = d.readerLeaves t) := by
  cases l <;> simp only [body] at hb
  case rdlock =>
    split at hb <;> cases hb
    rename_i hw
    exact .inl ⟨rfl, by simpa using hw, rfl, rfl⟩
  case wrlock =>
    split at hb <;> cases hb
    rename_i hw
    simp only [not_or, Bool.not_eq_true, ne_eq, not_not] at hw
    exact .inr (.inl ⟨rfl, hw.1, hw.2, rfl, rfl⟩)
  case unlock =>
    split at hb <;> cases hb
    · rename_i hw
      exact .inr (.inr (.inl ⟨rfl, hw, rfl, rfl⟩))
    · rename_i hw
      exact .inr (.inr (.inr ⟨rfl, by simpa using hw, rfl, rfl⟩))

/-- The fields count the holders, and a writer is alone. -/
structure Counted (d : Data) : Prop where
  readers : d.readers = d.rdHeld.length
  writer : d.wrHeld.length = if d.writer then 1 else 0
  alone : d.writer = true → d.rdHeld = []

theorem Counted.writer_of_mem (h : Counted d) (ht : t ∈ d.wrHeld) : d.writer = true := by
  have hpos := List.length_pos_of_mem ht
  have := h.writer
  cases hw : d.writer with
  | true => rfl
  | false => rw [hw] at this; simp at this; rw [this] at ht; cases ht

theorem Counted.not_writer_of_mem (h : Counted d) (ht : t ∈ d.rdHeld) : d.writer = false := by
  cases hw : d.writer with
  | false => rfl
  | true => rw [h.alone hw] at ht; cases ht

/-- An unlock by a holder goes by the caller's own kind of hold. -/
theorem Counted.own_kind (h : Counted d) (ht : t ∈ d.rdHeld ∨ t ∈ d.wrHeld) :
    (d.writer = true ∧ t ∈ d.wrHeld ∧ t ∉ d.rdHeld) ∨
    (d.writer = false ∧ t ∈ d.rdHeld ∧ t ∉ d.wrHeld) := by
  obtain ht | ht := ht
  · have hw := h.not_writer_of_mem ht
    refine .inr ⟨hw, ht, fun hm => ?_⟩
    rw [h.writer_of_mem hm] at hw; cases hw
  · have hw := h.writer_of_mem ht
    refine .inl ⟨hw, ht, fun hm => ?_⟩
    rw [h.not_writer_of_mem hm] at hw; cases hw

theorem Counted.done (h : Counted d) (hown : HolderUnlocks d t l)
    (hb : body t l d = (v, .done ws r)) : Counted v := by
  obtain ⟨rfl, hw, _, rfl⟩ | ⟨rfl, hw, hz, _, rfl⟩ | ⟨rfl, hw, _, rfl⟩ | ⟨rfl, hw, _, rfl⟩ :=
    body_done hb
  · refine ⟨?_, h.writer, fun hw' => ?_⟩
    · simp [h.readers]
    · rw [hw] at hw'; cases hw'
  · refine ⟨h.readers, ?_, fun _ => ?_⟩
    · simp [h.writer, hw]
    · have hlen : d.rdHeld.length = 0 := by
        have := h.readers
        rw [hz] at this
        omega
      exact List.length_eq_zero_iff.mp hlen
  · -- the caller is the writer
    obtain ⟨_, ht, _⟩ | ⟨hw', _⟩ := h.own_kind (hown rfl)
    · refine ⟨h.readers, ?_, fun hw' => (by cases hw')⟩
      simp [List.length_erase_of_mem ht, h.writer, hw]
    · rw [hw] at hw'; cases hw'
  · -- the caller is a reader
    obtain ⟨hw', _⟩ | ⟨_, ht, _⟩ := h.own_kind (hown rfl)
    · rw [hw] at hw'; cases hw'
    · refine ⟨?_, h.writer, fun hw' => ?_⟩
      · have hpos := List.length_pos_of_mem ht
        have := h.readers
        simp only [Data.readerLeaves, List.length_erase_of_mem ht]
        omega
      · have hw' : d.writer = true := hw'
        rw [hw] at hw'; cases hw'

/-- A section ends no hold of another caller. -/
theorem held_other (hb : body t l d = (v, .done ws r)) (hut : u ≠ t)
    (hu : u ∈ d.rdHeld ∨ u ∈ d.wrHeld) : u ∈ v.rdHeld ∨ u ∈ v.wrHeld := by
  obtain ⟨rfl, _, _, rfl⟩ | ⟨rfl, _, _, _, rfl⟩ | ⟨rfl, _, _, rfl⟩ | ⟨rfl, _, _, rfl⟩ := body_done hb
  · exact hu.imp (List.mem_cons_of_mem t) id
  · exact hu.imp id (List.mem_cons_of_mem t)
  · exact hu.imp id (List.mem_erase_of_ne hut).mpr
  · exact hu.imp (List.mem_erase_of_ne hut).mpr id

/-! ## The invariant of the monitor -/

variable {m m' : Mon} {a : Monitor.Act Call}

/-- Who waits, or comes back from a wait, is a reader on `rd` or a writer on `wr`. -/
def Waits : Monitor.Pos Call Nat Unit → Prop
  | .waiting c l | .ready (some c) l => (c = rd ∧ l = .rdlock) ∨ (c = wr ∧ l = .wrlock)
  | _ => True

/-- The caller is before the section of an unlock. -/
def Unlocks : Monitor.Pos Call Nat Unit → Prop
  | .ready _ l => l = .unlock
  | _ => False

structure Inv (m : Mon) : Prop where
  wf : Monitor.Wf m
  counted : Counted m.data
  waits : ∀ t, Waits (m.pos t)
  holds : ∀ t, Unlocks (m.pos t) → t ∈ m.data.rdHeld ∨ t ∈ m.data.wrHeld
  readers : m.queue rd ≠ [] → m.data.writer = true
  writers : m.queue wr ≠ [] → m.data.writer = true ∨ 0 < m.data.readers ∨
    ∃ t, m.pos t = .ready (some wr) .wrlock

theorem waits_settle {q : Nat → List Nat} {p : Monitor.Pos Call Nat Unit} (h : Waits p) :
    Waits (Monitor.settle q t p) := by
  cases p with
  | waiting c l =>
    simp only [Monitor.settle]
    split <;> exact h
  | _ => exact h

theorem unlocks_settle {q : Nat → List Nat} {p : Monitor.Pos Call Nat Unit} (hp : Waits p)
    (h : Unlocks (Monitor.settle q t p)) : Unlocks p := by
  cases p with
  | waiting c l =>
    simp only [Monitor.settle] at h
    split at h
    · exact h
    · obtain rfl : l = .unlock := h
      obtain ⟨_, hl⟩ | ⟨_, hl⟩ := hp <;> cases hl
  | _ => exact h

/-- A signal to `wr` leaves a writer that is ready, if writers are left on the list. -/
theorem signalled_writer (h : Inv m) {q : Nat → List Nat} (hq : q wr = (m.queue wr).tail)
    (hne : q wr ≠ []) : ∃ t k, m.pos t = .waiting wr k ∧
      Monitor.settle q t (m.pos t) = .ready (some wr) .wrlock := by
  cases hm : m.queue wr with
  | nil => rw [hq, hm] at hne; exact absurd rfl hne
  | cons t l =>
    have hnd := h.wf.nodup wr
    rw [hm] at hnd
    have ht : t ∈ m.queue wr := by rw [hm]; exact List.mem_cons_self
    obtain ⟨k, hk⟩ := (h.wf.queued wr t).mp ht
    have hwait := h.waits t
    rw [hk] at hwait
    have hkw : k = .wrlock := by
      obtain ⟨hc, _⟩ | ⟨_, hl⟩ := hwait
      · cases hc
      · exact hl
    have hnot : t ∉ q wr := by
      rw [hq, hm]
      exact (List.nodup_cons.mp hnd).1
    refine ⟨t, k, hk, ?_⟩
    rw [hk, hkw]
    simp [Monitor.settle, hnot]

theorem Inv.initial : Inv ⟨create, fun _ => [], fun _ => .out, fun _ => none⟩ :=
  ⟨⟨by simp, fun _ => List.nodup_nil⟩, ⟨rfl, rfl, fun h => (by cases h)⟩, fun _ => trivial,
    fun _ h => absurd h id, fun h => absurd rfl h, fun h => absurd rfl h⟩

/-- A caller comes or goes. -/
theorem Inv.move (h : Inv m) {p : Monitor.Pos Call Nat Unit} {f : Nat → Option Unit}
    (hwf : Monitor.Wf { m with pos := Function.update m.pos t p, result := f })
    (hout : ∀ o l, m.pos t ≠ .ready (some o) l) (hp : Waits p)
    (hheld : Unlocks p → t ∈ m.data.rdHeld ∨ t ∈ m.data.wrHeld) :
    Inv { m with pos := Function.update m.pos t p, result := f } := by
  refine ⟨hwf, h.counted, fun u => ?_, fun u hu => ?_, h.readers, fun hq => ?_⟩
  · by_cases hut : u = t
    · subst hut; simpa using hp
    · simpa [hut] using h.waits u
  · by_cases hut : u = t
    · subst hut; exact hheld (by simpa using hu)
    · exact h.holds u (by simpa [hut] using hu)
  · refine (h.writers hq).imp id (Or.imp id ?_)
    rintro ⟨u, hu⟩
    have hut : u ≠ t := by rintro rfl; exact hout _ _ hu
    exact ⟨u, by simpa [hut] using hu⟩

/-- The section ends in a wait: there is a writer, or a writer waits and there are readers. -/
theorem Inv.wait (h : Inv m) {q : Nat → List Nat} (hb : body t l m.data = (v, .wait c l'))
    (hwf : Monitor.Wf ⟨v, q, Function.update m.pos t (.waiting c l'), m.result⟩)
    (hq : q = Function.update m.queue c (m.queue c ++ [t])) :
    Inv ⟨v, q, Function.update m.pos t (.waiting c l'), m.result⟩ := by
  obtain ⟨rfl, rfl, hcase⟩ := body_wait hb
  have hwaits : Waits (.waiting c l') := hcase.imp (fun h => ⟨h.2.1, h.1⟩) fun h => ⟨h.2.1, h.1⟩
  refine ⟨hwf, h.counted, fun u => ?_, fun u hu => ?_, fun hne => ?_, fun _ => ?_⟩
  · by_cases hut : u = t
    · subst hut; simpa using hwaits
    · simpa [hut] using h.waits u
  · by_cases hut : u = t
    · subst hut
      simp only [Function.update_self] at hu
      exact absurd hu id
    · exact h.holds u (by simpa [hut] using hu)
  · obtain ⟨_, rfl, hw⟩ | ⟨_, rfl, _⟩ := hcase
    · exact hw
    · refine h.readers ?_
      simpa [hq, rd, wr] using hne
  · obtain ⟨_, _, hw⟩ | ⟨_, _, hw | hn⟩ := hcase
    · exact .inl hw
    · exact .inl hw
    · have := h.counted.readers
      exact .inr (.inl (by show 0 < m.data.readers; omega))

/-- The section ends the call. -/
theorem Inv.done (h : Inv m) {o : Option Nat} (hp : m.pos t = .ready o l)
    (hb : body t l m.data = (v, .done ws r)) {q : Nat → List Nat} (hq : q = Monitor.wakeAll m.queue ws)
    (hwf : Monitor.Wf ⟨v, q, Function.update (fun u => Monitor.settle q u (m.pos u)) t (.finished r),
      m.result⟩) :
    Inv ⟨v, q, Function.update (fun u => Monitor.settle q u (m.pos u)) t (.finished r), m.result⟩ := by
  have hown : HolderUnlocks m.data t l := by
    rintro rfl
    exact h.holds t (by rw [hp]; exact rfl)
  have hcounted := h.counted.done hown hb
  refine ⟨hwf, hcounted, fun u => ?_, fun u hu => ?_, fun hne => ?_, fun hne => ?_⟩
  · by_cases hut : u = t
    · subst hut; simp only [Function.update_self]; exact trivial
    · simp only [Function.update_of_ne hut]; exact waits_settle (h.waits u)
  · by_cases hut : u = t
    · subst hut; simp only [Function.update_self] at hu; exact absurd hu id
    · simp only [Function.update_of_ne hut] at hu
      exact held_other hb hut (h.holds u (unlocks_settle (h.waits u) hu))
  · -- who waits to read waits for a writer, and a writer that leaves wakes them all
    have hsub := (Monitor.wakeAll_sublist m.queue ws rd).subset
    have hne : q rd ≠ [] := hne
    have hold : m.queue rd ≠ [] := by
      intro hnil
      rw [hq] at hne
      exact hne (List.subset_nil.mp (hnil ▸ hsub))
    have hw := h.readers hold
    obtain ⟨_, hw', _⟩ | ⟨_, hw', _⟩ | ⟨_, _, rfl, _⟩ | ⟨_, hw', _⟩ := body_done hb
    · rw [hw] at hw'; cases hw'
    · rw [hw] at hw'; cases hw'
    · rw [hq] at hne
      simp [Monitor.wakeAll, Monitor.Wake.apply, rd, wr] at hne
    · rw [hw] at hw'; cases hw'
  · have hne : q wr ≠ [] := hne
    -- a signal was sent to `wr`
    have hsig : q wr = (m.queue wr).tail → ∃ u,
        Function.update (fun u => Monitor.settle q u (m.pos u)) t (.finished r) u =
          .ready (some wr) .wrlock := by
      intro hq'
      obtain ⟨u, k, hu, hs⟩ := signalled_writer h hq' hne
      have hut : u ≠ t := by rintro rfl; rw [hp] at hu; cases hu
      exact ⟨u, by simpa [hut] using hs⟩
    obtain ⟨_, _, _, rfl⟩ | ⟨_, _, _, _, rfl⟩ | ⟨_, _, rfl, _⟩ | ⟨_, _, rfl, hv⟩ := body_done hb
    · have := hcounted.readers
      exact .inr (.inl (by simp only [List.length_cons] at this; show 0 < m.data.readers + 1; omega))
    · exact .inl rfl
    · exact .inr (.inr (hsig (by rw [hq]; simp [Monitor.wakeAll, Monitor.Wake.apply, rd, wr])))
    · have := hcounted.readers
      by_cases hz : v.readers = 0
      · exact .inr (.inr (hsig (by rw [hq, if_pos hz]; simp [Monitor.wakeAll, Monitor.Wake.apply])))
      · exact .inr (.inl (by show 0 < v.readers; omega))

theorem Inv.step (h : Inv m) (hg : Monitor.Calls HolderUnlocks m a)
    (hst : Monitor.step body m a = some m') : Inv m' := by
  have hwf := h.wf.step hst
  obtain ⟨t, l, rfl, hp, rfl⟩ | ⟨t, o, l, v, c, l', _, hp, hb, rfl⟩ |
    ⟨t, o, l, v, ws, r, _, hp, hb, rfl⟩ | ⟨t, r, _, hp, rfl⟩ := Monitor.step_cases hst
  · exact h.move hwf (by rw [hp]; intro _ _ he; cases he) trivial hg
  · exact h.wait hb hwf rfl
  · exact h.done hp hb rfl hwf
  · exact h.move hwf (by rw [hp]; intro _ _ he; cases he) trivial fun hu => absurd hu id

theorem reach_inv (hr : Reach (Monitor.system body create) (Monitor.Calls HolderUnlocks) m) :
    Inv m := by
  refine hr.invariant ?_ ?_
  · rintro _ rfl; exact .initial
  · intro m a m' _ h hg hst; exact h.step hg hst

end

/-! ## The lock -/

section

variable {ult : Nat → Bool} {s : Guarded.State Data Call Unit}

/-- Caller 0 has the lock for reading and is about to give it back, caller 1 waits to write. -/
def readThenUnlock : List (Guarded.Act Call) :=
  [.call 0 .rdlock, .go 0, .run 0, .run 0, .go 0, .run 0,
    .call 1 .wrlock, .go 1, .run 1, .go 1, .go 1, .go 1, .callback (.cond wr), .call 0 .unlock]

/-- No stranded waiter: while the mutex is free, a reader on the list of `rd` waits for a writer,
and a writer on the list of `wr` waits for a holder or for a writer that was signalled and has not
looked yet. -/
theorem rwlock_not_stranded
    (hr : Reach (Guarded.system ult body create) (Guarded.Calls HolderUnlocks) s)
    (hfree : (s.sync.mutex 0).locked = false) :
    (∀ t, Sync.OnList s.sync rd t → s.data.writer = true) ∧
    ((∃ t, Sync.OnList s.sync wr t) → s.data.writer = true ∨ 0 < s.data.readers ∨
      ∃ t, Guarded.Signalled s wr t .wrlock) := by
  obtain ⟨m, hm, q, ch, hsim⟩ := Guarded.reach_sim hr
  have hinv := reach_inv hm
  have hne : ∀ c t, Sync.OnList s.sync c t → m.queue c ≠ [] := fun c t ht =>
    List.ne_nil_of_mem ((hsim.onList_iff hfree c t).mp ht)
  rw [← hsim.data]
  refine ⟨fun t ht => hinv.readers (hne rd t ht), ?_⟩
  rintro ⟨t, ht⟩
  refine (hinv.writers (hne wr t ht)).imp id (Or.imp id ?_)
  rintro ⟨u, hu⟩
  exact ⟨u, hsim.signalled hfree hu⟩

/-- Callers 1 and 2 wait to write, caller 0 has given the lock back: caller 1 is signalled and
caller 2 is still on the list. -/
def twoWriters : List (Guarded.Act Call) :=
  readThenUnlock.dropLast ++
  [.call 2 .wrlock, .go 2, .run 2, .go 2, .go 2, .go 2, .callback (.cond wr),
    .call 0 .unlock, .go 0, .run 0, .run 0, .go 0, .go 0, .go 0, .go 0, .run 0, .go 0, .run 0]

theorem rwlock_not_stranded_two : ∃ s : Guarded.State Data Call Unit,
    Reach (Guarded.system (fun _ => true) body create) (Guarded.Calls HolderUnlocks) s ∧
    ((s.sync.mutex 0).locked = false ∧ Sync.OnList s.sync wr 2 ∧ s.data.writer = false ∧
      s.data.readers = 0) ∧
    ∃ t, Guarded.Signalled s wr t .wrlock := by
  obtain ⟨s, hr, hs⟩ := (Reach.start rfl : Reach (Guarded.system (fun _ => true) body create)
    (Guarded.Calls HolderUnlocks) _).exists_run
    (fun s => (s.sync.mutex 0).locked = false ∧ Sync.OnList s.sync wr 2 ∧ s.data.writer = false ∧
      s.data.readers = 0) twoWriters (by decide)
  refine ⟨s, hr, hs, ?_⟩
  obtain ⟨hfree, hon, hw, hz⟩ := hs
  obtain h | h | h := (rwlock_not_stranded hr hfree).2 ⟨2, hon⟩
  · rw [hw] at h; cases h
  · rw [hz] at h; cases h
  · exact h

/-- The second writer is in the queue of the monitor, although nobody holds the lock. -/
theorem guarded_refines_waiting : ∃ m, Reach (Monitor.system body create)
    (Monitor.Calls HolderUnlocks) m ∧ m.data = create ∧ 2 ∈ m.queue wr := by
  obtain ⟨s, hr, hfree, hon, hd⟩ := (Reach.start rfl : Reach (Guarded.system (fun _ => true) body
    create) (Guarded.Calls HolderUnlocks) _).exists_run
    (fun s => (s.sync.mutex 0).locked = false ∧ Sync.OnList s.sync wr 2 ∧ s.data = create)
    twoWriters (by decide)
  obtain ⟨m, hm, hdata, -, hq⟩ := Guarded.guarded_refines hr
  exact ⟨m, hm, hdata.trans hd, (hq hfree wr 2).mp hon⟩

end

end Rwlock
end AbtReconverse
