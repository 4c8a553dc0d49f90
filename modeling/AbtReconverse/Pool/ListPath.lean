import AbtReconverse.Lib.Owner
import AbtReconverse.Pool.Stored
import AbtReconverse.Pool.Waiting

/-!
# AbtReconverse.Pool.ListPath

The list path of a built-in pool (access SPMC, MPMC) under interleaving: `ABTI_pool::push`,
`pop_list` and `remove_unit`, for any number of producers and consumers. The memory and what the
code does to it are those of `Pool.Memory`, for pool 0; here the accesses to `in_pool`, the
sections under `lk` and the changes of `count` are steps of their own.

`in_pool` is set before the push has the lock. A `remove_unit` that comes between the two takes the
unit for a linked one, and `list_unlink` of a unit with no neighbours makes the list empty. While
no removal meets a push in this window (`Allowed`) the list is well formed
and `count` lags behind its length by the operations in flight (`Inv`), so that the path is a store
of `Pool.Waiting`.
-/

namespace AbtReconverse
namespace ListPath

open Lts
open Waiting (StoreAct PushPhase CallPhase View Moves Store)

/-- Where the push of a unit is, after its exchange of `in_pool` and up to `lk.unlock`. -/
inductive PushPc where
  | idle
  | lock
  | link
  | unlock
  deriving DecidableEq, Repr

/-- Where a consumer is: in `pop_list` or in `remove_unit`. -/
inductive ConsPc where
  | idle
  | popLock
  | popTake
  | popFlag (t : Nat)
  | popUnlock (t : Option Nat)
  | popCount (t : Nat)
  | remLock (t : Nat)
  | remTest (t : Nat)
  | remUnlink (t : Nat)
  | remFlag (t : Nat)
  | remUnlock (hit : Bool)
  | remCount
  deriving DecidableEq, Repr

/-- What a consumer's last call returned. -/
inductive Result where
  | popped (t : Option Nat)
  | removed (hit : Bool)
  deriving DecidableEq, Repr

structure State where
  mem : Storage.State
  /-- Who has `lk`: the push of a unit, or a consumer. -/
  lk : Option (Nat ⊕ Nat)
  push : Nat → PushPc
  /-- The pushes between `lk.unlock` and `count.fetch_add`. -/
  linked : Nat
  cons : Nat → ConsPc
  result : Nat → Option Result
  /-- `CmiAbort` in `push`: the unit is already queued. -/
  aborted : Bool

/-- `pool`: the pool that a unit is associated with. -/
def initial (pool : Nat → Option Nat) : State where
  mem := { Storage.initial with pool := pool }
  lk := none
  push := fun _ => .idle
  linked := 0
  cons := fun _ => .idle
  result := fun _ => none
  aborted := false

namespace State

def setPush (s : State) (t : Nat) (pc : PushPc) : State :=
  { s with push := Function.update s.push t pc }

def setCons (s : State) (c : Nat) (pc : ConsPc) : State :=
  { s with cons := Function.update s.cons c pc }

/-- A consumer's call returns. -/
def back (s : State) (c : Nat) (r : Result) : State :=
  { s with
    cons := Function.update s.cons c .idle
    result := Function.update s.result c (some r) }

/-- The first unit that is not pinned elsewhere. -/
def first (pinned : Nat → Bool) (s : State) : Option Nat :=
  match s.mem.lhead 0 with
  | some t => if pinned t then s.mem.lnext t else some t
  | none => none

end State

/-- The exchange of `in_pool`. -/
def enter (s : State) (t : Nat) : State :=
  if s.mem.inPool t then { s with aborted := true }
  else { s with mem := s.mem.setInPool t true }.setPush t .lock

def pushStep (s : State) (t : Nat) : Option State :=
  match s.push t with
  | .idle => none
  | .lock => if s.lk = none then some ({ s with lk := some (.inl t) }.setPush t .link) else none
  | .link => some ({ s with mem := s.mem.pushList 0 t }.setPush t .unlock)
  | .unlock => some ({ s with lk := none, linked := s.linked + 1 }.setPush t .idle)

def countStep (s : State) : Option State :=
  if 0 < s.linked then some { s with mem := s.mem.addCount 0 1, linked := s.linked - 1 } else none

def consStep (pinned : Nat → Nat → Bool) (s : State) (c : Nat) : Option State :=
  match s.cons c with
  | .idle => none
  | .popLock =>
    if s.lk = none then some ({ s with lk := some (.inr c) }.setCons c .popTake) else none
  | .popTake =>
    match s.first (pinned c) with
    | some t => some ({ s with mem := s.mem.listUnlink 0 t }.setCons c (.popFlag t))
    | none => some (s.setCons c (.popUnlock none))
  | .popFlag t => some ({ s with mem := s.mem.setInPool t false }.setCons c (.popUnlock (some t)))
  | .popUnlock none => some ({ s with lk := none }.back c (.popped none))
  | .popUnlock (some t) => some ({ s with lk := none }.setCons c (.popCount t))
  | .popCount t => some ({ s with mem := s.mem.addCount 0 (-1) }.back c (.popped (some t)))
  | .remLock t =>
    if s.lk = none then some ({ s with lk := some (.inr c) }.setCons c (.remTest t)) else none
  | .remTest t =>
    some (s.setCons c
      (if s.mem.inPool t ∧ s.mem.pool t = some 0 then .remUnlink t else .remUnlock false))
  | .remUnlink t => some ({ s with mem := s.mem.listUnlink 0 t }.setCons c (.remFlag t))
  | .remFlag t => some ({ s with mem := s.mem.setInPool t false }.setCons c (.remUnlock true))
  | .remUnlock false => some ({ s with lk := none }.back c (.removed false))
  | .remUnlock true => some ({ s with lk := none }.setCons c .remCount)
  | .remCount => some ({ s with mem := s.mem.addCount 0 (-1) }.back c (.removed true))

/-- After `CmiAbort` nothing runs. `pinned c`: the units that the PE of consumer `c` may not
resume. -/
def step (pinned : Nat → Nat → Bool) (s : State) (a : StoreAct) : Option State :=
  if s.aborted then none
  else match a with
    | .enter t => some (enter s t)
    | .push t => pushStep s t
    | .count => countStep s
    | .pop c => if s.cons c = .idle then some (s.setCons c .popLock) else none
    | .remove c t => if s.cons c = .idle then some (s.setCons c (.remLock t)) else none
    | .call c => consStep pinned s c

/-- No removal looks at the `in_pool` of a unit whose push has set it and has not linked the unit. -/
def Allowed (s : State) : StoreAct → Prop
  | .call c =>
    match s.cons c with
    | .remTest t => s.push t ≠ .lock ∧ s.push t ≠ .link
    | _ => True
  | _ => True

/-- The list after a step, if it was `l` before. -/
def State.after (pinned : Nat → Nat → Bool) (s : State) (l : List Nat) : StoreAct → List Nat
  | .push t => if s.push t = .link then l ++ [t] else l
  | .call c =>
    match s.cons c with
    | .popTake =>
      match s.first (pinned c) with
      | some t => l.erase t
      | none => l
    | .remUnlink t => l.erase t
    | _ => l
  | _ => l

/-! ### Phases -/

def PushPc.phase : PushPc → PushPhase
  | .idle => .idle
  | .lock | .link => .early
  | .unlock => .late

def ConsPc.phase : ConsPc → CallPhase
  | .idle => .idle
  | .popLock | .popTake => .popping
  | .popUnlock none => .gone
  | .popFlag _ | .popUnlock (some _) | .popCount _ => .owes
  | .remLock _ | .remTest _ | .remUnlink _ | .remUnlock false => .removing
  | .remFlag _ | .remUnlock true | .remCount => .owes

def view (s : State) : View where
  push := fun t => (s.push t).phase
  call := fun c => (s.cons c).phase
  linked := s.linked
  count := s.mem.count 0

def PushPc.holds : PushPc → Bool
  | .link | .unlock => true
  | _ => false

def PushPc.early (pc : PushPc) : Bool := pc.phase = .early

def PushPc.late (pc : PushPc) : Bool := pc.phase = .late

def ConsPc.holds : ConsPc → Bool
  | .popTake | .popFlag _ | .popUnlock _ | .remTest _ | .remUnlink _ | .remFlag _
  | .remUnlock _ => true
  | _ => false

def ConsPc.owes (pc : ConsPc) : Bool := pc.phase = .owes

/-- The unit that is unlinked and has `in_pool` still set. -/
def ConsPc.flag : ConsPc → Option Nat
  | .popFlag t | .remFlag t => some t
  | _ => none

theorem ConsPc.holds_of_flag {pc : ConsPc} {t : Nat} (h : pc.flag = some t) : pc.holds = true := by
  cases pc <;> simp [ConsPc.flag, ConsPc.holds] at h ⊢

theorem ConsPc.owes_of_flag {pc : ConsPc} {t : Nat} (h : pc.flag = some t) : pc.owes = true := by
  cases pc <;> simp [ConsPc.flag, ConsPc.owes, ConsPc.phase] at h ⊢

/-! ### The invariant -/

/-- `count` lags behind the list. -/
def Counted (s : State) (l : List Nat) : Prop :=
  ∃ a e : Int, Counts a (fun t => (s.push t).late = true) ∧
    Counts e (fun c => (s.cons c).owes = true) ∧ s.mem.count 0 = l.length - a - s.linked + e

structure Inv (s : State) (l : List Nat) : Prop where
  list : Doubly s.mem.lprev s.mem.lnext (s.mem.lhead 0) (s.mem.ltail 0) l
  stored : ∀ t ∈ l, s.mem.inPool t = true
  pushing : ∀ t, s.push t ≠ .idle → s.mem.inPool t = true
  early : ∀ t, (s.push t).early = true → t ∉ l
  located : ∀ t, s.mem.inPool t = true → t ∈ l ∨ (s.push t).early = true ∨
    ∃ c, (s.cons c).flag = some t
  flag : ∀ c t, (s.cons c).flag = some t → s.mem.inPool t = true ∧ t ∉ l ∧ s.push t = .idle
  unlink : ∀ c t, s.cons c = .remUnlink t → t ∈ l
  lock : Owned PushPc.holds ConsPc.holds s.push s.cons s.lk
  count : Counted s l

namespace Inv

variable {s s' : State} {l : List Nat} {c t : Nat} {pc : ConsPc}

theorem start (pool : Nat → Option Nat) : Inv (initial pool) [] where
  list := .nil
  stored := by simp
  pushing := by simp [initial]
  early := by simp
  located := by simp [initial, Storage.initial]
  flag := by simp [initial, ConsPc.flag]
  unlink := by simp [initial]
  lock := ⟨by simp [initial, PushPc.holds], by simp [initial, ConsPc.holds]⟩
  count := by
    refine ⟨0, 0, .zero ?_, .zero ?_, ?_⟩
    · simp [initial, PushPc.late, PushPc.phase]
    · simp [initial, ConsPc.owes, ConsPc.phase]
    · simp [initial, Storage.initial]

/-- A unit whose `in_pool` is not set is not being pushed. -/
theorem push_idle (h : Inv s l) (hin : s.mem.inPool t = false) : s.push t = .idle := by
  by_contra hne
  rw [h.pushing t hne] at hin
  cases hin

/-- While one consumer has the lock no other has unlinked a unit. -/
theorem no_flag (h : Inv s l) (hc : (s.cons c).holds = true) {d : Nat} (hd : d ≠ c) :
    (s.cons d).flag = none := by
  cases hf : (s.cons d).flag with
  | none => rfl
  | some t => exact absurd (h.lock.unique hc (ConsPc.holds_of_flag hf)) hd

/-! #### Pushes -/

theorem enter (h : Inv s l) (hin : s.mem.inPool t = false) :
    Inv ({ s with mem := s.mem.setInPool t true }.setPush t .lock) l := by
  have hidle := h.push_idle hin
  have hnot : t ∉ l := by
    intro hm
    rw [h.stored t hm] at hin
    cases hin
  have hset : ∀ u, s.mem.inPool u = true → Function.update s.mem.inPool t true u = true := by
    intro u hu
    by_cases hut : u = t
    · subst hut; simp
    · simpa [hut] using hu
  obtain ⟨a, e, ca, ce, hn⟩ := h.count
  refine ⟨h.list, fun u hu => hset u (h.stored u hu), fun u hu => ?_, fun u hu => ?_, fun u hu => ?_,
    fun d u hu => ?_, h.unlink, h.lock.keep_left (by rw [hidle]; rfl), a, e, ?_, ce, hn⟩
  · by_cases hut : u = t
    · subst hut; exact Function.update_self ..
    · exact hset u (h.pushing u (by simpa [State.setPush, hut] using hu))
  · obtain ⟨rfl, -⟩ | ⟨-, hu⟩ := (flag_update (f := PushPc.early) u).mp hu
    · exact hnot
    · exact h.early u hu
  · by_cases hut : u = t
    · subst hut
      exact .inr (.inl (by simp [State.setPush, PushPc.early, PushPc.phase]))
    · have hpush : Function.update s.push t .lock u = s.push u := Function.update_of_ne hut ..
      have hu : s.mem.inPool u = true := (Function.update_of_ne hut ..).symm.trans hu
      exact (h.located u hu).imp_right fun hx => hx.imp_left (congrArg PushPc.early hpush).trans
  · obtain ⟨h₁, h₂, h₃⟩ := h.flag d u hu
    have hut : u ≠ t := by
      rintro rfl
      rw [hin] at h₁
      cases h₁
    exact ⟨hset u h₁, h₂, (Function.update_of_ne hut ..).trans h₃⟩
  · exact ca.congr (flag_kept (by rw [hidle]; rfl))

/-- The push of a unit that is not yet linked, or no longer, goes on. -/
theorem pushes (h : Inv s l) {pc : PushPc} {n : Nat} {lk : Option (Nat ⊕ Nat)}
    (hpc : s.push t ≠ .idle) (hearly : pc.early = (s.push t).early)
    (hn : (n : Int) - s.linked = (s.push t).late.toInt - pc.late.toInt)
    (hlock : Owned PushPc.holds ConsPc.holds (Function.update s.push t pc) s.cons lk) :
    Inv ({ s with lk := lk, linked := n }.setPush t pc) l := by
  obtain ⟨a, e, ca, ce, hcount⟩ := h.count
  have hin := h.pushing t hpc
  refine ⟨h.list, h.stored, fun u hu => ?_, fun u hu => ?_, fun u hu => ?_, fun d u hu => ?_, h.unlink,
    hlock, _, e, ca.update (f := PushPc.late) t pc, ce, ?_⟩
  · by_cases hut : u = t
    · subst hut; exact hin
    · exact h.pushing u (by simpa [State.setPush, hut] using hu)
  · exact h.early u ((flag_kept hearly u).mp hu)
  · exact (h.located u hu).imp_right fun hx => hx.imp_left (flag_kept hearly u).mpr
  · obtain ⟨h₁, h₂, h₃⟩ := h.flag d u hu
    have hut : u ≠ t := by
      rintro rfl
      exact hpc h₃
    exact ⟨h₁, h₂, (Function.update_of_ne hut ..).trans h₃⟩
  · show s.mem.count 0 = l.length - _ - n + e
    omega

/-- The unit becomes the last one. -/
theorem link (h : Inv s l) (hpc : s.push t = .link) :
    Inv ({ s with mem := s.mem.pushList 0 t }.setPush t .unlock) (l ++ [t]) := by
  obtain ⟨a, e, ca, ce, hcount⟩ := h.count
  have hin := h.pushing t (by simp [hpc])
  have hout := h.early t (by rw [hpc]; rfl)
  have hheld : (s.push t).holds = true := by rw [hpc]; rfl
  refine ⟨Storage.pushList_doubly h.list hout, fun u hu => ?_, fun u hu => ?_, fun u hu => ?_,
    fun u hu => ?_, fun d u hu => ?_, fun d u hu => ?_, h.lock.keep_left (by rw [hpc]; rfl), _, e,
    ca.update (f := PushPc.late) t .unlock, ce, ?_⟩
  · obtain hu | rfl := List.mem_append.mp hu |>.imp_right List.mem_singleton.mp
    · exact h.stored u hu
    · exact hin
  · by_cases hut : u = t
    · subst hut; exact hin
    · exact h.pushing u (by simpa [State.setPush, hut] using hu)
  · obtain ⟨rfl, hx⟩ | ⟨hut, hu⟩ := (flag_update (f := PushPc.early) u).mp hu
    · simp [PushPc.early, PushPc.phase] at hx
    · simp [h.early u hu, hut]
  · by_cases hut : u = t
    · subst hut; simp
    · have hpush : Function.update s.push t .unlock u = s.push u := Function.update_of_ne hut ..
      exact (h.located u hu).imp (List.mem_append_left _) fun hx =>
        hx.imp_left (congrArg PushPc.early hpush).trans
  · exact (h.lock.apart hheld (ConsPc.holds_of_flag hu)).elim
  · exact (h.lock.apart (b := d) hheld (by rw [show s.cons d = _ from hu]; rfl)).elim
  · show s.mem.count 0 = (l ++ [t]).length - _ - s.linked + e
    rw [hpc, List.length_append]
    simp [PushPc.late, PushPc.phase]
    omega

theorem counts (h : Inv s l) (hpos : 0 < s.linked) :
    Inv { s with mem := s.mem.addCount 0 1, linked := s.linked - 1 } l := by
  obtain ⟨a, e, ca, ce, hcount⟩ := h.count
  refine ⟨h.list, h.stored, h.pushing, h.early, h.located, h.flag, h.unlink, h.lock, a, e, ca, ce, ?_⟩
  show Function.update s.mem.count 0 (s.mem.count 0 + 1) 0 = l.length - a - (s.linked - 1 : Nat) + e
  rw [Function.update_self]
  omega

/-! #### Calls -/

/-- A consumer moves on; the memory stays, or its `count` changes with what the consumer owes. -/
theorem moves (h : Inv s l) {n : Nat → Int} {r : Nat → Option Result} {lk : Option (Nat ⊕ Nat)}
    (hn : n 0 = s.mem.count 0 + pc.owes.toInt - (s.cons c).owes.toInt) (hflag : pc.flag = none)
    (hold : (s.cons c).flag = none) (hun : ∀ t, pc = .remUnlink t → t ∈ l)
    (hlock : Owned PushPc.holds ConsPc.holds s.push (Function.update s.cons c pc) lk) :
    Inv { s with
      mem := { s.mem with count := n }
      lk := lk
      cons := Function.update s.cons c pc
      result := r } l := by
  obtain ⟨a, e, ca, ce, hcount⟩ := h.count
  have hkept : ∀ d, (Function.update s.cons c pc d).flag = (s.cons d).flag := by
    intro d
    by_cases hd : d = c
    · subst hd; simp [hflag, hold]
    · simp [hd]
  refine ⟨h.list, h.stored, h.pushing, h.early, fun u hu => ?_, fun d u hu => ?_, fun d u hu => ?_,
    hlock, a, _, ca, ce.update (f := ConsPc.owes) c pc, ?_⟩
  · refine (h.located u hu).imp_right fun hx => hx.imp_right ?_
    rintro ⟨d, hd⟩
    exact ⟨d, (hkept d).trans hd⟩
  · exact h.flag d u ((hkept d).symm.trans hu)
  · have hu : Function.update s.cons c pc d = .remUnlink u := hu
    by_cases hd : d = c
    · subst hd
      rw [Function.update_self] at hu
      exact hun u hu
    · rw [Function.update_of_ne hd] at hu
      exact h.unlink d u hu
  · show n 0 = l.length - a - s.linked + _
    omega

/-- A consumer moves on, and the memory stays. -/
theorem goes (h : Inv s l) {pc₀ : ConsPc} {r : Nat → Option Result} {lk : Option (Nat ⊕ Nat)}
    (hpc : s.cons c = pc₀) (howes : pc.owes = pc₀.owes) (hflag : pc.flag = none)
    (hold : pc₀.flag = none) (hun : ∀ t, pc = .remUnlink t → t ∈ l)
    (hlock : Owned PushPc.holds ConsPc.holds s.push (Function.update s.cons c pc) lk) :
    Inv { s with lk := lk, cons := Function.update s.cons c pc, result := r } l := by
  refine h.moves (n := s.mem.count) ?_ hflag (by rw [hpc]; exact hold) hun hlock
  rw [hpc, howes]
  omega

/-- A consumer takes what it has taken off `count`. -/
theorem pays (h : Inv s l) {pc₀ : ConsPc} (r : Result) (hpc : s.cons c = pc₀)
    (howes : pc₀.owes = true) (hfree : pc₀.holds = false) :
    Inv ({ s with mem := s.mem.addCount 0 (-1) }.back c r) l := by
  have hold : pc₀.flag = none := by
    cases hf : pc₀.flag with
    | none => rfl
    | some t => rw [ConsPc.holds_of_flag hf] at hfree; cases hfree
  have hidle : ConsPc.idle.flag = none := rfl
  refine h.moves ?_ hidle (by rw [hpc]; exact hold) (by simp)
    (h.lock.keep_right (by rw [hpc, hfree]; rfl))
  rw [hpc, howes]
  show Function.update s.mem.count 0 (s.mem.count 0 + -1) 0 = _
  simp [ConsPc.owes, ConsPc.phase, Int.sub_eq_add_neg]

/-- A consumer that has the lock unlinks a unit of the list. -/
theorem takes (h : Inv s l) (hc : (s.cons c).holds = true ∧ (s.cons c).owes = false)
    (hpc : pc.flag = some t ∧ pc.owes = true) (ht : t ∈ l) :
    Inv ({ s with mem := s.mem.listUnlink 0 t }.setCons c pc) (l.erase t) := by
  obtain ⟨a, e, ca, ce, hcount⟩ := h.count
  obtain ⟨l₁, l₂, rfl⟩ := List.append_of_mem ht
  have herase : (l₁ ++ t :: l₂).erase t = l₁ ++ l₂ := by
    have hnd := h.list.nodup
    rw [List.nodup_middle, List.nodup_cons] at hnd
    rw [List.erase_append_right _ fun hm => hnd.1 (List.mem_append_left _ hm), List.erase_cons_head]
  rw [herase]
  have hmem : (s.mem.listUnlink 0 t).inPool = s.mem.inPool ∧
      (s.mem.listUnlink 0 t).count = s.mem.count := by
    rw [Storage.listUnlink_eq]
    exact ⟨rfl, rfl⟩
  have hsub : ∀ u, u ∈ l₁ ++ l₂ ↔ u ∈ l₁ ++ t :: l₂ ∧ u ≠ t := by
    have hnd := h.list.nodup
    rw [List.nodup_middle, List.nodup_cons] at hnd
    intro u
    refine ⟨fun hu => ⟨?_, fun he => hnd.1 (he ▸ hu)⟩, fun hu => ?_⟩
    · rw [List.mem_append, List.mem_cons]
      exact (List.mem_append.mp hu).imp_right .inr
    · rw [List.mem_append, List.mem_cons] at hu
      rw [List.mem_append]
      tauto
  have hidle : s.push t = .idle := by
    cases hp : s.push t with
    | idle => rfl
    | lock | link => exact absurd ht (h.early t (by rw [hp]; rfl))
    | unlock => exact (h.lock.apart (a := t) (by rw [hp]; rfl) hc.1).elim
  have hself : (Function.update s.cons c pc c).flag = some t := by rw [Function.update_self, hpc.1]
  have hother : ∀ {d}, d ≠ c → (s.cons d).holds = true → False :=
    fun hd hx => hd (h.lock.unique hc.1 hx)
  refine ⟨Storage.listUnlink_doubly h.list, fun u hu => ?_, fun u hu => ?_, fun u hu => ?_,
    fun u hu => ?_, fun d u hu => ?_, fun d u hu => ?_,
    h.lock.keep_right ((ConsPc.holds_of_flag hpc.1).trans hc.1.symm), a, _, ca,
    ce.update (f := ConsPc.owes) c pc, ?_⟩
  · dsimp only [State.setCons]
    rw [hmem.1]
    exact h.stored u ((hsub u).mp hu).1
  · dsimp only [State.setCons]
    rw [hmem.1]
    exact h.pushing u hu
  · exact fun hm => h.early u hu ((hsub u).mp hm).1
  · dsimp only [State.setCons] at hu ⊢
    rw [hmem.1] at hu
    by_cases hut : u = t
    · subst hut
      exact .inr (.inr ⟨c, hself⟩)
    · obtain hx | hx | ⟨d, hx⟩ := h.located u hu
      · exact .inl ((hsub u).mpr ⟨hx, hut⟩)
      · exact .inr (.inl hx)
      · have hd : d ≠ c := by
          rintro rfl
          rw [ConsPc.owes_of_flag hx] at hc
          cases hc.2
        exact (hother hd (ConsPc.holds_of_flag hx)).elim
  · dsimp only [State.setCons] at hu ⊢
    rw [hmem.1]
    by_cases hd : d = c
    · subst hd
      rw [hself] at hu
      cases hu
      exact ⟨h.stored t ht, fun hm => ((hsub t).mp hm).2 rfl, hidle⟩
    · rw [Function.update_of_ne hd] at hu
      exact (hother hd (ConsPc.holds_of_flag hu)).elim
  · dsimp only [State.setCons] at hu
    by_cases hd : d = c
    · subst hd
      rw [Function.update_self] at hu
      rw [hu] at hpc
      cases hpc.1
    · rw [Function.update_of_ne hd] at hu
      exact (hother hd (by rw [hu]; rfl)).elim
  · show (s.mem.listUnlink 0 t).count 0 = (l₁ ++ l₂).length - a - s.linked + _
    rw [hmem.2, hcount, hpc.2, hc.2]
    simp only [List.length_append, List.length_cons, Bool.toInt, cond_true, cond_false]
    push_cast
    omega

/-- It clears `in_pool` of the unit. -/
theorem clears (h : Inv s l) (hc : (s.cons c).flag = some t)
    (hpc : pc.flag = none ∧ pc.owes = true ∧ pc.holds = true) :
    Inv ({ s with mem := s.mem.setInPool t false }.setCons c pc) l := by
  obtain ⟨a, e, ca, ce, hcount⟩ := h.count
  obtain ⟨-, hout, hidle⟩ := h.flag c t hc
  have hheld := ConsPc.holds_of_flag hc
  have hset : ∀ u, u ≠ t → Function.update s.mem.inPool t false u = s.mem.inPool u :=
    fun u hu => Function.update_of_ne hu ..
  have hnone : ∀ d, (Function.update s.cons c pc d).flag = none := by
    intro d
    by_cases hd : d = c
    · subst hd; rw [Function.update_self, hpc.1]
    · rw [Function.update_of_ne hd, h.no_flag hheld hd]
  refine ⟨h.list, fun u hu => ?_, fun u hu => ?_, h.early, fun u hu => ?_, fun d u hu => ?_,
    fun d u hu => ?_, h.lock.keep_right (hpc.2.2.trans hheld.symm), a, _, ca,
    ce.update (f := ConsPc.owes) c pc, ?_⟩
  · refine (hset u ?_).trans (h.stored u hu)
    rintro rfl
    exact hout hu
  · refine (hset u ?_).trans (h.pushing u hu)
    rintro rfl
    exact hu hidle
  · have hut : u ≠ t := by
      rintro rfl
      simp [State.setCons, Storage.State.setInPool] at hu
    obtain hx | hx | ⟨d, hx⟩ := h.located u ((hset u hut).symm.trans hu)
    · exact .inl hx
    · exact .inr (.inl hx)
    · by_cases hd : d = c
      · subst hd
        cases hc.symm.trans hx
        exact absurd rfl hut
      · rw [h.no_flag hheld hd] at hx
        cases hx
  · cases (hnone d).symm.trans hu
  · dsimp only [State.setCons] at hu
    by_cases hd : d = c
    · subst hd
      rw [Function.update_self] at hu
      rw [hu] at hpc
      cases hpc.2.1
    · rw [Function.update_of_ne hd] at hu
      exact h.unlink d u hu
  · show s.mem.count 0 = l.length - a - s.linked + _
    rw [hpc.2.1, ConsPc.owes_of_flag hc]
    omega

/-- The unit that a pop takes is in the list. -/
theorem mem_of_first {pinned : Nat → Bool} (h : Inv s l) (hf : s.first pinned = some t) : t ∈ l := by
  have hhead := h.list.head_eq
  unfold State.first at hf
  cases l with
  | nil => rw [hhead] at hf; cases hf
  | cons u l' =>
    rw [hhead] at hf
    simp only [List.head?_cons] at hf
    split at hf
    · have hlist : Doubly s.mem.lprev s.mem.lnext (s.mem.lhead 0) (s.mem.ltail 0) ([] ++ u :: l') :=
        h.list
      rw [hlist.next_eq] at hf
      exact List.mem_cons_of_mem _ (List.mem_of_head? hf)
    · cases hf
      exact List.mem_cons_self

end Inv

/-! ### The steps as moves -/

section

variable {s s' : State} {l : List Nat} {c t : Nat} {pc : ConsPc}

theorem view_call {n : Int} (hcons : s'.cons = Function.update s.cons c pc)
    (hsame : s'.push = s.push ∧ s'.linked = s.linked) (hn : s'.mem.count 0 = n) :
    view s' = { view s with count := n }.setCall c pc.phase := by
  unfold view View.setCall
  rw [hcons, hsame.1, hsame.2, hn]
  congr
  exact Function.comp_update ConsPc.phase s.cons c pc

/-- A call goes on, and `count` becomes `n`. -/
theorem moves_call {n : Int} {a : StoreAct} (hcons : s'.cons = Function.update s.cons c pc)
    (hsame : s'.push = s.push ∧ s'.linked = s.linked) (hn : s'.mem.count 0 = n)
    (hm : Moves false (view s) a ({ view s with count := n }.setCall c pc.phase)) :
    Moves false (view s) a (view s') := by
  rw [view_call hcons hsame hn]
  exact hm

theorem count_sub (m : Storage.State) : (m.addCount 0 (-1)).count 0 = m.count 0 - 1 := by
  simp [Storage.State.addCount, Int.sub_eq_add_neg]

/-- A step inside a call that the waiting does not see. -/
theorem calling {pc₀ : ConsPc} (hpc : s.cons c = pc₀)
    (hcons : s'.cons = Function.update s.cons c pc)
    (hsame : s'.push = s.push ∧ s'.linked = s.linked) (hn : s'.mem.count 0 = s.mem.count 0)
    (hph : pc.phase = pc₀.phase) (hne : pc₀.phase ≠ .idle) :
    Moves false (view s) (.call c) (view s') := by
  have hself : (view s).setCall c pc.phase = view s := by
    rw [hph, ← hpc]
    exact congrArg (fun f => { view s with call := f }) (Function.update_eq_self c (view s).call)
  refine moves_call hcons hsame hn ?_
  show Moves false (view s) (.call c) ((view s).setCall c pc.phase)
  rw [hself]
  refine .calling ?_
  show (s.cons c).phase ≠ .idle
  rw [hpc]
  exact hne

/-- A push goes on. -/
theorem moves_push {n : Nat} {a : StoreAct} {pc : PushPc}
    (hpush : s'.push = Function.update s.push t pc)
    (hsame : s'.cons = s.cons ∧ s'.mem.count 0 = s.mem.count 0) (hn : s'.linked = n)
    (hm : Moves false (view s) a ({ view s with linked := n }.setPush t pc.phase)) :
    Moves false (view s) a (view s') := by
  have hv : view s' = { view s with linked := n }.setPush t pc.phase := by
    unfold view View.setPush
    rw [hpush, hsame.1, hsame.2, hn]
    congr
    exact Function.comp_update PushPc.phase s.push t pc
  rw [hv]
  exact hm

/-- A removal finds its unit linked, if no push of it is on the way to the list. -/
theorem Inv.mem_of_test (h : Inv s l) (hc : s.cons c = .remTest t) (hin : s.mem.inPool t = true)
    (ha : s.push t ≠ .lock ∧ s.push t ≠ .link) : t ∈ l := by
  obtain hx | hx | ⟨d, hx⟩ := h.located t hin
  · exact hx
  · cases hp : s.push t with
    | lock => exact absurd hp ha.1
    | link => exact absurd hp ha.2
    | idle | unlock => rw [hp] at hx; cases hx
  · have hd : d ≠ c := by
      rintro rfl
      rw [hc] at hx
      cases hx
    rw [h.no_flag (c := c) (by rw [hc]; rfl) hd] at hx
    cases hx

/-- A pop finds the list empty. -/
theorem Inv.taken (h : Inv s l) (hf : s.first (fun _ => false) = none) :
    ∃ d, Counts d (view s).Owes ∧ (view s).count ≤ d := by
  obtain ⟨a, e, ca, ce, hcount⟩ := h.count
  have hnil : l = [] := by
    cases l with
    | nil => rfl
    | cons u l' => simp [State.first, h.list.head_eq] at hf
  have := ca.nonneg
  subst hnil
  refine ⟨e, ce.congr fun x => ?_, ?_⟩
  · simp [view, View.Owes, ConsPc.owes]
  · show s.mem.count 0 ≤ e
    rw [hcount, List.length_nil]
    omega

theorem consStep_spec {pinned : Nat → Nat → Bool} (h : Inv s l) (ha : Allowed s (.call c))
    (hs : consStep pinned s c = some s') :
    Inv s' (s.after pinned l (.call c)) ∧
      ((∀ t, pinned c t = false) → Moves false (view s) (.call c) (view s')) := by
  have hl := h.lock
  have hcall : (view s).call c = (s.cons c).phase := rfl
  unfold consStep at hs
  dsimp only [State.after]
  generalize hpc : s.cons c = pc at hs hcall
  cases pc with
  | idle => cases hs
  | popLock =>
    simp only [Option.ite_none_right_eq_some] at hs
    obtain ⟨hlk, hs⟩ := hs
    cases hs
    rw [hlk] at hl
    exact ⟨h.goes hpc rfl rfl rfl (by simp) hl.acquire_right,
      fun _ => calling hpc rfl ⟨rfl, rfl⟩ rfl rfl (by simp [ConsPc.phase])⟩
  | popTake =>
    cases hf : s.first (pinned c) with
    | some t =>
      simp only [hf] at hs
      cases hs
      have hn : (s.mem.listUnlink 0 t).count 0 = s.mem.count 0 := by rw [Storage.listUnlink_eq]
      exact ⟨h.takes (by rw [hpc]; exact ⟨rfl, rfl⟩) ⟨rfl, rfl⟩ (h.mem_of_first hf),
        fun _ => moves_call rfl ⟨rfl, rfl⟩ hn (.take (.inl hcall))⟩
    | none =>
      simp only [hf] at hs
      cases hs
      refine ⟨h.goes hpc rfl rfl rfl (by simp) (hl.keep_right (by rw [hpc]; rfl)), fun hpin => ?_⟩
      rw [funext hpin] at hf
      exact moves_call rfl ⟨rfl, rfl⟩ rfl (.miss hcall (.inr (h.taken hf)))
  | popFlag t =>
    cases hs
    exact ⟨h.clears (by rw [hpc]; rfl) ⟨rfl, rfl, rfl⟩,
      fun _ => calling hpc rfl ⟨rfl, rfl⟩ rfl rfl (by simp [ConsPc.phase])⟩
  | popUnlock o =>
    cases o with
    | none =>
      cases hs
      exact ⟨h.goes hpc rfl rfl rfl (by simp) (hl.release_right (by rw [hpc]; rfl) rfl),
        fun _ => moves_call rfl ⟨rfl, rfl⟩ rfl (.back hcall)⟩
    | some t =>
      cases hs
      exact ⟨h.goes hpc rfl rfl rfl (by simp) (hl.release_right (by rw [hpc]; rfl) rfl),
        fun _ => calling hpc rfl ⟨rfl, rfl⟩ rfl rfl (by simp [ConsPc.phase])⟩
  | popCount t =>
    cases hs
    exact ⟨h.pays _ hpc rfl rfl,
      fun _ => moves_call rfl ⟨rfl, rfl⟩ (count_sub ..) (.pay hcall)⟩
  | remLock t =>
    simp only [Option.ite_none_right_eq_some] at hs
    obtain ⟨hlk, hs⟩ := hs
    cases hs
    rw [hlk] at hl
    exact ⟨h.goes hpc rfl rfl rfl (by simp) hl.acquire_right,
      fun _ => calling hpc rfl ⟨rfl, rfl⟩ rfl rfl (by simp [ConsPc.phase])⟩
  | remTest t =>
    cases hs
    split
    · rename_i hin
      have ht : t ∈ l := h.mem_of_test hpc hin.1 (by simpa [Allowed, hpc] using ha)
      exact ⟨h.goes hpc rfl rfl rfl (fun u hu => by cases hu; exact ht)
          (hl.keep_right (by rw [hpc]; rfl)),
        fun _ => calling hpc rfl ⟨rfl, rfl⟩ rfl rfl (by simp [ConsPc.phase])⟩
    · exact ⟨h.goes hpc rfl rfl rfl (by simp) (hl.keep_right (by rw [hpc]; rfl)),
        fun _ => calling hpc rfl ⟨rfl, rfl⟩ rfl rfl (by simp [ConsPc.phase])⟩
  | remUnlink t =>
    cases hs
    have hn : (s.mem.listUnlink 0 t).count 0 = s.mem.count 0 := by rw [Storage.listUnlink_eq]
    exact ⟨h.takes (by rw [hpc]; exact ⟨rfl, rfl⟩) ⟨rfl, rfl⟩ (h.unlink c t hpc),
      fun _ => moves_call rfl ⟨rfl, rfl⟩ hn (.take (.inr hcall))⟩
  | remFlag t =>
    cases hs
    exact ⟨h.clears (by rw [hpc]; rfl) ⟨rfl, rfl, rfl⟩,
      fun _ => calling hpc rfl ⟨rfl, rfl⟩ rfl rfl (by simp [ConsPc.phase])⟩
  | remUnlock hit =>
    cases hit with
    | false =>
      cases hs
      exact ⟨h.goes hpc rfl rfl rfl (by simp) (hl.release_right (by rw [hpc]; rfl) rfl),
        fun _ => moves_call rfl ⟨rfl, rfl⟩ rfl (.absent hcall)⟩
    | true =>
      cases hs
      exact ⟨h.goes hpc rfl rfl rfl (by simp) (hl.release_right (by rw [hpc]; rfl) rfl),
        fun _ => calling hpc rfl ⟨rfl, rfl⟩ rfl rfl (by simp [ConsPc.phase])⟩
  | remCount =>
    cases hs
    exact ⟨h.pays _ hpc rfl rfl,
      fun _ => moves_call rfl ⟨rfl, rfl⟩ (count_sub ..) (.pay hcall)⟩

theorem pushStep_spec (pinned : Nat → Nat → Bool) (h : Inv s l) (hs : pushStep s t = some s') :
    Inv s' (s.after pinned l (.push t)) ∧ Moves false (view s) (.push t) (view s') := by
  have hl := h.lock
  have hphase : (view s).push t = (s.push t).phase := rfl
  have hself : ∀ {ph}, (view s).push t = ph → (view s).setPush t ph = view s := by
    rintro _ rfl
    exact congrArg (fun f => { view s with push := f }) (Function.update_eq_self t (view s).push)
  unfold pushStep at hs
  dsimp only [State.after]
  generalize hpc : s.push t = pc at hs hphase
  cases pc with
  | idle => cases hs
  | lock =>
    simp only [Option.ite_none_right_eq_some] at hs
    obtain ⟨hlk, hs⟩ := hs
    cases hs
    rw [hlk] at hl
    refine ⟨h.pushes (by simp [hpc]) (by rw [hpc]; rfl) ?_ hl.acquire_left, ?_⟩
    · simp [hpc, PushPc.late, PushPc.phase]
    · refine moves_push rfl ⟨rfl, rfl⟩ rfl ?_
      show Moves false (view s) (.push t) ((view s).setPush t PushPc.link.phase)
      rw [hself (by rw [hphase]; rfl)]
      exact .pushing (by rw [hphase]; simp [PushPc.phase])
  | link =>
    cases hs
    exact ⟨h.link hpc, moves_push rfl ⟨rfl, rfl⟩ rfl (.arrive _ hphase fun _ => .inl rfl)⟩
  | unlock =>
    cases hs
    refine ⟨h.pushes (by simp [hpc]) (by rw [hpc]; rfl) ?_ (hl.release_left (by rw [hpc]; rfl) rfl),
      moves_push rfl ⟨rfl, rfl⟩ rfl (.link hphase)⟩
    simp [hpc, PushPc.late, PushPc.phase]

theorem step_spec {pinned : Nat → Nat → Bool} {a : StoreAct} (h : Inv s l) (ha : Allowed s a)
    (hs : step pinned s a = some s') :
    Inv s' (s.after pinned l a) ∧ (s'.aborted = false → (∀ c t, pinned c t = false) →
      Moves false (view s) a (view s')) := by
  unfold step at hs
  split at hs
  · cases hs
  cases a with
  | enter t =>
    cases hs
    unfold enter
    cases hin : s.mem.inPool t with
    | true =>
      rw [if_pos rfl]
      exact ⟨{ h with }, fun hnot => by cases hnot⟩
    | false =>
      rw [if_neg (by simp)]
      refine ⟨h.enter hin, fun _ _ => moves_push rfl ⟨rfl, rfl⟩ rfl (.enter ?_)⟩
      simp [view, h.push_idle hin, PushPc.phase]
  | push t =>
    obtain ⟨hi, hm⟩ := pushStep_spec pinned h hs
    exact ⟨hi, fun _ _ => hm⟩
  | count =>
    simp only [countStep, Option.ite_none_right_eq_some] at hs
    obtain ⟨hpos, hs⟩ := hs
    cases hs
    exact ⟨h.counts hpos, fun _ _ => .reveal hpos⟩
  | pop c | remove c t =>
    simp only [Option.ite_none_right_eq_some] at hs
    obtain ⟨hidle, hs⟩ := hs
    cases hs
    refine ⟨h.goes hidle rfl rfl rfl (by simp) (h.lock.keep_right (by rw [hidle]; rfl)),
      fun _ _ => moves_call rfl ⟨rfl, rfl⟩ rfl ?_⟩
    constructor
    simp [view, hidle, ConsPc.phase]
  | call c =>
    obtain ⟨hi, hm⟩ := consStep_spec h ha hs
    exact ⟨hi, fun _ hpin => hm (hpin c)⟩

end

/-- The path as a store: a push that aborts ends the run. -/
def storeStep (s : State) (a : StoreAct) : Option State :=
  (step (fun _ _ => false) s a).filter fun s' => !s'.aborted

theorem storeStep_spec {s s' : State} {l : List Nat} {a : StoreAct} (h : Inv s l)
    (ha : Allowed s a) (hs : storeStep s a = some s') :
    (∃ l', Inv s' l') ∧ Moves false (view s) a (view s') := by
  obtain ⟨hs, hnot⟩ := Option.filter_eq_some_iff.mp hs
  obtain ⟨hi, hm⟩ := step_spec h ha hs
  exact ⟨⟨_, hi⟩, hm (by simpa using hnot) fun _ _ => rfl⟩

def store (pool : Nat → Option Nat) : Store State where
  holes := false
  start := initial pool
  step := storeStep
  view := view
  Allowed := Allowed
  Ok s := ∃ l, Inv s l
  ok_start := ⟨[], .start pool⟩
  view_start := rfl
  ok_step := by
    rintro s a s' ⟨l, h⟩ ha hs
    exact (storeStep_spec h ha hs).1
  moves := by
    rintro s a s' ⟨l, h⟩ ha hs
    exact (storeStep_spec h ha hs).2

instance (pool : Nat → Option Nat) (s : State) : (a : StoreAct) →
    Decidable ((store pool).Allowed s a)
  | .call c =>
    match h : s.cons c with
    | .remTest t => decidable_of_iff (s.push t ≠ .lock ∧ s.push t ≠ .link) (by simp [store, Allowed, h])
    | .idle | .popLock | .popTake | .popFlag _ | .popUnlock _ | .popCount _ | .remLock _
    | .remUnlink _ | .remFlag _ | .remUnlock _ | .remCount =>
      isTrue (by simp [store, Allowed, h])
  | .enter _ | .push _ | .count | .pop _ | .remove _ _ => isTrue trivial

end ListPath
end AbtReconverse
