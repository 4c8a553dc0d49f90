import AbtReconverse.Sync.Machine

/-!
# AbtReconverse.Sync.Lists

Where waiter records are. While a call waits, its record is on the list of the object it waits on,
or in the hands of the one caller that took it off, or it has been signaled; the lists, and what a
waker still has to walk, are chains of such records.

The invariant `Inv` reads two things off a program counter: the object it waits on and how
(`Pc.wait`, `WaitsOk`), and the record it is waking (`Pc.wakes`, `WakesOk`). It is stated for the
records of a set of slots `K`, because the two slots fail differently: with both guards of the step
lemma it holds for all records, without the second one still for those of timed waits.
-/

namespace AbtReconverse
namespace Sync

open Lts

/-- How a caller waits. `held`: its record is pushed and it has the spinlock. -/
inductive Mode where
  | held (timed : Bool)
  | blocked
  | spin
  | timed
  deriving DecidableEq, Repr

def Mode.isTimed : Mode → Bool
  | .held b => b
  | .timed => true
  | .blocked | .spin => false

def Mode.isHeld : Mode → Bool
  | .held _ => true
  | _ => false

def UnlockRet.wait : UnlockRet → Option (Obj × Mode)
  | .user => none
  | .cond c _ timed => some (.cond c, .held timed)

/-- The wait a caller is in. -/
def Pc.wait : Pc → Option (Obj × Mode)
  | .hold o _ tm => some (o, .held tm)
  | .blocked o _ => some (o, .blocked)
  | .spin o _ => some (o, .spin)
  | .timed o _ => some (o, .timed)
  | .unlock _ k | .wakeNext _ k | .wakeThread _ _ k | .wakeStore _ _ _ k
  | .wakeAwaken _ _ _ _ k => k.wait
  | _ => none

inductive Stage where
  | next
  | thread
  | store (th : Option Nat)
  | awaken (th : Nat) (timed : Bool)
  deriving DecidableEq, Repr

/-- The record a caller is waking, and the rest of the list. -/
def Pc.wakes : Pc → Option (Stage × Rec × Option Rec)
  | .wakeNext w _ => some (.next, w, none)
  | .wakeThread w rest _ => some (.thread, w, rest)
  | .wakeStore w th rest _ => some (.store th, w, rest)
  | .wakeAwaken th w tm rest _ => some (.awaken th tm, w, rest)
  | _ => none

@[simp] theorem exit_wait (k : UnlockRet) : k.exit.pc.wait = k.wait := by cases k <;> rfl

@[simp] theorem exit_wakes (k : UnlockRet) : k.exit.pc.wakes = none := by cases k <;> rfl

@[simp] theorem wakeRest_wait (k : UnlockRet) (rest : Option Rec) :
    (k.wakeRest rest).pc.wait = k.wait := by
  cases rest with
  | none => exact exit_wait k
  | some w => rfl

@[simp] theorem wakeRest_wakes (k : UnlockRet) (rest : Option Rec) :
    (k.wakeRest rest).pc.wakes = rest.map fun w => (.next, w, none) := by
  cases rest with
  | none => exact exit_wakes k
  | some w => rfl

@[simp] theorem awaken_wait (k : UnlockRet) (w : Rec) (tm : Bool) (rest : Option Rec)
    (th : Option Nat) : (k.awaken w tm rest th).pc.wait = k.wait := by
  cases th with
  | none => exact wakeRest_wait k rest
  | some u => rfl

@[simp] theorem waitExit_wait (c : Config) (b : Bool) (k : WaitRet) : (k.exit c b).pc.wait = none := by
  cases k <;> cases b <;> rfl

@[simp] theorem waitExit_wakes (c : Config) (b : Bool) (k : WaitRet) :
    (k.exit c b).pc.wakes = none := by
  cases k <;> cases b <;> rfl

@[simp] theorem lockExit_wait (k : LockRet) : k.exit.pc.wait = none := by
  rcases k with _ | (_ | _) <;> rfl

@[simp] theorem lockExit_wakes (k : LockRet) : k.exit.pc.wakes = none := by
  rcases k with _ | (_ | _) <;> rfl

/-- What a waker still has to wake: `w`, unless it is signaled, and the rest of the list. -/
def ChainOk (next : Rec → Option Rec) (st : Stage) (w : Rec) (rest : Option Rec) (l : List Rec) :
    Prop :=
  match st with
  | .next => Path next (some w) l
  | .thread | .store _ => ∃ l', l = w :: l' ∧ w ∉ l' ∧ Path next rest l'
  | .awaken _ _ => Path next rest l

theorem ChainOk.congr {next next' : Rec → Option Rec} {st : Stage} {w : Rec} {rest : Option Rec}
    {l : List Rec} (h : ChainOk next st w rest l) (hn : ∀ u ∈ l, next' u = next u) :
    ChainOk next' st w rest l := by
  cases st with
  | next => exact Path.congr h hn
  | thread | store th =>
    obtain ⟨l', rfl, hw, hp⟩ := h
    exact ⟨l', rfl, hw, hp.congr fun u hu => hn u (List.mem_cons_of_mem _ hu)⟩
  | awaken th tm => exact Path.congr h hn

/-- What holds of a caller `t` that waits on `o` in mode `md`. -/
structure WaitOk (c : Config) (s : State) (t : Nat) (o : Obj) (md : Mode) : Prop where
  thread : (s.waiter ⟨t, o.slot⟩).thread = if c.ult t then some t else none
  timed : (s.waiter ⟨t, o.slot⟩).timed = md.isTimed
  place : (s.waiter ⟨t, o.slot⟩).place = .listed o ∨
    (md.isHeld = false ∧ ∃ x n, (s.waiter ⟨t, o.slot⟩).place = .taken x n)
  lock : md.isHeld = true → s.slock o = some (.caller t)
  blocked : md = .blocked → c.ult t = true ∧
    (s.blk t = false → (s.waiter ⟨t, o.slot⟩).signaled = true)
  spin : md = .spin → c.ult t = false

/-- What holds of a caller `t` by the wait `v` it is in. -/
structure WaitsOk (c : Config) (K : Slot → Prop) (s : State) (t : Nat) (v : Option (Obj × Mode)) :
    Prop where
  record : ∀ o md, v = some (o, md) → K o.slot → WaitOk c s t o md
  blocked : s.blk t = true → ∃ o, v = some (o, .blocked)
  timedSlot : ∀ o md, v = some (o, md) → md.isTimed = true → o.slot = .wait

/-- The record `w` of a wait on `o` is in the hands of `x`. -/
structure InHands (K : Slot → Prop) (s : State) (x : Nat) (w : Rec) (o : Obj) (md : Mode) :
    Prop where
  tracked : K w.slot
  place : (s.waiter w).place = .taken x (s.op x)
  slot : o.slot = w.slot
  wait : (s.pc w.owner).wait = some (o, md)
  past : md.isHeld = false

/-- What holds of a caller `x` by the record `v` it is waking, with `l` still to be signaled. -/
structure WakesOk (K : Slot → Prop) (s : State) (x : Nat) (v : Option (Stage × Rec × Option Rec))
    (l : List Rec) : Prop where
  chain : ∀ st w rest, v = some (st, w, rest) → K w.slot → ChainOk s.next st w rest l
  noChain : (∀ st w rest, v = some (st, w, rest) → ¬ K w.slot) → l = []
  chained : ∀ w ∈ l, (s.waiter w).signaled = false ∧ ∃ o md, InHands K s x w o md
  stored : ∀ th w rest, v = some (.store th, w, rest) → K w.slot → th = (s.waiter w).thread
  awaken : ∀ th w rest, v = some (.awaken th false, w, rest) → K w.slot →
    w.owner = th ∧ (s.waiter w).signaled = true ∧ s.blk th = true ∧
      ∃ o, InHands K s x w o .blocked
  typedRest : ∀ st w w', v = some (st, w, some w') → w'.slot = w.slot

structure Inv (c : Config) (K : Slot → Prop) (s : State) (q : Obj → List Rec)
    (ch : Nat → List Rec) : Prop where
  rep : ∀ o, K o.slot → Rep s.next (s.wl o) (q o)
  listed : ∀ o w, K o.slot → (w ∈ q o ↔ (s.waiter w).place = .listed o)
  onList : ∀ o w, K o.slot → (s.waiter w).place = .listed o →
    (s.waiter w).signaled = false ∧ ∃ md, (s.pc w.owner).wait = some (o, md)
  waits : ∀ t, WaitsOk c K s t (s.pc t).wait
  wakes : ∀ x, WakesOk K s x (s.pc x).wakes (ch x)
  typedNext : ∀ w w', s.next w = some w' → w'.slot = w.slot
  typedHead : ∀ o w, (s.wl o).head = some w → w.slot = o.slot
  typedTail : ∀ o w, (s.wl o).tail = some w → w.slot = o.slot
  typedPlace : ∀ o w, (s.waiter w).place = .listed o → w.slot = o.slot

section

variable {c : Config} {K : Slot → Prop} {s s' : State} {t : Nat}

theorem wait_update {pc : Pc} (h : pc.wait = (s.pc t).wait) (u : Nat) :
    (Function.update s.pc t pc u).wait = (s.pc u).wait := update_congr Pc.wait h u

theorem wakes_update {pc : Pc} (h : pc.wakes = (s.pc t).wakes) (u : Nat) :
    (Function.update s.pc t pc u).wakes = (s.pc u).wakes := update_congr Pc.wakes h u

/-- `WaitOk` of a caller whose record and spinlock a step leaves alone. -/
theorem WaitOk.frame {o : Obj} {md : Mode} (h : WaitOk c s t o md)
    (hw : s'.waiter ⟨t, o.slot⟩ = s.waiter ⟨t, o.slot⟩)
    (hl : s.slock o = some (.caller t) → s'.slock o = some (.caller t))
    (hb : s'.blk t = s.blk t) : WaitOk c s' t o md := by
  refine ⟨?_, ?_, ?_, fun hm => hl (h.lock hm), fun hm => ?_, h.spin⟩
  all_goals rw [hw]
  · exact h.thread
  · exact h.timed
  · exact h.place
  · rw [hb]
    exact h.blocked hm

theorem WaitsOk.frame {v : Option (Obj × Mode)} (h : WaitsOk c K s t v) (hb : s'.blk t = s.blk t)
    (hw : ∀ o md, v = some (o, md) → K o.slot →
      s'.waiter ⟨t, o.slot⟩ = s.waiter ⟨t, o.slot⟩)
    (hl : ∀ o, K o.slot → s.slock o = some (.caller t) → s'.slock o = some (.caller t)) :
    WaitsOk c K s' t v :=
  ⟨fun o md hv hK => (h.record o md hv hK).frame (hw o md hv hK) (hl o hK) hb,
    by rw [hb]; exact h.blocked, h.timedSlot⟩

/-- A caller that does not wait. -/
theorem WaitsOk.idle (hb : s.blk t = false) : WaitsOk c K s t none :=
  ⟨nofun, fun h => absurd (hb.symm.trans h) nofun, nofun⟩

variable {x : Nat} {v : Option (Stage × Rec × Option Rec)} {l : List Rec}

theorem InHands.frame {w : Rec} {o : Obj} {md : Mode} (h : InHands K s x w o md)
    (hop : s'.op x = s.op x) (hp : (s'.waiter w).place = (s.waiter w).place)
    (hw : (s'.pc w.owner).wait = (s.pc w.owner).wait) : InHands K s' x w o md :=
  ⟨h.tracked, by rw [hp, hop]; exact h.place, h.slot, hw.trans h.wait, h.past⟩

/-- A caller that wakes nobody. -/
theorem WakesOk.idle : WakesOk K s x none [] :=
  ⟨nofun, fun _ => rfl, nofun, nofun, nofun, nofun⟩

/-- A waker holds the record it is about to signal. -/
theorem WakesOk.store_mem (h : WakesOk K s x v l) {th : Option Nat} {w : Rec} {rest : Option Rec}
    (hv : v = some (.store th, w, rest)) (hK : K w.slot) : w ∈ l := by
  obtain ⟨l', hl, _⟩ := h.chain _ w rest hv hK
  exact hl ▸ List.mem_cons_self ..

theorem WakesOk.store_hands (h : WakesOk K s x v l) {th : Option Nat} {w : Rec}
    {rest : Option Rec} (hv : v = some (.store th, w, rest)) (hK : K w.slot) :
    (s.waiter w).signaled = false ∧ ∃ o md, InHands K s x w o md :=
  h.chained w (h.store_mem hv hK)

/-- A waker that has done with `w` goes on to the rest of its list. -/
theorem WakesOk.rest {w : Rec} {rest : Option Rec} (hp : K w.slot → Path s.next rest l)
    (hn : ¬ K w.slot → l = []) (hr : ∀ u, rest = some u → u.slot = w.slot)
    (hc : ∀ u ∈ l, (s.waiter u).signaled = false ∧ ∃ o md, InHands K s x u o md) :
    WakesOk K s x (rest.map fun u => (.next, u, none)) l := by
  cases rest with
  | none =>
    refine ⟨nofun, fun _ => ?_, hc, nofun, nofun, nofun⟩
    by_cases hK : K w.slot
    · exact (hp hK).unique (show Path s.next none [] from rfl)
    · exact hn hK
  | some u =>
    refine ⟨?_, fun hx => hn fun hK => hx _ u _ rfl (hr u rfl ▸ hK), hc, nofun, nofun, nofun⟩
    rintro _ _ _ ⟨⟩ hK
    exact hp (hr u rfl ▸ hK)

/-- A waker, and the records in its hands, which a step leaves alone. -/
theorem WakesOk.frame (h : WakesOk K s x v l) (hnext : ∀ w ∈ l, s'.next w = s.next w)
    (hop : s'.op x = s.op x)
    (hkeep : ∀ w o md, InHands K s x w o md →
      (s.waiter w).signaled = false ∨ s.blk w.owner = true →
      s'.waiter w = s.waiter w ∧ (s'.pc w.owner).wait = (s.pc w.owner).wait)
    (hblk : ∀ th w rest, v = some (.awaken th false, w, rest) → K w.slot → s.blk th = true →
      s'.blk th = true) : WakesOk K s' x v l := by
  have hands : ∀ {w o md}, InHands K s x w o md →
      (s.waiter w).signaled = false ∨ s.blk w.owner = true →
      s'.waiter w = s.waiter w ∧ InHands K s' x w o md := by
    intro w o md hw hs
    obtain ⟨he, hwait⟩ := hkeep w o md hw hs
    exact ⟨he, hw.frame hop (by rw [he]) hwait⟩
  refine ⟨fun st w rest hv hK => (h.chain st w rest hv hK).congr hnext, h.noChain,
    fun w hw => ?_, fun th w rest hv hK => ?_, fun th w rest hv hK => ?_, h.typedRest⟩
  · obtain ⟨hs, o, md, hm⟩ := h.chained w hw
    obtain ⟨he, hm⟩ := hands hm (.inl hs)
    exact ⟨by rw [he]; exact hs, o, md, hm⟩
  · obtain ⟨hs, o, md, hm⟩ := h.store_hands hv hK
    rw [(hands hm (.inl hs)).1]
    exact h.stored th w rest hv hK
  · obtain ⟨hth, hs, hb, o, hm⟩ := h.awaken th w rest hv hK
    obtain ⟨he, hm⟩ := hands hm (.inr (hth ▸ hb))
    exact ⟨hth, by rw [he]; exact hs, hblk th w rest hv hK hb, o, hm⟩

end

namespace Inv

variable {c : Config} {K : Slot → Prop} {s s' : State} {q : Obj → List Rec} {ch : Nat → List Rec}
  {t : Nat}

/-- Nothing the invariant reads changes. -/
theorem same (h : Inv c K s q ch) (hnext : s'.next = s.next) (hwaiter : s'.waiter = s.waiter)
    (hwl : s'.wl = s.wl) (hlock : s'.slock = s.slock) (hblk : s'.blk = s.blk) (hop : s'.op = s.op)
    (hwait : ∀ u, (s'.pc u).wait = (s.pc u).wait) (hwakes : ∀ u, (s'.pc u).wakes = (s.pc u).wakes) :
    Inv c K s' q ch := by
  have hwaits : ∀ u, WaitsOk c K s' u (s'.pc u).wait := fun u => by
    rw [hwait]
    exact (h.waits u).frame (by rw [hblk]) (fun _ _ _ _ => by rw [hwaiter]) fun _ _ => by
      rw [hlock]; exact id
  have hwaker : ∀ x, WakesOk K s' x (s'.pc x).wakes (ch x) := fun x => by
    rw [hwakes]
    exact (h.wakes x).frame (fun _ _ => by rw [hnext]) (by rw [hop])
      (fun w _ _ _ _ => ⟨by rw [hwaiter], hwait w.owner⟩) fun _ _ _ _ _ => by rw [hblk]; exact id
  obtain ⟨h1, h2, h3, -, -, h6, h7, h8, h9⟩ := h
  refine ⟨?_, ?_, ?_, hwaits, hwaker, ?_, ?_, ?_, ?_⟩
  all_goals simpa only [hnext, hwaiter, hwl, hwait]

/-- A change of program counter that both views agree on. -/
theorem goto (h : Inv c K s q ch) {e : Exit} (hwait : e.pc.wait = (s.pc t).wait)
    (hwakes : e.pc.wakes = (s.pc t).wakes) : Inv c K (s.leave t e) q ch :=
  h.same rfl rfl rfl rfl rfl rfl (wait_update hwait) (wakes_update hwakes)

theorem no_chain (h : Inv c K s q ch) (hwakes : (s.pc t).wakes = none) : ch t = [] :=
  (h.wakes t).noChain (by simp [hwakes])

/-- A caller in user code begins an operation. -/
theorem call (h : Inv c K s q ch) {op : Op} (hidle : s.pc t = .idle) :
    Inv c K ((({ s with op := Function.update s.op t (s.op t + 1) } : State)).leave t
      (.to op.start)) q ch := by
  have hpc : op.start.wait = none ∧ op.start.wakes = none := by cases op <;> exact ⟨rfl, rfl⟩
  have h' : Inv c K (s.leave t (.to op.start)) q ch :=
    h.goto (by rw [hidle]; exact hpc.1) (by rw [hidle]; exact hpc.2)
  refine { h' with
    waits := fun u => (h'.waits u).frame rfl (fun _ _ _ _ => rfl) fun _ _ => id
    wakes := fun x => ?_ }
  by_cases hx : x = t
  · subst hx
    rw [leave_self, h.no_chain (by rw [hidle]; rfl), show (Exit.to op.start).pc.wakes = none from hpc.2]
    exact .idle
  · exact (h'.wakes x).frame (fun _ _ => rfl) (Function.update_of_ne hx ..)
      (fun _ _ _ _ _ => ⟨rfl, rfl⟩) fun _ _ _ _ _ => id

/-- A record that is on no list and in no chain. -/
theorem fresh (h : Inv c K s q ch) (hwait : (s.pc t).wait = none) (sl : Slot) :
    (∀ o, K o.slot → ⟨t, sl⟩ ∉ q o) ∧ ∀ x, ⟨t, sl⟩ ∉ ch x := by
  constructor
  · intro o hK hm
    obtain ⟨_, md, hw⟩ := h.onList o _ hK ((h.listed o _ hK).mp hm)
    rw [hwait] at hw; cases hw
  · intro x hm
    obtain ⟨_, o, md, hw⟩ := (h.wakes x).chained _ hm
    have := hwait.symm.trans hw.wait
    cases this

/-- The last record of a list is in no other list and in no chain. -/
theorem tail_apart (h : Inv c K s q ch) {o : Obj} {z : Rec} (hz : (s.wl o).tail = some z) :
    (∀ o', K o'.slot → o' ≠ o → z ∉ q o') ∧ ∀ x, z ∉ ch x := by
  have hslot := h.typedTail o z hz
  have hlisted : K z.slot → (s.waiter z).place = .listed o := fun hK =>
    (h.listed o z (hslot ▸ hK)).mp (List.mem_of_getLast? ((h.rep o (hslot ▸ hK)).tail ▸ hz))
  constructor
  · intro o' hK hne hm
    have hpl := (h.listed o' z hK).mp hm
    rw [hlisted (h.typedPlace o' z hpl ▸ hK)] at hpl
    exact hne (Place.listed.inj hpl).symm
  · intro x hm
    obtain ⟨_, _, _, hw⟩ := (h.wakes x).chained z hm
    have := (hlisted hw.tracked).symm.trans hw.place
    cases this

/-- A caller that waits in another way, or not at all, is not BLOCKED. -/
theorem not_blk (h : Inv c K s q ch) (hwait : ∀ o, (s.pc t).wait ≠ some (o, .blocked)) :
    s.blk t = false := by
  cases hb : s.blk t with
  | false => rfl
  | true =>
    obtain ⟨o, ho⟩ := (h.waits t).blocked hb
    exact absurd ho (hwait o)

theorem push (h : Inv c K s q ch) {o : Obj} {tm : Bool} {pc : Pc} (hlock : s.slock o = none)
    (hwait : (s.pc t).wait = none) (hwakes : (s.pc t).wakes = none)
    (hwait' : pc.wait = some (o, .held tm)) (hwakes' : pc.wakes = none)
    (htm : tm = true → o.slot = .wait) :
    Inv c K ((s.push c t o tm).leave t (.to pc)) (Function.update q o (q o ++ [⟨t, o.slot⟩])) ch := by
  obtain ⟨hfresh, hfresh'⟩ := h.fresh hwait o.slot
  have hblk := h.not_blk (t := t) (by simp [hwait])
  -- the records of the other lists and of the chains keep their `next`
  have hq : ∀ o', K o'.slot → o' ≠ o → ∀ u ∈ q o',
      (wlPush s.next (s.wl o) ⟨t, o.slot⟩).1 u = s.next u := fun o' hK hne u hu =>
    wlPush_next (fun he => hfresh o' hK (he ▸ hu)) fun hz => (h.tail_apart hz).1 o' hK hne hu
  have hc : ∀ x, ∀ u ∈ ch x, (wlPush s.next (s.wl o) ⟨t, o.slot⟩).1 u = s.next u := fun x u hu =>
    wlPush_next (fun he => hfresh' x (he ▸ hu)) fun hz => (h.tail_apart hz).2 x hu
  -- the caller is the only one whose wait changes, and it had none
  have hother : ∀ {u y}, (s.pc u).wait = some y → u ≠ t := by
    rintro u y hu rfl
    rw [hwait] at hu
    cases hu
  have hpc : ∀ {u}, u ≠ t → (Function.update s.pc t pc u).wait = (s.pc u).wait := fun hu => by
    rw [Function.update_of_ne hu]
  have hrec : ∀ {w : Rec} (r : Waiter), w ≠ ⟨t, o.slot⟩ →
      Function.update s.waiter ⟨t, o.slot⟩ r w = s.waiter w := fun r hw =>
    Function.update_of_ne hw ..
  have howner : ∀ {w : Rec}, w.owner ≠ t → w ≠ ⟨t, o.slot⟩ := by
    rintro w hw rfl
    exact hw rfl
  refine {
    rep := fun o' hK => ?rep
    listed := fun o' w hK => ?listed
    onList := fun o' w hK hw => ?onList
    waits := fun u => ?waits
    wakes := fun x => ?wakes
    typedNext := fun w w' hw => ?typedNext
    typedHead := fun o' w hw => ?typedHead
    typedTail := fun o' w hw => ?typedTail
    typedPlace := fun o' w hw => ?typedPlace }
  case rep =>
    show Rep (wlPush s.next (s.wl o) ⟨t, o.slot⟩).1 (Function.update s.wl o _ o')
      (Function.update q o _ o')
    by_cases ho : o' = o
    · subst ho
      rw [Function.update_self, Function.update_self]
      exact rep_push (h.rep o' hK) (hfresh o' hK)
    · rw [Function.update_of_ne ho, Function.update_of_ne ho]
      exact ⟨(h.rep o' hK).path.congr (hq o' hK ho), (h.rep o' hK).tail⟩
  case listed =>
    show w ∈ Function.update q o _ o' ↔ (Function.update s.waiter ⟨t, o.slot⟩ _ w).place = _
    by_cases ho : o' = o
    · subst ho
      rw [Function.update_self, List.mem_append, List.mem_singleton]
      by_cases hw : w = ⟨t, o'.slot⟩
      · rw [hw, Function.update_self]
        exact ⟨fun _ => rfl, fun _ => .inr rfl⟩
      · rw [hrec _ hw, ← h.listed o' w hK]
        exact or_iff_left hw
    · rw [Function.update_of_ne ho]
      by_cases hw : w = ⟨t, o.slot⟩
      · rw [hw, Function.update_self]
        exact ⟨fun hm => absurd hm (hfresh o' hK), fun he => absurd (Place.listed.inj he).symm ho⟩
      · rw [hrec _ hw]
        exact h.listed o' w hK
  case onList =>
    show (Function.update s.waiter ⟨t, o.slot⟩ _ w).signaled = false ∧
      ∃ md, (Function.update s.pc t pc w.owner).wait = some (o', md)
    change (Function.update s.waiter ⟨t, o.slot⟩ _ w).place = .listed o' at hw
    by_cases hwr : w = ⟨t, o.slot⟩
    · subst hwr
      rw [Function.update_self] at hw ⊢
      cases hw
      exact ⟨rfl, .held tm, by rw [Function.update_self, hwait']⟩
    · rw [hrec _ hwr] at hw ⊢
      obtain ⟨hs, md, hmd⟩ := h.onList o' w hK hw
      exact ⟨hs, md, (hpc (hother hmd)).trans hmd⟩
  case waits =>
    by_cases hut : u = t
    · subst hut
      rw [leave_self, show (Exit.to pc).pc.wait = some (o, .held tm) from hwait']
      refine ⟨?_, fun hb => absurd (hblk.symm.trans hb) nofun, ?_⟩
      · rintro _ _ ⟨⟩ _
        constructor <;> simp [State.leave, State.push, Exit.to, Mode.isTimed]
      · rintro _ _ ⟨⟩
        exact htm
    · rw [leave_pc, Function.update_of_ne hut]
      refine (h.waits u).frame rfl (fun o' _ _ _ => hrec _ (howner hut)) fun o' _ hl => ?_
      -- the lock that `u` has is not the one the caller takes
      have ho : o' ≠ o := by
        rintro rfl
        rw [hlock] at hl
        cases hl
      exact (Function.update_of_ne ho ..).trans hl
  case wakes =>
    show WakesOk K _ x (Function.update s.pc t pc x).wakes _
    rw [wakes_update (hwakes'.trans hwakes.symm)]
    refine (h.wakes x).frame (hc x) rfl (fun w o' md hw _ => ?_) fun _ _ _ _ _ => id
    have hne := hother hw.wait
    exact ⟨hrec _ (howner hne), hpc hne⟩
  case typedNext =>
    obtain ⟨hz, rfl⟩ | hw := wlPush_some hw
    · exact (h.typedTail o w hz).symm
    · exact h.typedNext w w' hw
  case typedHead =>
    obtain ⟨rfl, hw⟩ | ⟨-, hw⟩ := update_cases (P := fun l : WaitList Rec => l.head = some w) hw
    · obtain rfl | hw := wlPush_head hw
      · rfl
      · exact h.typedHead o' w hw
    · exact h.typedHead o' w hw
  case typedTail =>
    obtain ⟨rfl, hw⟩ | ⟨-, hw⟩ := update_cases (P := fun l : WaitList Rec => l.tail = some w) hw
    · rw [wlPush_tail] at hw
      cases hw
      rfl
    · exact h.typedTail o' w hw
  case typedPlace =>
    obtain ⟨rfl, hp⟩ | ⟨-, hp⟩ := update_cases (P := fun r : Waiter => r.place = .listed o') hw
    · cases hp
      rfl
    · exact h.typedPlace o' w hp

/-- The caller gives the spinlock back, or leaves that to its callback. -/
theorem release (h : Inv c K s q ch) (md : Mode) {o : Obj} {tm : Bool} {pc : Pc}
    {sl : Option Hold} {blk : Nat → Bool}
    (hwait : (s.pc t).wait = some (o, .held tm)) (hwakes : (s.pc t).wakes = none)
    (hwait' : pc.wait = some (o, md)) (hwakes' : pc.wakes = none) (hmd : md.isHeld = false)
    (htm : md.isTimed = tm) (hu : md = .blocked → c.ult t = true)
    (hsp : md = .spin → c.ult t = false)
    (hblk : blk = if md = .blocked then Function.update s.blk t true else s.blk) :
    Inv c K ((({ s with
      slock := Function.update s.slock o sl
      blk := blk } : State)).leave t (.to pc)) q ch := by
  have hblk' : ∀ {u}, u ≠ t → blk u = s.blk u := by
    intro u hne
    rw [hblk]
    split
    · rw [Function.update_of_ne hne]
    · rfl
  have hnb := h.not_blk (t := t) (by simp [hwait])
  have hpc : ∀ {u}, u ≠ t → (Function.update s.pc t pc u).wait = (s.pc u).wait := fun hu => by
    rw [Function.update_of_ne hu]
  refine { h with
    onList := fun o' w hK hw => ?onList
    waits := fun u => ?waits
    wakes := fun x => ?wakes }
  case onList =>
    obtain ⟨hs, md', hw'⟩ := h.onList o' w hK hw
    refine ⟨hs, ?_⟩
    by_cases hut : w.owner = t
    · rw [hut, hwait] at hw'
      cases hw'
      exact ⟨md, by rw [hut, leave_self]; exact hwait'⟩
    · exact ⟨md', (hpc hut).trans hw'⟩
  case waits =>
    by_cases hut : u = t
    · subst hut
      rw [leave_self, show (Exit.to pc).pc.wait = some (o, md) from hwait']
      refine ⟨?_, fun hb => ?_, ?_⟩
      · rintro _ _ ⟨⟩ hK
        have hok := (h.waits u).record o _ hwait hK
        refine ⟨hok.thread, by rw [htm]; exact hok.timed, ?_, by simp [hmd], fun hb => ?_, hsp⟩
        · obtain hl | ⟨hf, -⟩ := hok.place
          · exact .inl hl
          · cases hf
        · refine ⟨hu hb, fun hn => ?_⟩
          change blk u = false at hn
          rw [hblk, if_pos hb, Function.update_self] at hn
          cases hn
      · change blk u = true at hb
        rw [hblk] at hb
        split at hb
        · rename_i hmb
          exact ⟨o, by rw [hmb]⟩
        · rw [hnb] at hb
          cases hb
      · rintro _ _ ⟨⟩ hm
        exact (h.waits u).timedSlot o _ hwait (htm.symm.trans hm)
    · rw [leave_pc, Function.update_of_ne hut]
      refine (h.waits u).frame (hblk' hut) (fun _ _ _ _ => rfl) fun o' hK hl => ?_
      have ho : o' ≠ o := by
        rintro rfl
        rw [((h.waits t).record o' _ hwait hK).lock rfl] at hl
        exact hut (Hold.caller.inj (Option.some.inj hl)).symm
      exact (Function.update_of_ne ho ..).trans hl
  case wakes =>
    show WakesOk K _ x (Function.update s.pc t pc x).wakes _
    rw [wakes_update (hwakes'.trans hwakes.symm)]
    refine (h.wakes x).frame (fun _ _ => rfl) rfl (fun w o' md' hw _ => ⟨rfl, hpc ?_⟩)
      fun th _ _ _ _ hb => (hblk' ?_).trans hb
    · -- the caller still has the spinlock, so nobody has its record
      intro he
      have := hw.wait
      rw [he, hwait] at this
      cases this
      cases hw.past
    · rintro rfl
      rw [hnb] at hb
      cases hb

/-- The caller's wait is over: its record has been signaled. -/
theorem leave (h : Inv c K s q ch) {o : Obj} {md : Mode} {e : Exit}
    (hwait : (s.pc t).wait = some (o, md)) (hwakes : (s.pc t).wakes = none)
    (hsig : K o.slot → (s.waiter ⟨t, o.slot⟩).signaled = true) (hblk : s.blk t = false)
    (hwait' : e.pc.wait = none) (hwakes' : e.pc.wakes = none) : Inv c K (s.leave t e) q ch := by
  have hpc : ∀ {u}, u ≠ t → (Function.update s.pc t e.pc u).wait = (s.pc u).wait := fun hu => by
    rw [Function.update_of_ne hu]
  -- a record that is not signaled is that of another caller
  have hother : ∀ {w o' md'}, (s.pc w.owner).wait = some (o', md') → w.slot = o'.slot →
      K w.slot → (s.waiter w).signaled = false → w.owner ≠ t := by
    rintro ⟨u, sl⟩ o' md' hw rfl hK hs rfl
    rw [hwait] at hw
    cases hw
    rw [hsig hK] at hs
    cases hs
  refine { h with
    onList := fun o' w hK hw => ?onList
    waits := fun u => ?waits
    wakes := fun x => ?wakes }
  case onList =>
    obtain ⟨hs, md', hw'⟩ := h.onList o' w hK hw
    have hsl := h.typedPlace o' w hw
    exact ⟨hs, md', (hpc (hother hw' hsl (hsl ▸ hK) hs)).trans hw'⟩
  case waits =>
    by_cases hut : u = t
    · subst hut
      rw [leave_self, hwait']
      exact .idle hblk
    · rw [leave_pc, Function.update_of_ne hut]
      exact (h.waits u).frame rfl (fun _ _ _ _ => rfl) fun _ _ => id
  case wakes =>
    rw [leave_pc, wakes_update (hwakes'.trans hwakes.symm)]
    refine (h.wakes x).frame (fun _ _ => rfl) rfl (fun w o' md' hw hs => ⟨rfl, hpc ?_⟩)
      fun _ _ _ _ _ => id
    obtain hs | hb := hs
    · exact hother hw.wait hw.slot.symm hw.tracked hs
    · intro he
      rw [he, hblk] at hb
      cases hb

/-- `spin_release_cb`. -/
theorem callback (h : Inv c K s q ch) {o : Obj} (hl : s.slock o = some (.callback t)) :
    Inv c K { s with slock := Function.update s.slock o none } q ch := by
  refine { h with
    waits := fun u => (h.waits u).frame rfl (fun _ _ _ _ => rfl) fun o' _ hc => ?_
    wakes := fun x => (h.wakes x).frame (fun _ _ => rfl) rfl (fun _ _ _ _ _ => ⟨rfl, rfl⟩)
      fun _ _ _ _ _ => id }
  have ho : o' ≠ o := by
    rintro rfl
    rw [hl] at hc
    cases hc
  exact (Function.update_of_ne ho ..).trans hc

/-- A listed record is one of the tracked ones if its list is. -/
theorem tracked (h : Inv c K s q ch) {o : Obj} {w : Rec} (hK : K o.slot)
    (hp : (s.waiter w).place = .listed o) : K w.slot := by
  rw [h.typedPlace o w hp]
  exact hK

/-- The owner of a listed record, once the spinlock is free, is past its release. -/
theorem listed_wait (h : Inv c K s q ch) {o : Obj} {w : Rec} (hK : K o.slot)
    (hlock : s.slock o = none) (hw : (s.waiter w).place = .listed o) :
    (s.waiter w).signaled = false ∧ ∃ md, (s.pc w.owner).wait = some (o, md) ∧ md.isHeld = false := by
  obtain ⟨hsig, md, hmd⟩ := h.onList o w hK hw
  refine ⟨hsig, md, hmd, ?_⟩
  cases hh : md.isHeld with
  | false => rfl
  | true =>
    have := ((h.waits _).record o md hmd hK).lock hh
    rw [hlock] at this
    cases this

/-- The caller takes the records `d` off the list of `o`, leaving `l`, to wake them. -/
theorem take (h : Inv c K s q ch) {o : Obj} {d l : List Rec} {wl : WaitList Rec}
    {waiter : Rec → Waiter} {e : Exit} (hlock : s.slock o = none)
    (hq : K o.slot → q o = d ++ l ∧ Rep s.next wl l) (hd : ¬ K o.slot → d = [])
    (hwl : ∀ w, wl.head = some w ∨ wl.tail = some w → w.slot = o.slot)
    (hwaiter : ∀ w, K w.slot → waiter w =
      if w ∈ d then { s.waiter w with place := .taken t (s.op t) } else s.waiter w)
    (hplace : ∀ w o, (waiter w).place = .listed o → (s.waiter w).place = .listed o)
    (hwait : e.pc.wait = (s.pc t).wait)
    (hnone : e.pc.wakes = none → d = [])
    (hsome : ∀ st w rest, e.pc.wakes = some (st, w, rest) → (st = .next ∨ st = .thread) ∧
      w.slot = o.slot ∧ rest = none ∧ (K o.slot → ChainOk s.next st w rest d)) :
    Inv c K (({ s with wl := Function.update s.wl o wl, waiter := waiter } : State).leave t e)
      (Function.update q o l) (Function.update ch t d) := by
  have hwait' := wait_update hwait
  -- a record that is taken off was listed, and its owner is past the release of the spinlock
  have hlisted : ∀ w ∈ d, K o.slot ∧ (s.waiter w).place = .listed o ∧ w.slot = o.slot := by
    intro w hw
    have hK : K o.slot := by
      by_contra hK; rw [hd hK] at hw; cases hw
    have hpl : (s.waiter w).place = .listed o := (h.listed o w hK).mp (by simp [(hq hK).1, hw])
    exact ⟨hK, hpl, h.typedPlace o w hpl⟩
  have hdl : K o.slot → ∀ w ∈ d, w ∉ l := fun hK w hw hwl =>
    (List.nodup_append.mp ((hq hK).1 ▸ (h.rep o hK).path.nodup)).2.2 w hw w hwl rfl
  have htaken := fun w hw => h.listed_wait (w := w) (hlisted w hw).1 hlock (hlisted w hw).2.1
  -- a record that is not taken off stays as it is
  have hkeep : ∀ {w}, K w.slot → (s.waiter w).place ≠ .listed o → waiter w = s.waiter w := by
    intro w hK hp
    rw [hwaiter w hK, if_neg fun hm => hp (hlisted w hm).2.1]
  refine { h with
    rep := fun o' hK => ?rep
    listed := fun o' w hK => ?listed
    onList := fun o' w hK hw => ?onList
    waits := fun u => ?waits
    wakes := fun x => ?wakes
    typedHead := fun o' w hw => ?typedHead
    typedTail := fun o' w hw => ?typedTail
    typedPlace := fun o' w hw => h.typedPlace o' w (hplace w o' hw) }
  case rep =>
    show Rep s.next (Function.update s.wl o wl o') (Function.update q o l o')
    by_cases ho : o' = o
    · subst ho
      rw [Function.update_self, Function.update_self]
      exact (hq hK).2
    · rw [Function.update_of_ne ho, Function.update_of_ne ho]
      exact h.rep o' hK
  case listed =>
    show w ∈ Function.update q o l o' ↔ (waiter w).place = .listed o'
    by_cases ho : o' = o
    · subst ho
      rw [Function.update_self]
      constructor
      · intro hw
        have hp : (s.waiter w).place = .listed o' :=
          (h.listed o' w hK).mp (by rw [(hq hK).1]; exact List.mem_append_right d hw)
        have hKw := h.tracked hK hp
        rw [hwaiter w hKw, if_neg fun hm => hdl hK w hm hw]
        exact hp
      · intro hw
        have hp := hplace w o' hw
        have hKw := h.tracked hK hp
        have hm := (h.listed o' w hK).mpr hp
        rw [(hq hK).1] at hm
        obtain hm | hm := List.mem_append.mp hm
        · rw [hwaiter w hKw, if_pos hm] at hw
          cases hw
        · exact hm
    · rw [Function.update_of_ne ho, h.listed o' w hK]
      constructor
      · intro hp
        have hKw := h.tracked hK hp
        rw [hkeep hKw (by rw [hp]; exact fun he => ho (Place.listed.inj he))]
        exact hp
      · exact hplace w o'
  case onList =>
    have hp := hplace w o' hw
    have hKw := h.tracked hK hp
    obtain ⟨hs, md, hmd⟩ := h.onList o' w hK hp
    refine ⟨?_, md, (hwait' w.owner).trans hmd⟩
    show (waiter w).signaled = false
    rw [hwaiter w hKw]
    split <;> exact hs
  case waits =>
    rw [leave_pc, hwait']
    refine ⟨fun o' md hu hK => ?_, (h.waits u).blocked, (h.waits u).timedSlot⟩
    have hok := (h.waits u).record o' md hu hK
    have hw := hwaiter ⟨u, o'.slot⟩ hK
    by_cases hmem : ⟨u, o'.slot⟩ ∈ d
    · obtain ⟨_, md', hmd', hheld⟩ := htaken _ hmem
      have hmd' := hu.symm.trans hmd'
      cases hmd'
      rw [if_pos hmem] at hw
      refine ⟨?_, ?_, .inr ⟨hheld, t, s.op t, ?_⟩, hok.lock, ?_, hok.spin⟩
      all_goals simp only [State.leave, hw]
      · exact hok.thread
      · exact hok.timed
      · exact hok.blocked
    · rw [if_neg hmem] at hw
      exact hok.frame hw id rfl
  case wakes =>
    rw [leave_pc]
    by_cases hxt : x = t
    · subst hxt
      rw [Function.update_self, Function.update_self]
      refine ⟨fun st w rest hx hK => ?_, fun hx => ?_, fun w hm => ?_, fun th w rest hx => ?_,
        fun th w rest hx => ?_, fun st w w' hx => ?_⟩
      · obtain ⟨_, hsl, _, hc⟩ := hsome st w rest hx
        exact hc (hsl ▸ hK)
      · cases hw : e.pc.wakes with
        | none => exact hnone hw
        | some v =>
          obtain ⟨st, w, rest⟩ := v
          exact hd ((hsome st w rest hw).2.1 ▸ hx st w rest hw)
      · obtain ⟨hK, hpl, hsl⟩ := hlisted w hm
        obtain ⟨hsig, md, hmd, hheld⟩ := htaken w hm
        have hw := hwaiter w (hsl ▸ hK)
        rw [if_pos hm] at hw
        exact ⟨(congrArg Waiter.signaled hw).trans hsig, o, md, hsl ▸ hK, congrArg Waiter.place hw,
          hsl.symm, (hwait' w.owner).trans hmd, hheld⟩
      · obtain hst | hst := (hsome _ w rest hx).1 <;> cases hst
      · obtain hst | hst := (hsome _ w rest hx).1 <;> cases hst
      · cases (hsome st w _ hx).2.2.1
    · rw [Function.update_of_ne hxt, Function.update_of_ne hxt]
      refine (h.wakes x).frame (fun _ _ => rfl) rfl (fun w o' md hw _ => ⟨?_, hwait' w.owner⟩)
        fun _ _ _ _ _ => id
      exact hkeep hw.tracked (by rw [hw.place]; simp)
  case typedHead =>
    obtain ⟨rfl, hm⟩ | ⟨-, hw⟩ := update_cases (P := fun r : WaitList Rec => r.head = some w) hw
    · exact hwl w (.inl hm)
    · exact h.typedHead o' w hw
  case typedTail =>
    obtain ⟨rfl, hm⟩ | ⟨-, hw⟩ := update_cases (P := fun r : WaitList Rec => r.tail = some w) hw
    · exact hwl w (.inr hm)
    · exact h.typedTail o' w hw

theorem update_nil (h : Inv c K s q ch) (hwakes : (s.pc t).wakes = none) :
    Function.update ch t [] = ch := by
  rw [← h.no_chain hwakes, Function.update_eq_self]

/-- `wl_pop` takes the first record off the list. -/
theorem pop (h : Inv c K s q ch) {o : Obj} {k : UnlockRet} (hlock : s.slock o = none)
    (hwait : (s.pc t).wait = k.wait) :
    ∃ d, (K o.slot → d = (q o).take 1) ∧
      Inv c K (s.pop t o k) (Function.update q o (q o).tail) (Function.update ch t d) := by
  unfold State.pop
  cases hhead : (s.wl o).head with
  | none =>
    have hpop : wlPop s.next (s.wl o) = (none, s.wl o) := by simp [wlPop, hhead]
    simp only [hpop]
    have hq : K o.slot → q o = [] := fun hK => by
      have hp := (h.rep o hK).path.head_eq
      rw [hhead] at hp
      exact List.head?_eq_none_iff.mp hp.symm
    have hrep : K o.slot → Rep s.next (s.wl o) (q o).tail := fun hK => by
      have hr := h.rep o hK
      rw [hq hK] at hr ⊢
      exact hr
    refine ⟨[], fun hK => by rw [hq hK]; rfl, ?_⟩
    have ht : Inv c K (({ s with
        wl := Function.update s.wl o (s.wl o)
        waiter := s.waiter } : State).leave t k.exit) (Function.update q o (q o).tail)
        (Function.update ch t []) :=
      h.take (d := []) hlock (fun hK => ⟨by rw [hq hK]; rfl, hrep hK⟩)
      (fun _ => rfl) (fun w hw => hw.elim (h.typedHead o w) (h.typedTail o w)) (by simp)
      (fun _ _ => id) (by simp [hwait]) (fun _ => rfl) (by simp)
    simpa only [Function.update_eq_self] using ht
  | some w =>
    have hpop : wlPop s.next (s.wl o) = (some w, (wlPop s.next (s.wl o)).2) := by
      simp [wlPop, hhead]
    have hslot := h.typedHead o w hhead
    rw [hpop]
    dsimp only
    have hwl : ∀ w', (wlPop s.next (s.wl o)).2.head = some w' ∨
        (wlPop s.next (s.wl o)).2.tail = some w' → w'.slot = o.slot := by
      intro w' hw
      obtain hw | hw := wlPop_ends hhead hw
      · exact (h.typedNext w w' hw).trans hslot
      · exact h.typedTail o w' hw
    have hplace : ∀ w' o', (Function.update s.waiter w
        { s.waiter w with place := .taken t (s.op t) } w').place = .listed o' →
        (s.waiter w').place = .listed o' := by
      intro w' o' hw
      obtain ⟨-, hw⟩ | ⟨-, hw⟩ := update_cases (P := fun r : Waiter => r.place = .listed o') hw
      · cases hw
      · exact hw
    by_cases hK : K o.slot
    · obtain ⟨l, hl⟩ : ∃ l, q o = w :: l := by
        have hp := (h.rep o hK).path.head_eq
        rw [hhead] at hp
        exact List.head?_eq_some_iff.mp hp.symm
      refine ⟨[w], fun _ => by simp [hl], ?_⟩
      rw [hl, List.tail_cons]
      refine h.take (d := [w]) (l := l) hlock (fun _ => ⟨hl, ?_⟩) (fun hn => absurd hK hn)
        hwl ?_ hplace hwait.symm ?_ ?_
      · exact (rep_pop (hl ▸ h.rep o hK)).2
      · intro w' _
        by_cases hw : w' = w <;> simp [hw]
      · simp [Exit.to, Pc.wakes]
      · rintro st w' rest hx
        simp only [Exit.to, Pc.wakes, Option.some.injEq, Prod.mk.injEq] at hx
        obtain ⟨rfl, rfl, rfl⟩ := hx
        exact ⟨.inr rfl, hslot, rfl, fun _ => ⟨[], rfl, List.not_mem_nil, rfl⟩⟩
    · refine ⟨[], fun hn => absurd hn hK, ?_⟩
      refine h.take (d := []) (l := (q o).tail) hlock (fun hn => absurd hn hK) (fun _ => rfl)
        hwl ?_ hplace hwait.symm (fun _ => rfl) ?_
      · intro w' hK'
        have hw : w' ≠ w := by rintro rfl; exact hK (hslot ▸ hK')
        simp [hw]
      · rintro st w' rest hx
        simp only [Exit.to, Pc.wakes, Option.some.injEq, Prod.mk.injEq] at hx
        obtain ⟨rfl, rfl, rfl⟩ := hx
        exact ⟨.inr rfl, hslot, rfl, fun hn => absurd hn hK⟩

/-- A broadcast or a successful set takes all records off the list. -/
theorem detach (h : Inv c K s q ch) {o : Obj} {k : UnlockRet} (hlock : s.slock o = none)
    (hwait : (s.pc t).wait = k.wait) :
    ∃ d, (K o.slot → d = q o) ∧
      Inv c K (s.detach t o k) (Function.update q o []) (Function.update ch t d) := by
  unfold State.detach
  have hplace : ∀ w o', (if (s.waiter w).place = .listed o
      then { s.waiter w with place := .taken t (s.op t) } else s.waiter w).place = .listed o' →
      (s.waiter w).place = .listed o' := by
    intro w o'; split <;> simp
  by_cases hK : K o.slot
  · refine ⟨q o, fun _ => rfl, h.take (d := q o) (l := []) hlock
      (fun _ => ⟨by simp, rep_empty _⟩) (fun hn => absurd hK hn) (by simp) ?_ hplace
      (by simp [hwait]) ?_ ?_⟩
    · intro w _; simp only [h.listed o w hK]
    · intro hn
      have hp := (h.rep o hK).path
      simp only [wakeRest_wakes, Option.map_eq_none_iff] at hn
      rw [hn] at hp
      exact hp.unique (show Path s.next none [] from rfl)
    · intro st w rest hx
      simp only [wakeRest_wakes, Option.map_eq_some_iff, Prod.mk.injEq] at hx
      obtain ⟨w', hw', rfl, rfl, rfl⟩ := hx
      exact ⟨.inl rfl, h.typedHead o _ hw', rfl, fun _ =>
        show Path s.next (some w') (q o) from hw' ▸ (h.rep o hK).path⟩
  · refine ⟨[], fun hn => absurd hn hK, h.take (d := []) (l := []) hlock
      (fun hn => absurd hn hK) (fun _ => rfl) (by simp) ?_ hplace (by simp [hwait])
      (fun _ => rfl) ?_⟩
    · intro w hKw
      have hw : (s.waiter w).place ≠ .listed o := fun hp => hK (h.typedPlace o w hp ▸ hKw)
      simp [hw]
    · intro st w rest hx
      simp only [wakeRest_wakes, Option.map_eq_some_iff, Prod.mk.injEq] at hx
      obtain ⟨w', hw', rfl, rfl, rfl⟩ := hx
      exact ⟨.inl rfl, h.typedHead o _ hw', rfl, fun hn => absurd hn hK⟩

/-- A step of a waker that reads the record: `next`, then `thread`. -/
theorem read (h : Inv c K s q ch) {e : Exit} {st st' : Stage} {w : Rec} {rest rest' : Option Rec}
    (hwait : e.pc.wait = (s.pc t).wait) (hwakes : (s.pc t).wakes = some (st, w, rest))
    (hwakes' : e.pc.wakes = some (st', w, rest'))
    (hchain : K w.slot → ChainOk s.next st w rest (ch t) → ChainOk s.next st' w rest' (ch t))
    (hrest : ∀ w', rest' = some w' → w'.slot = w.slot)
    (hst : st' = .thread ∨ st' = .store (s.waiter w).thread) : Inv c K (s.leave t e) q ch := by
  have hwait' := wait_update hwait
  have hsame : ∀ x, WakesOk K (s.leave t e) x (s.pc x).wakes (ch x) := fun x =>
    (h.wakes x).frame (fun _ _ => rfl) rfl (fun w _ _ _ _ => ⟨rfl, hwait' w.owner⟩)
      fun _ _ _ _ _ => id
  refine { h with
    onList := fun o w' hK hw => ?onList
    waits := fun u => ?waits
    wakes := fun x => ?wakes }
  case onList =>
    obtain ⟨hs, md, hmd⟩ := h.onList o w' hK hw
    exact ⟨hs, md, (hwait' w'.owner).trans hmd⟩
  case waits =>
    rw [leave_pc, hwait']
    exact (h.waits u).frame rfl (fun _ _ _ _ => rfl) fun _ _ => id
  case wakes =>
    by_cases hxt : x = t
    · subst hxt
      rw [leave_self, hwakes']
      refine ⟨?_, fun hn => (h.wakes x).noChain ?_, (hsame x).chained, ?_, ?_, ?_⟩
      · rintro _ _ _ ⟨⟩ hK
        exact hchain hK ((h.wakes x).chain st w rest hwakes hK)
      · rw [hwakes]
        rintro _ _ _ ⟨⟩
        exact hn st' w rest' rfl
      · rintro th _ _ ⟨⟩ _
        obtain hst | hst := hst <;> cases hst
        rfl
      · rintro th _ _ ⟨⟩
        obtain hst | hst := hst <;> cases hst
      · rintro _ _ w' ⟨⟩
        exact hrest w' rfl
    · rw [leave_pc, Function.update_of_ne hxt]
      exact hsame x

/-- The store to `signaled`. -/
theorem store (h : Inv c K s q ch) {w : Rec} {th : Option Nat} {rest : Option Rec} {k : UnlockRet}
    (hpc : s.pc t = .wakeStore w th rest k) :
    ∃ l, (K w.slot → l = (ch t).tail) ∧ Inv c K ((({ s with
      waiter := Function.update s.waiter w { s.waiter w with signaled := true } } : State)).leave t
      (k.awaken w (s.waiter w).timed rest th)) q (Function.update ch t l) := by
  have hwakes : (s.pc t).wakes = some (.store th, w, rest) := by rw [hpc]; rfl
  have hwait := wait_update (s := s) (t := t) (show (k.awaken w (s.waiter w).timed rest th).pc.wait =
    (s.pc t).wait by rw [hpc, awaken_wait]; rfl)
  obtain ⟨l, hl, hl'⟩ : ∃ l, (K w.slot → ch t = w :: l ∧ w ∉ l ∧ Path s.next rest l) ∧
      (¬ K w.slot → l = []) := by
    by_cases hK : K w.slot
    · obtain ⟨l, hl⟩ := (h.wakes t).chain _ w rest hwakes hK
      exact ⟨l, fun _ => hl, fun hn => absurd hK hn⟩
    · exact ⟨[], fun hn => absurd hn hK, fun _ => rfl⟩
  have hrest : ∀ v, rest = some v → v.slot = w.slot := fun v hv =>
    (h.wakes t).typedRest (.store th) w v (hv ▸ hwakes)
  refine ⟨l, fun hK => by rw [(hl hK).1]; rfl, ?_⟩
  -- the signaled record is in the hands of the caller and of nobody else
  have hhands : K w.slot → (s.waiter w).signaled = false ∧ ∃ o md, InHands K s t w o md := fun hK =>
    (h.wakes t).store_hands hwakes hK
  have hplace : ∀ v, (Function.update s.waiter w { s.waiter w with signaled := true } v).place =
      (s.waiter v).place := update_congr Waiter.place rfl
  have hother : ∀ v, v ≠ w →
      Function.update s.waiter w { s.waiter w with signaled := true } v = s.waiter v :=
    fun v hv => Function.update_of_ne hv _ _
  refine { h with
    listed := fun o v hK => (h.listed o v hK).trans (by rw [← hplace v]; rfl)
    onList := fun o v hK hv => ?onList
    waits := fun u => ?waits
    wakes := fun x => ?wakes
    typedPlace := fun o v hv => h.typedPlace o v ((hplace v).symm.trans hv) }
  case onList =>
    have hp := (hplace v).symm.trans hv
    have hne : v ≠ w := by
      rintro rfl
      obtain ⟨_, _, _, hm⟩ := hhands (h.typedPlace o v hp ▸ hK)
      have := hp.symm.trans hm.place
      cases this
    obtain ⟨hs, md, hmd⟩ := h.onList o v hK hp
    exact ⟨(congrArg Waiter.signaled (hother v hne)).trans hs, md, (hwait v.owner).trans hmd⟩
  case waits =>
    rw [leave_pc, hwait]
    refine ⟨fun o md hu hK => ?_, (h.waits u).blocked, (h.waits u).timedSlot⟩
    have hok := (h.waits u).record o md hu hK
    by_cases hw : (⟨u, o.slot⟩ : Rec) = w
    · subst hw
      refine ⟨?_, ?_, ?_, hok.lock, fun hb => ⟨(hok.blocked hb).1, fun _ => ?_⟩, hok.spin⟩
      all_goals simp only [State.leave, Function.update_self]
      · exact hok.thread
      · exact hok.timed
      · exact hok.place
    · exact hok.frame (hother _ hw) id rfl
  case wakes =>
    rw [leave_pc]
    by_cases hxt : x = t
    · subst hxt
      rw [Function.update_self, Function.update_self]
      -- the records that are still to be signaled are left alone
      have hc : ∀ {s' : State}, s'.op = s.op →
          s'.waiter = Function.update s.waiter w { s.waiter w with signaled := true } →
          (∀ u, (s'.pc u).wait = (s.pc u).wait) →
          ∀ v ∈ l, (s'.waiter v).signaled = false ∧ ∃ o md, InHands K s' x v o md := by
        intro s' hop hwaiter hsame v hv
        have hK : K w.slot := by
          by_contra hK; rw [hl' hK] at hv; cases hv
        obtain ⟨hch, hnd, -⟩ := hl hK
        obtain ⟨hs, o, md, hm⟩ := (h.wakes x).chained v (hch ▸ List.mem_cons_of_mem _ hv)
        have he : s'.waiter v = s.waiter v := by
          rw [hwaiter]
          exact hother v fun he => hnd (he ▸ hv)
        rw [he]
        exact ⟨hs, o, md, hm.frame (by rw [hop]) (by rw [he]) (hsame _)⟩
      cases th with
      | none =>
        rw [show (k.awaken w (s.waiter w).timed rest none).pc.wakes = _ from wakeRest_wakes k rest]
        refine .rest (fun hK => (hl hK).2.2) hl' hrest (hc ?_ ?_ hwait) <;> rfl
      | some u =>
        refine ⟨?_, fun hn => hl' (hn _ _ _ rfl), hc rfl rfl hwait, nofun, ?_, ?_⟩
        · rintro _ _ _ ⟨⟩ hK
          exact (hl hK).2.2
        · rintro th v r hst hK
          -- the record of an untimed wait of a ULT: its owner is BLOCKED
          obtain ⟨hth, rfl, -⟩ : Stage.awaken u (s.waiter w).timed = .awaken th false ∧ w = v ∧
            rest = r := by simpa [UnlockRet.awaken, Exit.to, Pc.wakes] using hst
          obtain ⟨rfl, htm⟩ := Stage.awaken.inj hth
          obtain ⟨hs, o, md, hm⟩ := hhands hK
          have hv : w = ⟨w.owner, o.slot⟩ := by rw [hm.slot]
          have hok := (h.waits w.owner).record o md hm.wait (hm.slot ▸ hK)
          have hst := (h.wakes x).stored _ w rest hwakes hK
          rw [hv, hok.thread] at hst
          split at hst
          · rename_i hult
            obtain rfl : u = w.owner := Option.some.inj hst
            have hblk : md = .blocked := by
              cases md with
              | held b => cases hm.past
              | blocked => rfl
              | spin =>
                rw [hok.spin rfl] at hult
                cases hult
              | timed =>
                rw [hv, hok.timed] at htm
                cases htm
            subst hblk
            refine ⟨rfl, by simp [State.leave], ?_, o, hm.frame rfl (hplace w) (hwait w.owner)⟩
            show s.blk w.owner = true
            cases hb : s.blk w.owner with
            | true => rfl
            | false =>
              have := (hok.blocked rfl).2 hb
              rw [← hv, hs] at this
              cases this
          · cases hst
        · rintro _ _ v ⟨⟩
          exact hrest v rfl
    · rw [Function.update_of_ne hxt, Function.update_of_ne hxt]
      refine (h.wakes x).frame (fun _ _ => rfl) rfl (fun v o md hv _ => ⟨hother v ?_, hwait v.owner⟩)
        fun _ _ _ _ _ => id
      rintro rfl
      obtain ⟨_, _, _, hm⟩ := hhands hv.tracked
      have := hv.place.symm.trans hm.place
      exact hxt (Place.taken.inj this).1

/-- `CthAwakenIfBlocked`. Where the record is not that of an untimed wait, the thread it names must
not be BLOCKED in a wait with a tracked record. -/
theorem awaken_step (h : Inv c K s q ch) {u : Nat} {w : Rec} {tm : Bool} {rest : Option Rec}
    {k : UnlockRet} (hpc : s.pc t = .wakeAwaken u w tm rest k)
    (hlate : tm = true ∨ ¬ K w.slot →
      ∀ o, (s.pc u).wait = some (o, .blocked) → K o.slot → s.blk u = false) :
    Inv c K ((({ s with blk := Function.update s.blk u false } : State)).leave t
      (k.wakeRest rest)) q ch := by
  have hwakes : (s.pc t).wakes = some (.awaken u tm, w, rest) := by rw [hpc]; rfl
  have hwait := wait_update (s := s) (t := t) (show (k.wakeRest rest).pc.wait = (s.pc t).wait by
    rw [hpc, wakeRest_wait]; rfl)
  -- the woken ULT is woken by the operation that has its record, or it was not BLOCKED
  have hwoken : ∀ {o}, (s.pc u).wait = some (o, .blocked) → K o.slot → s.blk u = false ∨
      (s.waiter ⟨u, o.slot⟩).signaled = true ∧
        (s.waiter ⟨u, o.slot⟩).place = .taken t (s.op t) := by
    intro o ho hK
    by_cases hcase : tm = true ∨ ¬ K w.slot
    · exact .inl (hlate hcase o ho hK)
    · rw [not_or, not_not, Bool.not_eq_true] at hcase
      obtain ⟨rfl, hKw⟩ := hcase
      obtain ⟨how, hs, _, o', hm⟩ := (h.wakes t).awaken u w rest hwakes hKw
      have ho' := hm.wait
      rw [how, ho] at ho'
      cases ho'
      have hwr : w = ⟨u, o.slot⟩ := by rw [← how, hm.slot]
      exact .inr (hwr ▸ ⟨hs, hm.place⟩)
  refine { h with
    onList := fun o v hK hv => ?onList
    waits := fun v => ?waits
    wakes := fun x => ?wakes }
  case onList =>
    obtain ⟨hs, md, hmd⟩ := h.onList o v hK hv
    exact ⟨hs, md, (hwait v.owner).trans hmd⟩
  case waits =>
    rw [leave_pc, hwait]
    by_cases hvu : v = u
    · subst hvu
      refine ⟨fun o md hv hK => ?_, fun hb => ?_, (h.waits v).timedSlot⟩
      · have hok := (h.waits v).record o md hv hK
        refine ⟨hok.thread, hok.timed, hok.place, hok.lock, ?_, hok.spin⟩
        rintro rfl
        refine ⟨(hok.blocked rfl).1, fun _ => ?_⟩
        obtain hb | ⟨hs, -⟩ := hwoken hv hK
        · exact (hok.blocked rfl).2 hb
        · exact hs
      · have hb : Function.update s.blk v false v = true := hb
        rw [Function.update_self] at hb
        cases hb
    · exact (h.waits v).frame (Function.update_of_ne hvu ..) (fun _ _ _ _ => rfl) fun _ _ => id
  case wakes =>
    rw [leave_pc]
    by_cases hxt : x = t
    · subst hxt
      rw [Function.update_self, wakeRest_wakes]
      refine .rest (w := w) (fun hK => (h.wakes x).chain _ w rest hwakes hK) (fun hK => ?_)
        (fun v hv => (h.wakes x).typedRest _ w v (hv ▸ hwakes)) fun v hv => ?_
      · refine (h.wakes x).noChain fun st v r hv => ?_
        rw [hwakes] at hv
        cases hv
        exact hK
      · obtain ⟨hs, o, md, hm⟩ := (h.wakes x).chained v hv
        exact ⟨hs, o, md, hm.frame rfl rfl (hwait v.owner)⟩
    · rw [Function.update_of_ne hxt]
      refine (h.wakes x).frame (fun _ _ => rfl) rfl (fun v _ _ _ _ => ⟨rfl, hwait v.owner⟩)
        fun th v r hv hK hb => (Function.update_of_ne ?_ ..).trans hb
      -- two wakers of one thread would both have taken its record
      rintro rfl
      obtain ⟨how, _, _, o, hm⟩ := (h.wakes x).awaken th v r hv hK
      have hvr : v = ⟨th, o.slot⟩ := by rw [← how, hm.slot]
      obtain hb' | ⟨-, hp⟩ := hwoken (how ▸ hm.wait) (hm.slot ▸ hK)
      · rw [hb'] at hb
        cases hb
      · rw [← hvr, hm.place] at hp
        exact hxt (Place.taken.inj hp).1

/-- A timed wait ends by taking its own record off the list. -/
theorem remove (h : Inv c K s q ch) (out : Nat → Option Outcome) {o : Obj} {fuel : Nat} {e : Exit}
    {removed : Bool} {next : Rec → Option Rec} {wl : WaitList Rec} (hK : K o.slot)
    (hwait : (s.pc t).wait = some (o, .timed)) (hwakes : (s.pc t).wakes = none)
    (hplace : (s.waiter ⟨t, o.slot⟩).place = .listed o)
    (hwait' : e.pc.wait = none) (hwakes' : e.pc.wakes = none)
    (hr : wlRemove s.next (s.wl o) ⟨t, o.slot⟩ fuel = some (removed, next, wl)) :
    removed = true ∧ ∃ q', Inv c K ((({ s with
      next := next
      wl := Function.update s.wl o wl
      waiter := if removed then Function.update s.waiter ⟨t, o.slot⟩
          { s.waiter ⟨t, o.slot⟩ with place := .off }
        else s.waiter
      outcome := out } : State)).leave t e) q' ch := by
  obtain ⟨hmem, hrep, hother⟩ := rep_remove (h.rep o hK) hr
  have hw : (⟨t, o.slot⟩ : Rec) ∈ q o := (h.listed o _ hK).mpr hplace
  obtain rfl : removed = true := hmem.mpr hw
  refine ⟨rfl, Function.update q o ((q o).erase ⟨t, o.slot⟩), ?_⟩
  simp only [if_true] at hrep hother ⊢
  have hnd := (h.rep o hK).path.nodup
  have herase : ∀ u, u ∈ (q o).erase ⟨t, o.slot⟩ ↔ u ≠ ⟨t, o.slot⟩ ∧ u ∈ q o := fun u =>
    hnd.mem_erase_iff
  have hkeep : ∀ u, (s.waiter u).place ≠ .listed o → next u = s.next u := fun u hu =>
    hother u fun hm => hu ((h.listed o u hK).mp ((herase u).mp hm).2)
  have hpc : ∀ {w : Rec} {o' : Obj} {md}, w.slot = o'.slot → (s.pc w.owner).wait = some (o', md) →
      w ≠ ⟨t, o.slot⟩ → (Function.update s.pc t e.pc w.owner).wait = (s.pc w.owner).wait := by
    rintro ⟨u, sl⟩ o' md hsl hu hne
    rw [Function.update_of_ne]
    rintro rfl
    rw [hwait] at hu
    obtain ⟨rfl, _⟩ := Prod.mk.inj (Option.some.inj hu)
    exact hne (congrArg (Rec.mk u) hsl)
  have hslot : ∀ u ∈ q o, u.slot = o.slot := fun u hu => h.typedPlace o u ((h.listed o u hK).mp hu)
  have hrec : ∀ {w : Rec}, w ≠ ⟨t, o.slot⟩ → Function.update s.waiter ⟨t, o.slot⟩
      { s.waiter ⟨t, o.slot⟩ with place := .off } w = s.waiter w := fun hw =>
    Function.update_of_ne hw ..
  refine {
    rep := fun o' hK' => ?rep
    listed := fun o' w hK' => ?listed
    onList := fun o' w hK' hw' => ?onList
    waits := fun u => ?waits
    wakes := fun x => ?wakes
    typedNext := fun v v' hv => ?typedNext
    typedHead := fun o' w hw' => ?typedHead
    typedTail := fun o' w hw' => ?typedTail
    typedPlace := fun o' w hw' => ?typedPlace }
  case rep =>
    show Rep next (Function.update s.wl o wl o') (Function.update q o _ o')
    by_cases ho : o' = o
    · subst ho
      rw [Function.update_self, Function.update_self]
      exact hrep
    · rw [Function.update_of_ne ho, Function.update_of_ne ho]
      refine ⟨(h.rep o' hK').path.congr fun u hu => hkeep u ?_, (h.rep o' hK').tail⟩
      rw [(h.listed o' u hK').mp hu]
      exact fun he => ho (Place.listed.inj he)
  case listed =>
    show w ∈ Function.update q o _ o' ↔ (Function.update s.waiter ⟨t, o.slot⟩ _ w).place = _
    by_cases hwr : w = ⟨t, o.slot⟩
    · rw [hwr, Function.update_self]
      refine ⟨fun hm => ?_, fun hp => by cases hp⟩
      obtain ⟨-, hm⟩ | ⟨ho, hm⟩ := update_cases (P := fun r : List Rec => _ ∈ r) hm
      · exact absurd rfl ((herase _).mp hm).1
      · have := ((h.listed o' _ hK').mp hm).symm.trans hplace
        exact absurd (Place.listed.inj this) ho
    · rw [hrec hwr]
      by_cases ho : o' = o
      · subst ho
        rw [Function.update_self, herase, ← h.listed o' w hK']
        exact and_iff_right hwr
      · rw [Function.update_of_ne ho]
        exact h.listed o' w hK'
  case onList =>
    obtain ⟨-, hp⟩ | ⟨hne, hp⟩ := update_cases (P := fun r : Waiter => r.place = .listed o') hw'
    · cases hp
    · obtain ⟨hs, md, hmd⟩ := h.onList o' w hK' hp
      exact ⟨(congrArg Waiter.signaled (hrec hne)).trans hs, md,
        (hpc (h.typedPlace o' w hp) hmd hne).trans hmd⟩
  case waits =>
    by_cases hut : u = t
    · subst hut
      rw [leave_self, hwait']
      exact .idle (h.not_blk (by simp [hwait]))
    · rw [leave_pc, Function.update_of_ne hut]
      exact (h.waits u).frame rfl (fun _ _ _ _ => hrec fun he => hut (Rec.mk.inj he).1) fun _ _ => id
  case wakes =>
    rw [leave_pc, wakes_update (hwakes'.trans hwakes.symm)]
    refine (h.wakes x).frame (fun u hu => hkeep u ?_) rfl (fun w o' md hw _ => ?_) fun _ _ _ _ _ => id
    · obtain ⟨_, _, _, hm⟩ := (h.wakes x).chained u hu
      rw [hm.place]
      simp
    · -- the record of the caller is on the list, so nobody has taken it
      have hne : w ≠ ⟨t, o.slot⟩ := by
        rintro rfl
        have := hplace.symm.trans hw.place
        cases this
      exact ⟨hrec hne, hpc hw.slot.symm hw.wait hne⟩
  case typedNext =>
    by_cases hm : v ∈ (q o).erase ⟨t, o.slot⟩
    · have hm' := hrep.path.next_mem hm hv
      rw [hslot v ((herase v).mp hm).2, hslot v' ((herase v').mp hm').2]
    · exact h.typedNext v v' (hother v hm ▸ hv)
  case typedHead =>
    obtain ⟨rfl, hm⟩ | ⟨-, hm⟩ := update_cases (P := fun r : WaitList Rec => r.head = some w) hw'
    · have := hrep.path.head_eq
      rw [hm] at this
      exact hslot w ((herase w).mp (List.mem_of_head? this.symm)).2
    · exact h.typedHead o' w hm
  case typedTail =>
    obtain ⟨rfl, hm⟩ | ⟨-, hm⟩ := update_cases (P := fun r : WaitList Rec => r.tail = some w) hw'
    · have := hrep.tail
      rw [hm] at this
      exact hslot w ((herase w).mp (List.mem_of_getLast? this.symm)).2
    · exact h.typedTail o' w hm
  case typedPlace =>
    obtain ⟨-, hp⟩ | ⟨-, hp⟩ := update_cases (P := fun r : Waiter => r.place = .listed o') hw'
    · cases hp
    · exact h.typedPlace o' w hp

/-- Nothing is waited for yet. -/
theorem start : Inv c K (initial c) (fun _ => []) fun _ => [] := by
  refine ⟨?_, ?_, ?_, fun _ => .idle rfl, fun _ => .idle, ?_, ?_, ?_, ?_⟩
  case refine_1 => exact fun o _ => rep_empty _
  all_goals simp [initial]

theorem setMutex (h : Inv c K s q ch) (m : Nat) (x : Mutex) : Inv c K (s.setMutex m x) q ch :=
  h.same rfl rfl rfl rfl rfl rfl (fun _ => rfl) fun _ => rfl

theorem setEventual (h : Inv c K s q ch) (ready : Nat → Bool) (value : Nat → List UInt8) :
    Inv c K { s with ready := ready, value := value } q ch :=
  h.same rfl rfl rfl rfl rfl rfl (fun _ => rfl) fun _ => rfl

end Inv

end Sync
end AbtReconverse
