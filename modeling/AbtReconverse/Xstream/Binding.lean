import Mathlib.Logic.Function.Iterate

/-!
# AbtReconverse.Xstream.Binding

Binding xstreams to CPUs on Linux, with a fixed set of allowed CPUs. An xstream has `cpubind` and
`affinity`; a PE has the mask of its thread and a queue of messages, which bind the thread when they
are delivered. The setters check and write at once and send; the getters prefer the fields and fall
back on the mask. What `CmiSetCPUAffinity` makes of the mask of the calling thread is up to
Reconverse: it is the parameter `cmi`, of which `Binds` is the only thing that is asked.

`binding_consistent` says when a call and the reports are consistent at a later time, after any
deliveries. `ABT_xstream_set_cpubind` does not write `affinity`, so that a list set before stays
reported, and without one the old mask is reported until the message is delivered.
`ABT_xstream_set_affinity` writes `affinity` before the check.
-/

namespace AbtReconverse
namespace Binding

inductive Ret where
  | success
  | invXstream
  | other
  | featureNa
  deriving DecidableEq, Repr

inductive Msg where
  | lease (x : Nat)
  | affinity (c : Int)
  deriving DecidableEq, Repr

structure Xs where
  rank : Nat
  /-- Negative: unset. -/
  cpubind : Int
  affinity : List Int
  /-- `thread_known`; the thread is that of PE `rank`, which the lease is sent to. -/
  threadKnown : Bool
  deriving DecidableEq, Repr

structure Pe where
  /-- `pe_thread_known`. -/
  known : Bool
  /-- The CPUs of the thread's mask, in ascending order; none if it cannot be read. -/
  mask : List Int
  queue : List Msg
  deriving DecidableEq, Repr

@[ext] structure State where
  xstream : Nat → Xs
  pe : Nat → Pe

namespace State

def setXs (s : State) (x : Nat) (o : Xs) : State :=
  { s with xstream := Function.update s.xstream x o }

def setPe (s : State) (r : Nat) (e : Pe) : State := { s with pe := Function.update s.pe r e }

/-- `send_pe_msg` -/
def send (s : State) (r : Nat) (m : Msg) : State :=
  s.setPe r { s.pe r with queue := (s.pe r).queue ++ [m] }

end State

/-- `cpuid` is within `CPU_SETSIZE` and in the set that `sched_getaffinity` gives; if that fails the set
is empty. -/
def valid (allowed : Int → Bool) (c : Int) : Bool := decide (0 ≤ c ∧ c < 1024) && allowed c

/-! ### The setters -/

def setCpubind (allowed : Int → Bool) (s : State) (xstream : Option Nat) (c : Int) : Ret × State :=
  match xstream with
  | none => (.invXstream, s)
  | some x =>
    if valid allowed c then
      (.success,
        (s.setXs x { s.xstream x with cpubind := c }).send (s.xstream x).rank (.affinity c))
    else (.other, s)

/-- The list holds the first `num_cpuids` entries, none if that is negative. -/
def setAffinity (allowed : Int → Bool) (s : State) (xstream : Option Nat) (l : List Int) :
    Ret × State :=
  match xstream with
  | none => (.invXstream, s)
  | some x =>
    let s' := s.setXs x { s.xstream x with affinity := l }
    match l with
    | [] => (.success, s')
    | c :: _ => setCpubind allowed s' (some x) ((l.find? (valid allowed)).getD c)

/-! ### The getters, called on PE `self` or outside of the PEs -/

def osAffinity (s : State) (self : Option Nat) (x : Nat) : Option (List Int) :=
  let r := (s.xstream x).rank
  if ((s.xstream x).threadKnown || (s.pe r).known || self = some r) && (s.pe r).mask ≠ [] then
    some (s.pe r).mask
  else none

def getCpubind (s : State) (self xstream : Option Nat) : Except Ret Int :=
  match xstream with
  | none => .error .invXstream
  | some x =>
    if 0 ≤ (s.xstream x).cpubind then .ok (s.xstream x).cpubind
    else
      match osAffinity s self x with
      | some (c :: _) => .ok c
      | _ => .error .featureNa

/-- What is written to `cpuids` and to `num_cpuids`. -/
def report (l : List Int) (maxCpuids : Int) : Except Ret (List Int × Nat) :=
  .ok (l.take maxCpuids.toNat, l.length)

def getAffinity (s : State) (self xstream : Option Nat) (maxCpuids : Int) :
    Except Ret (List Int × Nat) :=
  match xstream with
  | none => .error .invXstream
  | some x =>
    if (s.xstream x).affinity ≠ [] then report (s.xstream x).affinity maxCpuids
    else
      match osAffinity s self x with
      | some l => report l maxCpuids
      | none => .error .featureNa

/-! ### The handlers -/

/-- What `CmiSetCPUAffinity(c)` on PE `r` makes of the mask of its thread. -/
abbrev SetMask := Nat → Int → List Int → List Int

def State.callSetCPUAffinity (cmi : SetMask) (s : State) (r : Nat) (c : Int) : State :=
  s.setPe r { s.pe r with mask := cmi r c (s.pe r).mask }

def handle (cmi : SetMask) (s : State) (r : Nat) : Msg → State
  | .lease x =>
    let s' := s.setXs x { s.xstream x with threadKnown := true }
    if 0 ≤ (s.xstream x).cpubind then s'.callSetCPUAffinity cmi r (s.xstream x).cpubind else s'
  | .affinity c => if 0 ≤ c then s.callSetCPUAffinity cmi r c else s

/-- PE `r` takes the next message. -/
def deliver (cmi : SetMask) (s : State) (r : Nat) : State :=
  match (s.pe r).queue with
  | [] => s
  | m :: q => handle cmi (s.setPe r { s.pe r with queue := q }) r m

def deliverAll (cmi : SetMask) (s : State) (rs : List Nat) : State := rs.foldl (deliver cmi) s

/-- `CmiSetCPUAffinity` binds to a CPU that passes the check of the setters. -/
def Binds (allowed : Int → Bool) (cmi : SetMask) : Prop :=
  ∀ r c m, valid allowed c = true → cmi r c m = [c]

/-! ### What a delivery does -/

/-- The CPU that a message binds to, with the `cpubind` of the xstreams. -/
def Msg.binds (cpubind : Nat → Int) : Msg → Int
  | .lease x => cpubind x
  | .affinity c => c

def State.cpubind (s : State) (x : Nat) : Int := (s.xstream x).cpubind

/-- PE `r` after the next message. -/
def Pe.next (cmi : SetMask) (r : Nat) (cpubind : Nat → Int) (e : Pe) : Pe :=
  match e.queue with
  | [] => e
  | m :: q =>
    { e with
      mask := if 0 ≤ m.binds cpubind then cmi r (m.binds cpubind) e.mask else e.mask
      queue := q }

section

variable {cmi : SetMask} {allowed : Int → Bool} {s : State} {r x : Nat}

theorem valid_nonneg {c : Int} (h : valid allowed c = true) : 0 ≤ c := by
  simp only [valid, Bool.and_eq_true, decide_eq_true_eq] at h
  exact h.1.1

theorem handle_pe (m : Msg) : (handle cmi s r m).pe = Function.update s.pe r
    { s.pe r with
      mask := if 0 ≤ m.binds s.cpubind then cmi r (m.binds s.cpubind) (s.pe r).mask
        else (s.pe r).mask } := by
  by_cases h : 0 ≤ m.binds s.cpubind
  · rw [if_pos h]
    cases m <;> exact congrArg State.pe (if_pos h)
  · rw [if_neg h, Function.update_eq_self]
    cases m <;> exact (congrArg State.pe (if_neg h)).trans rfl

theorem handle_xstream (m : Msg) (y : Nat) : (handle cmi s r m).xstream y =
    { s.xstream y with threadKnown := (s.xstream y).threadKnown || decide (m = .lease y) } := by
  cases m with
  | affinity c =>
    simp only [handle]
    split <;> simp [State.callSetCPUAffinity, State.setPe]
  | lease x =>
    have hlearn : (s.setXs x { s.xstream x with threadKnown := true }).xstream y =
        { s.xstream y with
          threadKnown := (s.xstream y).threadKnown || decide (Msg.lease x = .lease y) } := by
      by_cases hy : y = x
      · subst hy
        simp [State.setXs]
      · simp [State.setXs, hy, Ne.symm hy]
    simp only [handle]
    split <;> exact hlearn

theorem deliver_pe : (deliver cmi s r).pe =
    Function.update s.pe r ((s.pe r).next cmi r s.cpubind) := by
  unfold deliver Pe.next
  split
  · exact (Function.update_eq_self ..).symm
  · rw [handle_pe]
    simp only [State.setPe, Function.update_self, Function.update_idem]
    rfl

theorem deliver_xstream (y : Nat) : (deliver cmi s r).xstream y =
    { s.xstream y with
      threadKnown := (s.xstream y).threadKnown ||
        decide ((s.pe r).queue.head? = some (.lease y)) } := by
  unfold deliver
  split
  · rename_i hq
    simp [hq]
  · rename_i m q hq
    rw [handle_xstream]
    simp [hq, State.setPe]

theorem deliver_cpubind : (deliver cmi s r).cpubind = s.cpubind := by
  funext y
  rw [State.cpubind, deliver_xstream]
  rfl

/-! ### What any number of deliveries does -/

theorem deliverAll_pe (rs : List Nat) (r : Nat) : (deliverAll cmi s rs).pe r =
    (Pe.next cmi r s.cpubind)^[rs.count r] (s.pe r) := by
  induction rs generalizing s with
  | nil => rfl
  | cons r' rs ih =>
    have hrest := ih (s := deliver cmi s r')
    rw [deliver_cpubind, deliver_pe] at hrest
    by_cases hr : r' = r
    · rw [hr, List.count_cons_self, Function.iterate_succ_apply]
      rw [hr, Function.update_self] at hrest
      exact hrest
    · rw [List.count_cons_of_ne hr]
      rw [Function.update_of_ne (Ne.symm hr)] at hrest
      exact hrest

/-- Deliveries only make threads known. -/
theorem deliverAll_xstream (cmi : SetMask) (s : State) (rs : List Nat) (y : Nat) : ∃ b,
    (deliverAll cmi s rs).xstream y = { s.xstream y with threadKnown := b } := by
  induction rs generalizing s with
  | nil => exact ⟨_, rfl⟩
  | cons r rs ih =>
    obtain ⟨b, hb⟩ := ih (deliver cmi s r)
    rw [deliver_xstream] at hb
    exact ⟨b, hb⟩

/-- A message that binds to `c` and comes last in the queue has been delivered. -/
theorem next_sent (hb : Binds allowed cmi) {cpubind : Nat → Int} {c : Int}
    (hc : valid allowed c = true) {e : Pe} {k : Nat} (hk : e.queue.length < k) :
    ((Pe.next cmi r cpubind)^[k] { e with queue := e.queue ++ [.affinity c] }).mask = [c] := by
  obtain ⟨known, mask, queue⟩ := e
  induction queue generalizing mask k with
  | nil =>
    obtain ⟨k, rfl⟩ := Nat.exists_eq_succ_of_ne_zero (Nat.ne_of_gt hk)
    have hnext : Pe.next cmi r cpubind ⟨known, mask, [.affinity c]⟩ = ⟨known, [c], []⟩ := by
      simp [Pe.next, Msg.binds, valid_nonneg hc, hb r c mask hc]
    have hfix : Pe.next cmi r cpubind ⟨known, [c], []⟩ = ⟨known, [c], []⟩ := rfl
    rw [Function.iterate_succ_apply]
    dsimp only [List.nil_append]
    rw [hnext, Function.iterate_fixed hfix]
  | cons m q ih =>
    obtain ⟨k, rfl⟩ := Nat.exists_eq_succ_of_ne_zero (Nat.ne_of_gt (Nat.zero_lt_of_lt hk))
    rw [Function.iterate_succ_apply]
    exact ih _ (Nat.lt_of_succ_lt_succ hk)

/-! ### What is reported -/

/-- The thread of the xstream's PE can be asked by anyone. -/
def Known (s : State) (x : Nat) : Prop :=
  (s.xstream x).threadKnown = true ∨ (s.pe (s.xstream x).rank).known = true

/-- The mask of the thread of the xstream's PE. -/
def mask (s : State) (x : Nat) : List Int := (s.pe (s.xstream x).rank).mask

/-- Every caller of `ABT_xstream_get_affinity` gets the list `l`. -/
def Lists (s : State) (x : Nat) (l : List Int) : Prop :=
  ∀ self n, getAffinity s self (some x) n = report l n

/-- Every caller of `ABT_xstream_get_cpubind` gets `c`. -/
def Bound (s : State) (x : Nat) (c : Int) : Prop :=
  ∀ self, getCpubind s self (some x) = .ok c

theorem report_inj {l l' : List Int} (h : ∀ n, report l n = report l' n) : l = l' := by
  have hlen : l.length = l'.length := by
    have h0 := h 0
    simp only [report, Except.ok.injEq, Prod.mk.injEq] at h0
    exact h0.2
  have hall := h l.length
  simp only [report, Except.ok.injEq, Prod.mk.injEq, Int.toNat_natCast] at hall
  rw [List.take_length, hlen, List.take_length] at hall
  exact hall.1

/-- A caller outside of the PEs can ask a known thread only. -/
theorem osAffinity_none {l : List Int} :
    osAffinity s none x = some l ↔ Known s x ∧ l ≠ [] ∧ mask s x = l := by
  simp only [osAffinity, Known, mask]
  constructor
  · intro h
    simp only [reduceCtorEq, decide_false, Bool.or_false, Option.ite_none_right_eq_some,
      Bool.and_eq_true, Bool.or_eq_true, decide_eq_true_eq, Option.some.injEq] at h
    exact ⟨h.1.1, h.2 ▸ h.1.2, h.2⟩
  · rintro ⟨hk, hl, rfl⟩
    simp [Bool.or_eq_true, hk, hl]

theorem osAffinity_known (self : Option Nat) (hk : Known s x) (hm : mask s x ≠ []) :
    osAffinity s self x = some (mask s x) := by
  have hknown : ((s.xstream x).threadKnown || (s.pe (s.xstream x).rank).known) = true := by
    rw [Bool.or_eq_true]
    exact hk
  have hmask : (s.pe (s.xstream x).rank).mask ≠ [] := hm
  simp [osAffinity, hknown, hmask, mask]

theorem lists_iff {l : List Int} (hl : l ≠ []) : Lists s x l ↔
    (s.xstream x).affinity = l ∨ (s.xstream x).affinity = [] ∧ Known s x ∧ mask s x = l := by
  by_cases ha : (s.xstream x).affinity = []
  · simp only [Lists, getAffinity, ha, ne_eq, not_true_eq_false, if_false, Ne.symm hl, false_or,
      true_and]
    constructor
    · intro h
      cases hos : osAffinity s none x with
      | none =>
        have h0 := h none 0
        rw [hos] at h0
        cases h0
      | some l' =>
        obtain ⟨hk, -, hm⟩ := osAffinity_none.mp hos
        refine ⟨hk, hm.trans (report_inj fun n => ?_)⟩
        have hn := h none n
        rw [hos] at hn
        exact hn
    · rintro ⟨hk, rfl⟩ self n
      rw [osAffinity_known self hk hl]
  · simp only [Lists, getAffinity, ha, ne_eq, not_false_eq_true, if_true, false_and, or_false]
    exact ⟨fun h => report_inj (h none), fun h self n => by rw [h]⟩

theorem deliverAll_affinity (rs : List Nat) :
    ((deliverAll cmi s rs).xstream x).affinity = (s.xstream x).affinity := by
  obtain ⟨b, hx⟩ := deliverAll_xstream cmi s rs x
  rw [hx]

theorem bound_of_nonneg {c : Int} (hc : 0 ≤ c) (h : (s.xstream x).cpubind = c) (rs : List Nat) :
    Bound (deliverAll cmi s rs) x c := by
  intro self
  obtain ⟨b, hx⟩ := deliverAll_xstream cmi s rs x
  simp only [getCpubind, hx, h]
  rw [if_pos hc]

/-! ### The setters -/

/-- The assignment to `affinity`. -/
def State.setList (s : State) (x : Nat) (l : List Int) : State :=
  s.setXs x { s.xstream x with affinity := l }

theorem setList_xstream (l : List Int) (y : Nat) : (s.setList x l).xstream y =
    { s.xstream y with affinity := if y = x then l else (s.xstream y).affinity } := by
  by_cases hy : y = x
  · subst hy
    simp [State.setList, State.setXs]
  · simp [State.setList, State.setXs, hy]

theorem setList_cpubind (l : List Int) : (s.setList x l).cpubind = s.cpubind := by
  funext y
  rw [State.cpubind, setList_xstream]
  rfl

theorem deliver_setList (l : List Int) :
    deliver cmi (s.setList x l) r = (deliver cmi s r).setList x l := by
  apply State.ext
  · funext y
    rw [deliver_xstream, setList_xstream, setList_xstream, deliver_xstream]
    rfl
  · rw [deliver_pe, setList_cpubind]
    exact deliver_pe.symm

theorem deliverAll_setList (l : List Int) (rs : List Nat) :
    deliverAll cmi (s.setList x l) rs = (deliverAll cmi s rs).setList x l := by
  induction rs generalizing s with
  | nil => rfl
  | cons r rs ih =>
    have hstep : deliverAll cmi (s.setList x l) (r :: rs) =
        deliverAll cmi ((deliver cmi s r).setList x l) rs := by
      rw [← deliver_setList]
      rfl
    exact hstep.trans ih

theorem osAffinity_setList (l : List Int) (self : Option Nat) (y : Nat) :
    osAffinity (s.setList x l) self y = osAffinity s self y := by
  simp only [osAffinity, setList_xstream]
  rfl

theorem getCpubind_setList (l : List Int) (self y : Option Nat) :
    getCpubind (s.setList x l) self y = getCpubind s self y := by
  cases y with
  | none => rfl
  | some y => simp only [getCpubind, setList_xstream, osAffinity_setList]

theorem getAffinity_setList (l : List Int) (self : Option Nat) {y : Nat} (hy : y ≠ x) (n : Int) :
    getAffinity (s.setList x l) self (some y) n = getAffinity s self (some y) n := by
  simp only [getAffinity, setList_xstream, osAffinity_setList, if_neg hy]

theorem lists_setList {l : List Int} (hl : l ≠ []) : Lists (s.setList x l) x l := by
  refine (lists_iff hl).mpr (.inl ?_)
  rw [setList_xstream, if_pos rfl]

/-- What `ABT_xstream_set_cpubind` does with a CPU that passes its check. -/
def State.bindTo (s : State) (x : Nat) (c : Int) : State :=
  (s.setXs x { s.xstream x with cpubind := c }).send (s.xstream x).rank (.affinity c)

theorem bindTo_self (c : Int) : (s.bindTo x c).xstream x = { s.xstream x with cpubind := c } :=
  Function.update_self ..

theorem bindTo_pe (c : Int) : (s.bindTo x c).pe (s.xstream x).rank =
    { s.pe (s.xstream x).rank with
      queue := (s.pe (s.xstream x).rank).queue ++ [.affinity c] } :=
  Function.update_self ..

/-- The message of the last call of `ABT_xstream_set_cpubind` for `x` in state `s` is among the
deliveries `rs`. -/
def Delivered (s : State) (x : Nat) (rs : List Nat) : Prop :=
  (s.pe (s.xstream x).rank).queue.length < rs.count (s.xstream x).rank

theorem mask_delivered (hb : Binds allowed cmi) {c : Int} (hc : valid allowed c = true)
    {rs : List Nat} (hd : Delivered s x rs) : mask (deliverAll cmi (s.bindTo x c) rs) x = [c] := by
  obtain ⟨b, hx⟩ := deliverAll_xstream cmi (s.bindTo x c) rs x
  rw [mask, hx, bindTo_self, deliverAll_pe, bindTo_pe]
  exact next_sent hb hc hd

theorem bound_bindTo {c : Int} (hc : valid allowed c = true) (rs : List Nat) :
    Bound (deliverAll cmi (s.bindTo x c) rs) x c := by
  apply bound_of_nonneg (valid_nonneg hc)
  rw [bindTo_self]

theorem setCpubind_valid {c : Int} (hc : valid allowed c = true) :
    setCpubind allowed s (some x) c = (.success, s.bindTo x c) :=
  if_pos hc

theorem setCpubind_invalid {c : Int} (hc : ¬ valid allowed c = true) :
    setCpubind allowed s (some x) c = (.other, s) :=
  if_neg hc

theorem setAffinity_valid {l : List Int} {c : Int} (h : l.find? (valid allowed) = some c) :
    setAffinity allowed s (some x) l = (.success, (s.setList x l).bindTo x c) := by
  cases l with
  | nil => cases h
  | cons d l =>
    rw [setAffinity, h]
    exact setCpubind_valid (List.find?_some h)

theorem setAffinity_invalid {l : List Int} (hl : l ≠ []) (h : l.find? (valid allowed) = none) :
    setAffinity allowed s (some x) l = (.other, s.setList x l) := by
  cases l with
  | nil => exact absurd rfl hl
  | cons d l =>
    have hd := List.find?_eq_none.mp h d (List.mem_cons_self ..)
    rw [setAffinity, h]
    exact setCpubind_invalid hd

end

/-! ### Consistency -/

inductive Call where
  | setCpubind (xstream : Option Nat) (c : Int)
  | setAffinity (xstream : Option Nat) (l : List Int)
  deriving DecidableEq, Repr

def perform (allowed : Int → Bool) (s : State) : Call → Ret × State
  | .setCpubind x c => setCpubind allowed s x c
  | .setAffinity x l => setAffinity allowed s x l

/-- Both reports of every xstream are the same in the two states. -/
def Same (s s' : State) : Prop :=
  ∀ self y, getCpubind s' self y = getCpubind s self y ∧
    ∀ n, getAffinity s' self y n = getAffinity s self y n

/-- The reports after the call `c` in state `s` and then the deliveries `rs`. -/
structure Consistent (cmi : SetMask) (allowed : Int → Bool) (s : State) (c : Call) (rs : List Nat) :
    Prop where
  failed : (perform allowed s c).1 ≠ .success →
    Same (deliverAll cmi s rs) (deliverAll cmi (perform allowed s c).2 rs)
  cpubind : ∀ x cpu, c = .setCpubind (some x) cpu → (perform allowed s c).1 = .success →
    Bound (deliverAll cmi (perform allowed s c).2 rs) x cpu ∧
      Lists (deliverAll cmi (perform allowed s c).2 rs) x [cpu]
  affinity : ∀ x l, c = .setAffinity (some x) l → l ≠ [] → (perform allowed s c).1 = .success →
    Lists (deliverAll cmi (perform allowed s c).2 rs) x l ∧
      ∃ cpu, l.find? (valid allowed) = some cpu ∧
        Bound (deliverAll cmi (perform allowed s c).2 rs) x cpu

/-- A successful `ABT_xstream_set_cpubind`: `affinity` is the one CPU, or it is empty, the thread is
known, and the message has been delivered or the mask was that CPU anyway. A failing
`ABT_xstream_set_affinity`: its list would be reported without the call. -/
def Settled (cmi : SetMask) (allowed : Int → Bool) (s : State) (rs : List Nat) : Call → Prop
  | .setCpubind (some x) c =>
    valid allowed c = true → (s.xstream x).affinity = [c] ∨
      (s.xstream x).affinity = [] ∧ Known (deliverAll cmi (s.bindTo x c) rs) x ∧
        (Delivered s x rs ∨ mask (deliverAll cmi (s.bindTo x c) rs) x = [c])
  | .setAffinity (some x) l =>
    l ≠ [] → (∀ c ∈ l, ¬ valid allowed c = true) → (s.xstream x).affinity = l ∨
      (s.xstream x).affinity = [] ∧ Known (deliverAll cmi s rs) x ∧ mask (deliverAll cmi s rs) x = l
  | _ => True

section

variable {cmi : SetMask} {allowed : Int → Bool} {s : State} {x : Nat} {rs : List Nat}

theorem Same.refl : Same s s := fun _ _ => ⟨rfl, fun _ => rfl⟩

/-- An assignment to `affinity` is not seen iff the list was reported before. -/
theorem same_setList {l : List Int} (hl : l ≠ []) : Same s (s.setList x l) ↔ Lists s x l := by
  constructor
  · intro h self n
    rw [← (h self (some x)).2 n]
    exact lists_setList hl self n
  · intro h self y
    refine ⟨getCpubind_setList .., ?_⟩
    intro n
    cases y with
    | none => rfl
    | some y =>
      by_cases hy : y = x
      · subst hy
        rw [h self n]
        exact lists_setList hl self n
      · exact getAffinity_setList l self hy n

/-- A call that fails is consistent iff nobody sees it. -/
theorem consistent_of_failed {c : Call} {e : Ret} {s' : State} (h : perform allowed s c = (e, s'))
    (he : e ≠ .success) : Consistent cmi allowed s c rs ↔
      Same (deliverAll cmi s rs) (deliverAll cmi s' rs) := by
  constructor
  · intro hc
    have hsame := hc.failed
    rw [h] at hsame
    exact hsame he
  · intro hsame
    constructor
    · intro _
      rw [h]
      exact hsame
    · intro x d _ hok
      rw [h] at hok
      exact absurd hok he
    · intro x l _ _ hok
      rw [h] at hok
      exact absurd hok he

theorem setCpubind_consistent (hb : Binds allowed cmi) (c : Int) :
    Consistent cmi allowed s (.setCpubind (some x) c) rs ↔
      Settled cmi allowed s rs (.setCpubind (some x) c) := by
  by_cases hc : valid allowed c = true
  · have hdo : perform allowed s (.setCpubind (some x) c) = (.success, s.bindTo x c) :=
      setCpubind_valid hc
    have hlist : Lists (deliverAll cmi (s.bindTo x c) rs) x [c] ↔
        Settled cmi allowed s rs (.setCpubind (some x) c) := by
      rw [lists_iff (by simp), deliverAll_affinity, bindTo_self]
      have hmask : Delivered s x rs ∨ mask (deliverAll cmi (s.bindTo x c) rs) x = [c] ↔
          mask (deliverAll cmi (s.bindTo x c) rs) x = [c] :=
        or_iff_right_of_imp (mask_delivered hb hc)
      simp only [Settled, hc, hmask, forall_const]
    rw [← hlist]
    constructor
    · intro h
      have hok := h.cpubind x c rfl
      rw [hdo] at hok
      exact (hok rfl).2
    · intro h
      constructor
      · intro hne
        rw [hdo] at hne
        exact absurd rfl hne
      · intro y d heq _
        cases heq
        rw [hdo]
        exact ⟨bound_bindTo hc rs, h⟩
      · intro y l heq
        cases heq
  · have hdo : perform allowed s (.setCpubind (some x) c) = (.other, s) := setCpubind_invalid hc
    exact iff_of_true ((consistent_of_failed hdo (by simp)).mpr Same.refl) (fun h => absurd h hc)

theorem setAffinity_bound {l : List Int} {c : Int} (h : l.find? (valid allowed) = some c) :
    Consistent cmi allowed s (.setAffinity (some x) l) rs := by
  have hdo : perform allowed s (.setAffinity (some x) l) =
      (.success, (s.setList x l).bindTo x c) := setAffinity_valid h
  constructor
  · intro hne
    rw [hdo] at hne
    exact absurd rfl hne
  · intro y d heq
    cases heq
  · intro y l' heq hl _
    cases heq
    rw [hdo]
    refine ⟨(lists_iff hl).mpr (.inl ?_), c, h, bound_bindTo (List.find?_some h) rs⟩
    rw [deliverAll_affinity, bindTo_self, setList_xstream, if_pos rfl]

theorem setAffinity_failed {l : List Int} (hl : l ≠ []) (h : l.find? (valid allowed) = none) :
    Consistent cmi allowed s (.setAffinity (some x) l) rs ↔ Lists (deliverAll cmi s rs) x l := by
  have hdo : perform allowed s (.setAffinity (some x) l) = (.other, s.setList x l) :=
    setAffinity_invalid hl h
  rw [← same_setList hl, ← deliverAll_setList]
  exact consistent_of_failed hdo (by simp)

theorem setAffinity_nil : Consistent cmi allowed s (.setAffinity (some x) []) rs := by
  constructor
  · intro hne
    exact absurd rfl hne
  · intro y d heq
    cases heq
  · intro y l heq hl
    cases heq
    exact absurd rfl hl

theorem setAffinity_consistent (l : List Int) :
    Consistent cmi allowed s (.setAffinity (some x) l) rs ↔
      Settled cmi allowed s rs (.setAffinity (some x) l) := by
  by_cases hl : l = []
  · subst hl
    exact iff_of_true setAffinity_nil (fun h => absurd rfl h)
  cases h : l.find? (valid allowed) with
  | some c =>
    refine iff_of_true (setAffinity_bound h) ?_
    intro _ hno
    exact absurd (List.find?_some h) (hno c (List.mem_of_find?_eq_some h))
  | none =>
    rw [setAffinity_failed hl h, lists_iff hl, deliverAll_affinity]
    exact ⟨fun hs _ _ => hs, fun hs => hs hl (List.find?_eq_none.mp h)⟩

/-- A null handle. -/
theorem null_consistent {c : Call} (h : perform allowed s c = (.invXstream, s)) :
    Consistent cmi allowed s c rs :=
  (consistent_of_failed h (by simp)).mpr Same.refl

end

/-- A call in any state, and any deliveries after it. -/
theorem binding_consistent {cmi : SetMask} {allowed : Int → Bool} (hb : Binds allowed cmi)
    (s : State) (c : Call) (rs : List Nat) :
    Consistent cmi allowed s c rs ↔ Settled cmi allowed s rs c := by
  cases c with
  | setCpubind xstream c =>
    cases xstream with
    | none => exact iff_of_true (null_consistent rfl) trivial
    | some x => exact setCpubind_consistent hb c
  | setAffinity xstream l =>
    cases xstream with
    | none => exact iff_of_true (null_consistent rfl) trivial
    | some x => exact setAffinity_consistent l

/-- Four CPUs, and xstreams whose PEs have taken their leases. -/
def four : Int → Bool := fun c => decide (c < 4)

def fresh : State where
  xstream r := ⟨r, -1, [], true⟩
  pe _ := ⟨true, [0, 1, 2, 3], []⟩

/-- A `CmiSetCPUAffinity` that binds to whatever it is given. -/
def bindAlways : SetMask := fun _ c _ => [c]

/-- A fresh xstream is bound to CPU 2: the reports are consistent from the delivery on. -/
theorem binding_consistent_delivered :
    Consistent bindAlways four fresh (.setCpubind (some 1) 2) [1] ∧
      ¬ Consistent bindAlways four fresh (.setCpubind (some 1) 2) [] := by
  have hb : Binds four bindAlways := fun _ _ _ _ => rfl
  refine ⟨(binding_consistent hb ..).mpr ?_, fun h => ?_⟩
  · intro _
    exact .inr ⟨rfl, .inl rfl, .inl Nat.one_pos⟩
  · obtain h | ⟨-, -, h | h⟩ := (binding_consistent hb ..).mp h rfl
    · cases h
    · exact absurd h (Nat.lt_irrefl 0)
    · cases h

/-- `ABT_xstream_set_affinity` with CPUs 0 and 1. -/
def pair : Ret × State := setAffinity four fresh (some 1) [0, 1]

/-- After `[0, 1]`, CPU 1 is bound to and `[0, 1]` still reported, also when both messages have been
delivered; a list without an allowed CPU is refused and reported. -/
theorem binding_inconsistent :
    (pair.1 = .success ∧ (setCpubind four pair.2 (some 1) 1).1 = .success ∧
      getCpubind (deliverAll bindAlways (setCpubind four pair.2 (some 1) 1).2 [1, 1]) none
        (some 1) = .ok 1 ∧
      getAffinity (deliverAll bindAlways (setCpubind four pair.2 (some 1) 1).2 [1, 1]) none
        (some 1) 4 = .ok ([0, 1], 2) ∧
      ¬ Consistent bindAlways four pair.2 (.setCpubind (some 1) 1) [1, 1]) ∧
    ((setAffinity four fresh (some 1) [7]).1 = .other ∧
      getAffinity fresh none (some 1) 4 = .ok ([0, 1, 2, 3], 4) ∧
      getAffinity (setAffinity four fresh (some 1) [7]).2 none (some 1) 4 = .ok ([7], 1) ∧
      ¬ Consistent bindAlways four fresh (.setAffinity (some 1) [7]) []) := by
  refine ⟨⟨rfl, rfl, rfl, rfl, ?_⟩, rfl, rfl, rfl, ?_⟩
  · intro h
    have hreport := (h.cpubind 1 1 rfl rfl).2 none 4
    cases hreport
  · intro h
    have hsame := (h.failed (by decide) none (some 1)).2 4
    cases hsame

end Binding
end AbtReconverse
