import AbtReconverse.Runtime.Counters
import AbtReconverse.Runtime.Stop

/-!
# AbtReconverse.Runtime.Drain

When a scheduler counts as drained. Three tests read the same two counters: `pools_drained` (the
idle hook releases the xstream), `sched_has_unit` (a stacked scheduler returns to its parent) and
`ABT_sched_has_to_stop` (a user scheduler leaves its loop). They take no lock: for each pool `size()`,
`num_scheds` and `num_blocked` are loaded one after the other while the runtime goes on, so every
load is a step (`testing`), and the loads are logged with the states they were made in.

`drain_iff_visible` says exactly when a test keeps the scheduler: one of its loads found a unit
(`Load.Visible`). A ULT that waits on a pool listed once is seen by the load of `num_blocked` if its
waker is not past `num_blocked.fetch_sub` then. From there until the `count.fetch_add` at the end
of its push no counter knows of it, and a wake that falls between the two loads is missed by both
(`drained_while_waking`). A test during which nothing else runs answers as in `Runtime.Stop`
(`loads_alone`).
-/

namespace AbtReconverse
namespace Runtime

open Lts

/-- What of `ABTI_sched` the tests read. -/
structure Sched where
  pools : List Nat
  userDef : Bool
  deriving DecidableEq, Repr

/-- `num_scheds`: every scheduler adds one for every time it lists the pool. -/
def numScheds (scheds : List Sched) (p : Nat) : Nat :=
  (scheds.map fun s => s.pools.count p).sum

/-- `ABTI_pool::size`. A user-defined pool answers with what it stores. -/
def size (c : Config) (σ : State) (p : Nat) : Nat :=
  if c.user p then (σ.queue p).length else (σ.count p).toNat

/-! ### The tests, load by load -/

/-- A loop over the pools of a scheduler. `n` is what it has added up so far; a load leads to the new
`n` (`ok`), or to the answer (`error`). -/
structure Test where
  /-- The answer before the loop, if there is one. -/
  first : State → Option Bool
  onSize : Nat → Nat → Except Bool Nat
  /-- Whether `num_blocked` is loaded, by `num_scheds` and the access mode. -/
  loads : Nat → PoolAccess → Bool
  onBlocked : Nat → Int → Except Bool Nat
  last : Nat → Bool

/-- `pools_drained`, on PE `r`. -/
def poolsDrained (r : Nat) : Test where
  first σ := if (σ.held r).isSome then some false else none
  onSize n size := if size ≠ 0 then .error false else .ok n
  loads numScheds _ := decide (numScheds ≤ 1)
  onBlocked n numBlocked := if numBlocked ≠ 0 then .error false else .ok n
  last _ := true

/-- `sched_has_unit`. -/
def schedHasUnit : Test where
  first _ := none
  onSize n size := if 0 < size then .error true else .ok n
  loads numScheds access := access == .priv || numScheds == 1
  onBlocked n numBlocked := if 0 < numBlocked then .error true else .ok n
  last _ := false

/-- `ABT_sched_has_to_stop`. The sum wraps around only with `2 ^ 64` units, see `Runtime.Stop`. -/
def hasToStop (req : Request) : Test where
  first _ := if req.exit then some true else if req.finish then none else some false
  onSize n size := .ok (n + size)
  loads numScheds _ := decide (numScheds ≤ 1)
  onBlocked n numBlocked := .ok (if 0 < numBlocked then n + numBlocked.toNat else n)
  last n := n == 0

/-- Whether `ABTI_xstream_idle_hook` on PE `r` releases an xstream with scheduler `s`. -/
def idleHook (s : Sched) (finishing : Bool) (r : Nat) : Test :=
  { poolsDrained r with
    first := fun σ => if !s.userDef && finishing then (poolsDrained r).first σ else some false }

/-- The load that is next, with the pools after it, or the answer. -/
inductive TestPc where
  | start
  | size (l : List Nat) (n : Nat)
  | scheds (p : Nat) (l : List Nat) (n : Nat)
  | blocked (p : Nat) (l : List Nat) (n : Nat)
  | answer (b : Bool)
  deriving DecidableEq, Repr

/-- After a load. -/
def TestPc.after (next : Nat → TestPc) : Except Bool Nat → TestPc
  | .error b => .answer b
  | .ok n => next n

/-- The next load of the test of scheduler `s`. -/
def Test.load (k : Test) (c : Config) (scheds : List Sched) (s : Sched) (σ : State) :
    TestPc → Option TestPc
  | .start => some (match k.first σ with
    | some b => .answer b
    | none => .size s.pools 0)
  | .size [] n => some (.answer (k.last n))
  | .size (p :: l) n => some (.after (.scheds p l) (k.onSize n (size c σ p)))
  | .scheds p l n =>
    some (if k.loads (numScheds scheds p) (c.access p) then .blocked p l n else .size l n)
  | .blocked p l n => some (.after (.size l) (k.onBlocked n (σ.numBlocked p)))
  | .answer _ => none

inductive TestAct where
  | run (a : Act)
  | load
  deriving DecidableEq, Repr

/-- The runtime, and a test of scheduler `s` that is made at some time. -/
def testing (k : Test) (c : Config) (p₀ : Nat) (scheds : List Sched) (s : Sched) :
    System (State × TestPc) TestAct where
  init x := x = (initial c p₀, .start)
  step x
    | .run a => (step c x.1 a).map fun σ => (σ, x.2)
    | .load => (k.load c scheds s x.1 x.2).map fun pc => (x.1, pc)

/-- A load, and the state in which it was made. -/
inductive Load where
  | first (σ : State)
  | size (p : Nat) (σ : State)
  | blocked (p : Nat) (σ : State)

def Load.state : Load → State
  | .first σ | .size _ σ | .blocked _ σ => σ

/-- The loads of a test. -/
def logLoad (x : State × TestPc) (a : TestAct) (_ : State × TestPc) (h : List Load) : List Load :=
  match a, x.2 with
  | .load, .start => h ++ [.first x.1]
  | .load, .size (p :: _) _ => h ++ [.size p x.1]
  | .load, .blocked p _ _ => h ++ [.blocked p x.1]
  | _, _ => h

/-- The runs of a test, with the log of its loads. -/
def tested (k : Test) (c : Config) (p₀ : Nat) (scheds : List Sched) (s : Sched) :
    System ((State × TestPc) × List Load) TestAct :=
  (testing k c p₀ scheds s).withHistory [] logLoad

/-- `ABT_thread_set_associated_pool` is not called. -/
def TestNoAssociate (x : (State × TestPc) × List Load) : TestAct → Prop
  | .run a => NoAssociate x.1.1 a
  | .load => True

instance (x : (State × TestPc) × List Load) : (a : TestAct) → Decidable (TestNoAssociate x a)
  | .run a => inferInstanceAs (Decidable (NoAssociate x.1.1 a))
  | .load => inferInstanceAs (Decidable True)

/-- The tests of scheduler `s` on PE `r`, each with the answer that keeps `s`. -/
def tests (s : Sched) (finishing : Bool) (r : Nat) : List (Test × Bool) :=
  [(poolsDrained r, false), (schedHasUnit, true), (hasToStop ⟨true, false⟩, false),
    (idleHook s finishing r, false)]

/-! ### Units that wait -/

/-- Scheduler number `i` is the only one that lists `p`. -/
def HeldOnlyBy (scheds : List Sched) (p i : Nat) : Prop :=
  ∀ j s, scheds[j]? = some s → (p ∈ s.pools ↔ j = i)

/-- The ULT a waker is making ready, until its push is finished. -/
def WakePc.waking : WakePc → Option Nat
  | .enter t | .sub t | .migrate t | .push t _ | .link t _ | .count t _ => some t
  | .idle => none

/-- ULT `t` of pool `p` is blocked through `ABTI_thread_block`, or being made ready. -/
structure Waiting (σ : State) (t p : Nat) : Prop where
  ult : (σ.thr t).isTask = false
  notRunner : (σ.thr t).type ≠ .sched
  live : (σ.thr t).state ≠ .unborn ∧ (σ.thr t).state ≠ .terminated
  pool : (σ.thr t).pool = p
  noMigration : (σ.thr t).migrateTo = none
  waits : ((σ.thr t).state = .blocked ∧ (σ.thr t).blk = .flagged) ∨
    ∃ w, (σ.wake w).waking = some t

/-- The waker of `t`, if there is one, has not taken `t` off `num_blocked`. -/
def StillCounted (σ : State) (t : Nat) : Prop :=
  ((σ.thr t).state = .blocked ∧ (σ.thr t).blk = .flagged) ∨
    (∃ w, σ.wake w = .enter t ∧ (σ.thr t).blockedCounted = true) ∨ ∃ w, σ.wake w = .sub t

/-- The units that `size` sees: more of them are linked in `q`, or unlinked and still counted, than
are linked and not yet counted. -/
def HasUnit (c : Config) (σ : State) (q : Nat) : Prop :=
  if c.user q then σ.queue q ≠ []
  else {w | Adding σ q w}.ncard < (σ.queue q).length + {r | Taking σ q r}.ncard

/-- The load finds a unit: a parked one, one that `size` sees, or one that counts as blocked. -/
def Load.Visible (k : Test) (c : Config) : Load → Prop
  | .first σ => k.first σ ≠ none
  | .size q σ => HasUnit c σ q
  | .blocked q σ => ∃ u, HoldsBlocked σ q u

/-- The loads of pool `q` that the test makes if it goes through the loop. -/
def Covered (k : Test) (c : Config) (scheds : List Sched) (h : List Load) (q : Nat) : Prop :=
  (∃ σ, .size q σ ∈ h) ∧
    (k.loads (numScheds scheds q) (c.access q) = true → ∃ σ, .blocked q σ ∈ h)

theorem heldOnly_single {p : Nat} {b : Bool} : HeldOnlyBy [⟨[p], b⟩] p 0 := by
  intro j s hj
  cases j with
  | zero => cases hj; simp
  | succ j => simp at hj

/-! ### What the tests have in common -/

/-- What a load does with the sum `n`. If it finds something (`pos`), it gives the answer that keeps
the scheduler or makes the sum positive; if not, the sum stays 0 or positive. `N`: the sums that the
test can have. -/
def Counting (N : Nat → Prop) (keep : Bool) (n : Nat) (pos : Prop) (r : Except Bool Nat) : Prop :=
  (r = .error keep ∧ pos) ∨ ∃ m, r = .ok m ∧ N m ∧ (0 < m ↔ 0 < n ∨ pos)

structure Test.Sound (k : Test) (keep : Bool) (N : Nat → Prop) : Prop where
  zero : N 0
  first : ∀ σ b, k.first σ = some b → b = keep
  onSize : ∀ n v, N n → Counting N keep n (0 < v) (k.onSize n v)
  onBlocked : ∀ n b, N n → 0 ≤ b → Counting N keep n (0 < b) (k.onBlocked n b)
  last : ∀ n, N n → (k.last n = keep ↔ 0 < n)
  counts : ∀ a, k.loads 1 a = true

theorem Counting.exit {keep : Bool} {n : Nat} {pos : Prop} [Decidable pos] (hn : n = 0) :
    Counting (· = 0) keep n pos (if pos then .error keep else .ok n) := by
  subst hn
  by_cases h : pos
  · rw [if_pos h]
    exact .inl ⟨rfl, h⟩
  · rw [if_neg h]
    exact .inr ⟨0, rfl, rfl, by simp [h]⟩

theorem poolsDrained_sound (r : Nat) : (poolsDrained r).Sound false (· = 0) where
  zero := rfl
  first σ b h := by
    simp only [poolsDrained, Option.ite_none_right_eq_some, Option.some.injEq] at h
    exact h.2.symm
  onSize n v hn := by
    have h : Counting (· = 0) false n (0 < v) _ := Counting.exit hn
    simpa only [poolsDrained, Nat.pos_iff_ne_zero] using h
  onBlocked n b hn hb := by
    have h : Counting (· = 0) false n (b ≠ 0) _ := Counting.exit hn
    have hpos : b ≠ 0 ↔ 0 < b := by omega
    simpa only [poolsDrained, hpos] using h
  last n hn := by simp [poolsDrained, hn]
  counts _ := rfl

theorem idleHook_sound (s : Sched) (finishing : Bool) (r : Nat) :
    (idleHook s finishing r).Sound false (· = 0) :=
  { poolsDrained_sound r with
    first := fun σ b h => by
      simp only [idleHook] at h
      split at h
      · exact (poolsDrained_sound r).first σ b h
      · exact (Option.some.inj h).symm }

theorem schedHasUnit_sound : schedHasUnit.Sound true (· = 0) where
  zero := rfl
  first _ _ := nofun
  onSize _ _ := Counting.exit
  onBlocked _ _ hn _ := Counting.exit hn
  last n hn := by simp [schedHasUnit, hn]
  counts _ := Bool.or_true _

theorem hasToStop_sound : (hasToStop ⟨true, false⟩).Sound false fun _ => True where
  zero := trivial
  first _ _ := nofun
  onSize n v _ := .inr ⟨n + v, rfl, trivial, by omega⟩
  onBlocked n b _ _ := by
    refine .inr ⟨_, rfl, trivial, ?_⟩
    split <;> omega
  last n _ := by
    simp only [hasToStop, beq_eq_false_iff_ne]
    omega
  counts _ := rfl

theorem sound_of_tests {s : Sched} {finishing : Bool} {r : Nat} {k : Test} {keep : Bool}
    (h : (k, keep) ∈ tests s finishing r) : ∃ N, k.Sound keep N := by
  simp only [tests, List.mem_cons, List.not_mem_nil, or_false, Prod.mk.injEq] at h
  rcases h with ⟨rfl, rfl⟩ | ⟨rfl, rfl⟩ | ⟨rfl, rfl⟩ | ⟨rfl, rfl⟩
  · exact ⟨_, poolsDrained_sound r⟩
  · exact ⟨_, schedHasUnit_sound⟩
  · exact ⟨_, hasToStop_sound⟩
  · exact ⟨_, idleHook_sound s finishing r⟩

section

variable {c : Config} {scheds : List Sched} {σ : State} {s : Sched} {p : Nat}

theorem size_pos_iff (h : CountInv c σ) (q : Nat) : 0 < size c σ q ↔ HasUnit c σ q := by
  unfold size HasUnit
  cases hu : c.user q with
  | true => simp [List.length_pos_iff]
  | false =>
    obtain ⟨a, b, ha, hb, hsum⟩ := h q hu
    rw [ha.eq_ncard, hb.eq_ncard] at hsum
    simp only [Bool.false_eq_true, if_false]
    omega

theorem numBlocked_pos_iff {still : Bool} (h : BlockedInv still σ) (q : Nat) :
    0 < σ.numBlocked q ↔ ∃ u, HoldsBlocked σ q u :=
  ⟨(h.blocked q).exists_of_pos, fun ⟨_, hu⟩ => (h.blocked q).pos hu⟩

/-- A waiting ULT is counted until its waker is past the `fetch_sub`. -/
theorem holds_of_counted (h : BlockedInv true σ) {t : Nat} (ht : Waiting σ t p)
    (hc : StillCounted σ t) : HoldsBlocked σ p t := by
  refine .inr (.inr ?_)
  have hu := h.unit t
  have hown : Recorded true (σ.thr t) → (σ.thr t).blockedPool = some p := by
    rintro ⟨q, hq, he⟩
    rw [hq, he rfl, ht.pool]
  rcases hc with ⟨hb, hf⟩ | ⟨w, _, hc⟩ | ⟨w, hw⟩
  · have hcnt := hu.flagged hf (.inr hb)
    exact ⟨.inl hcnt, hown (hu.counted hcnt).2.1⟩
  · exact ⟨.inl hc, hown (hu.counted hc).2.1⟩
  · exact ⟨.inr ⟨w, hw⟩, hown (hu.sub w hw).2⟩

/-! ### Runs of a test -/

/-- In the loop, with the pools `l` to come and the sum `n`. -/
structure Going (k : Test) (N : Nat → Prop) (c : Config) (scheds : List Sched) (s : Sched)
    (h : List Load) (l : List Nat) (n : Nat) : Prop where
  sum : N n
  seen : 0 < n ↔ ∃ v ∈ h, v.Visible k c
  passed : ∃ d, s.pools = d ++ l ∧ ∀ q ∈ d, Covered k c scheds h q

/-- What the loads `h` made so far have to do with where the test is. -/
def LoggedAt (k : Test) (keep : Bool) (N : Nat → Prop) (c : Config) (scheds : List Sched)
    (s : Sched) (h : List Load) : TestPc → Prop
  | .start => h = []
  | .size l n => Going k N c scheds s h l n
  | .scheds p l n | .blocked p l n => Going k N c scheds s h (p :: l) n ∧ ∃ σ, .size p σ ∈ h
  | .answer b => (b = keep ↔ ∃ v ∈ h, v.Visible k c) ∧
      (b ≠ keep → ∀ q ∈ s.pools, Covered k c scheds h q)

section

variable {k : Test} {keep : Bool} {N : Nat → Prop} {h : List Load} {l : List Nat} {n : Nat}
  {v : Load}

theorem Covered.append {q : Nat} (hq : Covered k c scheds h q) (v : Load) :
    Covered k c scheds (h ++ [v]) q := by
  obtain ⟨⟨σ₁, h1⟩, h2⟩ := hq
  refine ⟨⟨σ₁, List.mem_append_left _ h1⟩, fun hl => ?_⟩
  obtain ⟨σ₂, h2⟩ := h2 hl
  exact ⟨σ₂, List.mem_append_left _ h2⟩

/-- The loop goes on to the next pool. -/
theorem Going.pass (g : Going k N c scheds s h (p :: l) n) (hp : Covered k c scheds h p) :
    Going k N c scheds s h l n := by
  obtain ⟨d, hd, hcov⟩ := g.passed
  refine ⟨g.sum, g.seen, d ++ [p], by simp [hd], fun q hq => ?_⟩
  rcases List.mem_append.mp hq with hq | hq
  · exact hcov q hq
  · obtain rfl := List.mem_singleton.mp hq
    exact hp

theorem Going.load (g : Going k N c scheds s h l n) {r : Except Bool Nat} {next : Nat → TestPc}
    (hr : Counting N keep n (v.Visible k c) r)
    (hnext : ∀ m, Going k N c scheds s (h ++ [v]) l m →
      LoggedAt k keep N c scheds s (h ++ [v]) (next m)) :
    LoggedAt k keep N c scheds s (h ++ [v]) (.after next r) := by
  rcases hr with ⟨rfl, hv⟩ | ⟨m, rfl, hm, hpos⟩
  · have hseen : ∃ w ∈ h ++ [v], w.Visible k c := ⟨v, by simp, hv⟩
    exact ⟨⟨fun _ => hseen, fun _ => rfl⟩, fun hb => absurd rfl hb⟩
  · obtain ⟨d, hd, hcov⟩ := g.passed
    refine hnext m ⟨hm, ?_, d, hd, fun q hq => (hcov q hq).append v⟩
    rw [hpos, g.seen]
    simp [or_and_right, exists_or]

theorem logged_load (hk : k.Sound keep N) (hb : BlockedInv true σ) (hcnt : CountInv c σ)
    {pc pc' : TestPc} (hl : LoggedAt k keep N c scheds s h pc)
    (hst : k.load c scheds s σ pc = some pc') :
    LoggedAt k keep N c scheds s (logLoad (σ, pc) .load (σ, pc') h) pc' := by
  cases pc with
  | start =>
    obtain rfl : h = [] := hl
    obtain rfl := Option.some.inj hst
    cases hf : k.first σ with
    | some b =>
      have hv : ∃ v ∈ [Load.first σ], v.Visible k c :=
        ⟨_, List.mem_singleton.mpr rfl, by simp [Load.Visible, hf]⟩
      exact ⟨⟨fun _ => hv, fun _ => hk.first σ b hf⟩, fun hb => absurd (hk.first σ b hf) hb⟩
    | none =>
      refine ⟨hk.zero, ?_, [], rfl, nofun⟩
      simp [logLoad, Load.Visible, hf]
  | size l n =>
    cases l with
    | nil =>
      obtain rfl := Option.some.inj hst
      obtain ⟨d, hd, hcov⟩ := hl.passed
      rw [List.append_nil] at hd
      exact ⟨(hk.last n hl.sum).trans hl.seen, fun _ q hq => hcov q (hd ▸ hq)⟩
    | cons p l =>
      obtain rfl := Option.some.inj hst
      have hcount := hk.onSize n (size c σ p) hl.sum
      rw [size_pos_iff hcnt p] at hcount
      exact hl.load (v := .size p σ) hcount fun m g => ⟨g, σ, by simp⟩
  | scheds p l n =>
    obtain rfl := Option.some.inj hst
    cases hloads : k.loads (numScheds scheds p) (c.access p) with
    | true => exact hl
    | false => exact hl.1.pass ⟨hl.2, fun ht => absurd (hloads.symm.trans ht) nofun⟩
  | blocked p l n =>
    obtain rfl := Option.some.inj hst
    obtain ⟨g, σ₁, hσ₁⟩ := hl
    have hcount := hk.onBlocked n (σ.numBlocked p) g.sum (hb.blocked p).nonneg
    rw [numBlocked_pos_iff hb p] at hcount
    refine g.load (v := .blocked p σ) hcount fun m g => g.pass ⟨⟨σ₁, ?_⟩, fun _ => ⟨σ, ?_⟩⟩
    · exact List.mem_append_left _ hσ₁
    · simp
  | answer b => cases hst

theorem logLoad_mem {x y : State × TestPc} {a : TestAct} (hv : v ∈ logLoad x a y h) :
    v ∈ h ∨ v.state = x.1 := by
  unfold logLoad at hv
  split at hv
  case h_4 => exact .inl hv
  all_goals
    rcases List.mem_append.mp hv with hv | hv
    · exact .inl hv
    · rw [List.mem_singleton.mp hv]
      exact .inr rfl

/-- The runtime that a test looks at goes on as without it; so every load is made in a reached
state. -/
theorem reach_logged (hk : k.Sound keep N) {p₀ : Nat} {x : (State × TestPc) × List Load}
    (hr : Reach (tested k c p₀ scheds s) TestNoAssociate x) :
    Reach (system c p₀) NoAssociate x.1.1 ∧
      (∀ v ∈ x.2, Reach (system c p₀) NoAssociate v.state) ∧
      LoggedAt k keep N c scheds s x.2 x.1.2 := by
  refine hr.historyInvariant (I := fun x h => Reach (system c p₀) NoAssociate x.1 ∧
    (∀ v ∈ h, Reach (system c p₀) NoAssociate v.state) ∧ LoggedAt k keep N c scheds s h x.2) ?_ ?_
  · rintro x rfl
    exact ⟨.start rfl, nofun, rfl⟩
  · rintro ⟨σ, pc⟩ h a x' _ ⟨hσ, hh, hl⟩ hg hst
    cases a with
    | run a =>
      obtain ⟨σ', hσ', rfl⟩ := Option.map_eq_some_iff.mp hst
      exact ⟨.next hσ hg hσ', hh, hl⟩
    | load =>
      obtain ⟨pc', hpc, rfl⟩ := Option.map_eq_some_iff.mp hst
      refine ⟨hσ, fun v hv => ?_, ?_⟩
      · rcases logLoad_mem hv with hv | hv
        · exact hh v hv
        · exact hv ▸ hσ
      · exact logged_load hk (reach_blocked true (fun _ _ hg _ => hg) hσ) (reach_count hσ) hl hpc

end

end

/-- In any run of the runtime during a test, the test keeps the scheduler exactly if one of its
loads finds a unit. If it does not, it has loaded `size()` of every pool and `num_blocked` of every
pool it takes them into account for; so a ULT of a pool listed once that waits, and is still
counted when the test loads `num_blocked`, keeps the scheduler. -/
theorem drain_iff_visible {c : Config} {p₀ : Nat} {scheds : List Sched} {s : Sched} {i p r : Nat}
    {finishing : Bool} {k : Test} {keep b : Bool} {σ : State} {h : List Load}
    (hk : (k, keep) ∈ tests s finishing r) (hs : scheds[i]? = some s)
    (hp : HeldOnlyBy scheds p i)
    (hr : Reach (tested k c p₀ scheds s) TestNoAssociate ((σ, .answer b), h)) :
    (b = keep ↔ ∃ v ∈ h, v.Visible k c) ∧
      (b ≠ keep → ∀ q ∈ s.pools, Covered k c scheds h q) ∧
      (numScheds scheds p = 1 →
        ∀ t, (∀ σ₁, .blocked p σ₁ ∈ h → Waiting σ₁ t p ∧ StillCounted σ₁ t) → b = keep) := by
  obtain ⟨N, hk⟩ := sound_of_tests hk
  obtain ⟨-, hreach, hseen, hcov⟩ := reach_logged hk hr
  refine ⟨hseen, hcov, fun h1 t ht => ?_⟩
  by_contra hb
  obtain ⟨-, hloads⟩ := hcov hb p ((hp i s hs).mpr rfl)
  obtain ⟨σ₁, hσ₁⟩ := hloads (h1 ▸ hk.counts _)
  obtain ⟨hw, hc⟩ := ht σ₁ hσ₁
  have hinv := reach_blocked true (fun _ _ hg _ => hg) (hreach _ hσ₁)
  exact hb (hseen.mpr ⟨_, hσ₁, t, holds_of_counted hinv hw hc⟩)

/-! ### A test that nothing else runs in -/

/-- What the tests read of pool `q` in `σ`. -/
def poolState (c : Config) (scheds : List Sched) (σ : State) (q : Nat) : Stop.PoolState :=
  ⟨c.access q, size c σ q, σ.numBlocked q, numScheds scheds q⟩

/-- The answer of the loop if all its loads are made in `σ`. -/
def Test.alone (k : Test) (c : Config) (scheds : List Sched) (σ : State) : List Nat → Nat → Bool
  | [], n => k.last n
  | p :: l, n =>
    match k.onSize n (size c σ p) with
    | .error b => b
    | .ok n =>
      if k.loads (numScheds scheds p) (c.access p) then
        match k.onBlocked n (σ.numBlocked p) with
        | .error b => b
        | .ok n => k.alone c scheds σ l n
      else k.alone c scheds σ l n

section

variable {c : Config} {scheds : List Sched} {σ : State}

theorem poolsDrained_alone (r : Nat) (l : List Nat) : (poolsDrained r).alone c scheds σ l 0 =
    Stop.poolsDrained false (l.map (poolState c scheds σ)) := by
  induction l with
  | nil => rfl
  | cons p l ih =>
    have hstep : (poolsDrained r).alone c scheds σ (p :: l) 0 =
        (Stop.poolsDrained false [poolState c scheds σ p] &&
          (poolsDrained r).alone c scheds σ l 0) := by
      by_cases hs : size c σ p = 0 <;> by_cases hn : numScheds scheds p ≤ 1 <;>
        by_cases hb : σ.numBlocked p = 0 <;>
        simp [Test.alone, poolsDrained, Stop.poolsDrained, poolState, hs, hn, hb]
    rw [hstep, ih]
    simp [Stop.poolsDrained]

theorem schedHasUnit_alone (l : List Nat) : schedHasUnit.alone c scheds σ l 0 =
    Stop.schedHasUnit (l.map (poolState c scheds σ)) := by
  induction l with
  | nil => rfl
  | cons p l ih =>
    have hstep : schedHasUnit.alone c scheds σ (p :: l) 0 =
        (Stop.schedHasUnit [poolState c scheds σ p] || schedHasUnit.alone c scheds σ l 0) := by
      by_cases hs : 0 < size c σ p <;> by_cases ha : c.access p = .priv <;>
        by_cases hn : numScheds scheds p = 1 <;> by_cases hb : 0 < σ.numBlocked p <;>
        simp [Test.alone, schedHasUnit, Stop.schedHasUnit, poolState, hs, ha, hn, hb]
    rw [hstep, ih]
    simp [Stop.schedHasUnit]

theorem hasToStop_alone (req : Request) (l : List Nat) :
    ∀ n, (hasToStop req).alone c scheds σ l n =
      (n + Stop.total (l.map (poolState c scheds σ)) == 0) := by
  induction l with
  | nil => intro n; rfl
  | cons p l ih =>
    intro n
    have hstep : (hasToStop req).alone c scheds σ (p :: l) n =
        (hasToStop req).alone c scheds σ l (n + (poolState c scheds σ p).units) := by
      simp only [Test.alone, hasToStop, Stop.PoolState.units, poolState, decide_eq_true_eq]
      by_cases hn : numScheds scheds p ≤ 1
      · by_cases hb : 0 < σ.numBlocked p
        · simp [hn, hb, Nat.add_assoc]
        · have h0 : (σ.numBlocked p).toNat = 0 := by omega
          simp [hn, hb, h0]
      · simp [hn]
    rw [hstep, ih, Nat.add_assoc]
    rfl

section

variable {k : Test} {p₀ : Nat} {s : Sched} {h : List Load}

/-- One load more, in the same state. -/
theorem exists_load {pc pc' : TestPc}
    (hr : Reach (tested k c p₀ scheds s) TestNoAssociate ((σ, pc), h)) (hh : ∀ v ∈ h, v.state = σ)
    (hl : k.load c scheds s σ pc = some pc') :
    ∃ h, Reach (tested k c p₀ scheds s) TestNoAssociate ((σ, pc'), h) ∧ ∀ v ∈ h, v.state = σ := by
  refine ⟨logLoad (σ, pc) .load (σ, pc') h, hr.next (a := .load) trivial ?_, fun v hv => ?_⟩
  · exact System.withHistory_step.mpr ⟨by simp [testing, hl], rfl⟩
  · exact (logLoad_mem hv).elim (hh v) id

/-- The loads from one pool of the loop on, all made in `σ`. -/
theorem exists_alone {l : List Nat} :
    ∀ {n h}, Reach (tested k c p₀ scheds s) TestNoAssociate ((σ, .size l n), h) →
      (∀ v ∈ h, v.state = σ) → ∃ h, Reach (tested k c p₀ scheds s) TestNoAssociate
        ((σ, .answer (k.alone c scheds σ l n)), h) ∧ ∀ v ∈ h, v.state = σ := by
  induction l with
  | nil => intro n h hr hh; exact exists_load hr hh rfl
  | cons p l ih =>
    intro n h hr hh
    obtain ⟨h₁, hr₁, hh₁⟩ := exists_load hr hh rfl
    simp only [Test.alone]
    cases hs : k.onSize n (size c σ p) with
    | error b =>
      rw [hs] at hr₁
      exact ⟨h₁, hr₁, hh₁⟩
    | ok m =>
      rw [hs] at hr₁
      obtain ⟨h₂, hr₂, hh₂⟩ := exists_load hr₁ hh₁ rfl
      by_cases hl : k.loads (numScheds scheds p) (c.access p) = true
      · simp only [if_pos hl] at hr₂ ⊢
        obtain ⟨h₃, hr₃, hh₃⟩ := exists_load hr₂ hh₂ rfl
        cases hb : k.onBlocked m (σ.numBlocked p) with
        | error b =>
          rw [hb] at hr₃
          exact ⟨h₃, hr₃, hh₃⟩
        | ok m' =>
          rw [hb] at hr₃
          exact ih hr₃ hh₃
      · simp only [if_neg hl] at hr₂ ⊢
        exact ih hr₂ hh₂

theorem reach_start (hr : Reach (system c p₀) NoAssociate σ) :
    Reach (tested k c p₀ scheds s) TestNoAssociate ((σ, .start), []) := by
  induction hr with
  | start hi => exact .start ⟨by rw [hi]; rfl, rfl⟩
  | next _ hg hst ih =>
    refine ih.next (a := .run _) hg (System.withHistory_step.mpr ⟨?_, rfl⟩)
    exact Option.map_eq_some_iff.mpr ⟨_, hst, rfl⟩

/-- In any reached state a test can be made without anything else running. -/
theorem loads_alone (hr : Reach (system c p₀) NoAssociate σ) (hf : k.first σ = none) :
    ∃ h, Reach (tested k c p₀ scheds s) TestNoAssociate
      ((σ, .answer (k.alone c scheds σ s.pools 0)), h) ∧ ∀ v ∈ h, v.state = σ := by
  have hl : k.load c scheds s σ .start = some (.size s.pools 0) := by simp [Test.load, hf]
  obtain ⟨h, hr, hh⟩ := exists_load (reach_start hr) nofun hl
  exact exists_alone hr hh

end

end

/-- ULT 1 of pool 5 is blocked during a whole test. -/
theorem drain_iff_visible_blocked : ∃ σ h, Waiting σ 1 5 ∧
    Reach (tested schedHasUnit .builtin 0 [⟨[5], false⟩] ⟨[5], false⟩) TestNoAssociate
      ((σ, .answer true), h) := by
  obtain ⟨σ, hr, hthr⟩ := (start_builtin NoAssociate).exists_run
    (fun σ => σ.thr 1 = ⟨.named, false, .blocked, 5, none, some 5, true, false, .flagged⟩)
    blockUlt (by decide)
  have hw : Waiting σ 1 5 := by constructor <;> simp [hthr]
  have hc : StillCounted σ 1 := .inl (by simp [hthr])
  have htest : (schedHasUnit, true) ∈ tests ⟨[5], false⟩ true 1 := .tail _ (.head _)
  obtain ⟨h, hr, hh⟩ := loads_alone (k := schedHasUnit) (s := ⟨[5], false⟩) hr rfl
  have hkeep := (drain_iff_visible htest rfl heldOnly_single hr).2.2 (by decide) 1 fun σ₁ h₁ => by
    obtain rfl : σ₁ = σ := hh _ h₁
    exact ⟨hw, hc⟩
  exact ⟨σ, h, hw, hkeep ▸ hr⟩

/-- `blockUlt`, and ULT 1 is made ready between the loads of `size()` and of `num_blocked`. -/
def wakeBetween : List TestAct :=
  blockUlt.map .run ++ [.load, .load, .load] ++
    [Act.awakenIfBlocked 0 1, .wakeExchange 0, .wakeSub 0, .wakeMigrate 0, .pushEnter 0,
      .pushLink 0, .pushCount 0].map .run ++ [.load, .load]

/-- A test of scheduler `[5]` answers "drained" although ULT 1 of pool 5 is there at every load: if
its waker is between the `fetch_sub` and the push during the test, and if the whole wake falls
between the loads of `size()` and of `num_blocked`. -/
theorem drained_while_waking : HeldOnlyBy [⟨[5], false⟩] 5 0 ∧
    ∀ x ∈ tests ⟨[5], false⟩ true 1,
      (∃ σ h, Reach (tested x.1 .builtin 0 [⟨[5], false⟩] ⟨[5], false⟩) TestNoAssociate
        ((σ, .answer (!x.2)), h) ∧ Waiting σ 1 5 ∧ ∀ v ∈ h, v.state = σ) ∧
      ∃ σ h σ₁ σ₂, Reach (tested x.1 .builtin 0 [⟨[5], false⟩] ⟨[5], false⟩) TestNoAssociate
        ((σ, .answer (!x.2)), h) ∧ .size 5 σ₁ ∈ h ∧ Waiting σ₁ 1 5 ∧ StillCounted σ₁ 1 ∧
          .blocked 5 σ₂ ∈ h ∧ σ₂.queue 5 = [1] ∧ 0 < size .builtin σ₂ 5 := by
  obtain ⟨σ, hr, hthr, hwake, hheld, hpool⟩ := (start_builtin NoAssociate).exists_run
    (fun σ => σ.thr 1 = ⟨.named, false, .ready, 5, none, some 5, false, false, .flagged⟩ ∧
      σ.wake 0 = .migrate 1 ∧ σ.held 1 = none ∧
      poolState .builtin [⟨[5], false⟩] σ 5 = ⟨.mpmc, 0, 0, 1⟩)
    (blockUlt ++ [Act.awakenIfBlocked 0 1, .wakeExchange 0, .wakeSub 0]) (by decide)
  have hw : Waiting σ 1 5 := by
    refine ⟨?_, ?_, ?_, ?_, ?_, .inr ⟨0, ?_⟩⟩
    all_goals simp [hthr, hwake, WakePc.waking]
  have hrun : ∀ x ∈ tests ⟨[5], false⟩ true 1,
      (runWhen (tested x.1 .builtin 0 [⟨[5], false⟩] ⟨[5], false⟩) TestNoAssociate
        ((initial .builtin 0, .start), []) wakeBetween).any (fun y => decide
          (y.1.2 = .answer (!x.2) ∧
            (y.2.any fun
              | .size p σ => p = 5 ∧ σ.thr 1 =
                  ⟨.named, false, .blocked, 5, none, some 5, true, false, .flagged⟩
              | _ => false) = true ∧
            (y.2.any fun
              | .blocked p σ => p = 5 ∧ σ.queue 5 = [1] ∧ 0 < size .builtin σ 5
              | _ => false) = true)) = true := by
    decide
  refine ⟨heldOnly_single, fun x hx => ⟨?_, ?_⟩⟩
  · have halone : x.1.first σ = none ∧ x.1.alone .builtin [⟨[5], false⟩] σ [5] 0 = !x.2 := by
      simp only [tests, List.mem_cons, List.not_mem_nil, or_false] at hx
      have hdrained : (poolsDrained 1).alone .builtin [⟨[5], false⟩] σ [5] 0 = true :=
        (poolsDrained_alone 1 [5]).trans (by simp [hpool, Stop.poolsDrained])
      rcases hx with rfl | rfl | rfl | rfl
      · exact ⟨by simp [poolsDrained, hheld], hdrained⟩
      · exact ⟨rfl, (schedHasUnit_alone [5]).trans (by simp [hpool, Stop.schedHasUnit])⟩
      · exact ⟨rfl, (hasToStop_alone _ [5] 0).trans
          (by simp [hpool, Stop.total, Stop.PoolState.units])⟩
      · exact ⟨by simp [idleHook, poolsDrained, hheld], hdrained⟩
    obtain ⟨h, hr, hh⟩ := loads_alone (s := ⟨[5], false⟩) hr halone.1
    exact ⟨σ, h, halone.2 ▸ hr, hw, hh⟩
  · have hinit : Reach (tested x.1 .builtin 0 [⟨[5], false⟩] ⟨[5], false⟩) TestNoAssociate
        ((initial .builtin 0, .start), []) := .start ⟨rfl, rfl⟩
    obtain ⟨⟨⟨σ, pc⟩, h⟩, hr, rfl, hsize, hblocked⟩ := hinit.exists_run _ wakeBetween (hrun x hx)
    obtain ⟨v₁, h₁, hv₁⟩ := List.any_eq_true.mp hsize
    obtain ⟨v₂, h₂, hv₂⟩ := List.any_eq_true.mp hblocked
    cases v₁ with
    | first | blocked => cases hv₁
    | size p σ₁ =>
    obtain ⟨rfl, hthr⟩ := of_decide_eq_true hv₁
    cases v₂ with
    | first | size => cases hv₂
    | blocked p σ₂ =>
    obtain ⟨rfl, hqueue⟩ := of_decide_eq_true hv₂
    exact ⟨σ, h, σ₁, σ₂, hr, h₁, by constructor <;> simp [hthr], .inl (by simp [hthr]), h₂, hqueue⟩

/-- `ABT_sched_get_total_size`; for one pool `ABT_pool_get_total_size`. -/
def totalSize (c : Config) (σ : State) (s : Sched) : Nat :=
  (s.pools.map fun p => size c σ p + (σ.numBlocked p).toNat).sum

/-- The total size at any time, with what is under way in built-in pools. -/
theorem total_size_exact {c : Config} {p : Nat} {σ : State} (h : Reach (system c p) Free σ)
    (s : Sched) : totalSize c σ s = (s.pools.map fun q =>
      (if c.user q then (σ.queue q).length
        else (σ.queue q).length + {r | Taking σ q r}.ncard - {w | Adding σ q w}.ncard) +
      {u | HoldsBlocked σ q u}.ncard).sum := by
  refine congrArg List.sum (List.map_congr_left fun q _ => ?_)
  rw [((reach_blocked false nofun h).blocked q).eq_ncard, Int.toNat_natCast, size]
  congr 1
  split
  · rfl
  · rename_i hu
    obtain ⟨a, b, ha, hb, hab⟩ := reach_count h q (by simpa using hu)
    rw [ha.eq_ncard, hb.eq_ncard] at hab
    omega

theorem total_size_exact_blocked : ∃ σ, Reach (system .builtin 0) Free σ ∧
    1 ≤ {r | Taking σ 5 r}.ncard + {u | HoldsBlocked σ 5 u}.ncard := by
  obtain ⟨σ, hr, hq, ht⟩ := (start_builtin Free).exists_run
    (fun σ => σ.queue 5 = [] ∧ totalSize .builtin σ ⟨[5], false⟩ = 1) blockUlt (by decide)
  have h := total_size_exact hr ⟨[5], false⟩
  rw [ht] at h
  simp [hq, Config.builtin] at h
  exact ⟨σ, hr, by omega⟩

end Runtime
end AbtReconverse
