import AbtReconverse.Api.Machine
import AbtReconverse.Objects.Live

/-!
# AbtReconverse.Api.Ownership

Who owns a pool. Schedulers come and go in any order, with any lists of pools: shared, listed several
times, or null entries for which a new automatic pool is created. `num_scheds` of a pool is then the
number of its occurrences in the lists of the live schedulers, so that `ABTI_sched_destroy` brings it
to 0 with the last occurrence of the pool in the last list: `pool_ownership`.

Only `ABTI_sched_create_predef` and `ABTI_sched_destroy` count, whichever call of the API they are
part of; between them the work units do to the contents of a pool what they like. A call names
schedulers and pools that are there.
-/

namespace AbtReconverse
namespace Ownership

open Lts
open Objects (State holders)
open Api (PoolArgs poolList)

/-- Before `ABT_init` creates the first scheduler. -/
def initial : State where
  pool := fun _ => Objects.noPool
  sched := fun _ => Objects.noSched
  xstream := fun _ => Objects.noXstream
  thread := fun _ => Objects.noThread
  nextPool := 0
  nextSched := 0
  nextXstream := 0
  nextThread := 0

inductive Call where
  | poolCreate (automatic : Bool)
  | schedCreate (predef : SchedPredef) (args : PoolArgs) (automatic userDef : Bool)
  | schedDestroy (i : Nat)
  | work (p : Nat) (units : List Nat) (blocked : Int)
  deriving DecidableEq, Repr

def call (s : State) : Call → State
  | .poolCreate a => s.newPool a
  | .schedCreate d args a u => if args.num < 0 then s else s.newSched (poolList d args) a u
  | .schedDestroy i => s.destroySched i
  | .work p l b => s.setPool p { s.pool p with units := l, numBlocked := b }

def system : System State Call where
  init s := s = initial
  step s c := some (call s c)

/-- The call names schedulers and pools that are there. -/
def Valid (s : State) : Call → Prop
  | .schedCreate d args _ _ => ∀ o ∈ poolList d args, ∀ p ∈ o, (s.pool p).live = true
  | .schedDestroy i => (s.sched i).live = true
  | _ => True

instance (s : State) : (c : Call) → Decidable (Valid s c)
  | .schedCreate d args _ _ =>
    inferInstanceAs (Decidable (∀ o ∈ poolList d args, ∀ p ∈ o, (s.pool p).live = true))
  | .schedDestroy i => inferInstanceAs (Decidable ((s.sched i).live = true))
  | .poolCreate _ | .work _ _ _ => isTrue trivial

/-- The pointers are good, and there is no xstream and no work unit to point anywhere. -/
structure Inv (s : State) : Prop where
  live : Objects.Inv s
  xstream : ∀ x, (s.xstream x).live = false
  thread : ∀ t, (s.thread t).life = .dead

section

variable {s : State} {i p : Nat}

theorem Inv.start : Inv initial := by
  refine ⟨⟨?_, ?_, ?_, ?_, ?_, ?_, ?_, ?_⟩, ?_, ?_⟩
  all_goals simp [initial, Objects.noPool, Objects.noSched, Objects.noXstream, Objects.noThread]

theorem pools_rest (s : State) (l : List (Option Nat)) :
    (s.pools l).1.xstream = s.xstream ∧ (s.pools l).1.thread = s.thread := by
  induction l generalizing s with
  | nil => exact ⟨rfl, rfl⟩
  | cons o l ih =>
    cases o with
    | some p => exact ih s
    | none => exact ih (s.newPool true)

theorem newSched_rest (s : State) (l : List (Option Nat)) (a u : Bool) :
    (s.newSched l a u).xstream = s.xstream ∧ (s.newSched l a u).thread = s.thread := by
  obtain ⟨hx, ht⟩ := pools_rest s l
  have hsame := (Objects.foldl_hold (s.pools l).2 (s.pools l).1).1
  exact ⟨hsame.xstream.trans hx, hsame.thread.trans ht⟩

theorem Inv.call (h : Inv s) {c : Call} (hv : Valid s c) : Inv (call s c) := by
  obtain ⟨hl, hx, ht⟩ := h
  cases c with
  | poolCreate a => exact ⟨hl.newPool a, hx, ht⟩
  | schedCreate d args a u =>
    simp only [Ownership.call]
    split
    · exact ⟨hl, hx, ht⟩
    · obtain ⟨h₁, h₂, -⟩ := hl.newPools (poolList d args) hv
      obtain ⟨ex, et⟩ := newSched_rest s (poolList d args) a u
      refine ⟨h₁.addSched a u h₂, fun x => ?_, fun t => ?_⟩
      · rw [ex]
        exact hx x
      · rw [et]
        exact ht t
  | schedDestroy i =>
    have hsame := (Objects.foldl_drop (s.sched i).pools s).1
    refine ⟨hl.destroySched hv ?_ ?_, fun x => ?_, fun t => ?_⟩
    · rintro q - - ⟨t, -, hlife, -⟩
      exact hlife (ht t)
    · intro x hlx
      rw [hx x] at hlx
      cases hlx
    · show (((s.sched i).pools.foldl State.drop s).xstream x).live = false
      rw [hsame.xstream]
      exact hx x
    · show (((s.sched i).pools.foldl State.drop s).thread t).life = .dead
      rw [hsame.thread]
      exact ht t
  | work p l b => exact ⟨hl.setPool rfl rfl, hx, ht⟩

theorem reach_inv (h : Reach system Valid s) : Inv s := by
  refine h.invariant (I := Inv) ?_ ?_
  · rintro _ rfl
    exact .start
  · rintro s c s' - hi hv hs
    cases hs
    exact hi.call hv

/-- The loop of `ABTI_sched_destroy` comes to a pool before it has destroyed it: the occurrences that
are left count. -/
theorem Inv.untouched (h : Inv s) (hi : (s.sched i).live = true) {l l' : List Nat}
    (hl : (s.sched i).pools = l ++ p :: l') : ((l.foldl State.drop s).pool p).live = true := by
  have hmem : p ∈ (s.sched i).pools := by
    rw [hl]
    exact List.mem_append_right _ List.mem_cons_self
  have hlive := h.live.pools i hi p hmem
  refine (((Objects.foldl_drop l s).2 p).2.2 hlive).resolve_right ?_
  rintro ⟨-, -, -, -, hle⟩
  have hheld := h.live.held p hlive
  rw [Objects.Inv.holders_split (h.live.sched_lt hi) hi, hl, List.count_append,
    List.count_cons_self] at hheld
  have hrest := Objects.Inv.rest_nonneg s i p
  push_cast at hheld
  omega

/-- New schedulers keep the pools that are there. -/
theorem newSched_live (s : State) (l : List (Option Nat)) (a u : Bool) (q : Nat)
    (hq : q < s.nextPool) : ((s.newSched l a u).pool q).live = (s.pool q).live := by
  have hhold := ((Objects.foldl_hold (s.pools l).2 (s.pools l).1).2 q).1
  refine Eq.trans hhold ?_
  clear hhold
  induction l generalizing s with
  | nil => rfl
  | cons o l ih =>
    cases o with
    | some r => exact ih s hq
    | none =>
      have hne : q ≠ s.nextPool := by omega
      refine (ih (s.newPool true) (Nat.lt_succ_of_lt hq)).trans ?_
      exact congrArg Objects.Pool.live (Function.update_of_ne hne ..)

theorem pool_lt (h : Inv s) (hp : (s.pool p).live = true) : p < s.nextPool := by
  by_contra hn
  rw [h.live.unbornPool p (by omega)] at hp
  cases hp

/-- Only `ABTI_sched_destroy` changes whether a pool that was created is there. -/
theorem call_live {c : Call} (hp : p < s.nextPool) (hc : ∀ i, c ≠ .schedDestroy i) :
    ((call s c).pool p).live = (s.pool p).live := by
  cases c with
  | poolCreate a =>
    have hne : p ≠ s.nextPool := by omega
    exact congrArg Objects.Pool.live (Function.update_of_ne hne ..)
  | schedCreate d args a u =>
    simp only [call]
    split
    · rfl
    · exact newSched_live s _ a u p hp
  | schedDestroy i => exact absurd rfl (hc i)
  | work q l b =>
    by_cases hq : p = q
    · subst hq
      simp [call, State.setPool]
    · simp [call, State.setPool, hq]

/-- A destroyed pool stays destroyed. -/
theorem call_dead {c : Call} (hp : p < s.nextPool) (hd : (s.pool p).live = false) :
    ((call s c).pool p).live = false := by
  by_cases hc : ∃ i, c = .schedDestroy i
  · obtain ⟨i, rfl⟩ := hc
    exact ((Objects.foldl_drop (s.sched i).pools s).2 p).2.1 hd
  · rw [call_live hp fun i he => hc ⟨i, he⟩, hd]

/-- What is known of a pool that a call destroys. -/
structure Unowned (s : State) (c : Call) (p : Nat) : Prop where
  destroy : ∃ i, c = .schedDestroy i
  automatic : (s.pool p).automatic = true
  units : (s.pool p).units = []
  blocked : (s.pool p).numBlocked = 0
  unlisted : ∀ j, ((call s c).sched j).live = true → p ∉ ((call s c).sched j).pools

theorem Inv.unowned (h : Inv s) {c : Call} (hv : Valid s c) (hp : (s.pool p).live = true)
    (hd : ((Ownership.call s c).pool p).live = false) : Unowned s c p := by
  by_cases hc : ∃ i, c = .schedDestroy i
  · obtain ⟨i, rfl⟩ := hc
    obtain hk | ⟨⟨-, ha, hu, hb, -⟩, -⟩ := h.live.dropped hv hp
    · have hd : (((s.sched i).pools.foldl State.drop s).pool p).live = false := hd
      rw [hk] at hd
      cases hd
    · refine ⟨⟨i, rfl⟩, ha, hu, hb, fun j hj hm => ?_⟩
      have := (h.call hv).live.pools j hj p hm
      rw [hd] at this
      cases this
  · rw [call_live (pool_lt h hp) fun i he => hc ⟨i, he⟩, hp] at hd
    cases hd

end

/-- In every sequence of creations and destructions: `num_scheds` of a live pool is the number of
its occurrences in the lists of the live schedulers, all of which name live pools;
`ABTI_sched_destroy` reaches each pool of its list while it is live; a pool that is destroyed is
automatic, empty and in no live scheduler's list, and is not destroyed again. -/
theorem pool_ownership {s : State} (h : Reach system Valid s) :
    (∀ p, (s.pool p).live = true → (s.pool p).numScheds = holders s p) ∧
    (∀ i, (s.sched i).live = true → ∀ p ∈ (s.sched i).pools, (s.pool p).live = true) ∧
    (∀ i, (s.sched i).live = true → ∀ l p l', (s.sched i).pools = l ++ p :: l' →
      ((l.foldl State.drop s).pool p).live = true) ∧
    ∀ c, Valid s c →
      (∀ p < s.nextPool, (s.pool p).live = false → ((call s c).pool p).live = false) ∧
      ∀ p, (s.pool p).live = true → ((call s c).pool p).live = false → Unowned s c p := by
  have hi := reach_inv h
  exact ⟨hi.live.held, hi.live.pools, fun i hl _ _ _ he => hi.untouched hl he,
    fun c hv => ⟨fun p hp => call_dead hp, fun p => hi.unowned hv⟩⟩

/-- Two schedulers share pool 0, which the second one lists twice; the pool goes with the second. -/
def sharing : List Call :=
  [.schedCreate .basic ⟨2, some [none, none]⟩ true false,
    .schedCreate .basic ⟨3, some [some 0, some 1, some 0]⟩ true false, .schedDestroy 0]

theorem pool_ownership_shared : ∃ s, Reach system Valid s ∧ holders s 0 = 2 ∧
    Unowned s (.schedDestroy 1) 0 := by
  obtain ⟨s, hr, hp, hi, hn, hd⟩ := Reach.exists_run (G := Valid)
    (.start (M := system) rfl)
    (fun s => (s.pool 0).live = true ∧ (s.sched 1).live = true ∧ (s.pool 0).numScheds = 2 ∧
      ((call s (.schedDestroy 1)).pool 0).live = false) sharing (by decide)
  obtain ⟨hheld, -, -, hcall⟩ := pool_ownership hr
  exact ⟨s, hr, (hheld 0 hp).symm.trans hn, (hcall (.schedDestroy 1) hi).2 0 hp hd⟩

end Ownership
end AbtReconverse
