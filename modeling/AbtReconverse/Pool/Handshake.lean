import AbtReconverse.Pool.ListPath
import AbtReconverse.Pool.MpscPath
import AbtReconverse.Pool.Wakeup

/-!
# AbtReconverse.Pool.Handshake

Lost wake-ups of a built-in pool, on both storage paths. With no push, pop or remove in flight and no
notification pending, a thread asleep in `pop_timedwait` or a parked PE means that `count` is at most
zero (`no_lost_wakeup`), with one condition on each path.

* On the list path no removal meets a push of its unit that has set `in_pool` and has not linked it:
  `list_unlink` would drop the whole list and leave `count` positive for good.
* On the single-consumer path at most two callers of `pop_timedwait` wait at a time. Of three, one
  that was notified can return null, because a second push has moved `tail` while it looks at the
  last node; the caller notified for the second push takes the first unit, and the third sleeps on
  with `count` at one.

`wakeups_lost` has a run of each kind.
-/

namespace AbtReconverse
namespace Waiting

open Lts

/-! ### Parties that a run does not name -/

def Act.names (a : Act) (x : Nat) : Bool :=
  match a with
  | .push g _ => g = x
  | .producer g c => g = x || c = some x
  | .pop c | .remove c _ | .popTimedwait c | .park c _ | .consumer c _ | .wake c => c = x

section

variable {σ : Type} {M : Store σ} {s s' : State σ} {a : Act} {x : Nat}

theorem begin_other {c : Nat} {b : StoreAct} {pc : ConsPc} (hx : x ≠ c)
    (hs : s.begin M c b pc = some s') :
    s'.producer x = s.producer x ∧ s'.consumer x = s.consumer x := by
  obtain ⟨st, -, rfl⟩ := Option.map_eq_some_iff.mp hs
  exact ⟨rfl, Function.update_of_ne hx ..⟩

theorem call_other {c : Nat} {f : Bool → ConsPc} (hx : x ≠ c) (hs : s.call M c f = some s') :
    s'.producer x = s.producer x ∧ s'.consumer x = s.consumer x := by
  obtain ⟨st, -, rfl⟩ := Option.map_eq_some_iff.mp hs
  dsimp only
  split
  · exact ⟨rfl, Function.update_of_ne hx ..⟩
  · exact ⟨rfl, rfl⟩

theorem producerStep_other {g : Nat} {c : Option Nat} (hx : x ≠ g) (hc : c ≠ some x)
    (hs : producerStep M s g c = some s') :
    s'.producer x = s.producer x ∧ s'.consumer x = s.consumer x := by
  have hset : ∀ pc, Function.update s.producer g pc x = s.producer x :=
    fun _ => Function.update_of_ne hx ..
  unfold producerStep at hs
  split at hs
  · cases hs
  · obtain ⟨st, -, rfl⟩ := Option.map_eq_some_iff.mp hs
    dsimp only
    split
    · exact ⟨hset _, rfl⟩
    · exact ⟨rfl, rfl⟩
  · obtain ⟨st, -, rfl⟩ := Option.map_eq_some_iff.mp hs
    exact ⟨hset _, rfl⟩
  · cases hs; exact ⟨hset _, rfl⟩
  · split at hs
    · cases hs; exact ⟨hset _, rfl⟩
    · cases hs
  · split at hs
    · split at hs
      · rename_i d _
        cases hs
        exact ⟨hset _, Function.update_of_ne (fun he => hc (congrArg some he.symm)) ..⟩
      · cases hs
    · split at hs
      · cases hs; exact ⟨hset _, rfl⟩
      · cases hs
  all_goals cases hs; exact ⟨hset _, rfl⟩

theorem consumerStep_other {c : Nat} {b : Bool} (hx : x ≠ c)
    (hs : consumerStep M s c b = some s') :
    s'.producer x = s.producer x ∧ s'.consumer x = s.consumer x := by
  have hset : ∀ pc, Function.update s.consumer c pc x = s.consumer x :=
    fun _ => Function.update_of_ne hx ..
  unfold consumerStep at hs
  split at hs
  all_goals first
    | cases hs; done
    | exact begin_other hx hs
    | exact call_other hx hs
    | (cases hs; exact ⟨rfl, hset _⟩)
    | (split at hs
       · cases hs; exact ⟨rfl, hset _⟩
       · cases hs)

theorem step_other (ha : a.names x = false) (hs : step M s a = some s') :
    s'.producer x = s.producer x ∧ s'.consumer x = s.consumer x := by
  cases a with
  | push g t =>
    simp only [step, Option.ite_none_right_eq_some] at hs
    obtain ⟨st, -, rfl⟩ := Option.map_eq_some_iff.mp hs.2
    have hx : x ≠ g := fun he => by simp [Act.names, he] at ha
    exact ⟨Function.update_of_ne hx .., rfl⟩
  | producer g c =>
    have hx : x ≠ g ∧ c ≠ some x := by
      refine ⟨fun he => ?_, fun he => ?_⟩ <;> simp [Act.names, he] at ha
    exact producerStep_other hx.1 hx.2 hs
  | pop c | remove c t | popTimedwait c =>
    simp only [step, Option.ite_none_right_eq_some] at hs
    exact begin_other (fun he => by simp [Act.names, he] at ha) hs.2
  | park c k =>
    simp only [step, Option.ite_none_right_eq_some] at hs
    cases hs.2
    have hx : x ≠ c := fun he => by simp [Act.names, he] at ha
    exact ⟨rfl, Function.update_of_ne hx ..⟩
  | consumer c b => exact consumerStep_other (fun he => by simp [Act.names, he] at ha) hs
  | wake c =>
    simp only [step, Option.ite_none_right_eq_some] at hs
    cases hs.2
    have hx : x ≠ c := fun he => by simp [Act.names, he] at ha
    exact ⟨rfl, Function.update_of_ne hx ..⟩

/-- It names parties below `n` only. -/
def Act.within (n : Nat) : Act → Bool
  | .push g _ => g < n
  | .producer g c => g < n && c.all (· < n)
  | .pop c | .remove c _ | .popTimedwait c | .park c _ | .consumer c _ | .wake c => c < n

theorem names_of_within {n : Nat} (h : a.within n = true) (hx : n ≤ x) : a.names x = false := by
  cases a with
  | producer g c =>
    cases c with
    | none =>
      simp only [Act.within, Option.all_none, Bool.and_true, decide_eq_true_eq] at h
      simp [Act.names]
      omega
    | some d =>
      simp only [Act.within, Option.all_some, Bool.and_eq_true, decide_eq_true_eq] at h
      simp [Act.names]
      omega
  | _ =>
    simp only [Act.within, decide_eq_true_eq] at h
    simp [Act.names]
    omega

theorem run_other {G : State σ → Act → Prop} [∀ s a, Decidable (G s a)] {as : List Act}
    (hr : runWhen (system M) G s as = some s') (ha : ∀ a ∈ as, a.names x = false) :
    s'.producer x = s.producer x ∧ s'.consumer x = s.consumer x := by
  induction as generalizing s with
  | nil => cases hr; exact ⟨rfl, rfl⟩
  | cons a as ih =>
    simp only [runWhen] at hr
    split at hr
    · obtain ⟨s₁, hs₁, hr⟩ := Option.bind_eq_some_iff.mp hr
      obtain ⟨h₁, h₂⟩ := ih hr fun b hb => ha b (List.mem_cons_of_mem _ hb)
      obtain ⟨h₃, h₄⟩ := step_other (ha a List.mem_cons_self) hs₁
      exact ⟨h₁.trans h₃, h₂.trans h₄⟩
    · cases hr

/-- A run of parties below `n` that leaves them quiet leaves all quiet. -/
theorem exists_quiet {G : State σ → Act → Prop} [∀ s a, Decidable (G s a)] (n : Nat)
    (P : State σ → Prop) [DecidablePred P] (as : List Act)
    (hn : as.all (Act.within n) = true)
    (hp : (runWhen (system M) G (initial M) as).any (fun s => decide ((∀ x < n,
      s.producer x = .idle ∧ (s.consumer x).inCall = false ∧ (s.consumer x).awake = false) ∧ P s)) =
      true) :
    ∃ s, Reach (system M) G s ∧ Quiet s ∧ P s := by
  obtain ⟨s, hr, hquiet, hps⟩ := exists_runWhen _ as hp
  have hout : ∀ x, n ≤ x → s.producer x = .idle ∧ s.consumer x = .out := by
    intro x hx
    refine run_other hr fun a ha => names_of_within ?_ hx
    exact List.all_eq_true.mp hn a ha
  refine ⟨s, Reach.runWhen (.start rfl) hr, ⟨fun g => ?_, fun c => ?_⟩, hps⟩
  · by_cases hg : g < n
    · exact (hquiet g hg).1
    · exact (hout g (by omega)).1
  · by_cases hc : c < n
    · exact (hquiet c hc).2
    · rw [(hout c (by omega)).2]
      exact ⟨rfl, rfl⟩

end

/-! ### Both paths -/

/-- No wake-up is lost on the list path, if no removal meets an unlinked push of its unit, and none on
the single-consumer path, if at most two callers wait in `pop_timedwait` at a time. -/
theorem no_lost_wakeup (pool : Nat → Option Nat) (mine : Nat → Bool) :
    (∀ s, Reach (system (ListPath.store pool)) (Careful (ListPath.store pool)) s → Quiet s →
      ∀ c, Asleep s c → s.store.mem.count 0 ≤ 0) ∧
    ∀ s, Reach (system (Mpsc.store mine)) (Careful (Mpsc.store mine)) s → Quiet s →
      ∀ c, Asleep s c → s.store.count ≤ 0 :=
  ⟨fun _ h hq _ hc => (reach_inv h).count_le hq hc, fun _ h hq _ hc => (reach_inv h).count_le hq hc⟩

/-- `n` steps of a producer that has no caller to wake. -/
def pushing (g n : Nat) : List Act := List.replicate n (.producer g none)

def stepping (c n : Nat) : List Act := List.replicate n (.consumer c false)

/-- Caller `c` finds the pool empty and goes to sleep. -/
def dozing (c : Nat) : List Act := .popTimedwait c :: stepping c 8

/-- The idle hook of PE `c` finds the pool empty and parks the PE. -/
def parking (c : Nat) : List Act := .park c .hook :: stepping c 6

/-- A unit comes and goes before a caller sleeps and a PE parks. -/
def listRun : List Act :=
  .push 0 0 :: pushing 0 6 ++ .pop 1 :: stepping 1 5 ++ dozing 0 ++ parking 2

def mpscRun : List Act :=
  .push 0 0 :: pushing 0 6 ++ .pop 1 :: stepping 1 13 ++ dozing 0 ++ dozing 1 ++ parking 2

theorem no_lost_wakeup_asleep :
    (∃ s, Reach (system (ListPath.store fun _ => some 0)) (Careful (ListPath.store fun _ => some 0)) s ∧
      Quiet s ∧ Asleep s 0 ∧ Asleep s 2 ∧ s.store.mem.count 0 ≤ 0) ∧
    ∃ s, Reach (system (Mpsc.store fun _ => true)) (Careful (Mpsc.store fun _ => true)) s ∧
      Quiet s ∧ Asleep s 1 ∧ Asleep s 2 ∧ s.store.count ≤ 0 := by
  have h := no_lost_wakeup (fun _ => some 0) fun _ => true
  refine ⟨?_, ?_⟩
  · obtain ⟨s, hr, hq, h₀, h₂, hn⟩ := exists_quiet (M := ListPath.store fun _ => some 0)
      (G := Careful (ListPath.store fun _ => some 0)) 3
      (fun s => s.consumer 0 = .asleep ∧ s.consumer 2 = .wait .hook ∧ s.notified 2 = false)
      listRun (by decide) (by decide +kernel)
    exact ⟨s, hr, hq, .inl h₀, .inr ⟨⟨_, h₂⟩, hn⟩, h.1 s hr hq 0 (.inl h₀)⟩
  · obtain ⟨s, hr, hq, h₁, h₂, hn⟩ := exists_quiet (M := Mpsc.store fun _ => true)
      (G := Careful (Mpsc.store fun _ => true)) 3
      (fun s => s.consumer 1 = .asleep ∧ s.consumer 2 = .wait .hook ∧ s.notified 2 = false)
      mpscRun (by decide) (by decide +kernel)
    exact ⟨s, hr, hq, .inl h₁, .inr ⟨⟨_, h₂⟩, hn⟩, h.2 s hr hq 1 (.inl h₁)⟩

/-- Two units are in the list and a third is between the exchange of `in_pool` and the lock when it is
removed. The list is empty then; the third unit is linked and popped, and a PE parks. -/
def dropRun : List Act :=
  .push 0 0 :: pushing 0 6 ++ .push 0 1 :: pushing 0 6 ++ .push 1 2 :: .remove 0 2 :: stepping 0 6 ++
    pushing 1 6 ++ .pop 0 :: stepping 0 5 ++ parking 2

/-- Callers 0, 1 and 2 sleep. Unit 0 is pushed and caller 0 woken, which comes to read that unit 0 has
no successor. Unit 1 is pushed and caller 1 woken. Caller 0 returns null, caller 1 pops unit 0. -/
def threeRun : List Act :=
  dozing 0 ++ dozing 1 ++ dozing 2 ++ .push 0 0 :: pushing 0 6 ++ .producer 0 (some 0) :: pushing 0 2 ++
    stepping 0 8 ++ .push 1 1 :: pushing 1 6 ++ .producer 1 (some 1) :: pushing 1 2 ++ stepping 0 2 ++
    stepping 1 13

theorem wakeups_lost :
    (∃ s, Reach (system (ListPath.store fun _ => some 0)) Free s ∧ Quiet s ∧ Asleep s 2 ∧
      s.store.mem.count 0 = 1) ∧
    ∃ s, Reach (system (Mpsc.store fun _ => true)) Free s ∧ Quiet s ∧ Asleep s 2 ∧
      s.store.count = 1 := by
  refine ⟨?_, ?_⟩
  · obtain ⟨s, hr, hq, h₂, hn, hcount⟩ := exists_quiet (M := ListPath.store fun _ => some 0)
      (G := Free) 3
      (fun s => s.consumer 2 = .wait .hook ∧ s.notified 2 = false ∧ s.store.mem.count 0 = 1)
      dropRun (by decide) (by decide +kernel)
    exact ⟨s, hr, hq, .inr ⟨⟨_, h₂⟩, hn⟩, hcount⟩
  · obtain ⟨s, hr, hq, h₂, hcount⟩ := exists_quiet (M := Mpsc.store fun _ => true) (G := Free) 3
      (fun s => s.consumer 2 = .asleep ∧ s.store.count = 1) threeRun (by decide) (by decide +kernel)
    exact ⟨s, hr, hq, .inl h₂, hcount⟩

end Waiting
end AbtReconverse
