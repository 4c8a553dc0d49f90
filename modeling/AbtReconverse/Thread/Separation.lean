import AbtReconverse.Thread.Descriptors

/-!
# AbtReconverse.Thread.Separation

When may the descriptor of a thread be freed? A join of `u` can return from the store to
`terminated` on: by its first load, by its load under `jm`, by its spinning load, or woken.
`ABTI_thread_terminated` is done with the descriptor only after its test of `type`. In between the
two are not separated, and `freed_in_window` is a run in which the descriptor is recycled there and
the test reads the type of another unit.

Every thread that ends passes through that window, whatever its joiners do, so
`exit_free_separation` says: a named thread has been separated in all states of a run exactly if its
`terminated` has not been stored.
-/

namespace AbtReconverse
namespace Join

open Lts

/-- `terminated` of a unit. -/
def State.terminated (s : State) (u : Nat) : Bool := (s.join.obj u).flag

/-- The end of the unit still accesses its descriptor. -/
def ExitPc.accesses : ExitPc → Bool
  | .done => false
  | _ => true

/-- The steps of `j` in `ABT_thread_join`, or in `ABT_thread_free` up to the end of its join. -/
def InJoin (j : Caller) (_ : State) : Act → Prop
  | .call i _ _ | .join i => i = j
  | _ => False

instance (j : Caller) (s : State) : (a : Act) → Decidable (InJoin j s a)
  | .call i _ _ | .join i => inferInstanceAs (Decidable (i = j))
  | .create .. | .callback _ | .free .. | .exit _ | .terminated .. =>
    inferInstanceAs (Decidable False)

/-- Some caller can return, or has returned, `ABT_SUCCESS` from a join of `u`, with nobody else
making a step. -/
def CanJoinReturn (task : Nat → Bool) (s : State) (u : Nat) : Prop :=
  ∃ j as s', runWhen (system task) (InJoin j) s as = some s' ∧
    s'.join.ret j.num = some (u, .success)

/-- Once a join of `u` can return, `ABTI_thread_terminated` is done with the descriptor. -/
def Separated (task : Nat → Bool) (s : State) (u : Nat) : Prop :=
  CanJoinReturn task s u → (s.exit u).accesses = false

/-- The system with the states it has been in. -/
def visiting (task : Nat → Bool) : System (State × List State) Act :=
  (system task).withHistory [initial] fun _ _ s' h => s' :: h

section

variable {task : Nat → Bool} {s s' : State} {u : Nat}

/-- A step is a step of the protocol or none, one of an end only if the unit ends; a unit keeps its
type. -/
theorem step_frame {a : Act} (hst : step task s a = some s') :
    (s'.join = s.join ∨ ∃ b, JoinProtocol.step (protocol task) s.join b = some s'.join ∧
      ∀ u k, b = .exit u k → s'.exit u = .ending) ∧
    s.nextId ≤ s'.nextId ∧ ∀ v, v < s.nextId → s'.kind v = s.kind v := by
  cases step_cases hst with
  | create ha =>
    obtain ⟨cache, rfl⟩ := alloc_frame ha
    exact ⟨.inl rfl, Nat.le_succ _, fun v hv => Function.update_of_ne (Nat.ne_of_lt hv) ..⟩
  | refused | joined | failed | exit | test => exact ⟨.inl rfl, Nat.le_refl _, fun _ _ => rfl⟩
  | call hJ | join hJ | callback hJ =>
    exact ⟨.inr ⟨_, hJ, nofun⟩, Nat.le_refl _, fun _ _ => rfl⟩
  | @ends u r J hpc hJ =>
    refine ⟨.inr ⟨.exit u 0, hJ, ?_⟩, Nat.le_refl _, fun _ _ => rfl⟩
    rintro _ _ ⟨⟩
    exact hpc
  | @destroys j u r hj =>
    obtain ⟨cache, mem, he⟩ := release_frame (s.setFree j .out) (j.os r) (s.addr u)
    rw [he]
    exact ⟨.inl rfl, Nat.le_refl _, fun _ _ => rfl⟩
  | @release u r hpc =>
    obtain ⟨cache, mem, he⟩ := release_frame (s.setExit u .done) (.pe r) (s.addr u)
    rw [he]
    exact ⟨.inl rfl, Nat.le_refl _, fun _ _ => rfl⟩

theorem reach_protocol {G : State → Act → Prop} (h : Reach (system task) G s) :
    Reach (JoinProtocol.system (protocol task)) Free s.join := by
  refine h.invariant (I := fun s => Reach (JoinProtocol.system (protocol task)) Free s.join) ?_ ?_
  · rintro _ rfl; exact .start rfl
  · intro s a s' _ ih _ hst
    obtain he | ⟨b, hb, -⟩ := (step_frame hst).1
    · rw [he]; exact ih
    · exact .next ih trivial hb

/-- `terminated` stays set, and it is set while the unit ends. -/
theorem step_terminated {G : State → Act → Prop} {a : Act} (h : Reach (system task) G s)
    (hst : step task s a = some s') (u : Nat) :
    (s.terminated u = true → s'.terminated u = true) ∧
      (s'.terminated u = true → s.terminated u = true ∨ s'.exit u = .ending) := by
  obtain he | ⟨b, hb, hend⟩ := (step_frame hst).1
  · unfold State.terminated
    rw [he]
    exact ⟨id, .inl⟩
  · obtain hf | ⟨k, rfl, hp⟩ := JoinProtocol.step_flag hb u
    · unfold State.terminated
      rw [hf]
      exact ⟨id, .inl⟩
    · have h' : Reach (JoinProtocol.system (protocol task)) Free s'.join :=
        .next (a := .exit u k) (reach_protocol h) trivial hb
      obtain ⟨W, hi⟩ := JoinProtocol.reach_inv h'
      exact ⟨fun _ => (hi.object u).past k hp, fun _ => .inr (hend u k rfl)⟩

/-- `ABT_thread_free` goes on to destroy a unit that has stored `terminated`. -/
theorem destroy_terminated {G : State → Act → Prop} (h : Reach (system task) G s) {j : Caller}
    (hj : s.free j = .destroy u) : s.terminated u = true := by
  refine h.invariant (I := fun s => ∀ j u, s.free j = .destroy u → s.terminated u = true)
    ?_ ?_ j u hj
  · rintro _ rfl _ _ hj; cases hj
  · intro s a s' hr ih _ hst j u hj
    have hkeep := (step_terminated hr hst u).1
    cases step_cases hst with
    | create ha => obtain ⟨cache, rfl⟩ := alloc_frame ha; exact hkeep (ih j u hj)
    | refused | join | callback | exit | ends | test => exact hkeep (ih j u hj)
    | @call _ _ free =>
      obtain ⟨-, hj⟩ | ⟨-, hj⟩ := update_cases (P := (· = FreePc.destroy u)) hj
      · cases free <;> cases hj
      · exact hkeep (ih j u hj)
    | joined _ hret =>
      obtain ⟨-, hj⟩ | ⟨-, hj⟩ := update_cases (P := (· = FreePc.destroy u)) hj
      · cases hj
        obtain ⟨W, hi⟩ := JoinProtocol.reach_inv (reach_protocol hr)
        exact (hi.caller _).ret _ hret
      · exact hkeep (ih j u hj)
    | failed =>
      obtain ⟨-, hj⟩ | ⟨-, hj⟩ := update_cases (P := (· = FreePc.destroy u)) hj
      · cases hj
      · exact hkeep (ih j u hj)
    | @destroys i v r _ =>
      obtain ⟨cache, mem, he⟩ := release_frame (s.setFree i .out) (i.os r) (s.addr v)
      rw [he] at hj
      obtain ⟨-, hj⟩ | ⟨-, hj⟩ := update_cases (P := (· = FreePc.destroy u)) hj
      · cases hj
      · exact hkeep (ih j u hj)
    | @release v r _ =>
      obtain ⟨cache, mem, he⟩ := release_frame (s.setExit v .done) (.pe r) (s.addr v)
      rw [he] at hj
      exact hkeep (ih j u hj)

theorem inJoin_terminated {j : Caller} {a : Act} (hg : InJoin j s a)
    (hst : step task s a = some s') :
    DestroyAfterExit s a ∧ s'.terminated = s.terminated := by
  cases step_cases hst with
  | create | callback | joined | failed | destroys | exit | ends | test | release => exact hg.elim
  | refused => exact ⟨trivial, rfl⟩
  | call hJ | join hJ =>
    refine ⟨trivial, funext fun u => ?_⟩
    obtain hf | ⟨k, he, -⟩ := JoinProtocol.step_flag hJ u
    · exact hf
    · cases he

/-- No join returns before the store to `terminated`. -/
theorem not_canJoinReturn (h : Reach (system task) DestroyAfterExit s)
    (hu : s.terminated u = false) : ¬ CanJoinReturn task s u := by
  rintro ⟨j, as, s', hr, hj⟩
  obtain ⟨h', he⟩ :=
    h.runWhen_keeps (f := State.terminated) (fun _ _ _ => inJoin_terminated) hr
  obtain ⟨W, hi⟩ := JoinProtocol.reach_inv (reach_protocol h')
  have hflag : s'.terminated u = true := (hi.caller j.num).ret u hj
  rw [he, hu] at hflag
  cases hflag

theorem num_ne {i j : Caller} (h : i ≠ j) : i.num ≠ j.num := by
  intro he
  cases i <;> cases j <;> simp only [Caller.num] at he
  · exact h (congrArg _ (by omega))
  · omega
  · omega
  · exact h (congrArg _ (by omega))

/-- A step moves one external thread at most. -/
theorem step_ext {a : Act} (hst : step task s a = some s') :
    ∃ n, ∀ m, m ≠ n → (s'.free (.ext m), s'.join.pc (Caller.ext m).num) =
      (s.free (.ext m), s.join.pc (Caller.ext m).num) := by
  have hcaller : ∀ j : Caller, (∀ i, i ≠ j → s'.free i = s.free i ∧
      s'.join.pc i.num = s.join.pc i.num) → ∃ n, ∀ m, m ≠ n →
      (s'.free (.ext m), s'.join.pc (Caller.ext m).num) =
        (s.free (.ext m), s.join.pc (Caller.ext m).num) := by
    intro j hf
    cases j with
    | unit v => exact ⟨0, fun m _ => Prod.ext (hf (.ext m) nofun).1 (hf (.ext m) nofun).2⟩
    | ext k =>
      refine ⟨k, fun m hm => ?_⟩
      have hne : Caller.ext m ≠ .ext k := fun he => hm (Caller.ext.inj he)
      exact Prod.ext (hf _ hne).1 (hf _ hne).2
  have hpc : ∀ {b J}, JoinProtocol.step (protocol task) s.join b = some J → ∀ {i : Caller},
      (b ≠ .join i.num ∧ ∀ u here, b ≠ .call i.num u here) → J.pc i.num = s.join.pc i.num :=
    fun hb _ => JoinProtocol.step_pc hb
  cases step_cases hst with
  | create ha =>
    obtain ⟨cache, rfl⟩ := alloc_frame ha
    exact ⟨0, fun _ _ => rfl⟩
  | refused | exit | test => exact ⟨0, fun _ _ => rfl⟩
  | @call j u free J hJ =>
    refine hcaller j fun i hi => ⟨Function.update_of_ne hi .., hpc hJ ⟨nofun, ?_⟩⟩
    rintro _ _ he
    exact num_ne hi (by injection he with h; exact h.symm)
  | @join j J hJ =>
    refine hcaller j fun i hi => ⟨rfl, hpc hJ ⟨fun he => ?_, nofun⟩⟩
    exact num_ne hi (by injection he with h; exact h.symm)
  | callback hJ => exact ⟨0, fun m _ => Prod.ext rfl (hpc hJ ⟨nofun, nofun⟩)⟩
  | @ends u r J _ hJ =>
    exact ⟨0, fun m _ => Prod.ext rfl (hpc (b := .exit u 0) hJ ⟨nofun, nofun⟩)⟩
  | @joined j | @failed j => exact hcaller j fun i hi => ⟨Function.update_of_ne hi .., rfl⟩
  | @destroys j u r _ =>
    obtain ⟨cache, mem, he⟩ := release_frame (s.setFree j .out) (j.os r) (s.addr u)
    rw [he] at hcaller ⊢
    exact hcaller j fun i hi => ⟨Function.update_of_ne hi .., rfl⟩
  | @release u r _ =>
    obtain ⟨cache, mem, he⟩ := release_frame (s.setExit u .done) (.pe r) (s.addr u)
    rw [he]
    exact ⟨0, fun _ _ => rfl⟩

/-- In the window the first load of a new join succeeds. -/
theorem canJoinReturn_of_ending (h : Reach (system task) DestroyAfterExit s)
    (hn : s.kind u = .named) (he : s.exit u = .ending) (ht : s.terminated u = true) :
    CanJoinReturn task s u := by
  have hinv := reach_inv h
  obtain ⟨n, hidle⟩ := h.almost_all
    (f := fun s n => (s.free (.ext n), s.join.pc (Caller.ext n).num)) (k := (.out, .idle))
    (by rintro _ rfl _; rfl) (fun _ _ _ => step_ext)
  obtain ⟨hout, hpc⟩ := Prod.mk.injEq .. ▸ hidle n (Nat.le_refl n)
  have hmem := hinv.live u (hinv.begun u (by simp [he])) (by simp [he])
  have htype : s.type (s.addr u) = .named := (hinv.memOk _ u hmem).2.2.trans hn
  let J : JoinProtocol.State := { s.join with
    ret := Function.update s.join.ret (Caller.ext n).num none }.setPc (Caller.ext n).num (.load u)
  let s₁ : State := { s with
    join := J
    free := Function.update s.free (.ext n) .out
    freeing := Function.update s.freeing u (s.freeing u || false) }
  have hs₁ : step task s (.call (.ext n) u false) = some s₁ := by
    have h1 : s.free (.ext n) = .out ∧ s.active (.ext n) ∧ s.mem (s.addr u) = .unit u ∧
        ¬ (false = true ∧ s.freeing u = true) := ⟨hout, rfl, hmem, by simp⟩
    simp only [step, call]
    rw [if_pos h1, if_neg (by simp [htype])]
    simp only [JoinProtocol.step, if_pos hpc]
    rfl
  have hs₂ : step task s₁ (.join (.ext n)) =
      some { s₁ with join := J.back (Caller.ext n).num u .success } := by
    have hload : J.pc (Caller.ext n).num = .load u := Function.update_self ..
    simp only [step, s₁, JoinProtocol.step, JoinProtocol.joinStep, hload]
    rw [if_pos (show (J.obj u).flag = true from ht)]
    rfl
  refine ⟨.ext n, [.call (.ext n) u false, .join (.ext n)],
    { s₁ with join := J.back (Caller.ext n).num u .success }, ?_, Function.update_self ..⟩
  simp only [runWhen, system, hs₁, hs₂, Option.bind_some, InJoin, if_true]

/-- What a thread that has stored `terminated` has been through. -/
theorem visited (u : Nat) {x : State × List State}
    (h : Reach (visiting task) (fun x => DestroyAfterExit x.1) x) :
    Reach (system task) DestroyAfterExit x.1 ∧
    (∀ s ∈ x.2, Reach (system task) DestroyAfterExit s ∧
      (s.terminated u = true → x.1.terminated u = true)) ∧
    (x.1.terminated u = true → u < x.1.nextId ∧
      ∃ s ∈ x.2, s.kind u = x.1.kind u ∧ s.exit u = .ending ∧ s.terminated u = true) := by
  refine h.historyInvariant (I := fun s h => Reach (system task) DestroyAfterExit s ∧
    (∀ s₁ ∈ h, Reach (system task) DestroyAfterExit s₁ ∧
      (s₁.terminated u = true → s.terminated u = true)) ∧
    (s.terminated u = true → u < s.nextId ∧
      ∃ s₁ ∈ h, s₁.kind u = s.kind u ∧ s₁.exit u = .ending ∧ s₁.terminated u = true)) ?_ ?_
  · rintro _ rfl
    refine ⟨.start rfl, fun s hs => ?_, nofun⟩
    obtain rfl := List.mem_singleton.mp hs
    exact ⟨.start rfl, id⟩
  · intro s h a s' _ ⟨hr, hterm, hwin⟩ hg hst
    have hr' : Reach (system task) DestroyAfterExit s' := .next hr hg hst
    obtain ⟨hkeep, hstore⟩ := step_terminated hr hst u
    obtain ⟨-, hnext, hkind⟩ := step_frame hst
    refine ⟨hr', fun s₁ hs₁ => ?_, fun ht => ?_⟩
    · obtain rfl | hs₁ := List.mem_cons.mp hs₁
      · exact ⟨hr', id⟩
      · exact ⟨(hterm s₁ hs₁).1, fun ht => hkeep ((hterm s₁ hs₁).2 ht)⟩
    · obtain ht' | he := hstore ht
      · obtain ⟨hu, s₁, hs₁, hk, hend⟩ := hwin ht'
        exact ⟨Nat.lt_of_lt_of_le hu hnext, s₁, List.mem_cons_of_mem _ hs₁,
          hk.trans (hkind u hu).symm, hend⟩
      · exact ⟨(reach_inv hr').begun u (by simp [he]), s', List.mem_cons_self, rfl, he, ht⟩

theorem separated_iff {x : State × List State}
    (h : Reach (visiting task) (fun x => DestroyAfterExit x.1) x) (hn : x.1.kind u = .named) :
    (∀ s ∈ x.2, Separated task s u) ↔ x.1.terminated u = false := by
  obtain ⟨-, hreach, hwin⟩ := visited u h
  constructor
  · intro hsep
    rw [Bool.eq_false_iff]
    intro ht
    obtain ⟨-, s, hs, hk, he, ht⟩ := hwin ht
    have hacc := hsep s hs (canJoinReturn_of_ending (hreach s hs).1 (hk.trans hn) he ht)
    rw [he] at hacc
    cases hacc
  · intro ht s hs hret
    obtain ⟨hr, hterm⟩ := hreach s hs
    have hnot : s.terminated u = false := Bool.eq_false_iff.mpr fun ht' => by simp [hterm ht'] at ht
    exact absurd hret (not_canJoinReturn hr hnot)

end

/-- In a run that destroys no descriptor before the end of its `ABTI_thread_terminated`, that function
accesses its own descriptor only; but a named thread has been separated from its joins in all states
of the run exactly if its `terminated` has not been stored, so never if it has ended. A step that
such a run may not make destroys a thread that was not separated. -/
theorem exit_free_separation {task : Nat → Bool} {x : State × List State}
    (h : Reach (visiting task) (fun x => DestroyAfterExit x.1) x) :
    (∀ v, v < x.1.nextId → (x.1.exit v).accesses = true → x.1.mem (x.1.addr v) = .unit v) ∧
    (∀ u, x.1.kind u = .named →
      ((∀ s ∈ x.2, Separated task s u) ↔ x.1.terminated u = false)) ∧
    ∀ a, ¬ DestroyAfterExit x.1 a → ∃ j r u, a = .free j r ∧ x.1.free j = .destroy u ∧
      ¬ ∀ s ∈ x.2, Separated task s u := by
  refine ⟨fun v hv ha => ?_, fun u => separated_iff h, fun a ha => ?_⟩
  · exact (reach_inv (visited v h).1).live v hv fun hd => by rw [hd] at ha; cases ha
  · cases a with
    | free j r =>
      simp only [DestroyAfterExit] at ha
      split at ha
      · rename_i u hj
        have hr := (visited u h).1
        have hn := ((reach_inv hr).frees j u (by rw [hj]; rfl)).2.2
        refine ⟨j, r, u, rfl, hj, fun hsep => ?_⟩
        rw [separated_iff h hn, destroy_terminated hr hj] at hsep
        cases hsep
      · exact absurd trivial ha
    | create | call | join | callback | exit | terminated => exact absurd trivial ha

/-- Thread 0 has ended: it was not separated in all states, and its descriptor is its own until then.
-/
theorem exit_free_separation_ended : ∃ x,
    Reach (visiting fun _ => false) (fun x => DestroyAfterExit x.1) x ∧
    x.1.exit 0 = .done ∧ ¬ ∀ s ∈ x.2, Separated (fun _ => false) s 0 := by
  have h0 : Reach (visiting fun _ => false) (fun x => DestroyAfterExit x.1) (initial, [initial]) :=
    .start ⟨rfl, rfl⟩
  obtain ⟨x, hr, he, hk, ht⟩ := h0.exists_run
    (fun x => x.1.exit 0 = .done ∧ x.1.kind 0 = .named ∧ x.1.terminated 0 = true)
    (endThread ++ [Act.terminated 0 1]) (by decide)
  refine ⟨x, hr, he, fun hsep => ?_⟩
  have := ((exit_free_separation hr).2.1 0 hk).mp hsep
  rw [ht] at this
  cases this

/-- Thread 0 is joined and freed in its window by an external thread, which then gets its descriptor
for the detached task 1; `ABTI_thread_terminated` of thread 0 reads the type of task 1 and releases
its descriptor. -/
theorem freed_in_window : ∃ s s', Reach (system (· == 1)) Free s ∧ ¬ Separated (· == 1) s 0 ∧
    s.exit 0 = .ending ∧ s.mem (s.addr 0) = .unit 1 ∧ s.exit 1 = .running ∧
    runWhen (system (· == 1)) Free s [.terminated 0 1, .terminated 0 1] = some s' ∧
    s'.mem (s'.addr 1) = .cached ∧ s'.exit 1 = .running := by
  have h0 : Reach (system (· == 1)) Free initial := .start rfl
  obtain ⟨s, hr, hj, he, hm, h1, hrun⟩ := h0.exists_run
    (fun s => s.join.ret (Caller.ext 0).num = some (0, .success) ∧ s.exit 0 = .ending ∧
      s.mem (s.addr 0) = .unit 1 ∧ s.exit 1 = .running ∧
      (runWhen (system (· == 1)) Free s [.terminated 0 1, .terminated 0 1]).any
        (fun s' => s'.mem (s'.addr 1) = .cached ∧ s'.exit 1 = .running) = true)
    (endThread ++ [Act.call (.ext 0) 0 true, .join (.ext 0), .free (.ext 0) 0, .free (.ext 0) 0,
      .create (.ext 0) 0 5 .detached]) (by decide)
  obtain ⟨s', hs', hp⟩ := (Option.any_eq_true _ _).mp hrun
  obtain ⟨hm', h1'⟩ := of_decide_eq_true hp
  refine ⟨s, s', hr, fun hsep => ?_, he, hm, h1, hs', hm', h1'⟩
  have := hsep ⟨.ext 0, [], s, rfl, hj⟩
  rw [he] at this
  cases this

end Join
end AbtReconverse
