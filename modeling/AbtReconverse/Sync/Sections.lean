import AbtReconverse.Sync.Accesses
import AbtReconverse.Sync.Untimed

/-!
# AbtReconverse.Sync.Sections

The sections of an eventual are atomic: every run of the machine with single accesses is matched by
a run of `Sync.Machine`, in which a section is one step. That step is made when the section releases
the spinlock, or, for a wait that will sleep, when its record is on the list. Until then the memory
is what the section has made so far of the memory that `Sync.Machine` still has (`Pc.effect`).

Other callers do not notice: they read records that are off the list and own records, and the
section writes to neither.
-/

namespace AbtReconverse
namespace Access

open Lts Sync

/-- The call of `Sync.Machine`. -/
def Call.op : Call → Op
  | .wait => .eventualWait 0 false
  | .test => .eventualTest 0
  | .set n v => .eventualSet 0 n v
  | .reset => .eventualReset 0

/-- Where the caller is in `Sync.Machine`. -/
def Pc.abs : Pc → Sync.Pc
  | .idle | .waitValue | .testValue _ => .idle
  | .lock c => c.op.start
  | .waitReady | .waitInit | .pushNext | .pushLast | .pushLink _ | .pushTail _ | .waitUnlock =>
    .eventualEnter 0 false
  | .hold => .hold (.eventual 0) (.eventual 0) false
  | .blocked => .blocked (.eventual 0) (.eventual 0)
  | .spin => .spin (.eventual 0) (.eventual 0)
  | .testReady | .testUnlock _ => .eventualTest 0
  | .setReady n v | .setSize n v | .setCopy n v | .setFlag n v | .setHead n v | .setCutTail n v _
  | .setCutHead n v _ | .setUnlock n v _ | .setFail n v _ => .eventualSet 0 n v
  | .wakeNext w => .wakeNext w .user
  | .wakeThread w rest => .wakeThread w rest .user
  | .wakeStore w th rest => .wakeStore w th rest .user
  | .wakeAwaken th w rest => .wakeAwaken th w false rest .user
  | .resetFlag | .resetUnlock => .eventualReset 0

/-- The caller is in a section that it has not finished. -/
def Pc.inside : Pc → Prop
  | .waitReady | .waitInit | .pushNext | .pushLast | .pushLink _ | .pushTail _ | .waitUnlock => True
  | .testReady | .testUnlock _ | .resetFlag | .resetUnlock => True
  | .setReady .. | .setSize .. | .setCopy .. | .setFlag .. | .setHead .. | .setCutTail .. => True
  | .setCutHead .. | .setUnlock .. | .setFail .. => True
  | _ => False

/-- What the section of `t` has made of the memory `m`. -/
def Pc.effect (cf : Config) (t : Nat) (m : Mem) : Pc → Mem
  | .pushNext => m.init cf t
  | .pushLast | .pushLink _ => (m.init cf t).clearNext t
  | .pushTail last => ((m.init cf t).clearNext t).link t last
  | .setFlag n v => m.copy n v
  | .setHead n v | .setCutTail n v _ => (m.copy n v).flag true
  | .setCutHead n v _ => ((m.copy n v).flag true).cutTail
  | .setUnlock n v _ => ((m.copy n v).flag true).cutTail.cutHead
  | .resetUnlock => m.flag false
  | _ => m

/-- What the section has found in the memory `m`. -/
def Pc.found (cf : Config) (m : Mem) : Pc → Prop
  | .waitInit | .pushNext | .pushLast => m.ready = false
  | .pushLink last | .pushTail last => m.ready = false ∧ last = m.wl.tail
  | .waitUnlock => m.ready = true
  | .setSize _ _ => m.ready = false
  | .setCopy n _ | .setFlag n _ | .setHead n _ => m.ready = false ∧ n ≤ cf.nbytes 0
  | .setCutTail n _ list | .setCutHead n _ list | .setUnlock n _ list =>
    m.ready = false ∧ n ≤ cf.nbytes 0 ∧ list = m.wl.head
  | .setFail n _ code => (m.ready = true ∧ code = .eventual) ∨
      (m.ready = false ∧ cf.nbytes 0 < n ∧ code = .invEventual)
  | _ => True

/-- The memory of the eventual in `Sync.Machine`. -/
def memory (s : Sync.State) : Mem := ⟨s.next, s.waiter, s.wl (.eventual 0), s.ready 0, s.value 0⟩

structure Sim (cf : Config) (f : State) (s : Sync.State) : Prop where
  pcs : ∀ t, s.pc t = (f.pc t).abs
  blk : s.blk = f.blk
  op : s.op = f.op
  inside : ∀ t, (f.pc t).inside → f.slock = some (.caller t) ∧ s.slock (.eventual 0) = none ∧
    f.mem = (f.pc t).effect cf t (memory s) ∧ (f.pc t).found cf (memory s)
  outside : (∀ t, ¬ (f.pc t).inside) → f.slock = s.slock (.eventual 0) ∧ f.mem = memory s

section

variable {cf : Config} {f f' : State} {s s' : Sync.State} {t : Nat} {p : Pc} {m : Mem}
  {q : Obj → List Rec} {ch : Nat → List Rec}

/-- A step inside the section. -/
theorem Sim.micro (h : Sim cf f s) (hin : (f.pc t).inside) (hp : p.inside)
    (habs : p.abs = (f.pc t).abs) (hpc : f'.pc = Function.update f.pc t p)
    (hmem : f'.mem = p.effect cf t (memory s)) (hfound : p.found cf (memory s))
    (hlock : f'.slock = f.slock) (hblk : f'.blk = f.blk) (hop : f'.op = f.op) : Sim cf f' s := by
  obtain ⟨hl, hn, _⟩ := h.inside t hin
  refine ⟨fun u => ?_, by rw [hblk]; exact h.blk, by rw [hop]; exact h.op, fun u hu => ?_, fun ho => ?_⟩
  · rw [hpc, h.pcs u]
    by_cases hut : u = t
    · subst hut; rw [Function.update_self, habs]
    · rw [Function.update_of_ne hut]
  · by_cases hut : u = t
    · subst hut
      rw [hpc, Function.update_self]
      exact ⟨hlock.trans hl, hn, hmem, hfound⟩
    · rw [hpc, Function.update_of_ne hut] at hu
      have := (h.inside u hu).1
      rw [hl] at this
      cases this
      exact absurd rfl hut
  · have := ho t
    rw [hpc, Function.update_self] at this
    exact absurd hp this

/-- The step that ends a section is the step of `Sync.Machine`. -/
theorem Sim.leave (h : Sim cf f s) (hin : (f.pc t).inside) (hp : ¬ p.inside)
    (hpc : f'.pc = Function.update f.pc t p) (hpc' : s'.pc = Function.update s.pc t p.abs)
    (hmem : f'.mem = memory s') (hlock : f'.slock = s'.slock (.eventual 0))
    (hblk : f'.blk = f.blk) (hop : f'.op = f.op) (hblk' : s'.blk = s.blk) (hop' : s'.op = s.op) :
    Sim cf f' s' := by
  obtain ⟨hl, _⟩ := h.inside t hin
  have hout : ∀ u, ¬ (f'.pc u).inside := by
    intro u hu
    rw [hpc] at hu
    by_cases hut : u = t
    · subst hut; rw [Function.update_self] at hu; exact hp hu
    · rw [Function.update_of_ne hut] at hu
      have := (h.inside u hu).1
      rw [hl] at this
      cases this
      exact hut rfl
  refine ⟨fun u => ?_, by rw [hblk, hblk']; exact h.blk, by rw [hop, hop']; exact h.op,
    fun u hu => absurd hu (hout u), fun _ => ⟨hlock, hmem⟩⟩
  rw [hpc, hpc']
  by_cases hut : u = t
  · subst hut; rw [Function.update_self, Function.update_self]
  · rw [Function.update_of_ne hut, Function.update_of_ne hut]; exact h.pcs u

/-- A step outside the sections. `m` is the memory that a section in progress sees. -/
theorem Sim.other (h : Sim cf f s) (hin : ¬ (f.pc t).inside) (hp : ¬ p.inside)
    (hpc : f'.pc = Function.update f.pc t p) (hpc' : s'.pc = Function.update s.pc t p.abs)
    (hlock : f'.slock = f.slock) (hlock' : s'.slock (.eventual 0) = s.slock (.eventual 0))
    (hmem : f.mem = memory s → f'.mem = memory s')
    (hmem' : ∀ u, (f.pc u).inside → f.mem = (f.pc u).effect cf u (memory s) →
      f'.mem = (f.pc u).effect cf u (memory s'))
    (hfound : ∀ p : Pc, p.found cf (memory s) → p.found cf (memory s'))
    (hblk : s'.blk = f'.blk) (hop : s'.op = f'.op) : Sim cf f' s' := by
  have hsame : ∀ u, (f'.pc u).inside ↔ (f.pc u).inside := by
    intro u
    rw [hpc]
    by_cases hut : u = t
    · subst hut; rw [Function.update_self]; exact iff_of_false hp hin
    · rw [Function.update_of_ne hut]
  refine ⟨fun u => ?_, hblk, hop, fun u hu => ?_, fun ho => ?_⟩
  · rw [hpc, hpc']
    by_cases hut : u = t
    · subst hut; rw [Function.update_self, Function.update_self]
    · rw [Function.update_of_ne hut, Function.update_of_ne hut]; exact h.pcs u
  · have hut : u ≠ t := by rintro rfl; exact hin ((hsame u).mp hu)
    obtain ⟨hl, hn, hm, hf⟩ := h.inside u ((hsame u).mp hu)
    rw [hlock, hlock', hpc, Function.update_of_ne hut]
    exact ⟨hl, hn, hmem' u ((hsame u).mp hu) hm, hfound _ hf⟩
  · obtain ⟨hl, hm⟩ := h.outside fun u hu => ho u ((hsame u).mpr hu)
    rw [hlock, hlock']
    exact ⟨hl, hmem hm⟩

/-! ## Steps of a section -/

/-- Taking the lock. -/
theorem Sim.acquire (h : Sim cf f s) {c : Call} (hpc : f.pc t = .lock c)
    (hst : advance cf f t = some f') : Sim cf f' s := by
  simp only [advance, hpc] at hst
  split at hst <;> cases hst
  rename_i hfree
  have hout : ∀ u, ¬ (f.pc u).inside := by
    intro u hu
    rw [(h.inside u hu).1] at hfree; cases hfree
  obtain ⟨hl, hm⟩ := h.outside hout
  have hfirst : c.first.inside ∧ c.first.abs = (f.pc t).abs ∧
      c.first.effect cf t (memory s) = memory s ∧ c.first.found cf (memory s) := by
    rw [hpc]; cases c <;> exact ⟨trivial, rfl, rfl, trivial⟩
  refine ⟨fun u => ?_, h.blk, h.op, fun u hu => ?_, fun ho => ?_⟩
  · rw [h.pcs u]
    by_cases hut : u = t
    · subst hut; simp [State.goto, hfirst.2.1]
    · simp [State.goto, hut]
  · by_cases hut : u = t
    · subst hut
      simp only [State.goto, Function.update_self]
      exact ⟨trivial, by rw [← hl]; exact hfree, by rw [hfirst.2.2.1]; exact hm, hfirst.2.2.2⟩
    · simp only [State.goto, Function.update_of_ne hut] at hu
      exact absurd hu (hout u)
  · have := ho t
    simp only [State.goto, Function.update_self] at this
    exact absurd hfirst.1 this

theorem Sim.wait_section (h : Sim cf f s) (hst : advance cf f t = some f')
    (hpc : f.pc t = .waitReady ∨ f.pc t = .waitInit ∨ f.pc t = .pushNext ∨ f.pc t = .pushLast ∨
      ∃ last, f.pc t = .pushLink last) : Sim cf f' s := by
  obtain hpc | hpc | hpc | hpc | ⟨last, hpc⟩ := hpc
  all_goals
    have hin : (f.pc t).inside := by rw [hpc]; exact trivial
    obtain ⟨_, _, hm, hf⟩ := h.inside t hin
    simp only [hpc, Pc.effect, Pc.found] at hm hf
    simp only [advance, hpc] at hst
  · split at hst <;> rename_i hr <;> cases hst <;> rw [hm] at hr
    · exact h.micro (p := .waitUnlock) hin trivial (by rw [hpc]; rfl) rfl hm hr rfl rfl rfl
    · exact h.micro (p := .waitInit) hin trivial (by rw [hpc]; rfl) rfl hm (eq_false_of_ne_true hr) rfl
        rfl rfl
  · cases hst
    refine h.micro (p := .pushNext) hin trivial (by rw [hpc]; rfl) rfl ?_ hf rfl rfl rfl
    simp only [State.write, Pc.effect, hm]
  · cases hst
    refine h.micro (p := .pushLast) hin trivial (by rw [hpc]; rfl) rfl ?_ hf rfl rfl rfl
    simp only [State.write, Pc.effect, hm]
  · cases hst
    refine h.micro (p := .pushLink f.mem.wl.tail) hin trivial (by rw [hpc]; rfl) rfl hm ⟨hf, ?_⟩ rfl
      rfl rfl
    rw [hm]; rfl
  · cases hst
    refine h.micro (p := .pushTail last) hin trivial (by rw [hpc]; rfl) rfl ?_ hf rfl rfl rfl
    simp only [State.write, Pc.effect, hm]

theorem Sim.test_section (h : Sim cf f s) (hst : advance cf f t = some f')
    (hpc : f.pc t = .testReady ∨ f.pc t = .resetFlag) : Sim cf f' s := by
  obtain hpc | hpc := hpc
  all_goals
    have hin : (f.pc t).inside := by rw [hpc]; exact trivial
    obtain ⟨_, _, hm, _⟩ := h.inside t hin
    simp only [hpc, Pc.effect] at hm
    simp only [advance, hpc] at hst
    cases hst
  · exact h.micro (p := .testUnlock f.mem.ready) hin trivial (by rw [hpc]; rfl) rfl hm trivial rfl rfl
      rfl
  · refine h.micro (p := .resetUnlock) hin trivial (by rw [hpc]; rfl) rfl ?_ trivial rfl rfl rfl
    simp only [State.write, Pc.effect, hm]

theorem Sim.set_section (h : Sim cf f s) (hst : advance cf f t = some f') {n : Nat}
    {v : Option (List UInt8)} (hpc : f.pc t = .setReady n v ∨ f.pc t = .setSize n v ∨
      f.pc t = .setCopy n v ∨ f.pc t = .setFlag n v ∨ f.pc t = .setHead n v ∨
      (∃ l, f.pc t = .setCutTail n v l) ∨ ∃ l, f.pc t = .setCutHead n v l) : Sim cf f' s := by
  obtain hpc | hpc | hpc | hpc | hpc | ⟨l, hpc⟩ | ⟨l, hpc⟩ := hpc
  all_goals
    have hin : (f.pc t).inside := by rw [hpc]; exact trivial
    obtain ⟨_, _, hm, hf⟩ := h.inside t hin
    simp only [hpc, Pc.effect, Pc.found] at hm hf
    simp only [advance, hpc] at hst
    cases hst
  · by_cases hr : f.mem.ready = true
    · rw [if_pos hr]
      rw [hm] at hr
      exact h.micro (p := .setFail n v .eventual) hin trivial (by rw [hpc]; rfl) rfl hm
        (.inl ⟨hr, rfl⟩) rfl rfl rfl
    · rw [if_neg hr]
      rw [hm] at hr
      exact h.micro (p := .setSize n v) hin trivial (by rw [hpc]; rfl) rfl hm (eq_false_of_ne_true hr) rfl
        rfl rfl
  · by_cases hn : cf.nbytes 0 < n
    · rw [if_pos hn]
      exact h.micro (p := .setFail n v .invEventual) hin trivial (by rw [hpc]; rfl) rfl hm
        (.inr ⟨hf, hn, rfl⟩) rfl rfl rfl
    · rw [if_neg hn]
      exact h.micro (p := .setCopy n v) hin trivial (by rw [hpc]; rfl) rfl hm
        ⟨hf, Nat.not_lt.mp hn⟩ rfl rfl rfl
  · refine h.micro (p := .setFlag n v) hin trivial (by rw [hpc]; rfl) rfl ?_ hf rfl rfl rfl
    simp only [State.write, Pc.effect, hm]
  · refine h.micro (p := .setHead n v) hin trivial (by rw [hpc]; rfl) rfl ?_ hf rfl rfl rfl
    simp only [State.write, Pc.effect, hm]
  · refine h.micro (p := .setCutTail n v f.mem.wl.head) hin trivial (by rw [hpc]; rfl) rfl hm
      ⟨hf.1, hf.2, ?_⟩ rfl rfl rfl
    rw [hm]
    cases v <;> rfl
  · refine h.micro (p := .setCutHead n v l) hin trivial (by rw [hpc]; rfl) rfl ?_ hf rfl rfl rfl
    simp only [State.write, Pc.effect, hm]
  · refine h.micro (p := .setUnlock n v l) hin trivial (by rw [hpc]; rfl) rfl ?_ hf rfl rfl rfl
    simp only [State.write, Pc.effect, hm]

/-! ## Ends of sections -/

theorem memory_push (s : Sync.State) (t : Nat) (e : Exit) :
    memory ((s.push cf t (.eventual 0) false).leave t e) =
      ((((memory s).init cf t).clearNext t).link t (s.wl (.eventual 0)).tail).setTail t := by
  cases htail : (s.wl (.eventual 0)).tail <;>
    simp [memory, Sync.State.push, Sync.State.leave, wlPush, htail, Mem.init, Mem.clearNext, Mem.link,
      Mem.setTail, Obj.slot]

theorem wakeRest_abs (l : Option Rec) : (UnlockRet.user.wakeRest l).pc = (wakeRest l).abs := by
  cases l <;> rfl

theorem not_inside_wakeRest (l : Option Rec) : ¬ (wakeRest l).inside := by
  cases l <;> exact id

@[simp] theorem wakes_mem (f : State) (t : Nat) (p : Pc) : (f.wakes t p).mem = f.mem := by
  unfold State.wakes; split <;> rfl

@[simp] theorem wakes_slock (f : State) (t : Nat) (p : Pc) : (f.wakes t p).slock = f.slock := by
  unfold State.wakes; split <;> rfl

@[simp] theorem wakes_blk (f : State) (t : Nat) (p : Pc) : (f.wakes t p).blk = f.blk := by
  unfold State.wakes; split <;> rfl

@[simp] theorem wakes_op (f : State) (t : Nat) (p : Pc) : (f.wakes t p).op = f.op := by
  unfold State.wakes; split <;> rfl

@[simp] theorem wakes_pc (f : State) (t : Nat) (p : Pc) :
    (f.wakes t p).pc = Function.update f.pc t p := by
  unfold State.wakes
  split
  · rename_i he; subst he; rfl
  · rfl

/-- A report changes the history only. -/
theorem report_keep (f : State) (t : Nat) : (f.report t).mem = f.mem ∧ (f.report t).slock = f.slock ∧
    (f.report t).pc = f.pc ∧ (f.report t).blk = f.blk ∧ (f.report t).op = f.op := by
  unfold State.report
  split <;> exact ⟨rfl, rfl, rfl, rfl, rfl⟩

/-- The last step of a section of a wait. -/
theorem Sim.wait_end (h : Sim cf f s) (hst : advance cf f t = some f')
    (hpc : f.pc t = .waitUnlock ∨ ∃ last, f.pc t = .pushTail last) :
    ∃ s', Sync.advance cf s t = some s' ∧ Sim cf f' s' := by
  have hs : s.pc t = .eventualEnter 0 false := by
    rw [h.pcs t]
    obtain hpc | ⟨last, hpc⟩ := hpc <;> rw [hpc] <;> rfl
  obtain hpc | ⟨last, hpc⟩ := hpc
  all_goals
    have hin : (f.pc t).inside := by rw [hpc]; exact trivial
    obtain ⟨hl, hn, hm, hf⟩ := h.inside t hin
    simp only [hpc, Pc.effect, Pc.found] at hm hf
    simp only [advance, hpc] at hst
    cases hst
  · have hr : s.ready 0 = true := hf
    refine ⟨_, by
        simp only [Sync.advance, hs, eventualStep, hn, if_true, hr]
        rfl, ?_⟩
    refine h.leave (p := .waitValue) hin id rfl ?_ hm ?_ rfl rfl rfl rfl
    · rfl
    · exact hn.symm
  · obtain ⟨hr, rfl⟩ := hf
    have hr : s.ready 0 = false := hr
    refine ⟨_, by
        simp only [Sync.advance, hs, eventualStep, hn, if_true, hr, Bool.false_eq_true, if_false]
        rfl, ?_⟩
    refine h.leave (p := .hold) hin id rfl rfl ?_ ?_ rfl rfl rfl rfl
    · rw [memory_push]
      simp only [State.write, hm]
      rfl
    · simp [State.write, State.goto, hl, Sync.State.push, Sync.State.leave]

/-- The last step of a section of a test or a reset. -/
theorem Sim.test_end (h : Sim cf f s) (hst : advance cf f t = some f')
    (hpc : (∃ r, f.pc t = .testUnlock r) ∨ f.pc t = .resetUnlock) :
    ∃ s', Sync.advance cf s t = some s' ∧ Sim cf f' s' := by
  obtain ⟨r, hpc⟩ | hpc := hpc
  all_goals
    have hin : (f.pc t).inside := by rw [hpc]; exact trivial
    obtain ⟨hl, hn, hm, hf⟩ := h.inside t hin
    have hs := h.pcs t
    simp only [hpc, Pc.effect, Pc.found, Pc.abs] at hm hf hs
    simp only [advance, hpc] at hst
    cases hst
  · refine ⟨_, by
     simp only [Sync.advance, hs, eventualStep, hn, if_true]
     rfl, ?_⟩
    exact h.leave (p := .testValue r) hin id rfl rfl hm hn.symm rfl rfl rfl rfl
  · refine ⟨_, by
     simp only [Sync.advance, hs, eventualStep, hn, if_true]
     rfl, ?_⟩
    refine h.leave (p := .idle) hin id rfl rfl ?_ hn.symm rfl rfl rfl rfl
    show f.mem = _
    rw [hm]
    simp [memory, Mem.flag, Sync.State.leave]

/-- The last step of a section of a set. -/
theorem Sim.set_end (h : Sim cf f s) (hst : advance cf f t = some f') {n : Nat}
    {v : Option (List UInt8)}
    (hpc : (∃ l, f.pc t = .setUnlock n v l) ∨ ∃ code, f.pc t = .setFail n v code) :
    ∃ s', Sync.advance cf s t = some s' ∧ Sim cf f' s' := by
  obtain ⟨l, hpc⟩ | ⟨code, hpc⟩ := hpc
  all_goals
    have hin : (f.pc t).inside := by rw [hpc]; exact trivial
    obtain ⟨hl, hn, hm, hf⟩ := h.inside t hin
    have hs := h.pcs t
    simp only [hpc, Pc.effect, Pc.found, Pc.abs] at hm hf hs
    simp only [advance, hpc] at hst
    cases hst
  · obtain ⟨hr, hle, rfl⟩ := hf
    have hr : s.ready 0 = false := hr
    refine ⟨_, by
        simp only [Sync.advance, hs, eventualStep, hn, if_true, hr, Bool.false_eq_true, if_false,
          if_neg (Nat.not_lt.mpr hle)]
        rfl, ?_⟩
    refine h.leave (p := wakeRest (memory s).wl.head) hin (not_inside_wakeRest _) (by simp) ?_ ?_ ?_
      (by simp) (by simp) rfl rfl
    · rw [← wakeRest_abs]; rfl
    · simp only [wakes_mem, hm]
      have hop : f.op = s.op := h.op.symm
      cases v <;> simp [memory, Mem.copy, Mem.flag, Mem.cutTail, Mem.cutHead, Mem.take,
        Sync.State.detach, Sync.State.leave, hop]
    · simp only [wakes_slock]
      exact hn.symm
  · obtain ⟨hr, rfl⟩ | ⟨hr, hlt, rfl⟩ := hf
    · have hr : s.ready 0 = true := hr
      refine ⟨_, by
          simp only [Sync.advance, hs, eventualStep, hn, if_true, hr]
          rfl, ?_⟩
      exact h.leave (p := .idle) hin id rfl rfl hm hn.symm rfl rfl rfl rfl
    · have hr : s.ready 0 = false := hr
      refine ⟨_, by
          simp only [Sync.advance, hs, eventualStep, hn, if_true, hr, Bool.false_eq_true, if_false,
            if_pos hlt]
          rfl, ?_⟩
      exact h.leave (p := .idle) hin id rfl rfl hm hn.symm rfl rfl rfl rfl

/-! ## Steps outside the sections -/

@[simp] theorem copy_next (n : Nat) (v : Option (List UInt8)) (m : Mem) :
    (m.copy n v).next = m.next := by cases v <;> rfl

@[simp] theorem copy_waiter (n : Nat) (v : Option (List UInt8)) (m : Mem) :
    (m.copy n v).waiter = m.waiter := by cases v <;> rfl

theorem copy_signal (n : Nat) (v : Option (List UInt8)) (m : Mem) (w : Rec) :
    (m.signal w).copy n v = (m.copy n v).signal w := by cases v <;> rfl

/-- A section changes no record but the caller's own and the link of the last one. -/
theorem effect_next {u : Nat} {w : Rec} (hf : p.found cf m) (hw : w ≠ ⟨u, .wait⟩)
    (hz : ∀ z, m.wl.tail = some z → z ≠ w) : (p.effect cf u m).next w = m.next w := by
  cases p <;> simp only [Pc.effect, Mem.init, Mem.clearNext, Mem.flag, Mem.cutTail, Mem.cutHead,
    copy_next, Function.update_of_ne hw]
  case pushTail last =>
    obtain ⟨_, rfl⟩ := hf
    cases htail : m.wl.tail with
    | none => simp only [Mem.link, Function.update_of_ne hw]
    | some z =>
      simp only [Mem.link, Function.update_of_ne (hz z htail).symm, Function.update_of_ne hw]

theorem effect_waiter {u : Nat} {w : Rec} (hw : w ≠ ⟨u, .wait⟩) :
    (p.effect cf u m).waiter w = m.waiter w := by
  cases p <;> simp only [Pc.effect, Mem.init, Mem.clearNext, Mem.flag, Mem.cutTail, Mem.cutHead,
    copy_waiter, Function.update_of_ne hw]
  case pushTail last => cases last <;> simp only [Mem.link, Function.update_of_ne hw]

theorem effect_signal {u : Nat} {w : Rec} (hw : w ≠ ⟨u, .wait⟩) :
    p.effect cf u (m.signal w) = (p.effect cf u m).signal w := by
  cases p <;> simp only [Pc.effect, copy_signal]
  case pushTail last =>
    cases last <;> simp only [Mem.link, Mem.signal, Mem.init, Mem.clearNext,
      Function.update_of_ne hw, Function.update_comm hw]
  all_goals simp only [Mem.signal, Mem.init, Mem.clearNext, Mem.flag, Mem.cutTail, Mem.cutHead,
    Function.update_of_ne hw, Function.update_comm hw]

theorem inside_wait (h : p.inside) : p.abs.wait = none := by
  cases p <;> first | rfl | exact absurd h id

/-- A waker has the record it is about to read or signal in its chain. -/
theorem record_mem (hp : Plain cf s q ch) (h : Sim cf f s) {w : Rec}
    (hw : (f.pc t).record = some w) : w ∈ ch t := by
  have hpcs := h.pcs t
  cases hpc : f.pc t <;> rw [hpc] at hw hpcs <;> cases hw
  · have hc := (hp.lists.wakes t).chain .next w none (by rw [hpcs]; rfl) trivial
    exact List.mem_of_head? (Path.head_eq hc).symm
  · obtain ⟨l, hl, _⟩ := (hp.lists.wakes t).chain .thread w _ (by rw [hpcs]; rfl) trivial
    exact hl ▸ List.mem_cons_self ..
  · exact (hp.lists.wakes t).store_mem (by rw [hpcs]; rfl) trivial

/-- The record is not that of a caller in a section, and not the last one on the list. -/
theorem Sim.apart (hp : Plain cf s q ch) (h : Sim cf f s) {w : Rec} {x u : Nat} (hw : w ∈ ch x)
    (hu : (f.pc u).inside) :
    w ≠ ⟨u, .wait⟩ ∧ ∀ z, (memory s).wl.tail = some z → z ≠ w := by
  constructor
  · rintro rfl
    obtain ⟨_, o, md, hm⟩ := (hp.lists.wakes x).chained _ hw
    have hwait := hm.wait
    rw [h.pcs u, inside_wait hu] at hwait
    cases hwait
  · rintro z hz rfl
    exact (hp.lists.tail_apart hz).2 x hw

/-- A waker reads what `Sync.Machine` has. -/
theorem Sim.read (hp : Plain cf s q ch) (h : Sim cf f s) {w : Rec} (hw : (f.pc t).record = some w) :
    f.mem.next w = s.next w ∧ f.mem.waiter w = s.waiter w := by
  have hch := record_mem hp h hw
  by_cases hin : ∃ u, (f.pc u).inside
  · obtain ⟨u, hu⟩ := hin
    obtain ⟨_, _, hm, hf⟩ := h.inside u hu
    obtain ⟨hne, htail⟩ := h.apart hp hch hu
    rw [hm]
    exact ⟨effect_next hf hne htail, effect_waiter hne⟩
  · rw [(h.outside fun u hu => hin ⟨u, hu⟩).2]
    exact ⟨rfl, rfl⟩

/-- So does a caller that looks at its own record outside the sections. -/
theorem Sim.own (h : Sim cf f s) (ht : ¬ (f.pc t).inside) :
    f.mem.waiter ⟨t, .wait⟩ = s.waiter ⟨t, .wait⟩ := by
  by_cases hin : ∃ u, (f.pc u).inside
  · obtain ⟨u, hu⟩ := hin
    rw [(h.inside u hu).2.2.1]
    refine effect_waiter fun he => ?_
    cases he
    exact ht hu
  · rw [(h.outside fun u hu => hin ⟨u, hu⟩).2]
    rfl

theorem Sim.wakeNext (hp : Plain cf s q ch) (h : Sim cf f s) {w : Rec} (hpc : f.pc t = .wakeNext w)
    (hst : advance cf f t = some f') : ∃ s', Sync.advance cf s t = some s' ∧ Sim cf f' s' := by
  have hs := h.pcs t
  rw [hpc] at hs
  simp only [advance, hpc] at hst
  cases hst
  rw [(h.read hp (by rw [hpc]; rfl)).1]
  refine ⟨_, by simp only [Sync.advance, hs, Pc.abs, wakeStep]; rfl, ?_⟩
  exact h.other (p := .wakeThread w (s.next w)) (by rw [hpc]; exact id) id rfl rfl rfl rfl id
    (fun _ _ hm => hm) (fun _ hf => hf) h.blk h.op

theorem Sim.wakeThread (hp : Plain cf s q ch) (h : Sim cf f s) {w : Rec} {rest : Option Rec}
    (hpc : f.pc t = .wakeThread w rest) (hst : advance cf f t = some f') :
    ∃ s', Sync.advance cf s t = some s' ∧ Sim cf f' s' := by
  have hs := h.pcs t
  rw [hpc] at hs
  simp only [advance, hpc] at hst
  cases hst
  rw [(h.read hp (by rw [hpc]; rfl)).2]
  refine ⟨_, by simp only [Sync.advance, hs, Pc.abs, wakeStep]; rfl, ?_⟩
  exact h.other (p := .wakeStore w (s.waiter w).thread rest) (by rw [hpc]; exact id) id rfl rfl rfl
    rfl id (fun _ _ hm => hm) (fun _ hf => hf) h.blk h.op

theorem memory_signal (s : Sync.State) (t : Nat) (w : Rec) (e : Exit) :
    memory (({ s with
      waiter := Function.update s.waiter w { s.waiter w with signaled := true } } : Sync.State).leave t
        e) = (memory s).signal w := rfl

theorem found_signal {w : Rec} (hf : p.found cf m) : p.found cf (m.signal w) := by
  cases p <;> exact hf

/-- The store to `signaled` of a record that no section writes to. -/
theorem Sim.wakeStore (hp : Plain cf s q ch) (h : Sim cf f s) {w : Rec} {th : Option Nat}
    {rest : Option Rec} (hpc : f.pc t = .wakeStore w th rest) (hst : advance cf f t = some f') :
    ∃ s', Sync.advance cf s t = some s' ∧ Sim cf f' s' := by
  have hs := h.pcs t
  have hw : w ∈ ch t := record_mem hp h (by rw [hpc]; rfl)
  rw [hpc] at hs
  simp only [advance, hpc] at hst
  cases hst
  refine ⟨_, by simp only [Sync.advance, hs, Pc.abs, wakeStep]; rfl, ?_⟩
  refine h.other (p := awaken w rest th) (by rw [hpc]; exact id) ?_ (by simp) ?_ (by simp) rfl
    (fun hm => ?_) (fun u hu hm => ?_) (fun p hf => ?_) (by rw [wakes_blk]; exact h.blk)
    (by rw [wakes_op]; exact h.op)
  · cases th with
    | none => exact not_inside_wakeRest rest
    | some u => exact id
  · rw [leave_pc, hp.recs w]
    cases th with
    | none => exact congrArg _ (wakeRest_abs rest)
    | some u => rfl
  · rw [memory_signal, wakes_mem, hm]
  · rw [memory_signal, wakes_mem, hm, effect_signal (h.apart hp hw hu).1]
  · exact found_signal hf

theorem Sim.wakeAwaken (h : Sim cf f s) {th : Nat} {w : Rec} {rest : Option Rec}
    (hpc : f.pc t = .wakeAwaken th w rest) (hst : advance cf f t = some f') :
    ∃ s', Sync.advance cf s t = some s' ∧ Sim cf f' s' := by
  have hs := h.pcs t
  rw [hpc] at hs
  simp only [advance, hpc] at hst
  cases hst
  refine ⟨_, by simp only [Sync.advance, hs, Pc.abs, wakeStep]; rfl, ?_⟩
  refine h.other (p := wakeRest rest) (by rw [hpc]; exact id) (not_inside_wakeRest rest) (by simp) ?_
    (by simp) rfl (by simp only [wakes_mem]; exact id)
    (by simp only [wakes_mem]; exact fun _ _ hm => hm) (fun _ hf => hf) ?_
    (by rw [wakes_op]; exact h.op)
  · rw [leave_pc, wakeRest_abs]
  · rw [wakes_blk, ← h.blk]; rfl

/-- The caller that waits gives up the spinlock. Nobody is in a section: the caller holds it. -/
theorem Sim.hold (hp : Plain cf s q ch) (h : Sim cf f s) (hpc : f.pc t = .hold)
    (hst : advance cf f t = some f') : ∃ s', Sync.advance cf s t = some s' ∧ Sim cf f' s' := by
  have hs := h.pcs t
  rw [hpc] at hs
  have hlock : s.slock (.eventual 0) = some (.caller t) :=
    ((hp.lists.waits t).record (.eventual 0) (.held false) (by rw [hs]; rfl) trivial).lock rfl
  have hout : ∀ u, ¬ (f.pc u).inside := by
    intro u hu
    rw [(h.inside u hu).2.1] at hlock
    cases hlock
  have hmem := (h.outside hout).2
  have hnew : ∀ p : Pc, ¬ p.inside → ∀ u, ¬ (Function.update f.pc t p u).inside := by
    intro p hp u
    by_cases hut : u = t
    · subst hut; rwa [Function.update_self]
    · rw [Function.update_of_ne hut]; exact hout u
  have hpcs : ∀ p : Pc, ∀ u, Function.update s.pc t p.abs u = (Function.update f.pc t p u).abs := by
    intro p u
    by_cases hut : u = t
    · subst hut; rw [Function.update_self, Function.update_self]
    · rw [Function.update_of_ne hut, Function.update_of_ne hut]; exact h.pcs u
  simp only [advance, hpc] at hst
  split at hst <;> rename_i hult <;> cases hst
  · refine ⟨_, by simp only [Sync.advance, hs, Pc.abs, waitStep, hult]; rfl, ?_⟩
    refine ⟨hpcs .blocked, ?_, h.op, fun u hu => absurd hu (hnew .blocked id u), fun _ => ⟨?_, hmem⟩⟩
    · exact congrArg (Function.update · t true) h.blk
    · simp [Sync.State.leave]
  · refine ⟨_, by simp only [Sync.advance, hs, Pc.abs, waitStep, hult]; rfl, ?_⟩
    refine ⟨hpcs .spin, h.blk, h.op, fun u hu => absurd hu (hnew .spin id u), fun _ => ⟨?_, hmem⟩⟩
    simp [Sync.State.leave, State.unlock]

/-- A caller goes on after its wait. -/
theorem Sim.woken (h : Sim cf f s) (hpc : (f.pc t).sleeps) (hst : advance cf f t = some f') :
    ∃ s', Sync.advance cf s t = some s' ∧ Sim cf f' s' := by
  have hs := h.pcs t
  cases he : f.pc t <;> rw [he] at hpc hs <;> try exact absurd hpc id
  all_goals
    have hin : ¬ (f.pc t).inside := by rw [he]; exact id
    simp only [advance, he] at hst
    split at hst <;> rename_i hb <;> cases hst
  · rw [← h.blk] at hb
    refine ⟨_, by simp only [Sync.advance, hs, Pc.abs, waitStep, hb]; rfl, ?_⟩
    exact h.other (p := .waitValue) hin id rfl rfl rfl rfl id (fun _ _ hm => hm) (fun _ hf => hf) h.blk
      h.op
  · rw [h.own hin] at hb
    refine ⟨_, by simp only [Sync.advance, hs, Pc.abs, waitStep, Obj.slot, hb]; rfl, ?_⟩
    exact h.other (p := .waitValue) hin id rfl rfl rfl rfl id (fun _ _ hm => hm) (fun _ hf => hf) h.blk
      h.op

/-- The read of `e->value` after the sections is no step of `Sync.Machine`. -/
theorem Sim.value (h : Sim cf f s) (hst : advance cf f t = some f')
    (hpc : f.pc t = .waitValue ∨ ∃ r, f.pc t = .testValue r) : Sim cf f' s := by
  have hs : s.pc t = .idle := by
    rw [h.pcs t]
    obtain hpc | ⟨r, hpc⟩ := hpc <;> rw [hpc] <;> rfl
  have hin : ¬ (f.pc t).inside := by
    obtain hpc | ⟨r, hpc⟩ := hpc <;> rw [hpc] <;> exact id
  have hrep := report_keep f t
  have hidle : s.pc = Function.update s.pc t (Pc.abs .idle) := by
    show s.pc = Function.update s.pc t Sync.Pc.idle
    rw [← hs, Function.update_eq_self]
  obtain hpc | ⟨r, hpc⟩ := hpc
  all_goals
    simp only [advance, hpc] at hst
    cases hst
    refine h.other (p := .idle) hin id ?_ hidle ?_ rfl ?_ ?_ (fun _ hf => hf) ?_ ?_
    all_goals simp only [State.finish, State.goto, hrep]
  all_goals first | exact id | exact fun _ _ hm => hm | exact h.blk | exact h.op

/-- A step of a caller is a step of it in `Sync.Machine`, or none. -/
theorem Sim.go (hp : Plain cf s q ch) (h : Sim cf f s) (hst : advance cf f t = some f') :
    Sim cf f' s ∨ ∃ s', Sync.advance cf s t = some s' ∧ Sim cf f' s' := by
  cases hpc : f.pc t with
  | idle => simp [advance, hpc] at hst
  | lock c => exact .inl (h.acquire hpc hst)
  | waitReady | waitInit | pushNext | pushLast | pushLink last =>
    exact .inl (h.wait_section hst (by simp [hpc]))
  | setReady n v | setSize n v | setCopy n v | setFlag n v | setHead n v | setCutTail n v l
  | setCutHead n v l => exact .inl (h.set_section hst (n := n) (v := v) (by simp [hpc]))
  | testReady | resetFlag => exact .inl (h.test_section hst (by simp [hpc]))
  | pushTail last | waitUnlock => exact .inr (h.wait_end hst (by simp [hpc]))
  | testUnlock r | resetUnlock => exact .inr (h.test_end hst (by simp [hpc]))
  | setUnlock n v l | setFail n v code =>
    exact .inr (h.set_end hst (n := n) (v := v) (by simp [hpc]))
  | hold => exact .inr (h.hold hp hpc hst)
  | blocked | spin => exact .inr (h.woken (by rw [hpc]; exact trivial) hst)
  | waitValue | testValue r => exact .inl (h.value hst (by simp [hpc]))
  | wakeNext w => exact .inr (h.wakeNext hp hpc hst)
  | wakeThread w rest => exact .inr (h.wakeThread hp hpc hst)
  | wakeStore w th rest => exact .inr (h.wakeStore hp hpc hst)
  | wakeAwaken th w rest => exact .inr (h.wakeAwaken hpc hst)

/-- A call begins; a caller that still reads `e->value` begins none. -/
theorem Sim.call (h : Sim cf f s) {c : Call} (hst : step cf f (.call t c) = some f') :
    s.pc t = .idle ∧ Sim cf f' (({ s with op := Function.update s.op t (s.op t + 1) } :
      Sync.State).leave t (.to c.op.start)) := by
  simp only [step] at hst
  split at hst <;> cases hst
  rename_i hidle
  refine ⟨by rw [h.pcs t, hidle]; rfl, ?_⟩
  refine h.other (p := .lock c) (by rw [hidle]; exact id) id rfl rfl rfl rfl id (fun _ _ hm => hm)
    (fun _ hf => hf) h.blk ?_
  show Function.update s.op t (s.op t + 1) = Function.update f.op t (f.op t + 1)
  rw [h.op]

theorem Sim.callback (h : Sim cf f s) (hst : step cf f .callback = some f') :
    (∃ x, s.slock (.eventual 0) = some (.callback x)) ∧
      Sim cf f' { s with slock := Function.update s.slock (.eventual 0) none } := by
  simp only [step] at hst
  split at hst <;> cases hst
  rename_i x hl
  have hout : ∀ u, ¬ (f.pc u).inside := by
    intro u hu
    rw [(h.inside u hu).1] at hl
    cases hl
  obtain ⟨hl', hm⟩ := h.outside hout
  refine ⟨⟨x, hl'.symm.trans hl⟩, h.pcs, h.blk, h.op, fun u hu => absurd hu (hout u), fun _ => ⟨?_, hm⟩⟩
  simp

theorem Sim.initial : Sim cf (initial cf) (Sync.initial cf) :=
  ⟨fun _ => rfl, rfl, rfl, fun _ hu => absurd hu id, fun _ => ⟨rfl, rfl⟩⟩

theorem Sim.step (hp : Plain cf s q ch) (h : Sim cf f s) {a : Act} (hst : step cf f a = some f') :
    Sim cf f' s ∨ ∃ b s', Untimed s b ∧ Sync.step cf s b = some s' ∧ Sim cf f' s' := by
  cases a with
  | call t c =>
    obtain ⟨hidle, h'⟩ := h.call hst
    have hg : Untimed s (.call t c.op) := by cases c <;> first | exact trivial | exact rfl
    exact .inr ⟨.call t c.op, _, hg, by simp only [Sync.step, hidle, if_true], h'⟩
  | go t =>
    obtain h' | ⟨s', hs', h'⟩ := h.go hp hst
    · exact .inl h'
    · exact .inr ⟨.go t, s', trivial, hs', h'⟩
  | callback =>
    obtain ⟨⟨x, hl⟩, h'⟩ := h.callback hst
    exact .inr ⟨.callback (.eventual 0), _, trivial, by simp only [Sync.step, hl], h'⟩

end

/-- Every run with single accesses is a run of `Sync.Machine`. -/
theorem reach_sections {cf : Config} {G : State → Act → Prop} {f : State}
    (h : Reach (system cf) G f) : ∃ s, Reach (Sync.system cf) Untimed s ∧
      Sim cf f s ∧ ∃ q ch, Plain cf s q ch := by
  refine h.simulation (R := fun f s => Sim cf f s ∧ ∃ q ch, Plain cf s q ch) ?_ ?_
  · rintro f rfl
    exact ⟨Sync.initial cf, rfl, .initial, _, _, .initial⟩
  · rintro f s a f' ⟨hsim, q, ch, hp⟩ _ hst
    obtain h' | ⟨b, s', hb, hs', h'⟩ := hsim.step hp hst
    · exact .inl ⟨h', q, ch, hp⟩
    · exact .inr ⟨b, s', hb, hs', h', _, _, hp.step hb hs'⟩

end Access
end AbtReconverse
