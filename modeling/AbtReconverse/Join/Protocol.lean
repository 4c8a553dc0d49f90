import AbtReconverse.Join.Machine

/-!
# AbtReconverse.Join.Protocol

The joiners of an object are at any time one list `W o`: what is on the object's list, until an end
swaps it out, and then what that end still has to walk. A caller is on it from its push until it is
awakened (`Waits`). The flag is stored and the list swapped under `jm`, and a joiner tests the flag,
enters the list and falls asleep under `jm`, so a joiner enters only an object whose flag is 0, and
when an end walks its list every joiner on it is BLOCKED. `CallerOk` is what holds of one caller,
`ObjOk` of one object; a step writes to one caller and one object (`Inv.of`).
-/

namespace AbtReconverse
namespace JoinProtocol

open Lts

/-- The caller holds `jm` of this object. -/
def Pc.inside : Pc → Option Nat
  | .locked o | .unlock o | .push o | .suspend o => some o
  | _ => none

/-- The end holds `jm`. -/
def ExitPc.inside : ExitPc → Bool
  | .store | .swap | .unlock _ => true
  | _ => false

/-- The end has stored the flag. -/
def ExitPc.past : ExitPc → Bool
  | .swap | .unlock _ | .wake _ | .done => true
  | _ => false

/-- The joiners the end has still to wake. -/
def ExitPc.list : ExitPc → List Nat
  | .unlock js | .wake js => js
  | _ => []

/-- The caller has entered the list of `o` and has not been awakened. -/
def Waits (s : State) (j o : Nat) : Prop :=
  s.pc j = .suspend o ∨ (s.pc j = .blocked o ∧ s.blk j = true)

instance (s : State) (j o : Nat) : Decidable (Waits s j o) :=
  inferInstanceAs (Decidable (_ ∨ (_ ∧ _)))

/-- The waiting joiners `l` are on the list of the object, or in the hands of one end. -/
def Held (x : Obj) (e : Nat → ExitPc) (l : List Nat) : Prop :=
  (x.joiners = l ∧ ∀ k, (e k).list = []) ∨
    (x.joiners = [] ∧ ∃ k, (e k).list = l ∧ ∀ k', k' ≠ k → (e k').list = [])

/-- What holds of caller `j`, which is at `p`, BLOCKED or not, and has last returned `r`. -/
structure CallerOk (obj : Nat → Obj) (W : Nat → List Nat) (j : Nat) (p : Pc) (b : Bool)
    (r : Option (Nat × Code)) : Prop where
  inside : ∀ o, p.inside = some o → (obj o).jm = some (.caller j)
  enters : ∀ o, p = .push o ∨ p = .suspend o → (obj o).flag = false
  seen : ∀ o, p = .unlock o → (obj o).flag = true
  woken : ∀ o, p = .blocked o → b = false → (obj o).flag = true
  ret : ∀ o, r = some (o, .success) → (obj o).flag = true
  blk : b = true → ∃ o, p = .blocked o
  mem : ∀ o, j ∈ W o ↔ p = .suspend o ∨ (p = .blocked o ∧ b = true)

/-- What holds of object `o` with its ends and its waiting joiners. -/
structure ObjOk (pc : Nat → Pc) (o : Nat) (x : Obj) (e : Nat → ExitPc) (l : List Nat)
    (entered awakened : Nat → Nat) : Prop where
  callback : ∀ j, x.jm = some (.callback j) → pc j = .blocked o ∧ x.flag = false
  exit : ∀ k, (e k).inside = true ↔ x.jm = some (.exit k)
  past : ∀ k, (e k).past = true → x.flag = true
  ended : x.flag = true → ∃ k, (e k).past = true
  empty : x.flag = true → (∀ k, e k ≠ .swap) → x.joiners = []
  nodup : l.Nodup
  held : Held x e l
  count : ∀ j, entered j = awakened j + l.count j

structure Inv (s : State) (W : Nat → List Nat) : Prop where
  caller : ∀ j, CallerOk s.obj W j (s.pc j) (s.blk j) (s.ret j)
  object : ∀ o, ObjOk s.pc o (s.obj o) (s.exit o) (W o) (s.entered o) (s.awakened o)

section

variable {c : Config} {s s' : State} {W : Nat → List Nat} {j o k : Nat} {p : Pc}

@[simp] theorem setObj_obj (s : State) (o : Nat) (x : Obj) (o' : Nat) :
    (s.setObj o x).obj o' = if o' = o then x else s.obj o' := Function.update_apply ..

@[simp] theorem setExit_exit (s : State) (o k : Nat) (p : ExitPc) (o' k' : Nat) :
    (s.setExit o k p).exit o' k' = if o' = o ∧ k' = k then p else s.exit o' k' := by
  by_cases ho : o' = o
  · subst ho
    simp only [State.setExit, Function.update_self, Function.update_apply, true_and]
  · simp only [State.setExit, Function.update_of_ne ho, ho, false_and, if_false]

section

variable {obj : Nat → Obj} {x y : Obj} {l : List Nat} {b : Bool} {r : Option (Nat × Code)}

/-- What a caller knows when another party writes to object `o`. -/
theorem CallerOk.frame (h : CallerOk obj W j p b r)
    (hjm : (obj o).jm = some (.caller j) → x.jm = some (.caller j))
    (hflag : x.flag = (obj o).flag ∨ x.flag = true ∧ p.inside ≠ some o) (hl : j ∈ l ↔ j ∈ W o) :
    CallerOk (Function.update obj o x) (Function.update W o l) j p b r := by
  have hset : ∀ o', (obj o').flag = true → (Function.update obj o x o').flag = true := by
    intro o' hf
    by_cases ho : o' = o
    · subst ho
      rw [Function.update_self]
      exact hflag.elim (·.trans hf) And.left
    · rwa [Function.update_of_ne ho]
  refine ⟨fun o' hp => ?_, fun o' hp => ?_, fun o' hp => hset o' (h.seen o' hp),
    fun o' hp hb => hset o' (h.woken o' hp hb), fun o' hr => hset o' (h.ret o' hr), h.blk,
    fun o' => ?_⟩
  · have hold := h.inside o' hp
    by_cases ho : o' = o
    · subst ho; rw [Function.update_self]; exact hjm hold
    · rwa [Function.update_of_ne ho]
  · have hf := h.enters o' hp
    by_cases ho : o' = o
    · subst ho
      rw [Function.update_self]
      obtain hx | ⟨_, hne⟩ := hflag
      · exact hx.trans hf
      · exact absurd (by obtain rfl | rfl := hp <;> rfl) hne
    · rwa [Function.update_of_ne ho]
  · rw [← h.mem o']
    by_cases ho : o' = o
    · subst ho; rw [Function.update_self]; exact hl
    · rw [Function.update_of_ne ho]

theorem CallerOk.awake (h : CallerOk obj W j p b r) (hp : ∀ o, p ≠ .blocked o) : b = false := by
  cases b with
  | false => rfl
  | true =>
    obtain ⟨o, ho⟩ := h.blk rfl
    exact absurd ho (hp o)

/-- A party takes `jm` or gives it back, or moves on; the flag and the joiners stay. -/
theorem ObjOk.setJm {pc pc' : Nat → Pc} {e e' : Nat → ExitPc} {n a : Nat → Nat}
    (h : ObjOk pc o x e l n a) (hy : y.flag = x.flag ∧ y.joiners = x.joiners)
    (hexit : ∀ k, (e' k).inside = true ↔ y.jm = some (.exit k))
    (hcb : ∀ j, y.jm = some (.callback j) → pc' j = .blocked o ∧ x.flag = false)
    (he : ∀ k, (e' k).list = (e k).list ∧ (e' k).past = (e k).past ∧ (e k = .swap → e' k = .swap)) :
    ObjOk pc' o y e' l n a := by
  obtain ⟨hf, hj⟩ := hy
  refine ⟨fun j hl => ?_, hexit, fun k hk => ?_, fun hx => ?_, fun hx hk => ?_, h.nodup, ?_,
    h.count⟩
  · rw [hf]; exact hcb j hl
  · rw [hf]; exact h.past k ((he k).2.1 ▸ hk)
  · obtain ⟨k, hk⟩ := h.ended (hf ▸ hx)
    exact ⟨k, (he k).2.1.trans hk⟩
  · rw [hj]
    exact h.empty (hf ▸ hx) fun k hs => hk k ((he k).2.2 hs)
  · have hh := h.held
    unfold Held at hh ⊢
    simpa only [hj, fun k => (he k).1] using hh

end

/-- The caller whose `unlock_mutex` is due is BLOCKED. -/
theorem Inv.callback_blocked (h : Inv s W) (hl : (s.obj o).jm = some (.callback j)) :
    s.pc j = .blocked o ∧ s.blk j = true := by
  obtain ⟨hb, hf⟩ := (h.object o).callback j hl
  refine ⟨hb, ?_⟩
  cases hblk : s.blk j with
  | true => rfl
  | false => rw [(h.caller j).woken o hb hblk] at hf; cases hf

/-- A caller on the list of an end is asleep: nobody enters once the flag is set. -/
theorem Inv.walked (h : Inv s W) (hj : j ∈ (s.exit o k).list) :
    s.pc j = .blocked o ∧ s.blk j = true := by
  have hpast : (s.exit o k).past = true := by
    cases hk : s.exit o k <;> rw [hk] at hj <;> first | rfl | exact absurd hj List.not_mem_nil
  have hW : j ∈ W o := by
    obtain ⟨_, hn⟩ | ⟨_, k', hk', hn⟩ := (h.object o).held
    · rw [hn k] at hj; exact absurd hj List.not_mem_nil
    · by_cases hkk : k = k'
      · subst hkk; rwa [← hk']
      · rw [hn k hkk] at hj; exact absurd hj List.not_mem_nil
  refine (((h.caller j).mem o).mp hW).resolve_left fun hs => ?_
  have hf := (h.caller j).enters o (.inr hs)
  rw [(h.object o).past k hpast] at hf
  cases hf

/-- An end that walks a list has all the joiners. -/
theorem Inv.walks (h : Inv s W) (hk : (s.exit o k).list ≠ []) :
    W o = (s.exit o k).list ∧ (s.obj o).joiners = [] ∧
      ∀ k', k' ≠ k → (s.exit o k').list = [] := by
  obtain ⟨_, hn⟩ | ⟨hj, k', hk', hn⟩ := (h.object o).held
  · exact absurd (hn k) hk
  · by_cases hkk : k = k'
    · subst hkk; exact ⟨hk'.symm, hj, hn⟩
    · exact absurd (hn k hkk) hk

/-- Nobody is walking a list while the flag is 0. -/
theorem Inv.held_open (h : Inv s W) (hf : (s.obj o).flag = false) :
    (s.obj o).joiners = W o ∧ ∀ k, (s.exit o k).list = [] := by
  have hl : ∀ k, (s.exit o k).list = [] := by
    intro k
    cases hk : s.exit o k with
    | unlock js | wake js =>
      rw [(h.object o).past k (by rw [hk]; rfl)] at hf
      cases hf
    | _ => rfl
  refine ⟨?_, hl⟩
  obtain ⟨hj, _⟩ | ⟨hj, k, hk, _⟩ := (h.object o).held
  · exact hj
  · rw [hj, ← hk, hl k]

/-- A step that writes to object `o` only. -/
theorem Inv.of (h : Inv s W) {x : Obj} {e : Nat → ExitPc} {n a : Nat → Nat} {l : List Nat}
    (hobj : s'.obj = Function.update s.obj o x) (hexit : s'.exit = Function.update s.exit o e)
    (hent : s'.entered = Function.update s.entered o n)
    (haw : s'.awakened = Function.update s.awakened o a)
    (hpc : ∀ o' u, (s.obj o').jm = some (.callback u) → s'.pc u = s.pc u)
    (hcaller : ∀ u, CallerOk (Function.update s.obj o x) (Function.update W o l) u (s'.pc u)
      (s'.blk u) (s'.ret u)) (hobject : ObjOk s'.pc o x e l n a) :
    ∃ W', Inv s' W' := by
  refine ⟨Function.update W o l, fun u => by rw [hobj]; exact hcaller u, fun o' => ?_⟩
  rw [hobj, hexit, hent, haw]
  by_cases ho : o' = o
  · subst ho
    simp only [Function.update_self]
    exact hobject
  · simp only [Function.update_of_ne ho]
    have hold := h.object o'
    refine hold.setJm ⟨rfl, rfl⟩ hold.exit (fun u hu => ?_) fun _ => ⟨rfl, rfl, id⟩
    obtain ⟨hb, hf⟩ := hold.callback u hu
    exact ⟨(hpc o' u hu).trans hb, hf⟩

/-! ## Joiners -/

/-- A caller whose callback is due is BLOCKED, so it is not the one that moves. -/
theorem Inv.callback_stays (h : Inv s W) (hb : s.blk j = false) (p : Pc) (o' u : Nat)
    (hu : (s.obj o').jm = some (.callback u)) : Function.update s.pc j p u = s.pc u := by
  refine Function.update_of_ne ?_ ..
  rintro rfl
  rw [(h.callback_blocked hu).2] at hb
  cases hb

/-- A step of a joiner that is not asleep, neither before nor after. It may take or give back `jm`.
-/
theorem Inv.goes (h : Inv s W) {x : Obj} {r : Option (Nat × Code)} (hb : s.blk j = false)
    (hs : ∀ o', s.pc j ≠ .suspend o' ∧ p ≠ .suspend o' ∧ p ≠ .blocked o')
    (hx : x.flag = (s.obj o).flag ∧ x.joiners = (s.obj o).joiners)
    (hjm : x.jm = (s.obj o).jm ∨ ((s.obj o).jm = none ∨ (s.obj o).jm = some (.caller j)) ∧
      (x.jm = none ∨ x.jm = some (.caller j)))
    (hin : ∀ o', p.inside = some o' → o' = o ∧ x.jm = some (.caller j))
    (hpush : ∀ o', p = .push o' → (s.obj o').flag = false)
    (hseen : ∀ o', p = .unlock o' → (s.obj o').flag = true)
    (hr : ∀ o', r = some (o', .success) → (s.obj o').flag = true)
    (hst : s' = { s with
      obj := Function.update s.obj o x
      pc := Function.update s.pc j p
      ret := Function.update s.ret j r }) : ∃ W', Inv s' W' := by
  subst hst
  have hflag : ∀ o', (Function.update s.obj o x o').flag = (s.obj o').flag :=
    update_congr Obj.flag hx.1
  have hpc := h.callback_stays hb p
  refine h.of (l := W o) rfl (update_same s.exit o) (update_same s.entered o)
    (update_same s.awakened o) hpc (fun u => ?_)
    ((h.object o).setJm hx (fun k => ?_) (fun u hu => ?_) fun _ => ⟨rfl, rfl, id⟩)
  · dsimp only
    by_cases hu : u = j
    · subst hu
      rw [Function.update_self, Function.update_self, Function.update_eq_self, hb]
      refine ⟨fun o' ho => ?_, fun o' ho => ?_, fun o' ho => (hflag o').trans (hseen o' ho),
        fun o' ho => absurd ho (hs o').2.2, fun o' ho => (hflag o').trans (hr o' ho), nofun,
        fun o' => ?_⟩
      · obtain ⟨rfl, hxm⟩ := hin o' ho
        rw [Function.update_self]
        exact hxm
      · exact (hflag o').trans (ho.elim (hpush o') fun he => absurd he (hs o').2.1)
      · rw [(h.caller u).mem o', hb]
        simp [hs o']
    · rw [Function.update_of_ne hu, Function.update_of_ne hu]
      refine (h.caller u).frame (fun hu' => ?_) (.inl hx.1) Iff.rfl
      obtain he | ⟨hn | hn, -⟩ := hjm
      · exact he.trans hu'
      · rw [hn] at hu'; cases hu'
      · rw [hn] at hu'; cases hu'; exact absurd rfl hu
  · rw [(h.object o).exit k]
    obtain he | ⟨hold, hnew⟩ := hjm
    · rw [he]
    · obtain hn | hn := hold <;> obtain hm | hm := hnew <;> rw [hn, hm] <;> simp
  · obtain he | ⟨-, hm | hm⟩ := hjm
    · obtain ⟨hub, hf⟩ := (h.object o).callback u (he ▸ hu)
      exact ⟨(hpc o u (he ▸ hu)).trans hub, hf⟩
    · rw [hm] at hu; cases hu
    · rw [hm] at hu; cases hu

/-- A caller that goes on outside the mutex, with or without a request to finish. -/
theorem Inv.request (h : Inv s W) {x : Obj} (hin : (s.pc j).inside = none) (hb : s.blk j = false)
    (hx : x.flag = (s.obj o).flag ∧ x.jm = (s.obj o).jm ∧ x.joiners = (s.obj o).joiners)
    (hp : p.inside = none ∧ ∀ o, p ≠ .blocked o) : ∃ W', Inv ((s.setObj o x).setPc j p) W' := by
  have hne : ∀ q : Pc, q.inside ≠ none → p ≠ q := fun q hq he => hq (he ▸ hp.1)
  refine h.goes (o := o) (x := x) (r := s.ret j) hb (fun o' => ⟨?_, hne _ nofun, hp.2 o'⟩)
    ⟨hx.1, hx.2.2⟩ (.inl hx.2.1) (by rw [hp.1]; nofun) (fun o' ho => absurd ho (hne _ nofun))
    (fun o' ho => absurd ho (hne _ nofun)) (h.caller j).ret (by simp [State.setObj, State.setPc])
  intro he
  rw [he] at hin
  cases hin

theorem Inv.setPc (h : Inv s W) (hin : (s.pc j).inside = none) (hb : s.blk j = false)
    (hp : p.inside = none ∧ ∀ o, p ≠ .blocked o) : ∃ W', Inv (s.setPc j p) W' := by
  simpa [State.setObj] using h.request (o := 0) (x := s.obj 0) hin hb ⟨rfl, rfl, rfl⟩ hp

/-- A join returns outside the mutex. -/
theorem Inv.back (h : Inv s W) (hin : (s.pc j).inside = none) (hb : s.blk j = false) {code : Code}
    (hcode : code = .success → (s.obj o).flag = true) : ∃ W', Inv (s.back j o code) W' := by
  refine h.goes (o := o) (x := s.obj o) (p := .idle) (r := some (o, code)) hb
    (fun o' => ⟨?_, nofun, nofun⟩) ⟨rfl, rfl⟩ (.inl rfl) nofun nofun nofun ?_
    (by simp [State.back, State.setPc])
  · intro he
    rw [he] at hin
    cases hin
  · rintro o' ⟨⟩
    exact hcode rfl

/-- The caller enters the list. -/
theorem Inv.push (h : Inv s W) (hpush : s.pc j = .push o) :
    ∃ W', Inv ({ s.setObj o { s.obj o with joiners := (s.obj o).joiners ++ [j] } with
      entered := bump s.entered o j }.setPc j (.suspend o)) W' := by
  have hj := h.caller j
  rw [hpush] at hj
  have hflag := hj.enters o (.inl rfl)
  obtain ⟨hW, hlist⟩ := h.held_open hflag
  have hnot : ∀ o', j ∉ W o' := by
    intro o' hm
    obtain hw | ⟨hw, _⟩ := (hj.mem o').mp hm <;> cases hw
  have hold := h.object o
  have hpc := h.callback_stays (hj.awake nofun) (.suspend o)
  refine h.of (l := W o ++ [j]) (n := Function.update (s.entered o) j (s.entered o j + 1)) rfl
    (update_same s.exit o) rfl (update_same s.awakened o) hpc (fun u => ?_)
    ⟨fun u hu => ?_, hold.exit, hold.past, hold.ended, fun hf => ?_, ?_, ?_, fun u => ?_⟩
  · show CallerOk _ _ u (Function.update s.pc j (.suspend o) u) (s.blk u) (s.ret u)
    by_cases hu : u = j
    · subst hu
      rw [Function.update_self, hj.awake nofun]
      have hf : ∀ o', (Function.update s.obj o { s.obj o with joiners := (s.obj o).joiners ++ [u] }
          o').flag = (s.obj o').flag := update_congr Obj.flag rfl
      refine ⟨?_, ?_, nofun, nofun, fun o' hr => (hf o').trans (hj.ret o' hr), nofun, fun o' => ?_⟩
      · rintro _ ⟨⟩
        rw [Function.update_self]
        exact hj.inside o rfl
      · rintro o' (ho | ho) <;> cases ho
        exact (hf o).trans hflag
      · by_cases ho : o' = o
        · subst ho; simp
        · rw [Function.update_of_ne ho]
          exact iff_of_false (hnot o') (by simp [Ne.symm ho])
    · rw [Function.update_of_ne hu]
      refine (h.caller u).frame id (.inl rfl) ?_
      simp [hu]
  · obtain ⟨hub, hf⟩ := hold.callback u hu
    exact ⟨(hpc o u hu).trans hub, hf⟩
  · cases hflag.symm.trans hf
  · exact List.nodup_append.mpr ⟨hold.nodup, by simp, fun a ha b hb' hab => by
      rw [List.mem_singleton] at hb'
      rw [hab, hb'] at ha
      exact hnot o ha⟩
  · exact .inl ⟨by rw [← hW], hlist⟩
  · rw [List.count_append]
    by_cases hu : u = j
    · subst hu; simp [hold.count u]; omega
    · simp [hu, Ne.symm hu, hold.count u]

/-- The caller falls asleep; `unlock_mutex` will release `jm`. -/
theorem Inv.suspend (h : Inv s W) (hsus : s.pc j = .suspend o) :
    ∃ W', Inv ({ s.setObj o { s.obj o with jm := some (.callback j) } with
      blk := Function.update s.blk j true }.setPc j (.blocked o)) W' := by
  have hj := h.caller j
  rw [hsus] at hj
  have hjm := hj.inside o rfl
  have hflag := hj.enters o (.inr rfl)
  have hpc := h.callback_stays (hj.awake nofun) (.blocked o)
  refine h.of (l := W o) rfl (update_same s.exit o) (update_same s.entered o)
    (update_same s.awakened o) hpc (fun u => ?_)
    ((h.object o).setJm ⟨rfl, rfl⟩ (fun k => ?_) ?_ fun _ => ⟨rfl, rfl, id⟩)
  · show CallerOk _ _ u (Function.update s.pc j (.blocked o) u) (Function.update s.blk j true u)
      (s.ret u)
    by_cases hu : u = j
    · subst hu
      rw [Function.update_self, Function.update_self, Function.update_eq_self]
      refine ⟨nofun, fun o' ho => (by obtain ho | ho := ho <;> cases ho), nofun, nofun,
        fun o' hr => ?_, fun _ => ⟨o, rfl⟩, fun o' => ?_⟩
      · refine Eq.trans ?_ (hj.ret o' hr)
        exact update_congr Obj.flag (by rfl) o'
      · rw [hj.mem o']
        simp
    · rw [Function.update_of_ne hu, Function.update_of_ne hu]
      refine (h.caller u).frame (fun hu' => ?_) (.inl rfl) Iff.rfl
      rw [hjm] at hu'
      cases hu'
      exact absurd rfl hu
  · refine ((h.object o).exit k).trans ?_
    rw [hjm]
    simp
  · rintro _ ⟨⟩
    exact ⟨Function.update_self .., hflag⟩

/-! ## The ends -/

/-- Run `k` of the end of `o` takes `jm`, or gives it back, or begins; the flag and the joiners
stay. -/
theorem Inv.mutex (h : Inv s W) {m : Option Hold} {e : ExitPc}
    (hjm : m = (s.obj o).jm ∧ e.inside = (s.exit o k).inside ∨
      ((s.obj o).jm = none ∨ (s.obj o).jm = some (.exit k)) ∧
        m = if e.inside then some (.exit k) else none)
    (hlist : e.list = (s.exit o k).list) (hpast : e.past = (s.exit o k).past)
    (hswap : s.exit o k ≠ .swap) :
    ∃ W', Inv ((s.setObj o { s.obj o with jm := m }).setExit o k e) W' := by
  have hold := h.object o
  refine h.of (l := W o) rfl rfl (update_same s.entered o) (update_same s.awakened o)
    (fun _ _ _ => rfl)
    (fun u => (h.caller u).frame (fun hu => ?_) (.inl rfl) Iff.rfl)
    (hold.setJm ⟨rfl, rfl⟩ (fun k' => ?_) (fun u hu => ?_) fun k' => ?_)
  · obtain ⟨hm, -⟩ | ⟨hn | hn, -⟩ := hjm
    · exact hm.trans hu
    · rw [hn] at hu; cases hu
    · rw [hn] at hu; cases hu
  · show _ ↔ m = some (.exit k')
    by_cases hk : k' = k
    · subst hk
      rw [Function.update_self]
      obtain ⟨hm, he⟩ | ⟨-, hm⟩ := hjm
      · rw [hm, he]; exact hold.exit k'
      · rw [hm]; cases e.inside <;> simp
    · rw [Function.update_of_ne hk]
      refine (hold.exit k').trans ?_
      obtain ⟨hm, -⟩ | ⟨hn, hm⟩ := hjm
      · rw [hm]
      · rw [hm]
        obtain hn | hn := hn <;> rw [hn] <;> split <;> simp [Ne.symm hk]
  · obtain ⟨hm, -⟩ | ⟨-, hm⟩ := hjm
    · exact hold.callback u (hm ▸ hu)
    · have hu : m = some (.callback u) := hu
      rw [hm] at hu
      split at hu <;> cases hu
  · by_cases hk : k' = k
    · subst hk
      rw [Function.update_self]
      exact ⟨hlist, hpast, fun he => absurd he hswap⟩
    · rw [Function.update_of_ne hk]
      exact ⟨rfl, rfl, id⟩

theorem Inv.callback (h : Inv s W) {i : Nat} (hl : (s.obj o).jm = some (.callback i)) :
    ∃ W', Inv (s.setObj o { s.obj o with jm := none }) W' := by
  refine h.of (l := W o) rfl (update_same s.exit o) (update_same s.entered o)
    (update_same s.awakened o) (fun _ _ _ => rfl)
    (fun u => (h.caller u).frame (fun hu => ?_) (.inl rfl) Iff.rfl)
    ((h.object o).setJm ⟨rfl, rfl⟩ (fun k => ?_) nofun fun _ => ⟨rfl, rfl, id⟩)
  · rw [hl] at hu; cases hu
  · refine ((h.object o).exit k).trans ?_
    rw [hl]
    simp

/-- The flag is stored; nobody is about to enter the list, as the end has `jm`. -/
theorem Inv.store (h : Inv s W) (hk : s.exit o k = .store) :
    ∃ W', Inv ((s.setObj o { s.obj o with flag := true }).setExit o k .swap) W' := by
  have hold := h.object o
  have hjm := (hold.exit k).mp (by rw [hk]; rfl)
  refine h.of (e := Function.update (s.exit o) k .swap) (l := W o) rfl rfl (update_same s.entered o)
    (update_same s.awakened o) (fun _ _ _ => rfl)
    (fun u => (h.caller u).frame id (.inr ⟨rfl, fun hin => ?_⟩) Iff.rfl)
    ⟨fun u hu => ?_, fun k' => ?_, fun _ _ => rfl, fun _ => ⟨k, ?_⟩, fun _ hsw => ?_, hold.nodup, ?_,
      hold.count⟩
  · have := hjm.symm.trans ((h.caller u).inside o hin)
    cases this
  · have := hjm.symm.trans hu
    cases this
  · refine Iff.trans ?_ (hold.exit k')
    by_cases hkk : k' = k
    · subst hkk; rw [Function.update_self, hk]; rfl
    · rw [Function.update_of_ne hkk]
  · rw [Function.update_self]; rfl
  · exact absurd (Function.update_self ..) (hsw k)
  · have hl : ∀ k', (Function.update (s.exit o) k .swap k').list = (s.exit o k').list :=
      update_congr ExitPc.list (by rw [hk]; rfl)
    have hh := hold.held
    unfold Held at hh ⊢
    simpa only [hl] using hh

/-- The end takes the list. -/
theorem Inv.swap (h : Inv s W) (hk : s.exit o k = .swap) :
    ∃ W', Inv ((s.setObj o { s.obj o with joiners := [] }).setExit o k
      (.unlock (s.obj o).joiners)) W' := by
  have hold := h.object o
  have hpast := hold.past k (by rw [hk]; rfl)
  refine h.of (e := Function.update (s.exit o) k (.unlock (s.obj o).joiners)) (l := W o) rfl rfl
    (update_same s.entered o) (update_same s.awakened o) (fun _ _ _ => rfl)
    (fun u => (h.caller u).frame id (.inl rfl) Iff.rfl)
    ⟨hold.callback, fun k' => ?_, fun _ _ => hpast, fun _ => ⟨k, ?_⟩, fun _ _ => rfl, hold.nodup,
      .inr ⟨rfl, ?_⟩, hold.count⟩
  · refine Iff.trans ?_ (hold.exit k')
    by_cases hkk : k' = k
    · subst hkk; rw [Function.update_self, hk]; rfl
    · rw [Function.update_of_ne hkk]
  · rw [Function.update_self]; rfl
  · have hother : ∀ {k'}, k' ≠ k →
        Function.update (s.exit o) k (.unlock (s.obj o).joiners) k' = s.exit o k' := fun hne =>
      Function.update_of_ne hne ..
    have hself : (Function.update (s.exit o) k (.unlock (s.obj o).joiners) k).list =
        (s.obj o).joiners := by rw [Function.update_self]; rfl
    obtain ⟨hj, hl⟩ | ⟨hj, k₁, hk₁, hl⟩ := hold.held
    · exact ⟨k, hself.trans hj, fun k' hne => by rw [hother hne]; exact hl k'⟩
    · by_cases hkk : k₁ = k
      · subst hkk
        rw [hk] at hk₁
        exact ⟨k₁, by rw [hself, ← hk₁]; exact hj, fun k' hne => by rw [hother hne]; exact hl k' hne⟩
      · refine ⟨k₁, by rw [hother hkk]; exact hk₁, fun k' hne => ?_⟩
        by_cases hkk' : k' = k
        · rw [hkk', hself]; exact hj
        · rw [hother hkk']; exact hl k' hne

@[simp] theorem wakeRest_list (js : List Nat) : (ExitPc.wakeRest js).list = js := by
  cases js <;> rfl

@[simp] theorem wakeRest_inside (js : List Nat) : (ExitPc.wakeRest js).inside = false := by
  cases js <;> rfl

@[simp] theorem wakeRest_past (js : List Nat) : (ExitPc.wakeRest js).past = true := by
  cases js <;> rfl

/-- The end passes a joiner to `CthAwakenIfBlocked`. -/
theorem Inv.wake (h : Inv s W) {js : List Nat} (hk : s.exit o k = .wake (j :: js)) :
    ∃ W', Inv ({ s with
      blk := Function.update s.blk j false
      awakened := bump s.awakened o j }.setExit o k (.wakeRest js)) W' := by
  obtain ⟨hb, hbj⟩ := h.walked (j := j) (o := o) (k := k) (by rw [hk]; exact List.mem_cons_self ..)
  obtain ⟨hW, hjoin, hl⟩ := h.walks (o := o) (k := k) (by rw [hk]; exact List.cons_ne_nil _ _)
  rw [hk] at hW
  have hW : W o = j :: js := hW
  have hold := h.object o
  have hflag := hold.past k (by rw [hk]; rfl)
  have hnd := hold.nodup
  rw [hW, List.nodup_cons] at hnd
  refine h.of (e := Function.update (s.exit o) k (.wakeRest js)) (l := js)
    (a := Function.update (s.awakened o) j (s.awakened o j + 1)) (update_same s.obj o) rfl
    (update_same s.entered o) rfl (fun _ _ _ => rfl)
    (fun u => ?_) ⟨hold.callback, fun k' => ?_, fun _ _ => hflag, fun _ => ⟨k, ?_⟩, fun _ _ => hjoin,
      hnd.2, .inr ⟨hjoin, k, ?_, fun k' hne => ?_⟩, fun u => ?_⟩
  · show CallerOk _ _ u (s.pc u) (Function.update s.blk j false u) (s.ret u)
    by_cases hu : u = j
    · subst hu
      rw [Function.update_eq_self, Function.update_self]
      have hj := h.caller u
      rw [hb] at hj ⊢
      refine ⟨hj.inside, hj.enters, hj.seen, ?_, hj.ret, nofun, fun o' => ?_⟩
      · rintro _ ⟨⟩ _
        exact hflag
      · by_cases ho : o' = o
        · subst ho
          rw [Function.update_self]
          exact iff_of_false hnd.1 (by simp)
        · rw [Function.update_of_ne ho, hj.mem o']
          simp [Ne.symm ho]
    · rw [Function.update_of_ne hu]
      refine (h.caller u).frame id (.inl rfl) ?_
      rw [hW]
      simp [hu]
  · refine Iff.trans ?_ (hold.exit k')
    by_cases hkk : k' = k
    · subst hkk; rw [Function.update_self, hk, wakeRest_inside]; rfl
    · rw [Function.update_of_ne hkk]
  · rw [Function.update_self, wakeRest_past]
  · rw [Function.update_self, wakeRest_list]
  · rw [Function.update_of_ne hne]; exact hl k' hne
  · rw [hold.count u, hW, List.count_cons]
    by_cases hu : u = j
    · subst hu; simp; omega
    · simp [hu, Ne.symm hu]

/-! ## Runs -/

theorem start_calm (kd : Kind) (o : Nat) (here : Bool) :
    (kd.start o here).inside = none ∧ ∀ o', kd.start o here ≠ .blocked o' := by
  cases kd <;> exact ⟨rfl, nofun⟩

theorem unset_calm (kd : Kind) (o : Nat) :
    (kd.unset o).inside = none ∧ ∀ o', kd.unset o ≠ .blocked o' := by
  cases kd <;> exact ⟨rfl, nofun⟩

theorem wait_calm (c : Config) (j o : Nat) :
    (c.wait j o).inside = none ∧ ∀ o', c.wait j o ≠ .blocked o' := by
  unfold Config.wait
  split <;> exact ⟨rfl, nofun⟩

theorem Inv.joinStep (h : Inv s W) (hst : joinStep c s j = some s') : ∃ W', Inv s' W' := by
  have hawake : (∀ o, s.pc j ≠ .blocked o) → s.blk j = false := (h.caller j).awake
  unfold JoinProtocol.joinStep at hst
  generalize hpc : s.pc j = pc at hst
  cases pc with
  | idle => cases hst
  | check o here =>
    dsimp only at hst
    have hb := hawake (by rw [hpc]; nofun)
    split at hst <;> cases hst
    · exact h.back (by rw [hpc]; rfl) hb nofun
    · exact h.setPc (by rw [hpc]; rfl) hb ⟨rfl, nofun⟩
  | load o =>
    dsimp only at hst
    have hb := hawake (by rw [hpc]; nofun)
    split at hst <;> rename_i hf <;> cases hst
    · exact h.back (by rw [hpc]; rfl) hb fun _ => hf
    · exact h.setPc (by rw [hpc]; rfl) hb (unset_calm _ o)
  | self o =>
    dsimp only at hst
    have hb := hawake (by rw [hpc]; nofun)
    split at hst <;> cases hst
    · exact h.back (by rw [hpc]; rfl) hb nofun
    · exact h.setPc (by rw [hpc]; rfl) hb (wait_calm c j o)
  | finish o =>
    cases hst
    exact h.request (by rw [hpc]; rfl) (hawake (by rw [hpc]; nofun)) ⟨rfl, rfl, rfl⟩ ⟨rfl, nofun⟩
  | request o =>
    cases hst
    exact h.request (by rw [hpc]; rfl) (hawake (by rw [hpc]; nofun)) ⟨rfl, rfl, rfl⟩
      (wait_calm c j o)
  | lock o =>
    dsimp only at hst
    split at hst <;> rename_i hl <;> cases hst
    have hb := hawake (by rw [hpc]; nofun)
    refine h.goes (o := o) (x := { s.obj o with jm := some (.caller j) }) (p := .locked o)
      (r := s.ret j) hb (by rw [hpc]; exact fun _ => ⟨nofun, nofun, nofun⟩) ⟨rfl, rfl⟩
      (.inr ⟨.inl hl, .inr rfl⟩) ?_ nofun nofun (h.caller j).ret
      (by simp [State.setObj, State.setPc])
    rintro _ ⟨⟩
    exact ⟨rfl, rfl⟩
  | locked o =>
    cases hst
    have hjm := (h.caller j).inside o (by rw [hpc]; rfl)
    have hb := hawake (by rw [hpc]; nofun)
    refine h.goes (o := o) (x := s.obj o) (p := if (s.obj o).flag then .unlock o else .push o)
      (r := s.ret j) hb (fun o' => ?_) ⟨rfl, rfl⟩ (.inl rfl) (fun o' ho => ⟨?_, hjm⟩)
      (fun o' ho => ?_) (fun o' ho => ?_) (h.caller j).ret (by simp [State.setPc])
    · rw [hpc]; split <;> exact ⟨nofun, nofun, nofun⟩
    all_goals split at ho <;> rename_i hf <;> cases ho
    · rfl
    · rfl
    · exact eq_false_of_ne_true hf
    · exact hf
  | unlock o =>
    cases hst
    have hb := hawake (by rw [hpc]; nofun)
    have hjm := (h.caller j).inside o (by rw [hpc]; rfl)
    refine h.goes (o := o) (x := { s.obj o with jm := none }) (p := .idle)
      (r := some (o, .success)) hb (by rw [hpc]; exact fun _ => ⟨nofun, nofun, nofun⟩) ⟨rfl, rfl⟩
      (.inr ⟨.inr hjm, .inl rfl⟩) nofun nofun nofun ?_
      (by simp [State.setObj, State.back, State.setPc])
    rintro _ ⟨⟩
    exact (h.caller j).seen o hpc
  | push o =>
    cases hst
    exact h.push hpc
  | suspend o =>
    cases hst
    exact h.suspend hpc
  | blocked o =>
    dsimp only at hst
    split at hst <;> rename_i hb <;> cases hst
    have hb := eq_false_of_ne_true hb
    exact h.back (by rw [hpc]; rfl) hb fun _ => (h.caller j).woken o hpc hb
  | spin o =>
    dsimp only at hst
    split at hst <;> rename_i hf <;> cases hst
    exact h.back (by rw [hpc]; rfl) (hawake (by rw [hpc]; nofun)) fun _ => hf

theorem Inv.exitStep (h : Inv s W) (hst : exitStep s o k = some s') : ∃ W', Inv s' W' := by
  unfold JoinProtocol.exitStep at hst
  generalize hk : s.exit o k = e at hst
  cases e with
  | ready =>
    cases hst
    have hready := h.mutex (e := .lock) (.inl ⟨rfl, by rw [hk]; rfl⟩) (by rw [hk]; rfl)
      (by rw [hk]; rfl) (by rw [hk]; nofun)
    simpa [State.setObj] using hready
  | lock =>
    dsimp only at hst
    split at hst <;> rename_i hl <;> cases hst
    exact h.mutex (.inr ⟨.inl hl, rfl⟩) (by rw [hk]; rfl) (by rw [hk]; rfl) (by rw [hk]; nofun)
  | store =>
    cases hst
    exact h.store hk
  | swap =>
    cases hst
    exact h.swap hk
  | unlock js =>
    cases hst
    refine h.mutex (.inr ⟨.inr (((h.object o).exit k).mp (by rw [hk]; rfl)), ?_⟩)
      (by rw [hk, wakeRest_list]; rfl) (by rw [hk, wakeRest_past]; rfl) (by rw [hk]; nofun)
    rw [wakeRest_inside]
    rfl
  | wake js =>
    cases js with
    | nil => cases hst
    | cons j js =>
      cases hst
      exact h.wake hk
  | done => cases hst

theorem Inv.initial : Inv initial fun _ => [] :=
  ⟨fun _ => ⟨nofun, fun _ h => (by cases h <;> contradiction), nofun, nofun, nofun, nofun, by
      simp [JoinProtocol.initial]⟩,
    fun _ => ⟨nofun, by simp [JoinProtocol.initial, ExitPc.inside], nofun, nofun, nofun,
      List.nodup_nil, .inl ⟨rfl, fun _ => rfl⟩, fun _ => rfl⟩⟩

theorem Inv.step (h : Inv s W) {a : Act} (hst : step c s a = some s') : ∃ W', Inv s' W' := by
  cases a with
  | call j o here =>
    simp only [JoinProtocol.step] at hst
    split at hst <;> cases hst
    rename_i hidle
    have hne : ∀ q : Pc, q.inside ≠ none → (c.kind o).start o here ≠ q := fun q hq he =>
      hq (he ▸ (start_calm _ o here).1)
    exact h.goes (o := o) (x := s.obj o) (r := none) ((h.caller j).awake (by rw [hidle]; nofun))
      (by rw [hidle]; exact fun o' => ⟨nofun, hne _ nofun, (start_calm _ o here).2 o'⟩) ⟨rfl, rfl⟩
      (.inl rfl) (by rw [(start_calm _ o here).1]; nofun) (fun o' ho => absurd ho (hne _ nofun))
      (fun o' ho => absurd ho (hne _ nofun)) nofun (by simp [State.setPc])
  | join j => exact h.joinStep hst
  | callback o =>
    simp only [JoinProtocol.step] at hst
    split at hst <;> cases hst
    rename_i i hl
    exact h.callback hl
  | exit o k => exact h.exitStep hst

theorem reach_inv {G : State → Act → Prop} (h : Reach (system c) G s) : ∃ W, Inv s W := by
  refine h.invariant (I := fun s => ∃ W, Inv s W) ?_ ?_
  · rintro s rfl; exact ⟨_, .initial⟩
  · rintro s a s' _ ⟨W, hi⟩ _ hst
    exact hi.step hst

/-- The flag is set by an end. -/
theorem flag_past {G : State → Act → Prop} (h : Reach (system c) G s)
    (hf : (s.obj o).flag = true) : ∃ k, (s.exit o k).past = true := by
  obtain ⟨W, hi⟩ := reach_inv h
  exact (hi.object o).ended hf

/-- An end that has `jm` is between its lock and its unlock. -/
theorem jm_inside {G : State → Act → Prop} (h : Reach (system c) G s)
    (hjm : (s.obj o).jm = some (.exit k)) : (s.exit o k).inside = true := by
  obtain ⟨W, hi⟩ := reach_inv h
  exact ((hi.object o).exit k).mpr hjm

/-! ## Who writes the flag -/

/-- A join writes no flag and moves no end. -/
theorem joinStep_frame (hst : joinStep c s j = some s') :
    s'.exit = s.exit ∧ (∀ o, (s'.obj o).flag = (s.obj o).flag) ∧
      ∀ i, i ≠ j → s'.pc i = s.pc i ∧ s'.ret i = s.ret i := by
  have hset : ∀ (x : Obj) o, x.flag = (s.obj o).flag → ∀ o',
      ((s.setObj o x).obj o').flag = (s.obj o').flag := by
    intro x o hx o'
    rw [setObj_obj]
    split
    · rename_i ho; rw [ho]; exact hx
    · rfl
  have hpc : ∀ q i, i ≠ j → Function.update s.pc j q i = s.pc i := fun q i hi =>
    Function.update_of_ne hi _ _
  have hret : ∀ r i, i ≠ j → Function.update s.ret j r i = s.ret i := fun r i hi =>
    Function.update_of_ne hi _ _
  simp only [joinStep] at hst
  repeat' split at hst
  all_goals cases hst
  all_goals refine ⟨rfl, ?_, fun i hi => ⟨hpc _ i hi, ?_⟩⟩
  all_goals first
    | exact fun _ => rfl
    | exact hset _ _ rfl
    | rfl
    | exact hret _ i hi

/-- A step of an end moves that end only, never back before the store, and it sets the flag only
when it is past it. -/
theorem exitStep_frame (hst : exitStep s o k = some s') :
    (∀ o' k', ¬ (o' = o ∧ k' = k) → s'.exit o' k' = s.exit o' k') ∧
    ((s.exit o k).past = true → (s'.exit o k).past = true) ∧
    (∀ o', (s'.obj o').flag = (s.obj o').flag ∨ (o' = o ∧ (s'.exit o k).past = true)) ∧
    s'.pc = s.pc ∧ s'.ret = s.ret := by
  have hother : ∀ (t : State) (e : ExitPc) o' k', ¬ (o' = o ∧ k' = k) →
      (t.setExit o k e).exit o' k' = t.exit o' k' := by
    intro t e o' k' hne; rw [setExit_exit, if_neg hne]
  have hself : ∀ (t : State) (e : ExitPc), (t.setExit o k e).exit o k = e := by
    intro t e; rw [setExit_exit, if_pos ⟨rfl, rfl⟩]
  have hobj : ∀ (x : Obj), x.flag = (s.obj o).flag → ∀ o',
      ((s.setObj o x).obj o').flag = (s.obj o').flag := by
    intro x hx o'
    rw [setObj_obj]
    split
    · rename_i ho; rw [ho]; exact hx
    · rfl
  unfold exitStep at hst
  generalize hk : s.exit o k = e at hst ⊢
  cases e with
  | ready =>
    cases hst
    exact ⟨hother s _, by simp [ExitPc.past], fun _ => .inl rfl, rfl, rfl⟩
  | lock =>
    dsimp only at hst
    split at hst <;> cases hst
    exact ⟨hother (s.setObj o _) _, by simp [ExitPc.past],
      fun o' => .inl (hobj { s.obj o with jm := some (.exit k) } rfl o'), rfl, rfl⟩
  | store =>
    cases hst
    refine ⟨hother (s.setObj o _) _, fun _ => by rw [hself]; rfl, fun o' => ?_, rfl, rfl⟩
    by_cases ho : o' = o
    · exact .inr ⟨ho, by rw [hself]; rfl⟩
    · exact .inl (congrArg Obj.flag ((setObj_obj s o _ o').trans (if_neg ho)))
  | swap =>
    cases hst
    exact ⟨hother (s.setObj o _) _, fun _ => by rw [hself]; rfl,
      fun o' => .inl (hobj { s.obj o with joiners := [] } rfl o'), rfl, rfl⟩
  | unlock js =>
    cases hst
    exact ⟨hother (s.setObj o _) _, fun _ => by rw [hself]; exact wakeRest_past js,
      fun o' => .inl (hobj { s.obj o with jm := none } rfl o'), rfl, rfl⟩
  | wake js =>
    cases js with
    | nil => cases hst
    | cons j js =>
      cases hst
      exact ⟨hother _ _, fun _ => by rw [hself]; exact wakeRest_past js, fun _ => .inl rfl, rfl, rfl⟩
  | done => cases hst

/-- A step moves its caller only. -/
theorem step_pc {a : Act} {i : Nat} (hst : step c s a = some s')
    (ha : a ≠ .join i ∧ ∀ o here, a ≠ .call i o here) : s'.pc i = s.pc i := by
  cases a with
  | call j o here =>
    simp only [JoinProtocol.step] at hst
    split at hst <;> cases hst
    have hij : i ≠ j := by rintro rfl; exact ha.2 o here rfl
    exact Function.update_of_ne hij ..
  | join j =>
    have hij : i ≠ j := by rintro rfl; exact ha.1 rfl
    exact ((joinStep_frame hst).2.2 i hij).1
  | callback o =>
    simp only [JoinProtocol.step] at hst
    split at hst <;> cases hst
    rfl
  | exit o k => rw [(exitStep_frame hst).2.2.2.1]

/-- Only the store of an end changes a flag. -/
theorem step_flag {a : Act} (hst : step c s a = some s') (o : Nat) :
    (s'.obj o).flag = (s.obj o).flag ∨ ∃ k, a = .exit o k ∧ (s'.exit o k).past = true := by
  cases a with
  | call j x here =>
    simp only [JoinProtocol.step] at hst
    split at hst <;> cases hst
    exact .inl rfl
  | join j => exact .inl ((joinStep_frame hst).2.1 o)
  | callback x =>
    simp only [JoinProtocol.step] at hst
    split at hst <;> cases hst
    exact .inl (update_congr Obj.flag (by rfl) o)
  | exit x k =>
    obtain hf | ⟨rfl, hp⟩ := (exitStep_frame hst).2.2.1 o
    · exact .inl hf
    · exact .inr ⟨k, rfl, hp⟩

/-- An end does not go back before its store. -/
theorem step_past {a : Act} {o k : Nat} (hst : step c s a = some s')
    (hp : (s.exit o k).past = true) : (s'.exit o k).past = true := by
  cases a with
  | call j x here =>
    simp only [JoinProtocol.step] at hst
    split at hst <;> cases hst
    exact hp
  | join j => rw [(joinStep_frame hst).1]; exact hp
  | callback x =>
    simp only [JoinProtocol.step] at hst
    split at hst <;> cases hst
    exact hp
  | exit x i =>
    obtain ⟨hother, hpast, -⟩ := exitStep_frame hst
    by_cases hok : o = x ∧ k = i
    · obtain ⟨rfl, rfl⟩ := hok; exact hpast hp
    · rw [hother o k hok]; exact hp

/-! ## Who is refused -/

/-- The object of a join that is past the test for the primary xstream. -/
def Pc.admitted : Pc → Option Nat
  | .idle | .check .. => none
  | .load o | .self o | .finish o | .request o | .lock o | .locked o | .unlock o | .push o
  | .suspend o | .blocked o | .spin o => some o

/-- No join of the primary xstream goes past the test. -/
structure Refused (c : Config) (s : State) : Prop where
  pc : ∀ j o, (s.pc j).admitted = some o → c.kind o ≠ .xstream true
  ret : ∀ j o, s.ret j = some (o, .success) → c.kind o ≠ .xstream true

theorem Refused.moves (h : Refused c s) (hpc : s'.pc = Function.update s.pc j p)
    (hret : s'.ret = s.ret) (hp : ∀ o, p.admitted = some o → c.kind o ≠ .xstream true) :
    Refused c s' := by
  refine ⟨fun i o hi => ?_, fun i o hi => ?_⟩
  · rw [hpc, Function.update_apply] at hi
    split at hi
    · exact hp o hi
    · exact h.pc i o hi
  · rw [hret] at hi
    exact h.ret i o hi

/-- The join of `o` returns. -/
theorem Refused.back (h : Refused c s) {code : Code} (hpc : s'.pc = Function.update s.pc j .idle)
    (hret : s'.ret = Function.update s.ret j (some (o, code)))
    (ho : code = .success → c.kind o ≠ .xstream true) : Refused c s' := by
  refine ⟨fun i o' hi => ?_, fun i o' hi => ?_⟩
  · rw [hpc, Function.update_apply] at hi
    split at hi
    · cases hi
    · exact h.pc i o' hi
  · rw [hret, Function.update_apply] at hi
    split at hi
    · cases hi
      exact ho rfl
    · exact h.ret i o' hi

theorem Refused.joinStep (h : Refused c s) (hst : joinStep c s j = some s') : Refused c s' := by
  -- where the join of an admitted object goes it stays admitted
  have hin : ∀ {o : Nat} {q : Pc}, (s.pc j).admitted = some o → (∀ o', q.admitted = some o' → o' = o) →
      ∀ o', q.admitted = some o' → c.kind o' ≠ .xstream true := by
    intro o q ho hq o' ho'
    rw [hq o' ho']
    exact h.pc j o ho
  simp only [JoinProtocol.joinStep] at hst
  generalize hpc : s.pc j = pc at hst
  cases pc with
  | idle =>
    cases hst
  | check o here =>
    simp only at hst
    split at hst
    · cases hst
      exact h.back rfl rfl fun hc => by cases hc
    · rename_i hk
      cases hst
      refine h.moves rfl rfl fun o' ho' => ?_
      cases ho'
      exact fun he => hk (.inl he)
  | load o =>
    have ho : (s.pc j).admitted = some o := by rw [hpc]; rfl
    simp only at hst
    split at hst
    · cases hst
      exact h.back rfl rfl fun _ => h.pc j o ho
    · cases hst
      refine h.moves rfl rfl (hin ho fun o' ho' => ?_)
      cases hk : c.kind o <;> rw [hk] at ho' <;> cases ho' <;> rfl
  | self o =>
    have ho : (s.pc j).admitted = some o := by rw [hpc]; rfl
    simp only at hst
    split at hst
    · cases hst
      exact h.back rfl rfl fun hc => by cases hc
    · cases hst
      refine h.moves rfl rfl (hin ho fun o' ho' => ?_)
      simp only [Config.wait] at ho'
      split at ho' <;> cases ho' <;> rfl
  | request o =>
    have ho : (s.pc j).admitted = some o := by rw [hpc]; rfl
    cases hst
    refine h.moves rfl rfl (hin ho fun o' ho' => ?_)
    simp only [Config.wait] at ho'
    split at ho' <;> cases ho' <;> rfl
  | locked o =>
    have ho : (s.pc j).admitted = some o := by rw [hpc]; rfl
    cases hst
    refine h.moves rfl rfl (hin ho fun o' ho' => ?_)
    split at ho' <;> cases ho' <;> rfl
  | lock o =>
    have ho : (s.pc j).admitted = some o := by rw [hpc]; rfl
    simp only [Option.ite_none_right_eq_some] at hst
    obtain ⟨-, hst⟩ := hst
    cases hst
    exact h.moves rfl rfl (hin ho fun o' ho' => by cases ho'; rfl)
  | finish o | push o | suspend o =>
    have ho : (s.pc j).admitted = some o := by rw [hpc]; rfl
    cases hst
    exact h.moves rfl rfl (hin ho fun o' ho' => by cases ho'; rfl)
  | unlock o =>
    have ho : (s.pc j).admitted = some o := by rw [hpc]; rfl
    cases hst
    exact h.back rfl rfl fun _ => h.pc j o ho
  | blocked o | spin o =>
    have ho : (s.pc j).admitted = some o := by rw [hpc]; rfl
    simp only at hst
    split at hst <;> cases hst
    exact h.back rfl rfl fun _ => h.pc j o ho

theorem reach_refused {G : State → Act → Prop} (h : Reach (system c) G s) : Refused c s := by
  refine h.invariant (I := Refused c) ?_ fun s a s' _ hi _ hst => ?_
  · rintro _ rfl
    exact ⟨fun _ _ hi => (by cases hi), fun _ _ hi => (by cases hi)⟩
  · cases a with
    | call j o here =>
      simp only [system, JoinProtocol.step, Option.ite_none_right_eq_some] at hst
      obtain ⟨-, hst⟩ := hst
      cases hst
      refine ⟨fun i o' hi' => ?_, fun i o' hi' => ?_⟩
      · change (Function.update s.pc j ((c.kind o).start o here) i).admitted = some o' at hi'
        rw [Function.update_apply] at hi'
        split at hi'
        · cases hk : c.kind o with
          | thread t =>
            rw [hk] at hi'
            cases hi'
            rw [hk]
            simp
          | xstream b =>
            rw [hk] at hi'
            cases hi'
        · exact hi.pc i o' hi'
      · change Function.update s.ret j none i = some (o', .success) at hi'
        rw [Function.update_apply] at hi'
        split at hi'
        · cases hi'
        · exact hi.ret i o' hi'
    | join j => exact hi.joinStep hst
    | callback o =>
      simp only [system, JoinProtocol.step] at hst
      split at hst <;> cases hst
      exact ⟨hi.pc, hi.ret⟩
    | exit o k =>
      obtain ⟨-, -, -, hpc, hret⟩ := exitStep_frame hst
      exact ⟨by rw [hpc]; exact hi.pc, by rw [hret]; exact hi.ret⟩

end

end JoinProtocol
end AbtReconverse
