import AbtReconverse.Lib.Count
import AbtReconverse.Pool.Steps

/-!
# AbtReconverse.Pool.Size

What `count` counts. Pushes add to it after their link, pops and removals subtract from it after
they have released the lock, so it lags behind the queue by the operations that are in flight
(`CountInv`). With none in flight it is the number of queued units that are not removed.
-/

namespace AbtReconverse
namespace Mpsc

open Lts

/-- Past the exchange of `tail`, before the link. -/
def PushPc.late : PushPc → Bool
  | .link _ => true
  | _ => false

/-- The consumer has taken a push that it will return, or marked one, and still has to do its
`count.fetch_sub`. -/
def Owes (s : State) (c : Nat) : Prop :=
  match s.cons c with
  | .popClear p | .popFlag p => s.removed p.unit = false
  | .popUnlock p => p ≠ none
  | .remUnlock hit => hit = true
  | .popCount _ | .remCount => True
  | _ => False

/-- How many of the pushes taken off are returned. -/
def returned (out : List (Push × Option Nat)) : Nat := (out.filter fun e => e.2.isSome).length

structure CountInv (s : State) : Prop where
  count : ∃ a e : Int, Counts a (fun t => (s.push t).late = true) ∧ Counts e (Owes s) ∧
    s.count = s.pushed.length - a - s.linked - returned s.out - s.hits.length + e
  hits : ∀ p ∈ s.hits, (p, none) ∈ s.out ∨
    (p = s.cur p.unit ∧ s.removed p.unit = true ∧ s.inPool p.unit = true)

namespace CountInv

variable {s s' : State} {chain : List Node} {c t : Nat}

theorem start (mine : Nat → Bool) : CountInv (initial mine) := by
  refine ⟨⟨0, 0, Counts.zero ?_, Counts.zero ?_, ?_⟩, ?_⟩ <;>
    simp [initial, PushPc.late, Owes, returned]

/-- A producer moves. -/
theorem producer (h : CountInv s) (hcons : s'.cons = s.cons) (hrem : s'.removed = s.removed)
    (hout : s'.out = s.out) (hhit : s'.hits = s.hits) {k : Int}
    (hother : ∀ u, u ≠ t → s'.push u = s.push u)
    (hk : (k = 0 ∧ (s'.push t).late = (s.push t).late) ∨
      (k = 1 ∧ (s.push t).late = false ∧ (s'.push t).late = true) ∨
      (k = -1 ∧ (s.push t).late = true ∧ (s'.push t).late = false))
    (hcount : s'.count + s'.linked - s'.pushed.length + k = s.count + s.linked - s.pushed.length)
    (hhits : ∀ p ∈ s.hits, p = s.cur p.unit → s.inPool p.unit = true →
      p = s'.cur p.unit ∧ s'.inPool p.unit = true) : CountInv s' := by
  obtain ⟨⟨a, e, ha, he, hn⟩, hh⟩ := h
  have ha' : Counts (a + k) (fun u => (s'.push u).late = true) := by
    rcases hk with ⟨rfl, hl⟩ | ⟨rfl, hl, hl'⟩ | ⟨rfl, hl, hl'⟩
    · rw [add_zero]
      refine ha.congr fun u => ?_
      by_cases hu : u = t
      · rw [hu, hl]
      · rw [hother u hu]
    · refine ha.insert (a := t) (by simp [hl]) fun u => ?_
      by_cases hu : u = t
      · simp [hu, hl']
      · simp [hu, hother u hu]
    · refine ha.erase (a := t) hl fun u => ?_
      by_cases hu : u = t
      · simp [hu, hl']
      · simp [hu, hother u hu]
  refine ⟨⟨a + k, e, ha', he.congr fun d => ?_, ?_⟩, fun p hp => ?_⟩
  · unfold Owes; rw [hcons, hrem]
  · rw [hout, hhit]; omega
  · rw [hhit] at hp
    rw [hout, hrem]
    rcases hh p hp with ho | ⟨hc, hr, hi⟩
    · exact .inl ho
    · exact .inr ⟨(hhits p hp hc hi).1, hr, (hhits p hp hc hi).2⟩

/-- What the others owe does not depend on the marks that the holder of the lock writes. -/
theorem owes_other (hinv : Inv s chain) (hc : (s.cons c).holds = true ∨ s'.removed = s.removed)
    {d : Nat} (hd : d ≠ c) (hcons : s'.cons d = s.cons d) : Owes s' d ↔ Owes s d := by
  have hhand : (s.cons d).hand = none ∨ s'.removed = s.removed := by
    refine hc.imp_left fun hc => ?_
    have hn : (s.cons d).holds ≠ true := fun h => hd (hinv.lock_unique hc h)
    cases hp : s.cons d <;> simp_all [ConsPc.holds, ConsPc.hand]
  unfold Owes
  rw [hcons]
  rcases hhand with hn | hr
  · cases hp : s.cons d <;> simp_all [ConsPc.hand]
  · rw [hr]

/-- A consumer moves: `k` says how what it owes changes. -/
theorem consumer (h : CountInv s) (hinv : Inv s chain) (k : Int) {pc : ConsPc}
    (hcons : s'.cons = Function.update s.cons c pc)
    (hlk : (s.cons c).holds = true ∨ s'.removed = s.removed)
    (hpush : s'.push = s.push) (hpushed : s'.pushed = s.pushed) (hlinked : s'.linked = s.linked)
    (hk : (k = 0 ∧ (Owes s' c ↔ Owes s c)) ∨ (k = 1 ∧ ¬ Owes s c ∧ Owes s' c) ∨
      (k = -1 ∧ Owes s c ∧ ¬ Owes s' c))
    (hcount : s'.count + returned s'.out + s'.hits.length =
      s.count + returned s.out + s.hits.length + k)
    (hhits : ∀ p ∈ s'.hits, (p, none) ∈ s'.out ∨
      (p = s'.cur p.unit ∧ s'.removed p.unit = true ∧ s'.inPool p.unit = true)) :
    CountInv s' := by
  obtain ⟨⟨a, e, ha, he, hn⟩, hh⟩ := h
  have hother : ∀ d, d ≠ c → (Owes s' d ↔ Owes s d) := by
    intro d hd
    exact owes_other hinv hlk hd (by rw [hcons, Function.update_of_ne hd])
  have he' : Counts (e + k) (Owes s') := by
    rcases hk with ⟨rfl, ho⟩ | ⟨rfl, ho, ho'⟩ | ⟨rfl, ho, ho'⟩
    · rw [add_zero]
      refine he.congr fun d => ?_
      by_cases hd : d = c
      · rw [hd]; exact ho
      · exact hother d hd
    · refine he.insert (a := c) ho fun d => ?_
      by_cases hd : d = c
      · simp [hd, ho']
      · simp [hd, hother d hd]
    · refine he.erase (a := c) ho fun d => ?_
      by_cases hd : d = c
      · simp [hd, ho']
      · simp [hd, hother d hd]
  refine ⟨⟨a, e + k, ?_, he', ?_⟩, hhits⟩
  · rw [hpush]; exact ha
  · rw [hpushed, hlinked]; omega

/-- A consumer moves and only its place in the code and the lists change. -/
theorem moves (h : CountInv s) (hinv : Inv s chain) {pc : ConsPc}
    (hcons : s'.cons = Function.update s.cons c pc)
    (hsame : s'.push = s.push ∧ s'.pushed = s.pushed ∧ s'.linked = s.linked ∧ s'.count = s.count ∧
      s'.out = s.out ∧ s'.hits = s.hits ∧ s'.num = s.num ∧ s'.removed = s.removed ∧ s'.inPool = s.inPool)
    (how : Owes s' c ↔ Owes s c) : CountInv s' := by
  obtain ⟨e1, e2, e0, e3, e4, e5, e6, e7, e8⟩ := hsame
  refine h.consumer hinv 0 hcons (.inr e7) e1 e2 e0 (.inl ⟨rfl, how⟩) ?_ ?_
  · rw [e3, e4, e5, add_zero]
  · simpa only [State.cur, e4, e5, e6, e7, e8] using h.hits

/-- A consumer does its `count.fetch_sub`. -/
theorem pays (h : CountInv s) (hinv : Inv s chain) (how : Owes s c) (r : Result) :
    CountInv (({ s with count := s.count - 1 } : State).back c r) := by
  refine h.consumer hinv (-1) rfl (.inr rfl) rfl rfl rfl (.inr (.inr ⟨rfl, how, ?_⟩)) ?_ h.hits
  · simp [Owes, State.back]
  · simp [State.back]; omega

theorem take (h : CountInv s) (hinv : Inv s chain) {v : Node}
    (hpc : s.cons c = .popTake (.unit t) v) : CountInv (({ s with
      head := v
      out := s.out ++ [(s.cur t, if s.removed t then none else some c)] } : State).setCons c
        (.popClear (s.cur t))) := by
  refine h.consumer hinv (if s.removed t then 0 else 1) rfl (.inr rfl) rfl rfl rfl ?_ ?_ ?_
  · cases hr : s.removed t <;> simp [Owes, State.setCons, hpc, State.cur, hr]
  · cases s.removed t <;> simp [State.setCons, returned]
    omega
  · intro p hp
    exact (h.hits p hp).imp_left fun ho => List.mem_append_left _ ho

theorem consStep (h : CountInv s) (hinv : Inv s chain) (hst : ConsStep s c s') : CountInv s' := by
  cases hst with
  | popCrash hpc => exact absurd rfl ((hinv.consOk c).looks .stub (by rw [hpc]; rfl)).2
  | popTake hpc => exact h.take hinv hpc
  | @popClear p hpc =>
    refine h.consumer hinv 0 rfl (.inr rfl) rfl rfl rfl (.inl ⟨rfl, ?_⟩) (by simp [State.setCons])
      fun q hq => ?_
    · simp [Owes, State.setCons, hpc]
    · rcases h.hits q hq with ho | ⟨hc, hr, hi⟩
      · exact .inl ho
      · by_cases hqp : q.unit = p.unit
        · have hp := (hinv.consOk c).hand p (by rw [hpc]; rfl)
          rw [← hqp, hr] at hp
          have : q = p := by rw [hc, ((hinv.consOk c).clear p hpc).1, hqp]
          rw [this]; exact .inl hp
        · refine .inr ⟨hc, hr, ?_⟩
          simpa [State.setCons, hqp] using hi
  | @popDiscard p hpc hrem =>
    refine h.consumer hinv 0 rfl (.inl (by rw [hpc]; rfl)) rfl rfl rfl (.inl ⟨rfl, ?_⟩)
      (by simp [State.setCons]) fun q hq => ?_
    · simp [Owes, State.setCons, hpc, hrem]
    · refine (h.hits q hq).imp_right ?_
      rintro ⟨hc, hr, hi⟩
      have hqp : q.unit ≠ p.unit := fun he => by
        rw [he, (hinv.consOk c).flag p hpc hrem] at hi; cases hi
      refine ⟨hc, ?_, hi⟩
      simpa [State.setCons, hqp] using hr
  | popKeep hpc hrem =>
    exact h.moves hinv rfl (by simp [State.setCons]) (by simp [Owes, State.setCons, hpc, hrem])
  | @remMark u hpc hrem =>
    refine h.consumer hinv 1 rfl (.inl (by rw [hpc]; rfl)) rfl rfl rfl (.inr (.inl ⟨rfl, ?_⟩)) ?_
      fun q hq => ?_
    · simp [Owes, State.setCons, hpc]
    · simp [State.setCons]; omega
    · simp only [State.setCons, List.mem_append, List.mem_singleton] at hq
      rcases hq with hq | rfl
      · refine (h.hits q hq).imp_right ?_
        rintro ⟨hc, hr, hi⟩
        refine ⟨hc, ?_, hi⟩
        simp only [State.setCons, Function.update_apply]
        split <;> simp [hr]
      · refine .inr ⟨rfl, ?_, (hinv.consOk c).mark u hpc⟩
        simp [State.setCons, State.cur]
  | popCount hpc | remCount hpc => exact h.pays hinv (by simp [Owes, hpc]) _
  | popNull hpc | remMiss hpc =>
    exact h.moves hinv rfl (by simp [State.back]) (by simp [Owes, State.back, hpc])
  | popLock hpc _ | popEmpty hpc _ _ | popPass hpc _ _ | popHead hpc _ | popSecond hpc | popTest hpc
  | popGiveUp hpc _ | popLast hpc _ | popStub hpc | popSwap hpc | popLink hpc | popBroken hpc _
  | popReload hpc _ | popUnlock hpc | remLock hpc _ | remTest hpc _ | remAbsent hpc _
  | remTwice hpc _ | remUnlock hpc =>
    exact h.moves hinv rfl (by simp [State.setCons, State.setNext])
      (by simp [Owes, State.setCons, State.setNext, hpc])

theorem step (h : CountInv s) (hinv : Inv s chain) {a : Act} (hst : step s a = some s') :
    CountInv s' := by
  have hcur : ∀ p ∈ s.hits, p = s.cur p.unit → s.inPool p.unit = true →
    p = s.cur p.unit ∧ s.inPool p.unit = true := fun _ _ hc hi => ⟨hc, hi⟩
  have hother : ∀ {t} pc u, u ≠ t → Function.update s.push t pc u = s.push u :=
    fun _ u hu => Function.update_of_ne hu ..
  cases step_cases hst with
  | abort _ => exact ⟨h.count, h.hits⟩
  | @enter t hin =>
    have hpc := hinv.push_idle hin
    refine h.producer (t := t) (k := 0) rfl rfl rfl rfl (hother _)
      (.inl ⟨rfl, by simp [State.setPush, hpc, PushPc.late]⟩) (by simp [State.setPush]) ?_
    intro p _ hc hi
    have hp : p.unit ≠ t := by
      rintro rfl
      rw [hin] at hi
      cases hi
    exact ⟨by simpa [State.setPush, State.cur, hp] using hc,
      by simpa [State.setPush, hp] using hi⟩
  | @clear t hpc =>
    exact h.producer (t := t) (k := 0) rfl rfl rfl rfl (hother _)
      (.inl ⟨rfl, by simp [State.setPush, hpc, PushPc.late]⟩)
      (by simp [State.setPush, State.setNext]) hcur
  | @exchange t hpc =>
    exact h.producer (t := t) (k := 1) rfl rfl rfl rfl (hother _)
      (.inr (.inl ⟨rfl, by simp [hpc, PushPc.late], by simp [State.setPush, PushPc.late]⟩))
      (by simp [State.setPush]; omega) hcur
  | @link t u hpc =>
    exact h.producer (t := t) (k := -1) rfl rfl rfl rfl (hother _)
      (.inr (.inr ⟨rfl, by simp [hpc, PushPc.late], by simp [State.setPush, PushPc.late]⟩))
      (by simp [State.setPush, State.setNext]; omega) hcur
  | count hpos =>
    exact h.producer (t := 0) (k := 0) rfl rfl rfl rfl (fun _ _ => rfl) (.inl ⟨rfl, rfl⟩)
      (by dsimp only; omega) hcur
  | pop hidle | remove hidle =>
    exact h.moves hinv rfl (by simp [State.setCons]) (by simp [Owes, State.setCons, hidle])
  | cons hst => exact h.consStep hinv hst

end CountInv

theorem reach_count {mine : Nat → Bool} {s : State}
    (h : Reach (system mine) NotWhileRemoved s) : CountInv s := by
  refine Reach.invariant ?_ ?_ h
  · rintro _ rfl; exact .start mine
  · intro s a s' hr hc _ hst
    obtain ⟨chain, hinv⟩ := reach_inv hr
    exact hc.step hinv hst

namespace Inv

variable {s : State} {chain : List Node}

theorem queue_eq (h : Inv s chain) : s.queue = (units chain).map s.cur := by
  unfold State.queue
  rw [← h.history, List.drop_left' (by simp)]

theorem ready_eq (h : Inv s chain) :
    s.ready = ((units chain).filter fun t => !s.removed t).map s.cur := by
  unfold State.ready
  rw [h.queue_eq, List.filter_map]
  rfl

/-- With no push and no call in flight the marked pushes are those discarded and those that are
queued and marked. -/
theorem hits_perm (h : Inv s chain) (hc : CountInv s) (hpush : ∀ t, s.push t = .idle)
    (hcons : ∀ c, s.cons c = .idle) :
    s.hits.Perm ((s.out.filter fun e => !e.2.isSome).map Prod.fst ++
      ((units chain).filter fun t => s.removed t).map s.cur) := by
  have hnd := h.nodup
  rw [← h.history, List.nodup_append] at hnd
  refine (List.perm_ext_iff_of_nodup h.hitNodup ?_).mpr fun p => ?_
  · refine List.nodup_append.mpr ⟨hnd.1.sublist (List.filter_sublist.map _),
      hnd.2.1.sublist (List.filter_sublist.map _), ?_⟩
    intro a ha b hb
    exact hnd.2.2 a (List.map_subset _ (List.filter_subset_self _) ha) b
      (List.map_subset _ (List.filter_subset_self _) hb)
  · simp only [List.mem_append, List.mem_map, List.mem_filter]
    constructor
    · intro hp
      rcases hc.hits p hp with ho | ⟨he, hr, hi⟩
      · exact .inl ⟨(p, none), ⟨ho, rfl⟩, rfl⟩
      · refine .inr ⟨p.unit, ⟨mem_units.mpr ?_, hr⟩, he.symm⟩
        rcases (h.unitOk _).located hi with hm | hm | ⟨c, hm⟩
        · exact hm
        · rw [hpush] at hm; cases hm
        · rw [hcons] at hm; cases hm
    · rintro (⟨⟨q, r⟩, ⟨ho, hn⟩, rfl⟩ | ⟨t, ⟨_, hr⟩, rfl⟩)
      · refine (h.fate q r ho).mp ?_
        simpa using hn
      · exact ((h.unitOk t).removed hr).1

/-- With no push and no call in flight `size` is the number of queued, unmarked units. -/
theorem size_eq (h : Inv s chain) (hc : CountInv s) (hpush : ∀ t, s.push t = .idle)
    (hlinked : s.linked = 0) (hcons : ∀ c, s.cons c = .idle) : s.size = s.ready.length := by
  obtain ⟨a, e, ha, he, hn⟩ := hc.count
  have ha0 : a = 0 := by
    have := ha.nonneg
    by_contra hne
    obtain ⟨t, ht⟩ := ha.exists_of_pos (by omega)
    rw [hpush] at ht; cases ht
  have he0 : e = 0 := by
    have := he.nonneg
    by_contra hne
    obtain ⟨c, ho⟩ := he.exists_of_pos (by omega)
    unfold Owes at ho
    rw [hcons] at ho; exact ho
  have hhits := (h.hits_perm hc hpush hcons).length_eq
  have hpushed := congrArg List.length h.history
  have hout := List.length_eq_length_filter_add (l := s.out) (fun e => e.2.isSome)
  have hunits := List.length_eq_length_filter_add (l := units chain) (fun t => s.removed t)
  rw [h.ready_eq]
  unfold State.size returned at *
  simp only [List.length_append, List.length_map] at *
  split <;> omega

end Inv

end Mpsc
end AbtReconverse
