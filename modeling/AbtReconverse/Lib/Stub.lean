import AbtReconverse.Lib.Chain

/-!
# AbtReconverse.Lib.Stub

Linked queues that are never empty: a stub node stands in for the missing first or last node.
`Stubbed next stub hd tl l` says that the queue holds the nodes `l`: the chain from `hd` to `tl` is
`l`, or `l` behind the stub.

`append` puts a node behind the last one. The first node is taken off in up to three steps: pass the
stub (`enter`), put the stub behind a node that is the only one (`restub`), move the head to the next
node (`take`).
-/

namespace Lts

structure Stubbed {R : Type} (next : R → Option R) (stub hd tl : R) (l : List R) : Prop where
  chain : ∃ k, (k = stub :: l ∨ k = l) ∧ Path next (some hd) k ∧ k.getLast? = some tl
  outside : stub ∉ l

namespace Stubbed

variable {R : Type} {next next' : R → Option R} {stub hd tl u v w : R} {l : List R}

theorem empty (hn : next stub = none) : Stubbed next stub stub stub [] :=
  ⟨⟨[stub], .inl rfl, ⟨rfl, hn⟩, rfl⟩, List.not_mem_nil⟩

theorem nodup (h : Stubbed next stub hd tl l) : l.Nodup := by
  obtain ⟨k, rfl | rfl, hp, _⟩ := h.chain
  · exact (List.nodup_cons.mp hp.nodup).2
  · exact hp.nodup

theorem congr (h : Stubbed next stub hd tl l) (hs : next' stub = next stub)
    (hn : ∀ u ∈ l, next' u = next u) : Stubbed next' stub hd tl l := by
  obtain ⟨k, hk, hp, ht⟩ := h.chain
  refine ⟨⟨k, hk, hp.congr fun u hu => ?_, ht⟩, h.outside⟩
  obtain rfl | rfl := hk
  · obtain rfl | hu := List.mem_cons.mp hu
    · exact hs
    · exact hn u hu
  · exact hn u hu

theorem tl_mem (h : Stubbed next stub hd tl l) : tl = stub ∨ tl ∈ l := by
  obtain ⟨k, rfl | rfl, _, ht⟩ := h.chain
  · exact List.mem_cons.mp (List.mem_of_getLast? ht)
  · exact .inr (List.mem_of_getLast? ht)

/-- Node `w`, which has no successor, becomes the last one. -/
theorem append [DecidableEq R] (h : Stubbed next stub hd tl l) (hw : w ∉ l) (hs : w ≠ stub)
    (hn : next w = none) : Stubbed (Function.update next tl (some w)) stub hd w (l ++ [w]) := by
  obtain ⟨k, hk, hp, ht⟩ := h.chain
  obtain ⟨k', rfl⟩ := List.getLast?_eq_some_iff.mp ht
  have hwk : w ∉ k' ++ [tl] := by
    obtain hk | hk := hk
    · rw [hk]; simp [hs, hw]
    · rw [hk]; exact hw
  refine ⟨⟨k' ++ [tl, w], ?_, hp.snoc hwk hn, by simp⟩, ?_⟩
  · have he : k' ++ [tl, w] = (k' ++ [tl]) ++ [w] := by simp
    rw [he]
    exact hk.imp (fun hk => by rw [hk]; rfl) fun hk => by rw [hk]
  · rw [List.mem_append, List.mem_singleton, not_or]
    exact ⟨h.outside, hs.symm⟩

/-- The head is the stub. -/
theorem at_stub (h : Stubbed next stub stub tl l) :
    Path next (next stub) l ∧ (stub :: l).getLast? = some tl := by
  obtain ⟨k, hk | hk, hp, ht⟩ := h.chain
  · rw [hk] at hp ht; exact ⟨hp.2, ht⟩
  · have hhd := hp.head_eq
    rw [hk] at hhd
    exact absurd (List.mem_of_head? hhd.symm) h.outside

/-- The head is a proper node. -/
theorem at_node (h : Stubbed next stub u tl l) (hu : u ≠ stub) :
    Path next (some u) l ∧ l.getLast? = some tl := by
  obtain ⟨k, hk | hk, hp, ht⟩ := h.chain
  · rw [hk] at hp; exact absurd (Option.some.inj hp.1) hu
  · rw [hk] at hp ht; exact ⟨hp, ht⟩

theorem next_stub (h : Stubbed next stub stub tl l) : next stub = l.head? := h.at_stub.1.head_eq

/-- The head passes the stub. -/
theorem enter (h : Stubbed next stub stub tl l) (hv : next stub = some v) :
    Stubbed next stub v tl l := by
  obtain ⟨hp, ht⟩ := h.at_stub
  refine ⟨⟨l, .inr rfl, hv ▸ hp, ?_⟩, h.outside⟩
  cases l with
  | nil => rw [hp.head_eq] at hv; cases hv
  | cons a l => rwa [List.getLast?_cons_cons] at ht

/-- A proper node at the head is the first of the queue. -/
theorem hd_cons (h : Stubbed next stub u tl l) (hu : u ≠ stub) :
    ∃ l', l = u :: l' ∧ next u = l'.head? ∧ (u :: l').getLast? = some tl := by
  obtain ⟨hp, ht⟩ := h.at_node hu
  cases l with
  | nil => cases hp
  | cons a l =>
    obtain rfl := Option.some.inj hp.1
    exact ⟨l, rfl, hp.2.head_eq, ht⟩

/-- The head moves from `u` to the next node. -/
theorem take (h : Stubbed next stub u tl (u :: l)) (hv : next u = some v) :
    Stubbed next stub v tl l := by
  have hu : u ≠ stub := fun he => h.outside (he ▸ List.mem_cons_self ..)
  obtain ⟨hp, ht⟩ := h.at_node hu
  refine ⟨⟨l, .inr rfl, hv ▸ hp.2, ?_⟩, fun hm => h.outside (List.mem_cons_of_mem _ hm)⟩
  have hl := hp.2.head_eq
  cases l with
  | nil => rw [hv] at hl; cases hl
  | cons a l => rwa [List.getLast?_cons_cons] at ht

/-- The only node `u` has the stub put behind it; the head then moves to the stub. -/
theorem restub [DecidableEq R] (hn : next stub = none) (hu : u ≠ stub) :
    Stubbed (Function.update next u (some stub)) stub stub stub [] :=
  .empty (by rw [Function.update_of_ne hu.symm]; exact hn)

end Stubbed

end Lts
