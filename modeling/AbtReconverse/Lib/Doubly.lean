import AbtReconverse.Lib.Chain

/-!
# AbtReconverse.Lib.Doubly

Doubly linked lists in a heap given by a `prev` and a `next` function. `Doubly prev next hd tl l`:
following `next` from `hd` visits `l`, and following `prev` from `tl` visits it backwards.

The operations write the fields that the usual code writes: `snoc` (a node becomes the last one) and
`unlink` (a node's neighbours, or the ends of the list, are made to point past it).
-/

namespace Lts

structure Doubly {R : Type} (prev next : R → Option R) (hd tl : Option R) (l : List R) : Prop where
  fwd : Path next hd l
  bwd : Path prev tl l.reverse

/-- The successor of a node on a path. -/
theorem Path.next_eq {R : Type} {next : R → Option R} {p : Option R} {l₁ l₂ : List R} {w : R}
    (h : Path next p (l₁ ++ w :: l₂)) : next w = l₂.head? := by
  obtain ⟨p', hp'⟩ := h.suffix
  exact hp'.2.head_eq

/-- `l->prev->next = l->next`, or the head moves on. -/
theorem Path.unlink {R : Type} [DecidableEq R] {next : R → Option R} {p : Option R}
    {l₁ l₂ : List R} {w : R} (h : Path next p (l₁ ++ w :: l₂)) :
    (l₁.getLast? = none → Path next (next w) (l₁ ++ l₂)) ∧
    ∀ u, l₁.getLast? = some u → Path (Function.update next u (next w)) p (l₁ ++ l₂) := by
  refine ⟨fun hl => ?_, fun u hu => ?_⟩
  · rw [List.getLast?_eq_none_iff.mp hl] at h ⊢
    exact h.2
  · obtain ⟨l, rfl⟩ := List.getLast?_eq_some_iff.mp hu
    rw [List.append_assoc] at h ⊢
    exact h.bypass

namespace Doubly

variable {R : Type} {prev prev' next next' : R → Option R} {hd hd' tl tl' : Option R}
  {l l₁ l₂ : List R} {w : R}

theorem nil : Doubly prev next none none [] := ⟨rfl, rfl⟩

theorem head_eq (h : Doubly prev next hd tl l) : hd = l.head? := h.fwd.head_eq

theorem tail_eq (h : Doubly prev next hd tl l) : tl = l.getLast? := by
  rw [h.bwd.head_eq, List.head?_reverse]

theorem nodup (h : Doubly prev next hd tl l) : l.Nodup := h.fwd.nodup

theorem next_eq (h : Doubly prev next hd tl (l₁ ++ w :: l₂)) : next w = l₂.head? := h.fwd.next_eq

theorem prev_eq (h : Doubly prev next hd tl (l₁ ++ w :: l₂)) : prev w = l₁.getLast? := by
  have hb : Path prev tl (l₂.reverse ++ w :: l₁.reverse) := by
    have hb := h.bwd
    rwa [List.reverse_append, List.reverse_cons, List.append_assoc] at hb
  rw [hb.next_eq, List.head?_reverse]

theorem congr (h : Doubly prev next hd tl l) (hn : ∀ u ∈ l, next' u = next u)
    (hp : ∀ u ∈ l, prev' u = prev u) : Doubly prev' next' hd tl l :=
  ⟨h.fwd.congr hn, h.bwd.congr fun u hu => hp u (List.mem_reverse.mp hu)⟩

/-- Node `w` becomes the last one. -/
theorem snoc [DecidableEq R] (h : Doubly prev next hd tl l) (hw : w ∉ l) (hn : next w = none)
    (hp : prev w = tl) (hhd : hd' = if tl = none then some w else hd)
    (hnext : ∀ z, tl = some z → next' = Function.update next z (some w))
    (hnone : tl = none → next' = next) : Doubly prev next' hd' (some w) (l ++ [w]) := by
  refine ⟨?_, ?_⟩
  · cases hl : l.getLast? with
    | none =>
      obtain rfl := List.getLast?_eq_none_iff.mp hl
      have htl : tl = none := h.tail_eq
      rw [hhd, if_pos htl, hnone htl]
      exact ⟨rfl, hn⟩
    | some z =>
      have htl := h.tail_eq.trans hl
      obtain ⟨l', rfl⟩ := List.getLast?_eq_some_iff.mp hl
      rw [hhd, if_neg (by rw [htl]; simp), hnext z htl, List.append_assoc]
      exact h.fwd.snoc hw hn
  · rw [List.reverse_append]
    refine ⟨rfl, ?_⟩
    rw [hp]
    exact h.bwd

/-- Node `w` is taken out. -/
theorem unlink [DecidableEq R] (h : Doubly prev next hd tl (l₁ ++ w :: l₂))
    (hhd : hd' = if prev w = none then next w else hd)
    (hnext : ∀ u, prev w = some u → next' = Function.update next u (next w))
    (hnone : prev w = none → next' = next)
    (htl : tl' = if next w = none then prev w else tl)
    (hprev : ∀ v, next w = some v → prev' = Function.update prev v (prev w))
    (hpone : next w = none → prev' = prev) : Doubly prev' next' hd' tl' (l₁ ++ l₂) := by
  have hpw := h.prev_eq
  have hnw := h.next_eq
  refine ⟨?_, ?_⟩
  · cases hl : l₁.getLast? with
    | none =>
      rw [hhd, if_pos (hpw.trans hl), hnone (hpw.trans hl)]
      exact h.fwd.unlink.1 hl
    | some u =>
      rw [hhd, if_neg (by rw [hpw, hl]; simp), hnext u (hpw.trans hl)]
      exact h.fwd.unlink.2 u hl
  · have hb : Path prev tl (l₂.reverse ++ w :: l₁.reverse) := by
      have hb := h.bwd
      rwa [List.reverse_append, List.reverse_cons, List.append_assoc] at hb
    rw [List.reverse_append]
    cases hl : l₂.head? with
    | none =>
      rw [htl, if_pos (hnw.trans hl), hpone (hnw.trans hl)]
      exact hb.unlink.1 (by rw [List.getLast?_reverse]; exact hl)
    | some v =>
      rw [htl, if_neg (by rw [hnw, hl]; simp), hprev v (hnw.trans hl)]
      exact hb.unlink.2 v (by rw [List.getLast?_reverse]; exact hl)

end Doubly

end Lts
