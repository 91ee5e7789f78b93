import DeferredLru.Lib.Chain
import Mathlib.Data.List.Chain
import Mathlib.Data.List.Nodup
import Mathlib.Logic.Function.Basic

set_option autoImplicit false

/-! # Doubly linked lists between two ends

A list whose ends are cells of their own, so that every node has a neighbour on either side and the
links of all cells are of one kind. `Strung next prev node head tail l` says that from each cell to
the next one, among the head, the nodes `l` and the tail, the two links agree.

Nodes are unlinked and added by the addresses of their neighbours, as a program finds them. -/

namespace Intrusive

variable {α β : Type*} {next next' prev prev' : α → α} {a b x : α} {p q : List α}

/-- The cell `b` comes after `a`, and both know. -/
def Agree (next prev : α → α) (a b : α) : Prop := next a = b ∧ prev b = a

instance [DecidableEq α] : Decidable (Agree next prev a b) := inferInstanceAs (Decidable (_ ∧ _))

/-- Links of cells outside do not matter. -/
theorem agree_congr {l : List α} (h : l.IsChain (Agree next prev))
    (heq : ∀ c ∈ l, next' c = next c ∧ prev' c = prev c) : l.IsChain (Agree next' prev') :=
  h.imp_of_mem_imp fun _ _ hc hd hcd => ⟨(heq _ hc).1.trans hcd.1, (heq _ hd).2.trans hcd.2⟩

section Cells

variable [DecidableEq α]

/-- **Unlinking** a cell: its neighbours become neighbours. -/
theorem agree_unlink (h : (p ++ a :: x :: b :: q).IsChain (Agree next prev))
    (hdup : (p ++ a :: x :: b :: q).Nodup) :
    (p ++ a :: b :: q).IsChain (Agree (Function.update next a b) (Function.update prev b a)) := by
  obtain ⟨hp, hax, hrest⟩ := List.isChain_append_cons_cons.1 h
  obtain ⟨hxb, hq⟩ := List.isChain_cons_cons.1 hrest
  simp only [List.nodup_append, List.nodup_cons, List.mem_cons, not_or] at hdup
  refine List.isChain_append_cons_cons.2
    ⟨hp.imp_of_mem_imp (fun c d hc hd hcd => ?_), ?_, hq.imp_of_mem_imp (fun c d hc hd hcd => ?_)⟩
  · -- the link of `a` leads out of this part, and no link of it leads to `b`
    have hca : c ≠ a := by
      rintro rfl
      have hdx : d = x := hcd.1.symm.trans hax.1
      rw [hdx] at hd
      simp only [List.mem_append, List.mem_singleton] at hd
      grind
    have hdb : d ≠ b := by
      rintro rfl
      simp only [List.mem_append, List.mem_singleton] at hd
      grind
    exact ⟨by rw [Function.update_of_ne hca, hcd.1], by rw [Function.update_of_ne hdb, hcd.2]⟩
  · exact ⟨Function.update_self .., Function.update_self ..⟩
  · have hca : c ≠ a := by
      rintro rfl
      grind
    have hdb : d ≠ b := by
      rintro rfl
      have hcx : c = x := hcd.2.symm.trans hxb.2
      grind
    exact ⟨by rw [Function.update_of_ne hca, hcd.1], by rw [Function.update_of_ne hdb, hcd.2]⟩

/-- **Adding** a cell between two neighbours. -/
theorem agree_insert (h : (p ++ a :: b :: q).IsChain (Agree next prev))
    (hdup : (p ++ a :: x :: b :: q).Nodup) :
    (p ++ a :: x :: b :: q).IsChain (Agree (Function.update (Function.update next a x) x b)
      (Function.update (Function.update prev x a) b x)) := by
  obtain ⟨hp, hab, hq⟩ := List.isChain_append_cons_cons.1 h
  simp only [List.nodup_append, List.nodup_cons, List.mem_cons, not_or] at hdup
  have hax : a ≠ x := by grind
  have hbx : b ≠ x := by grind
  refine List.isChain_append_cons_cons.2 ⟨hp.imp_of_mem_imp (fun c d hc hd hcd => ?_), ?_,
    List.isChain_cons_cons.2 ⟨?_, hq.imp_of_mem_imp (fun c d hc hd hcd => ?_)⟩⟩
  · have hca : c ≠ a := by
      rintro rfl
      have hdb : d = b := hcd.1.symm.trans hab.1
      rw [hdb] at hd
      simp only [List.mem_append, List.mem_singleton] at hd
      grind
    simp only [List.mem_append, List.mem_singleton] at hc hd
    have hcx : c ≠ x := by grind
    have hdx : d ≠ x := by grind
    have hdb : d ≠ b := by grind
    exact ⟨by rw [Function.update_of_ne hcx, Function.update_of_ne hca, hcd.1],
      by rw [Function.update_of_ne hdb, Function.update_of_ne hdx, hcd.2]⟩
  · exact ⟨by rw [Function.update_of_ne hax, Function.update_self],
      by rw [Function.update_of_ne hbx.symm, Function.update_self]⟩
  · exact ⟨Function.update_self .., Function.update_self ..⟩
  · have hdb : d ≠ b := by
      rintro rfl
      have hca : c = a := hcd.2.symm.trans hab.2
      grind
    have hca : c ≠ a := by grind
    have hcx : c ≠ x := by grind
    have hdx : d ≠ x := by grind
    exact ⟨by rw [Function.update_of_ne hcx, Function.update_of_ne hca, hcd.1],
      by rw [Function.update_of_ne hdb, Function.update_of_ne hdx, hcd.2]⟩

end Cells

/-! ## Lists of nodes -/

variable {node : β → α} {head tail : α} {l : List β} {y : β}

/-- The nodes with the ends around them. -/
def cells (node : β → α) (head tail : α) (l : List β) : List α := head :: (l.map node ++ [tail])

/-- The nodes `l` strung between the two ends. -/
def Strung (next prev : α → α) (node : β → α) (head tail : α) (l : List β) : Prop :=
  (cells node head tail l).IsChain (Agree next prev)

instance [DecidableEq α] : Decidable (Strung next prev node head tail l) :=
  inferInstanceAs (Decidable (List.IsChain _ _))

/-- Two ends that are no nodes. -/
structure Ends (node : β → α) (head tail : α) : Prop where
  injective : Function.Injective node
  head_ne : ∀ x, head ≠ node x
  tail_ne : ∀ x, tail ≠ node x
  ne : head ≠ tail

/-- A cell with another one after it. -/
def IsInner (node : β → α) (head : α) (l : List β) (c : α) : Prop := c = head ∨ ∃ x ∈ l, c = node x

theorem mem_cells {c : α} : c ∈ cells node head tail l ↔ IsInner node head l c ∨ c = tail := by
  simp [cells, IsInner, or_assoc, eq_comm]

theorem Ends.nodup (he : Ends node head tail) (hl : l.Nodup) : (cells node head tail l).Nodup := by
  have hmap : (l.map node).Nodup := hl.map he.injective
  refine List.nodup_cons.2 ⟨?_, List.nodup_append.2 ⟨hmap, List.nodup_singleton _, ?_⟩⟩
  · simp only [List.mem_append, List.mem_map, List.mem_singleton, not_or]
    exact ⟨fun ⟨x, _, hx⟩ => he.head_ne x hx.symm, he.ne⟩
  · rintro c hc d hd rfl
    obtain ⟨x, -, rfl⟩ := List.mem_map.1 hc
    exact he.tail_ne x (List.mem_singleton.1 hd).symm

/-- The cells around the one after `c`. -/
theorem cells_split {c : α} (hc : IsInner node head l c) :
    ∃ p d q, cells node head tail l = p ++ c :: d :: q := by
  have hmem : c ∈ head :: l.map node := by
    rcases hc with rfl | ⟨x, hx, rfl⟩
    · exact List.mem_cons_self
    · exact List.mem_cons_of_mem _ (List.mem_map_of_mem hx)
  obtain ⟨p, r, hsplit⟩ := List.append_of_mem hmem
  have hcells : cells node head tail l = p ++ c :: (r ++ [tail]) := by
    show (head :: l.map node) ++ [tail] = _
    rw [hsplit, List.append_assoc, List.cons_append]
  cases r with
  | nil => exact ⟨p, tail, [], hcells⟩
  | cons d r => exact ⟨p, d, r ++ [tail], hcells⟩

/-- The last inner cell. -/
theorem exists_last (node : β → α) (head : α) (l : List β) :
    ∃ p a, head :: l.map node = p ++ [a] ∧ IsInner node head l a := by
  have hne := List.cons_ne_nil head (l.map node)
  refine ⟨_, _, (List.dropLast_append_getLast hne).symm, ?_⟩
  rcases List.mem_cons.1 (List.getLast_mem hne) with hlast | hlast
  · exact Or.inl hlast
  · obtain ⟨x, hx, heq⟩ := List.mem_map.1 hlast
    exact Or.inr ⟨x, hx, heq.symm⟩

/-- The cells around a node. -/
theorem cells_append_cons {l₁ l₂ : List β} :
    ∃ p a b q, cells node head tail (l₁ ++ y :: l₂) = p ++ a :: node y :: b :: q ∧
      cells node head tail (l₁ ++ l₂) = p ++ a :: b :: q := by
  obtain ⟨p, a, hp, -⟩ := exists_last node head l₁
  obtain ⟨b, q, hq⟩ : ∃ b q, l₂.map node ++ [tail] = b :: q := by
    cases l₂ with
    | nil => exact ⟨tail, [], rfl⟩
    | cons z l₂ => exact ⟨node z, l₂.map node ++ [tail], rfl⟩
  refine ⟨p, a, b, q, ?_, ?_⟩
  · rw [cells, List.map_append, List.map_cons, List.append_assoc, List.cons_append, hq,
      ← List.cons_append, hp, List.append_assoc]
    rfl
  · rw [cells, List.map_append, List.append_assoc, hq, ← List.cons_append, hp, List.append_assoc]
    rfl

namespace Strung

theorem congr (h : Strung next prev node head tail l)
    (heq : ∀ c, IsInner node head l c ∨ c = tail → next' c = next c ∧ prev' c = prev c) :
    Strung next' prev' node head tail l :=
  agree_congr h fun c hc => heq c (mem_cells.1 hc)

/-- The link of an inner cell leads to a cell that leads back. -/
theorem prev_next {c : α} (h : Strung next prev node head tail l) (hc : IsInner node head l c) :
    prev (next c) = c := by
  obtain ⟨p, d, q, hcells⟩ := @cells_split α β node head tail l c hc
  unfold Strung at h
  rw [hcells] at h
  obtain ⟨-, hcd, -⟩ := List.isChain_append_cons_cons.1 h
  rw [hcd.1, hcd.2]

theorem next_mem {c : α} (h : Strung next prev node head tail l) (hc : IsInner node head l c) :
    next c = tail ∨ ∃ x ∈ l, next c = node x := by
  obtain ⟨p, d, q, hcells⟩ := @cells_split α β node head tail l c hc
  have hd : d ∈ (cells node head tail l).tail := by
    rw [hcells]
    cases p <;> simp
  unfold Strung at h
  rw [hcells] at h
  obtain ⟨-, hcd, -⟩ := List.isChain_append_cons_cons.1 h
  rw [hcd.1]
  simp only [cells, List.tail_cons, List.mem_append, List.mem_map, List.mem_singleton] at hd
  rcases hd with ⟨x, hx, rfl⟩ | rfl
  · exact Or.inr ⟨x, hx, rfl⟩
  · exact Or.inl rfl

/-- The back link of a node leads to an inner cell that leads to the node. -/
theorem next_prev (h : Strung next prev node head tail l) (hy : y ∈ l) :
    IsInner node head l (prev (node y)) ∧ next (prev (node y)) = node y := by
  obtain ⟨l₁, l₂, rfl⟩ := List.append_of_mem hy
  obtain ⟨p, a, hp, ha⟩ := exists_last node head l₁
  have hcells : cells node head tail (l₁ ++ y :: l₂) =
      p ++ a :: node y :: (l₂.map node ++ [tail]) := by
    rw [cells, List.map_append, List.map_cons, List.append_assoc, List.cons_append,
      ← List.cons_append, hp, List.append_assoc]
    rfl
  unfold Strung at h
  rw [hcells] at h
  obtain ⟨-, hay, -⟩ := List.isChain_append_cons_cons.1 h
  rw [hay.2]
  refine ⟨ha.imp id ?_, hay.1⟩
  rintro ⟨x, hx, rfl⟩
  exact ⟨x, List.mem_append_left _ hx, rfl⟩

theorem next_prev_tail (h : Strung next prev node head tail l) :
    IsInner node head l (prev tail) ∧ next (prev tail) = tail := by
  obtain ⟨p, a, hp, ha⟩ := exists_last node head l
  have hcells : cells node head tail l = p ++ a :: tail :: [] := by
    rw [cells, ← List.cons_append, hp, List.append_assoc]
    rfl
  unfold Strung at h
  rw [hcells] at h
  obtain ⟨-, hat, -⟩ := List.isChain_append_cons_cons.1 h
  rw [hat.2]
  exact ⟨ha, hat.1⟩

/-- A node and its two neighbours are three cells. -/
theorem neighbours_ne (he : Ends node head tail) (hl : l.Nodup)
    (h : Strung next prev node head tail l) (hy : y ∈ l) :
    prev (node y) ≠ node y ∧ next (node y) ≠ node y ∧ next (node y) ≠ prev (node y) := by
  obtain ⟨l₁, l₂, rfl⟩ := List.append_of_mem hy
  obtain ⟨p, a, b, q, hcells, -⟩ := @cells_append_cons α β node head tail y l₁ l₂
  have hdup := he.nodup hl
  unfold Strung at h
  rw [hcells] at h hdup
  obtain ⟨-, hay, hrest⟩ := List.isChain_append_cons_cons.1 h
  obtain ⟨hyb, -⟩ := List.isChain_cons_cons.1 hrest
  rw [hay.2, hyb.1]
  have hthree := (List.nodup_append.1 hdup).2.1
  simp only [List.nodup_cons, List.mem_cons, not_or] at hthree
  exact ⟨hthree.1.1, fun heq => hthree.2.1.1 heq.symm, fun heq => hthree.1.2.1 heq.symm⟩

theorem next_head (h : Strung next prev node head tail (y :: l)) : next head = node y :=
  (List.isChain_cons_cons.1 h).1.1

theorem next_head_nil (h : Strung next prev node head tail []) : next head = tail :=
  (List.isChain_cons_cons.1 h).1.1

/-- Followed forward, it is a list that starts in the cell of the head. -/
theorem linked (h : Strung next prev node head tail l) : Linked next node head l tail := by
  induction l generalizing head with
  | nil => exact h.next_head_nil
  | cons x l ih => exact ⟨h.next_head, ih (List.isChain_cons_cons.1 h).2⟩

/-- The list starts with the node that the head leads to. -/
theorem eq_cons (he : Ends node head tail) (h : Strung next prev node head tail l)
    (hy : next head = node y) : ∃ l', l = y :: l' := by
  cases l with
  | nil => exact absurd (h.next_head_nil.symm.trans hy) (he.tail_ne y)
  | cons x l =>
      obtain rfl := he.injective (h.next_head.symm.trans hy)
      exact ⟨l, rfl⟩

variable [DecidableEq α]

/-- **Unlinking** a node. -/
theorem unlink [DecidableEq β] (he : Ends node head tail) (hl : l.Nodup)
    (h : Strung next prev node head tail l) (hy : y ∈ l) :
    Strung (Function.update next (prev (node y)) (next (node y)))
      (Function.update prev (next (node y)) (prev (node y))) node head tail (l.erase y) := by
  obtain ⟨l₁, l₂, rfl⟩ := List.append_of_mem hy
  have hy₁ : y ∉ l₁ := fun hm => (List.nodup_append.1 hl).2.2 y hm y (by simp) rfl
  rw [List.erase_append_right _ hy₁, List.erase_cons_head]
  obtain ⟨p, a, b, q, hcells, hcells'⟩ := @cells_append_cons α β node head tail y l₁ l₂
  have hdup := he.nodup hl
  unfold Strung at h ⊢
  rw [hcells] at h hdup
  obtain ⟨-, hay, hrest⟩ := List.isChain_append_cons_cons.1 h
  obtain ⟨hyb, -⟩ := List.isChain_cons_cons.1 hrest
  rw [hcells', hay.2, hyb.1]
  exact agree_unlink h hdup

/-- **Appending** a node. -/
theorem append (he : Ends node head tail) (hl : (l ++ [y]).Nodup)
    (h : Strung next prev node head tail l) :
    Strung (Function.update (Function.update next (prev tail) (node y)) (node y) tail)
      (Function.update (Function.update prev (node y) (prev tail)) tail (node y))
      node head tail (l ++ [y]) := by
  obtain ⟨p, a, hp, -⟩ := exists_last node head l
  have hcells : cells node head tail l = p ++ a :: tail :: [] := by
    rw [cells, ← List.cons_append, hp, List.append_assoc]
    rfl
  have hcells' : cells node head tail (l ++ [y]) = p ++ a :: node y :: tail :: [] := by
    rw [cells, List.map_append, ← List.cons_append, ← List.cons_append, hp, List.append_assoc,
      List.append_assoc]
    rfl
  have hdup := he.nodup hl
  unfold Strung at h ⊢
  rw [hcells'] at hdup ⊢
  rw [hcells] at h
  obtain ⟨-, hat, -⟩ := List.isChain_append_cons_cons.1 h
  rw [hat.2]
  exact agree_insert h hdup

end Strung

end Intrusive
