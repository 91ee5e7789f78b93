import DeferredLru.Deferred.Code

set_option autoImplicit false

/-! # The LRU list as a doubly linked list

`LruList m l` says that the nodes of `l` are linked between `lru_head_` and `lru_tail_`, forward by
`lru_next` and backward by `lru_prev`. `removeNodeFromLru` erases a node from it and
`addSublistToLruHead` puts a chain of foreign nodes in front; both say what they leave unchanged. -/

namespace DeferredLru

open Intrusive

variable {N : ℕ} {K V : Type}

/-! ## Accesses through valid pointers -/

section Access

variable (m : Mem N K V) (n : Fin N) (p q : Ptr N)

@[simp] theorem Mem.loadNext_node : m.loadNext (.node n) = some (m.lruNext (.node n)) := rfl

@[simp] theorem Mem.loadPrev_node : m.loadPrev (.node n) = some (m.lruPrev (.node n)) := rfl

theorem Mem.storeNext_of_isBase (h : p.isBase = true) : m.storeNext p q = some (m.setNext p q) :=
  if_pos h

theorem Mem.storePrev_of_isBase (h : p.isBase = true) : m.storePrev p q = some (m.setPrev p q) :=
  if_pos h

@[simp] theorem Mem.setNext_lruNext : (m.setNext p q).lruNext = Function.update m.lruNext p q := rfl

@[simp] theorem Mem.setNext_lruPrev : (m.setNext p q).lruPrev = m.lruPrev := rfl

@[simp] theorem Mem.setPrev_lruPrev : (m.setPrev p q).lruPrev = Function.update m.lruPrev p q := rfl

@[simp] theorem Mem.setPrev_lruNext : (m.setPrev p q).lruNext = m.lruNext := rfl

@[simp] theorem Mem.setRecent_lruNext : (m.setRecent n q).lruNext = m.lruNext := rfl

@[simp] theorem Mem.setRecent_lruPrev : (m.setRecent n q).lruPrev = m.lruPrev := rfl

@[simp] theorem Mem.setRecent_recentNext :
    (m.setRecent n q).recentNext = Function.update m.recentNext n q := rfl

end Access

/-! ## The list -/

/-- The nodes of `l` form the LRU list, from `lru_head_` to `lru_tail_`. -/
structure LruList (m : Mem N K V) (l : List (Fin N)) : Prop where
  linked : Linked m.lruNext .node .lruHead l .lruTail
  back : ∀ c, IsCell .node .lruHead l c → m.lruPrev (m.lruNext c) = c

namespace LruList

variable {m : Mem N K V} {l : List (Fin N)} {n : Fin N}

theorem nodup (h : LruList m l) : l.Nodup :=
  h.linked.nodup Ptr.node_injective (by simp)

theorem next_inj (h : LruList m l) {c d : Ptr N} (hc : IsCell .node .lruHead l c)
    (hd : IsCell .node .lruHead l d) (hcd : m.lruNext c = m.lruNext d) : c = d :=
  h.linked.next_inj Ptr.node_injective (by simp) hc hd hcd

/-- The `lru_prev` of a listed node is the cell before it. -/
theorem prev_spec (h : LruList m l) (hn : n ∈ l) :
    IsCell .node .lruHead l (m.lruPrev (.node n)) ∧
      m.lruNext (m.lruPrev (.node n)) = .node n := by
  obtain ⟨c, hc, hcn⟩ := h.linked.pred hn
  have hback := h.back c hc
  rw [hcn] at hback
  rw [hback]
  exact ⟨hc, hcn⟩

theorem isBase_of_isCell {c : Ptr N} (hc : IsCell .node .lruHead l c) : c.isBase = true := by
  rcases hc with rfl | ⟨x, -, rfl⟩ <;> rfl

theorem isBase_next (h : LruList m l) {c : Ptr N} (hc : IsCell .node .lruHead l c) :
    (m.lruNext c).isBase = true := by
  rcases h.linked.next_mem hc with hn | ⟨y, -, hn⟩ <;> rw [hn] <;> rfl

/-- The front node is the one whose `lru_prev` is the head sentinel. -/
theorem prev_eq_head_iff (h : LruList m l) (hn : n ∈ l) :
    m.lruPrev (.node n) = .lruHead ↔ l.head? = some n := by
  obtain ⟨hc, hcn⟩ := h.prev_spec hn
  constructor
  · intro hhead
    rw [hhead] at hcn
    cases l with
    | nil => exact absurd hn (by simp)
    | cons x l =>
        have hx : Ptr.node x = Ptr.node n := h.linked.1.symm.trans hcn
        rw [Ptr.node_injective hx]
        rfl
  · intro hhead
    cases l with
    | nil => exact absurd hn (by simp)
    | cons x l =>
        obtain rfl : x = n := by simpa using hhead
        exact h.next_inj hc isCell_head (hcn.trans h.linked.1.symm)

/-- Two memories with the same LRU links on the list have the same list. -/
theorem congr {m' : Mem N K V} (h : LruList m l)
    (hnext : ∀ c, IsCell .node .lruHead l c → m'.lruNext c = m.lruNext c)
    (hprev : ∀ c, IsCell .node .lruHead l c → m'.lruPrev (m.lruNext c) = m.lruPrev (m.lruNext c)) :
    LruList m' l := by
  refine ⟨h.linked.congr (hnext _ isCell_head) (fun x hx => hnext _ (isCell_node hx)), ?_⟩
  intro c hc
  rw [hnext c hc, hprev c hc]
  exact h.back c hc

end LruList

/-! ## `removeNodeFromLru` -/

/-- What `removeNodeFromLru` leaves in the memory. -/
def unlinked (m : Mem N K V) (n : Fin N) : Mem N K V :=
  (m.setNext (m.lruPrev (.node n)) (m.lruNext (.node n))).setPrev (m.lruNext (.node n))
    (m.lruPrev (.node n))

theorem removeNodeFromLru_eq {m : Mem N K V} {l : List (Fin N)} {n : Fin N} (h : LruList m l)
    (hn : n ∈ l) : removeNodeFromLru m (.node n) = some (unlinked m n) := by
  have hprev : (m.lruPrev (.node n)).isBase = true := LruList.isBase_of_isCell (h.prev_spec hn).1
  have hnext : (m.lruNext (.node n)).isBase = true := h.isBase_next (isCell_node hn)
  simp only [removeNodeFromLru, Mem.loadPrev_node, Mem.loadNext_node, Option.bind_eq_bind,
    Option.bind_some, Mem.storeNext_of_isBase _ _ _ hprev, Mem.storePrev_of_isBase _ _ _ hnext,
    unlinked]

theorem LruList.unlinked {m : Mem N K V} {l : List (Fin N)} {n : Fin N} (h : LruList m l)
    (hn : n ∈ l) : LruList (unlinked m n) (l.erase n) := by
  obtain ⟨hc, hcn⟩ := h.prev_spec hn
  have hdup := h.nodup
  generalize hp : m.lruPrev (.node n) = p at hc hcn
  have herase : ∀ c, IsCell Ptr.node .lruHead (l.erase n) c →
      IsCell Ptr.node .lruHead l c ∧ c ≠ .node n := by
    rintro c (rfl | ⟨x, hx, rfl⟩)
    · exact ⟨isCell_head, by simp⟩
    · obtain ⟨hne, hx⟩ := (List.Nodup.mem_erase_iff hdup).1 hx
      exact ⟨isCell_node hx, fun hxn => hne (Ptr.node_injective hxn)⟩
  refine ⟨?_, ?_⟩
  · simp only [DeferredLru.unlinked, Mem.setPrev_lruNext, Mem.setNext_lruNext, hp]
    exact h.linked.unlink Ptr.node_injective (by simp) (by simp) hn hc hcn
  · intro c hc'
    obtain ⟨hcl, hne⟩ := herase c hc'
    simp only [DeferredLru.unlinked, Mem.setPrev_lruNext, Mem.setNext_lruNext, Mem.setPrev_lruPrev,
      Mem.setNext_lruPrev, hp]
    by_cases hcp : c = p
    · -- the cell before `n` now leads to the node after it, whose back link is changed with it
      subst hcp
      rw [Function.update_self, Function.update_self]
    · rw [Function.update_of_ne hcp]
      have hother : m.lruNext c ≠ m.lruNext (.node n) := fun heq =>
        hne (h.next_inj hcl (isCell_node hn) heq)
      rw [Function.update_of_ne hother]
      exact h.back c hcl

/-! ## `addSublistToLruHead` -/

/-- What `addSublistToLruHead` leaves in the memory. -/
def spliced (m : Mem N K V) (first last : Ptr N) : Mem N K V :=
  (((m.setPrev first .lruHead).setNext last (m.lruNext .lruHead)).setNext .lruHead first).setPrev
    (m.lruNext .lruHead) last

theorem addSublistToLruHead_eq {m : Mem N K V} {l : List (Fin N)} {first last : Ptr N}
    (h : LruList m l) (hfirst : first.isBase = true) (hlast : last.isBase = true) :
    addSublistToLruHead m first last = some (spliced m first last) := by
  have hnext : (m.lruNext .lruHead).isBase = true := h.isBase_next isCell_head
  simp only [addSublistToLruHead, Option.bind_eq_bind, Option.bind_some,
    Mem.storePrev_of_isBase _ _ _ hfirst, Mem.storeNext_of_isBase _ _ _ hlast,
    Mem.setPrev_lruNext, Mem.storePrev_of_isBase _ _ _ hnext, spliced]

/-- Putting the chain `first = t … x` of nodes outside the list in front of it. -/
theorem LruList.spliced {m : Mem N K V} {l t : List (Fin N)} {x : Fin N} {first : Ptr N}
    (h : LruList m l) (hchain : Chain (fun y => m.lruNext (.node y)) .node first t (.node x))
    (hx : x ∉ t) (hback : ∀ y ∈ t, m.lruPrev (m.lruNext (.node y)) = .node y)
    (hdisj : ∀ y ∈ t ++ [x], y ∉ l) :
    LruList (spliced m first (.node x)) (t ++ x :: l) := by
  have hxl : x ∉ l := hdisj x (by simp)
  have hnextx : ∀ c, c ≠ .node x → c ≠ .lruHead →
      (DeferredLru.spliced m first (.node x)).lruNext c = m.lruNext c := by
    intro c hc hc'
    simp only [DeferredLru.spliced, Mem.setPrev_lruNext, Mem.setNext_lruNext]
    rw [Function.update_of_ne hc', Function.update_of_ne hc]
  have hhead : (DeferredLru.spliced m first (.node x)).lruNext .lruHead = first := by
    simp only [DeferredLru.spliced, Mem.setPrev_lruNext, Mem.setNext_lruNext]
    exact Function.update_self ..
  have hlast : (DeferredLru.spliced m first (.node x)).lruNext (.node x) = m.lruNext .lruHead := by
    simp only [DeferredLru.spliced, Mem.setPrev_lruNext, Mem.setNext_lruNext]
    rw [Function.update_of_ne (by simp), Function.update_self]
  -- the first node of the sublist
  obtain ⟨f, hf, hft⟩ : ∃ f, first = .node f ∧ (t = [] ∧ f = x ∨ ∃ t', t = f :: t') := by
    cases t with
    | nil => exact ⟨x, hchain, Or.inl ⟨rfl, rfl⟩⟩
    | cons f t' => exact ⟨f, hchain.1, Or.inr ⟨t', rfl⟩⟩
  have hfl : f ∉ l := by
    rcases hft with ⟨-, rfl⟩ | ⟨t', rfl⟩
    · exact hxl
    · exact hdisj f (by simp)
  -- no inner link of the sublist and no link of the list leads to its first node
  have hinner : ∀ y ∈ t, m.lruNext (.node y) ≠ .node f := by
    intro y hy
    rw [← hf]
    have hend : ∀ z ∈ t, Ptr.node x ≠ .node z := fun z hz hxz => hx (Ptr.node_injective hxz ▸ hz)
    have hne := hchain.next_ne_start Ptr.node_injective hend hy
    exact hne
  have hlist : ∀ y ∈ l, m.lruNext (.node y) ≠ .node f := by
    intro y hy heq
    rcases h.linked.next_mem (isCell_node hy) with hn | ⟨z, hz, hn⟩
    · exact absurd (hn.symm.trans heq) (by simp)
    · exact hfl (Ptr.node_injective (hn.symm.trans heq) ▸ hz)
  have holdfirst : m.lruNext .lruHead ≠ .node f := by
    intro heq
    rcases h.linked.next_mem isCell_head with hn | ⟨z, hz, hn⟩
    · exact absurd (hn.symm.trans heq) (by simp)
    · exact hfl (Ptr.node_injective (hn.symm.trans heq) ▸ hz)
  -- nor does an inner link lead to the old first node
  have hinner' : ∀ y ∈ t, m.lruNext (.node y) ≠ m.lruNext .lruHead := by
    intro y hy heq
    have htgt : m.lruNext (.node y) = .node x ∨ ∃ z ∈ t, m.lruNext (.node y) = .node z :=
      Chain.next_mem hchain hy
    have hmem : ∃ z ∈ t ++ [x], m.lruNext .lruHead = .node z := by
      rcases htgt with hn | ⟨z, hz, hn⟩
      · exact ⟨x, by simp, heq.symm.trans hn⟩
      · exact ⟨z, by simp [hz], heq.symm.trans hn⟩
    obtain ⟨z, hz, hzn⟩ := hmem
    rcases h.linked.next_mem isCell_head with hn | ⟨w, hw, hn⟩
    · exact absurd (hn.symm.trans hzn) (by simp)
    · exact hdisj z hz (Ptr.node_injective (hn.symm.trans hzn) ▸ hw)
  have hprev : ∀ p, p ≠ .node f → p ≠ m.lruNext .lruHead →
      (DeferredLru.spliced m first (.node x)).lruPrev p = m.lruPrev p := by
    intro p hp hp'
    simp only [DeferredLru.spliced, Mem.setPrev_lruPrev, Mem.setNext_lruPrev, hf]
    rw [Function.update_of_ne hp', Function.update_of_ne hp]
  refine ⟨?_, ?_⟩
  · refine Linked.splice (by simp) (hchain.congr fun y hy => ?_) ?_ ?_
    · have hyx : Ptr.node y ≠ .node x := fun hyx => hx (Ptr.node_injective hyx ▸ hy)
      exact Function.update_of_ne hyx _ _
    · simp only [Mem.setPrev_lruNext, Mem.setNext_lruNext]
      rw [Function.update_self, Function.update_of_ne (by simp)]
    · exact h.linked.update (by simp) (fun y hy hxy => hxl (Ptr.node_injective hxy ▸ hy))
  · rintro c (rfl | ⟨y, hy, rfl⟩)
    · rw [hhead, hf]
      simp only [DeferredLru.spliced, Mem.setPrev_lruPrev, Mem.setNext_lruPrev]
      rw [Function.update_of_ne holdfirst.symm, Function.update_self]
    · rcases List.mem_append.1 hy with hy | hy
      · have hyx : y ≠ x := fun hyx => hx (hyx ▸ hy)
        rw [hnextx _ (by simpa using hyx) (by simp), hprev _ (hinner y hy) (hinner' y hy)]
        exact hback y hy
      · rcases List.mem_cons.1 hy with rfl | hy
        · rw [hlast]
          simp only [DeferredLru.spliced, Mem.setPrev_lruPrev]
          exact Function.update_self ..
        · have hyx : y ≠ x := fun hyx => hxl (hyx ▸ hy)
          rw [hnextx _ (by simpa using hyx) (by simp), hprev _ (hlist y hy) ?_]
          · exact h.back _ (isCell_node hy)
          · exact fun heq => absurd (h.next_inj (isCell_node hy) isCell_head heq) (by simp)

end DeferredLru
