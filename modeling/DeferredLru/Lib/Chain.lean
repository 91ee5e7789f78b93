import Mathlib.Data.List.Nodup
import Mathlib.Logic.Function.Basic

set_option autoImplicit false

/-! # Intrusive singly linked chains

A chain is what a program sees when it follows a link field: `Chain next node p l e` says that
starting at the address `p` and reading `next` of each node it stands on, the program meets exactly
the nodes of `l`, in order, and then the address `e`. Addresses and nodes are two types connected by
an injective `node : β → α`, so that null pointers, sentinels and terminals are addresses without
being nodes.

A chain that ends outside its nodes is determined by its start (`Chain.unique`), hence repeats no node
(`Chain.nodup`); the editing lemmas say what a write to one link does to it. -/

namespace Intrusive

variable {α β : Type*}

/-- Following `next` from the address `p` meets the nodes `l` and then the address `e`. -/
def Chain (next : β → α) (node : β → α) : α → List β → α → Prop
  | p, [], e => p = e
  | p, x :: l, e => p = node x ∧ Chain next node (next x) l e

/-- `Visits next node p x`: following `next` from `p` meets the node `x` after finitely many
    links, whether or not the walk ever ends. -/
inductive Visits (next : β → α) (node : β → α) : α → β → Prop
  | here (x : β) : Visits next node (node x) x
  | step {x y : β} : Visits next node (next y) x → Visits next node (node y) x

variable {next next' : β → α} {node : β → α}

@[simp] theorem chain_nil {p e : α} : Chain next node p [] e ↔ p = e := Iff.rfl

@[simp] theorem chain_cons {p e : α} {x : β} {l : List β} :
    Chain next node p (x :: l) e ↔ p = node x ∧ Chain next node (next x) l e := Iff.rfl

theorem chain_append {p e : α} {l₁ l₂ : List β} :
    Chain next node p (l₁ ++ l₂) e ↔ ∃ q, Chain next node p l₁ q ∧ Chain next node q l₂ e := by
  induction l₁ generalizing p with
  | nil => simp
  | cons x l ih => simp [ih, and_assoc]

theorem Chain.congr {p e : α} {l : List β} (h : Chain next node p l e)
    (heq : ∀ x ∈ l, next' x = next x) : Chain next' node p l e := by
  induction l generalizing p with
  | nil => exact h
  | cons x l ih =>
      refine ⟨h.1, ?_⟩
      rw [heq x (List.mem_cons_self ..)]
      exact ih h.2 (fun y hy => heq y (List.mem_cons_of_mem _ hy))

/-- A write to a link that is not on the chain leaves the chain alone. -/
theorem Chain.update [DecidableEq β] {p e q : α} {l : List β} {y : β}
    (h : Chain next node p l e) (hy : y ∉ l) : Chain (Function.update next y q) node p l e :=
  h.congr (fun x hx => Function.update_of_ne (fun heq : x = y => hy (heq ▸ hx)) _ _)

/-- A walk is determined by its start and its end. -/
theorem Chain.unique {p e : α} {l l' : List β} (hinj : Function.Injective node)
    (he : ∀ x ∈ l, e ≠ node x) (he' : ∀ x ∈ l', e ≠ node x) (h : Chain next node p l e)
    (h' : Chain next node p l' e) : l = l' := by
  induction l generalizing p l' with
  | nil =>
      cases l' with
      | nil => rfl
      | cons y l' => exact absurd ((chain_nil.1 h).symm.trans h'.1) (he' y (by simp))
  | cons x l ih =>
      cases l' with
      | nil => exact absurd ((chain_nil.1 h').symm.trans h.1) (he x (by simp))
      | cons y l' =>
          obtain rfl : x = y := hinj (h.1.symm.trans h'.1)
          rw [ih (fun z hz => he z (by simp [hz])) (fun z hz => he' z (by simp [hz])) h.2 h'.2]

/-- A walk that ends outside its nodes meets no node twice: the rest of the walk after the two
    visits would have to be the same list with two lengths. -/
theorem Chain.nodup {p e : α} {l : List β} (hinj : Function.Injective node)
    (he : ∀ x ∈ l, e ≠ node x) (h : Chain next node p l e) : l.Nodup := by
  induction l generalizing p with
  | nil => exact List.nodup_nil
  | cons x l ih =>
      have he' : ∀ y ∈ l, e ≠ node y := fun y hy => he y (List.mem_cons_of_mem _ hy)
      refine List.nodup_cons.2 ⟨fun hx => ?_, ih he' h.2⟩
      obtain ⟨l₁, l₂, rfl⟩ := List.append_of_mem hx
      obtain ⟨q, -, hq⟩ := chain_append.1 h.2
      have hsame := Chain.unique hinj he' (fun y hy => he' y (by simp [hy])) h.2 hq.2
      have hlen := congrArg List.length hsame
      simp only [List.length_append, List.length_cons] at hlen
      omega

/-- No link of a walk leads back to its start. -/
theorem Chain.next_ne_start {p e : α} {l : List β} {x : β} (hinj : Function.Injective node)
    (he : ∀ y ∈ l, e ≠ node y) (h : Chain next node p l e) (hx : x ∈ l) : next x ≠ p := by
  intro hxp
  obtain ⟨l₁, l₂, rfl⟩ := List.append_of_mem hx
  obtain ⟨q, -, hq⟩ := chain_append.1 h
  have hrest : Chain next node p l₂ e := hxp ▸ hq.2
  have hsame := Chain.unique hinj he (fun y hy => he y (by simp [hy])) h hrest
  have hlen := congrArg List.length hsame
  simp only [List.length_append, List.length_cons] at hlen
  omega

/-- On a terminated chain, being visited is being a member. -/
theorem Chain.visits_iff {p e : α} {l : List β} {x : β} (hinj : Function.Injective node)
    (he : ∀ y, e ≠ node y) (h : Chain next node p l e) : Visits next node p x ↔ x ∈ l := by
  constructor
  · intro hv
    induction hv generalizing l with
    | here x =>
        cases l with
        | nil => exact absurd (chain_nil.1 h).symm (he x)
        | cons y l => exact List.mem_cons.2 (Or.inl (hinj h.1))
    | @step x y _ ih =>
        cases l with
        | nil => exact absurd (chain_nil.1 h).symm (he y)
        | cons z l =>
            obtain rfl : y = z := hinj h.1
            exact List.mem_cons_of_mem _ (ih h.2)
  · intro hx
    induction l generalizing p with
    | nil => exact absurd hx (by simp)
    | cons y l ih =>
        obtain ⟨rfl, h₂⟩ := h
        rcases List.mem_cons.1 hx with rfl | hx
        · exact Visits.here x
        · exact Visits.step (ih h₂ hx)

/-- The link of a member leads to a member or to the end. -/
theorem Chain.next_mem {p e : α} {l : List β} {x : β} (h : Chain next node p l e) (hx : x ∈ l) :
    next x = e ∨ ∃ y ∈ l, next x = node y := by
  induction l generalizing p with
  | nil => exact absurd hx (by simp)
  | cons y l ih =>
      rcases List.mem_cons.1 hx with rfl | hx
      · cases l with
        | nil => exact Or.inl h.2
        | cons z l => exact Or.inr ⟨z, by simp, h.2.1⟩
      · exact (ih h.2 hx).imp id fun ⟨z, hz, hn⟩ => ⟨z, List.mem_cons_of_mem _ hz, hn⟩

theorem Chain.start_mem {p e : α} {l : List β} (h : Chain next node p l e) :
    p = e ∨ ∃ y ∈ l, p = node y := by
  cases l with
  | nil => exact Or.inl h
  | cons y l => exact Or.inr ⟨y, by simp, h.1⟩

/-- Splitting a chain at a member. -/
theorem Chain.split {p e : α} {l₁ l₂ : List β} {x : β} (h : Chain next node p (l₁ ++ x :: l₂) e) :
    Chain next node p l₁ (node x) ∧ Chain next node (next x) l₂ e := by
  obtain ⟨q, h₁, rfl, h₂⟩ := chain_append.1 h
  exact ⟨h₁, h₂⟩

/-- Unlinking `x`: the link of the node before it is redirected to its successor. -/
theorem Chain.unlink [DecidableEq β] {p e : α} {l : List β} {x y : β}
    (hinj : Function.Injective node) (he : ∀ z ∈ l, e ≠ node z) (h : Chain next node p l e)
    (hx : x ∈ l) (hy : y ∈ l) (hyx : next y = node x) :
    Chain (Function.update next y (next x)) node p (l.erase x) e := by
  have hdup := h.nodup hinj he
  induction l generalizing p with
  | nil => exact absurd hx (by simp)
  | cons z l ih =>
      obtain ⟨hzl, hdup'⟩ := List.nodup_cons.1 hdup
      have hzx : z ≠ x := by
        rintro rfl
        exact h.next_ne_start hinj he hy (hyx.trans h.1.symm)
      have hx' : x ∈ l := (List.mem_cons.1 hx).resolve_left (Ne.symm hzx)
      rw [List.erase_cons_tail (by simpa using hzx)]
      refine ⟨h.1, ?_⟩
      by_cases hyz : y = z
      · subst hyz
        rw [Function.update_self]
        cases l with
        | nil => exact absurd hx' (by simp)
        | cons w l =>
            obtain rfl : w = x := hinj (h.2.1.symm.trans hyx)
            rw [List.erase_cons_head]
            exact Chain.update h.2.2 (fun hm => hzl (List.mem_cons_of_mem _ hm))
      · rw [Function.update_of_ne (Ne.symm hyz)]
        exact ih (fun w hw => he w (List.mem_cons_of_mem _ hw)) h.2 hx'
          ((List.mem_cons.1 hy).resolve_left hyz) hdup'

/-- The node before a member that is not the first one. -/
theorem Chain.pred {p e : α} {l : List β} {x : β} (h : Chain next node p l e) (hx : x ∈ l)
    (hp : p ≠ node x) : ∃ y ∈ l, next y = node x := by
  induction l generalizing p with
  | nil => exact absurd hx (by simp)
  | cons z l ih =>
      have hx' : x ∈ l := (List.mem_cons.1 hx).resolve_left (fun hxz => hp (hxz ▸ h.1))
      by_cases hz : next z = node x
      · exact ⟨z, by simp, hz⟩
      · obtain ⟨y, hy, hyx⟩ := ih h.2 hx' hz
        exact ⟨y, List.mem_cons_of_mem _ hy, hyx⟩

/-- The nodes that a loop along the links meets, if it ends within the fuel. -/
def walk (next : β → Option β) : ℕ → Option β → Option (List β)
  | 0, _ => none
  | _ + 1, none => some []
  | fuel + 1, some x => (walk next fuel (next x)).map (x :: ·)

/-- **A loop along a chain** meets the nodes of the chain. -/
theorem Chain.walk {next : β → Option β} {p : Option β} {l : List β} {fuel : ℕ}
    (h : Chain next some p l none) (hfuel : l.length < fuel) : walk next fuel p = some l := by
  induction fuel generalizing p l with
  | zero => exact absurd hfuel (Nat.not_lt_zero _)
  | succ fuel ih =>
      cases l with
      | nil =>
          obtain rfl := chain_nil.1 h
          rfl
      | cons x l =>
          obtain ⟨rfl, hrest⟩ := h
          rw [Intrusive.walk, ih hrest (Nat.lt_of_succ_lt_succ hfuel)]
          rfl

/-! ## Chains that start in a cell

Lists with a head sentinel keep their start in the sentinel's own link, so the link function lives
on addresses. -/

/-- The list of nodes linked by `next` from the cell `a` up to the address `e`. -/
def Linked (next : α → α) (node : β → α) (a : α) (l : List β) (e : α) : Prop :=
  Chain (fun x => next (node x)) node (next a) l e

variable {lnext : α → α} {head tail : α}

@[simp] theorem linked_nil {a e : α} : Linked lnext node a [] e ↔ lnext a = e := Iff.rfl

@[simp] theorem linked_cons {a e : α} {x : β} {l : List β} :
    Linked lnext node a (x :: l) e ↔ lnext a = node x ∧ Linked lnext node (node x) l e := Iff.rfl

theorem linked_append_cons {a e : α} {l₁ l₂ : List β} {x : β} :
    Linked lnext node a (l₁ ++ x :: l₂) e ↔
      Linked lnext node a l₁ (node x) ∧ Linked lnext node (node x) l₂ e := by
  induction l₁ generalizing a with
  | nil => simp
  | cons y l ih => simp [ih, and_assoc]

theorem Linked.congr {a e : α} {l : List β} {lnext' : α → α} (h : Linked lnext node a l e)
    (ha : lnext' a = lnext a) (hl : ∀ x ∈ l, lnext' (node x) = lnext (node x)) :
    Linked lnext' node a l e := by
  unfold Linked at *
  rw [ha]
  exact Chain.congr h hl

/-- A write to a cell outside the list leaves the list alone. -/
theorem Linked.update [DecidableEq α] {a e b q : α} {l : List β} (h : Linked lnext node a l e)
    (ha : b ≠ a) (hl : ∀ x ∈ l, b ≠ node x) : Linked (Function.update lnext b q) node a l e :=
  h.congr (Function.update_of_ne ha.symm _ _)
    (fun x hx => Function.update_of_ne (hl x hx).symm _ _)

theorem Linked.nodup {a e : α} {l : List β} (hinj : Function.Injective node)
    (he : ∀ x ∈ l, e ≠ node x) (h : Linked lnext node a l e) : l.Nodup :=
  Chain.nodup hinj he h

/-- The cells of a list: its head and its nodes. -/
def IsCell (node : β → α) (a : α) (l : List β) (c : α) : Prop := c = a ∨ ∃ x ∈ l, c = node x

@[simp] theorem isCell_head {a : α} {l : List β} : IsCell node a l a := Or.inl rfl

theorem isCell_node {a : α} {l : List β} {x : β} (hx : x ∈ l) : IsCell node a l (node x) :=
  Or.inr ⟨x, hx, rfl⟩

/-- Every member has a predecessor cell. -/
theorem Linked.pred {a e : α} {l : List β} {x : β} (h : Linked lnext node a l e) (hx : x ∈ l) :
    ∃ c, IsCell node a l c ∧ lnext c = node x := by
  induction l generalizing a with
  | nil => exact absurd hx (by simp)
  | cons y l ih =>
      rcases List.mem_cons.1 hx with rfl | hx
      · exact ⟨a, isCell_head, h.1⟩
      · obtain ⟨c, hc, hn⟩ := ih h.2 hx
        refine ⟨c, Or.inr ?_, hn⟩
        rcases hc with rfl | ⟨z, hz, rfl⟩
        · exact ⟨y, by simp, rfl⟩
        · exact ⟨z, List.mem_cons_of_mem _ hz, rfl⟩

/-- The cell before the end. -/
theorem Linked.last {a e : α} {l : List β} (h : Linked lnext node a l e) :
    ∃ c, IsCell node a l c ∧ lnext c = e := by
  induction l generalizing a with
  | nil => exact ⟨a, isCell_head, h⟩
  | cons y l ih =>
      obtain ⟨c, hc, hn⟩ := ih h.2
      refine ⟨c, Or.inr ?_, hn⟩
      rcases hc with rfl | ⟨z, hz, rfl⟩
      · exact ⟨y, by simp, rfl⟩
      · exact ⟨z, List.mem_cons_of_mem _ hz, rfl⟩

/-- The link of a cell leads to a member or to the end. -/
theorem Linked.next_mem {a e : α} {l : List β} {c : α} (h : Linked lnext node a l e)
    (hc : IsCell node a l c) : lnext c = e ∨ ∃ y ∈ l, lnext c = node y := by
  rcases hc with rfl | ⟨x, hx, rfl⟩
  · exact Chain.start_mem h
  · exact Chain.next_mem h hx

/-- Two cells with the same link are the same cell: a list has no shared successor. -/
theorem Linked.next_inj {a e : α} {l : List β} {c d : α} (hinj : Function.Injective node)
    (he : ∀ x ∈ l, e ≠ node x) (h : Linked lnext node a l e) (hc : IsCell node a l c)
    (hd : IsCell node a l d) (hcd : lnext c = lnext d) : c = d := by
  have hdup := h.nodup hinj he
  induction l generalizing a with
  | nil =>
      rcases hc with rfl | ⟨x, hx, -⟩
      · rcases hd with rfl | ⟨y, hy, -⟩
        · rfl
        · exact absurd hy (by simp)
      · exact absurd hx (by simp)
  | cons y l ih =>
      have hrest : ∀ b, IsCell node a (y :: l) b → b = a ∨ IsCell node (node y) l b := by
        rintro b (rfl | ⟨x, hx, rfl⟩)
        · exact Or.inl rfl
        · rcases List.mem_cons.1 hx with rfl | hx
          · exact Or.inr isCell_head
          · exact Or.inr (isCell_node hx)
      -- the first node is the successor of the head only
      have hhead : ∀ b, IsCell node (node y) l b → lnext b ≠ lnext a := by
        intro b hb hba
        rw [h.1] at hba
        rcases Linked.next_mem h.2 hb with hbe | ⟨z, hz, hbz⟩
        · exact he y (by simp) (hbe.symm.trans hba)
        · exact (List.nodup_cons.1 hdup).1 (hinj (hbz.symm.trans hba) ▸ hz)
      rcases hrest c hc with rfl | hc'
      · rcases hrest d hd with rfl | hd'
        · rfl
        · exact absurd hcd.symm (hhead d hd')
      · rcases hrest d hd with rfl | hd'
        · exact absurd hcd (hhead c hc')
        · exact ih (fun z hz => he z (by simp [hz])) h.2 hc' hd' (List.nodup_cons.1 hdup).2

/-- No cell is its own successor. -/
theorem Linked.next_ne_self {a e : α} {l : List β} {x : β} (hinj : Function.Injective node)
    (ha : ∀ y ∈ l, a ≠ node y) (he : ∀ y ∈ l, e ≠ node y) (h : Linked lnext node a l e) (hx : x ∈ l) :
    lnext (node x) ≠ node x := by
  intro hself
  obtain ⟨l₁, l₂, rfl⟩ := List.append_of_mem hx
  have hdup := h.nodup hinj he
  obtain ⟨c, hc, hcx⟩ := (linked_append_cons.1 h).1.last
  have hcell : IsCell node a (l₁ ++ x :: l₂) c :=
    hc.imp id fun ⟨y, hy, hcy⟩ => ⟨y, List.mem_append_left _ hy, hcy⟩
  have hsame : c = node x :=
    h.next_inj hinj he hcell (isCell_node hx) (hcx.trans hself.symm)
  rcases hc with rfl | ⟨y, hy, rfl⟩
  · exact ha x hx hsame
  · obtain rfl := hinj hsame
    exact (List.nodup_append.1 hdup).2.2 y hy y (by simp) rfl

/-- Unlinking `x`: its predecessor's link is redirected to its successor. -/
theorem Linked.unlink [DecidableEq α] [DecidableEq β] {a e c : α} {l : List β} {x : β}
    (hinj : Function.Injective node) (ha : ∀ y ∈ l, a ≠ node y) (he : ∀ y ∈ l, e ≠ node y)
    (h : Linked lnext node a l e) (hx : x ∈ l) (hc : IsCell node a l c) (hcx : lnext c = node x) :
    Linked (Function.update lnext c (lnext (node x))) node a (l.erase x) e := by
  have hdup := h.nodup hinj he
  induction l generalizing a with
  | nil => exact absurd hx (by simp)
  | cons y l ih =>
      obtain ⟨hyl, hdup'⟩ := List.nodup_cons.1 hdup
      by_cases hxy : y = x
      · subst hxy
        obtain rfl : c = a := h.next_inj hinj he hc isCell_head (hcx.trans h.1.symm)
        rw [List.erase_cons_head]
        show Chain _ node (Function.update lnext c (lnext (node y)) c) l e
        rw [Function.update_self]
        exact Chain.congr h.2
          (fun z hz => Function.update_of_ne (ha z (List.mem_cons_of_mem _ hz)).symm _ _)
      · have hx' : x ∈ l := (List.mem_cons.1 hx).resolve_left (fun hh => hxy hh.symm)
        have hca : c ≠ a := by
          rintro rfl
          exact hxy (hinj (h.1.symm.trans hcx))
        have hc' : IsCell node (node y) l c := by
          rcases hc with rfl | ⟨z, hz, rfl⟩
          · exact absurd rfl hca
          · rcases List.mem_cons.1 hz with rfl | hz
            · exact isCell_head
            · exact isCell_node hz
        rw [List.erase_cons_tail (by simpa using hxy)]
        refine ⟨by rw [Function.update_of_ne hca.symm]; exact h.1, ?_⟩
        refine ih (fun z hz hyz => ?_) (fun z hz => he z (by simp [hz])) h.2 hx' hc' hdup'
        rw [hinj hyz] at hyl
        exact hyl hz

/-- Linking a chain `first … last` in front: `last` was pointed at the old first node and then the
    head at `first`. -/
theorem Linked.splice [DecidableEq α] {a e p : α} {l₁ l₂ : List β} {x : β}
    (ha : ∀ y ∈ l₁ ++ x :: l₂, a ≠ node y)
    (h₁ : Chain (fun y => lnext (node y)) node p l₁ (node x)) (hx : lnext (node x) = lnext a)
    (h₂ : Linked lnext node a l₂ e) :
    Linked (Function.update lnext a p) node a (l₁ ++ x :: l₂) e := by
  show Chain _ node (Function.update lnext a p a) _ e
  rw [Function.update_self]
  have hjoin : Chain (fun y => lnext (node y)) node p (l₁ ++ x :: l₂) e := by
    refine chain_append.2 ⟨node x, h₁, rfl, ?_⟩
    show Chain _ node (lnext (node x)) l₂ e
    rw [hx]
    exact h₂
  exact hjoin.congr (fun y hy => Function.update_of_ne (ha y hy).symm _ _)

end Intrusive
