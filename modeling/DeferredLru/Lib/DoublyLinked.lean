import DeferredLru.Lib.Chain

set_option autoImplicit false

/-! # Doubly linked chains

A chain whose nodes also lead back: `Back prev node e l` says that the back link of the first node of
`l` is the address `e` and that of every other one is the node before it. `Doubly` joins the two
directions of a list; the addresses at its ends, `front` and `stop`, are no nodes.

The editing lemmas take the new links pointwise, so the order of a program's writes does not matter,
and find the neighbours of a node by the node's own links, as programs do. -/

namespace Intrusive

variable {α β : Type*}

/-- The back links of `l`, whose first node leads back to the address `e`. -/
def Back (prev : β → α) (node : β → α) : α → List β → Prop
  | _, [] => True
  | e, x :: l => prev x = e ∧ Back prev node (node x) l

/-- The address of the last node, or `e` if there is none. -/
def lastAddr (node : β → α) : α → List β → α
  | e, [] => e
  | _, x :: l => lastAddr node (node x) l

variable {next next' prev prev' node : β → α} {p e : α} {l l₁ l₂ : List β} {x y : β}

@[simp] theorem back_nil : Back prev node e [] := trivial

@[simp] theorem back_cons :
    Back prev node e (x :: l) ↔ prev x = e ∧ Back prev node (node x) l := Iff.rfl

@[simp] theorem lastAddr_nil : lastAddr node e [] = e := rfl

@[simp] theorem lastAddr_cons : lastAddr node e (x :: l) = lastAddr node (node x) l := rfl

theorem back_append :
    Back prev node e (l₁ ++ l₂) ↔ Back prev node e l₁ ∧ Back prev node (lastAddr node e l₁) l₂ := by
  induction l₁ generalizing e with
  | nil => simp
  | cons x l ih => simp [ih, and_assoc]

theorem lastAddr_append : lastAddr node e (l₁ ++ l₂) = lastAddr node (lastAddr node e l₁) l₂ := by
  induction l₁ generalizing e with
  | nil => rfl
  | cons x l ih => exact ih

theorem lastAddr_concat : lastAddr node e (l ++ [x]) = node x := lastAddr_append

theorem lastAddr_mem : lastAddr node e l = e ∧ l = [] ∨ ∃ y ∈ l, lastAddr node e l = node y := by
  rcases List.eq_nil_or_concat l with rfl | ⟨l, y, rfl⟩
  · exact Or.inl ⟨rfl, rfl⟩
  · rw [List.concat_eq_append]
    exact Or.inr ⟨y, by simp, lastAddr_concat⟩

theorem Back.congr (h : Back prev node e l) (heq : ∀ x ∈ l, prev' x = prev x) :
    Back prev' node e l := by
  induction l generalizing e with
  | nil => trivial
  | cons x l ih =>
      exact ⟨(heq x (by simp)).trans h.1, ih h.2 (fun y hy => heq y (by simp [hy]))⟩

/-- A back link leads to the node before or out of the list. -/
theorem Back.prev_mem (h : Back prev node e l) (hx : x ∈ l) :
    prev x = e ∨ ∃ y ∈ l, prev x = node y := by
  induction l generalizing e with
  | nil => exact absurd hx (by simp)
  | cons z l ih =>
      rcases List.mem_cons.1 hx with rfl | hx
      · exact Or.inl h.1
      · rcases ih h.2 hx with hz | ⟨y, hy, hxy⟩
        · exact Or.inr ⟨z, by simp, hz⟩
        · exact Or.inr ⟨y, by simp [hy], hxy⟩

/-- Only the first node leads out of the list. -/
theorem Back.ne_of_tail (he : ∀ y ∈ x :: l, e ≠ node y)
    (h : Back prev node e (x :: l)) (hy : y ∈ l) : prev y ≠ e := by
  intro hye
  rcases Back.prev_mem h.2 hy with hx | ⟨z, hz, hyz⟩
  · exact he x (by simp) (hye.symm.trans hx)
  · exact he z (by simp [hz]) (hye.symm.trans hyz)

/-! ## Removing a node -/

theorem Chain.remove [DecidableEq α] (hinj : Function.Injective node)
    (he : ∀ y ∈ l₁ ++ x :: l₂, e ≠ node y) (h : Chain next node p (l₁ ++ x :: l₂) e)
    (hnext : ∀ y ∈ l₁ ++ l₂, next' y = if next y = node x then next x else next y) :
    Chain next' node (if p = node x then next x else p) (l₁ ++ l₂) e := by
  have hdup := h.nodup hinj he
  induction l₁ generalizing p with
  | nil =>
      rw [if_pos h.1]
      refine Chain.congr h.2 (fun y hy => ?_)
      have hne := h.next_ne_start hinj he (List.mem_cons_of_mem _ hy)
      rw [h.1] at hne
      rw [hnext y (by simpa using hy), if_neg hne]
  | cons z l₁ ih =>
      obtain ⟨hz, hdup'⟩ := List.nodup_cons.1 hdup
      have hzx : p ≠ node x := by
        rw [h.1]
        intro heq
        exact hz (by simp [hinj heq])
      rw [if_neg hzx]
      refine ⟨h.1, ?_⟩
      rw [hnext z (by simp)]
      exact ih (fun y hy => he y (by simp at hy ⊢; tauto)) h.2
        (fun y hy => hnext y (by simp at hy ⊢; tauto)) hdup'

theorem Back.remove [DecidableEq α] (hinj : Function.Injective node)
    (he : ∀ y ∈ l₁ ++ x :: l₂, e ≠ node y) (hdup : (l₁ ++ x :: l₂).Nodup)
    (h : Back prev node e (l₁ ++ x :: l₂))
    (hprev : ∀ y ∈ l₁ ++ l₂, prev' y = if prev y = node x then prev x else prev y) :
    Back prev' node e (l₁ ++ l₂) := by
  induction l₁ generalizing e with
  | nil =>
      cases l₂ with
      | nil => trivial
      | cons z l₂ =>
          obtain ⟨hxe, hzx, hrest⟩ := h
          refine ⟨by rw [hprev z (by simp), if_pos hzx, hxe], Back.congr hrest (fun y hy => ?_)⟩
          have hne : prev y ≠ node x := by
            rcases Back.prev_mem hrest hy with hyz | ⟨w, hw, hyw⟩
            · rw [hyz]
              intro heq
              simp [hinj heq] at hdup
            · rw [hyw]
              intro heq
              simp [← hinj heq, hw] at hdup
          rw [hprev y (by simp [hy]), if_neg hne]
  | cons z l₁ ih =>
      obtain ⟨hz, hdup'⟩ := List.nodup_cons.1 hdup
      have hzx : prev z ≠ node x := by
        rw [h.1]
        exact he x (by simp)
      refine ⟨by rw [hprev z (by simp), if_neg hzx, h.1], ?_⟩
      refine ih (fun y hy heq => hz ?_) hdup' h.2 (fun y hy => hprev y (by simp at hy ⊢; tauto))
      rwa [hinj heq]

/-! ## Adding a node -/

/-- Appending a node: the last link led to `e` and now leads to the new node. -/
theorem Chain.append_last [DecidableEq α] (he : ∀ y ∈ l, e ≠ node y) (h : Chain next node p l e)
    (hnext : ∀ y ∈ l, next' y = if next y = e then node x else next y) (hx : next' x = e) :
    Chain next' node (if p = e then node x else p) (l ++ [x]) e := by
  induction l generalizing p with
  | nil =>
      rw [if_pos (chain_nil.1 h)]
      exact ⟨rfl, hx⟩
  | cons y l ih =>
      rw [if_neg (by rw [h.1]; exact (he y (by simp)).symm)]
      refine ⟨h.1, ?_⟩
      rw [hnext y (by simp)]
      exact ih (fun z hz => he z (by simp [hz])) h.2 (fun z hz => hnext z (by simp [hz]))

theorem Back.append_last (h : Back prev node e l) (hprev : ∀ y ∈ l, prev' y = prev y)
    (hx : prev' x = lastAddr node e l) : Back prev' node e (l ++ [x]) :=
  back_append.2 ⟨h.congr hprev, hx, trivial⟩

/-- Prepending a node: the first back link led to `e` and now leads to the new node. -/
theorem Back.cons [DecidableEq α] (he : ∀ y ∈ l, e ≠ node y)
    (h : Back prev node e l) (hprev : ∀ y ∈ l, prev' y = if prev y = e then node x else prev y)
    (hx : prev' x = e) : Back prev' node e (x :: l) := by
  refine ⟨hx, ?_⟩
  cases l with
  | nil => trivial
  | cons z l =>
      refine ⟨by rw [hprev z (by simp), if_pos h.1], Back.congr h.2 (fun y hy => ?_)⟩
      rw [hprev y (by simp [hy]), if_neg (h.ne_of_tail he hy)]

/-! ## Doubly linked lists -/

/-- The nodes `l` linked in both directions between the addresses `front` and `stop`. -/
structure Doubly (next prev node : β → α) (front first stop : α) (l : List β) : Prop where
  forward : Chain next node first l stop
  backward : Back prev node front l

namespace Doubly

variable {front first first' stop : α}

theorem congr (h : Doubly next prev node front first stop l) (hnext : ∀ y ∈ l, next' y = next y)
    (hprev : ∀ y ∈ l, prev' y = prev y) : Doubly next' prev' node front first stop l :=
  ⟨h.forward.congr hnext, h.backward.congr hprev⟩

variable (hinj : Function.Injective node) (hstop : ∀ y, stop ≠ node y)
include hinj hstop

theorem nodup (h : Doubly next prev node front first stop l) : l.Nodup :=
  h.forward.nodup hinj (fun y _ => hstop y)

variable (hfront : ∀ y ∈ l, front ≠ node y)
include hfront

/-- The two directions agree. -/
theorem prev_eq_iff (h : Doubly next prev node front first stop l) (hx : x ∈ l) (hy : y ∈ l) :
    prev x = node y ↔ next y = node x := by
  have hdup := h.nodup hinj hstop
  obtain ⟨hf, hb⟩ := h
  induction l generalizing first front with
  | nil => exact absurd hx (by simp)
  | cons z l ih =>
      obtain ⟨hz, hdup'⟩ := List.nodup_cons.1 hdup
      rcases List.mem_cons.1 hx with rfl | hxl
      · refine iff_of_false (fun heq => hfront y hy (hb.1.symm.trans heq)) (fun heq => ?_)
        exact hf.next_ne_start hinj (fun w _ => hstop w) hy (heq.trans hf.1.symm)
      · rcases List.mem_cons.1 hy with rfl | hyl
        · cases l with
          | nil => exact absurd hxl (by simp)
          | cons w l =>
              rcases List.mem_cons.1 hxl with rfl | hxl'
              · exact iff_of_true hb.2.1 hf.2.1
              · have hny : ∀ v ∈ w :: l, node y ≠ node v := fun v hv heq => hz (hinj heq ▸ hv)
                refine iff_of_false (Back.ne_of_tail hny hb.2 hxl') (fun heq => ?_)
                rw [hf.2.1] at heq
                exact (List.nodup_cons.1 hdup').1 (hinj heq ▸ hxl')
        · exact ih (fun v hv heq => hz (by rwa [hinj heq])) hxl hyl hdup' hf.2 hb.2

/-- Exactly the first node leads out at the front. -/
theorem prev_eq_front_iff (h : Doubly next prev node front first stop l) (hx : x ∈ l) :
    prev x = front ↔ first = node x := by
  cases l with
  | nil => exact absurd hx (by simp)
  | cons z l =>
      rcases List.mem_cons.1 hx with rfl | hxl
      · exact iff_of_true h.backward.1 h.forward.1
      · refine iff_of_false (h.backward.ne_of_tail hfront hxl) (fun heq => ?_)
        have hz := (List.nodup_cons.1 (h.nodup hinj hstop)).1
        exact hz (hinj (h.forward.1.symm.trans heq) ▸ hxl)

/-- Exactly the last node leads out at the end. -/
theorem next_eq_stop_iff (h : Doubly next prev node front first stop l) (hx : x ∈ l) :
    next x = stop ↔ lastAddr node front l = node x := by
  obtain ⟨l₁, l₂, rfl⟩ := List.append_of_mem hx
  have hdup := h.nodup hinj hstop
  have hrest := (Chain.split h.forward).2
  rw [lastAddr_append, lastAddr_cons]
  cases l₂ with
  | nil => exact iff_of_true hrest rfl
  | cons z l₂ =>
      refine iff_of_false (fun hn => hstop z (hn.symm.trans hrest.1)) (fun heq => ?_)
      have hxz := (List.nodup_cons.1 (List.nodup_append.1 hdup).2.1).1
      rcases @lastAddr_mem _ _ node (node x) (z :: l₂) with ⟨-, hno⟩ | ⟨w, hw, hlast⟩
      · cases hno
      · rw [hinj (hlast.symm.trans heq)] at hw
        exact hxz hw

/-- **Unlinking** a node: its neighbours are linked to each other. -/
theorem remove [DecidableEq α] {l₁ l₂ : List β} (hl : l = l₁ ++ x :: l₂)
    (h : Doubly next prev node front first stop l)
    (hnext : ∀ y ∈ l₁ ++ l₂, next' y = if prev x = node y then next x else next y)
    (hprev : ∀ y ∈ l₁ ++ l₂, prev' y = if next x = node y then prev x else prev y)
    (hfirst : first' = if prev x = front then next x else first) :
    Doubly next' prev' node front first' stop (l₁ ++ l₂) := by
  subst hl
  have hdup := h.nodup hinj hstop
  have hx : x ∈ l₁ ++ x :: l₂ := by simp
  have hsub : ∀ y ∈ l₁ ++ l₂, y ∈ l₁ ++ x :: l₂ := fun y hy => by
    simp only [List.mem_append, List.mem_cons] at hy ⊢
    tauto
  constructor
  · have hiff := h.prev_eq_front_iff hinj hstop hfront hx
    rw [hfirst, if_congr hiff rfl rfl]
    refine h.forward.remove hinj (fun y _ => hstop y) (fun y hy => ?_)
    rw [hnext y hy, if_congr (h.prev_eq_iff hinj hstop hfront hx (hsub y hy)) rfl rfl]
  · refine h.backward.remove hinj hfront hdup (fun y hy => ?_)
    rw [hprev y hy, if_congr (h.prev_eq_iff hinj hstop hfront (hsub y hy) hx).symm rfl rfl]

/-- **Appending** a node behind the last one. -/
theorem append [DecidableEq α] (h : Doubly next prev node front first stop l)
    (hnext : ∀ y ∈ l, next' y = if lastAddr node front l = node y then node x else next y)
    (hprev : ∀ y ∈ l, prev' y = prev y) (hxnext : next' x = stop)
    (hxprev : prev' x = lastAddr node front l)
    (hfirst : first' = if first = stop then node x else first) :
    Doubly next' prev' node front first' stop (l ++ [x]) := by
  refine ⟨?_, h.backward.append_last hprev hxprev⟩
  rw [hfirst]
  refine h.forward.append_last (fun y _ => hstop y) (fun y hy => ?_) hxnext
  rw [hnext y hy, if_congr (h.next_eq_stop_iff hinj hstop hfront hy).symm rfl rfl]

/-- **Prepending** a node before the first one. -/
theorem prepend [DecidableEq α] (h : Doubly next prev node front first stop l)
    (hnext : ∀ y ∈ l, next' y = next y) (hxnext : next' x = first)
    (hprev : ∀ y ∈ l, prev' y = if first = node y then node x else prev y) (hxprev : prev' x = front) :
    Doubly next' prev' node front (node x) stop (x :: l) := by
  refine ⟨⟨rfl, ?_⟩, h.backward.cons hfront (fun y hy => ?_) hxprev⟩
  · rw [hxnext]
    exact h.forward.congr hnext
  · rw [hprev y hy, if_congr (h.prev_eq_front_iff hinj hstop hfront hy).symm rfl rfl]

end Doubly

end Intrusive
