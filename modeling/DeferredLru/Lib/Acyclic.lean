import Mathlib.Data.Fintype.Card
import Mathlib.Logic.Relation
import Mathlib.Order.WellFounded

set_option autoImplicit false

/-! # Acyclic relations

Who waits for whom is a relation, and nobody waits for himself as long as it has no cycle. `Acyclic`
relations stay so when edges are added into a vertex that has none out of it, and when edges are added
out of one vertex, unless one of them closes a cycle. Every set of a finite type has an element with no
edge to another element. -/

namespace Waiting

open Relation

variable {α : Type*} {r r' : α → α → Prop} {n x y : α} {p : α → Prop}

/-- No vertex is on a cycle. -/
def Acyclic (r : α → α → Prop) : Prop := ∀ x, ¬ TransGen r x x

/-- With edges added that lead to vertices without an edge out of them, paths to other vertices are
    the old ones. -/
theorem transGen_of_sinks (hr : ∀ x y, r' x y → r x y ∨ ∀ z, ¬ r' y z) (h : TransGen r' x y)
    (hy : ∃ z, r' y z) : TransGen r x y := by
  induction h with
  | single hxy =>
      obtain ⟨z, hz⟩ := hy
      exact .single ((hr _ _ hxy).resolve_right (fun hsink => hsink z hz))
  | tail _ hxy ih =>
      obtain ⟨z, hz⟩ := hy
      exact .tail (ih ⟨_, hxy⟩) ((hr _ _ hxy).resolve_right (fun hsink => hsink z hz))

/-- **Edges into sinks** close no cycle. -/
theorem Acyclic.sinks (h : Acyclic r) (hr : ∀ x y, r' x y → r x y ∨ ∀ z, ¬ r' y z) : Acyclic r' := by
  intro x hx
  obtain ⟨z, hz, -⟩ := TransGen.head'_iff.1 hx
  exact h x (transGen_of_sinks hr hx ⟨z, hz⟩)

/-- With edges added out of `n`, a new path goes through one of them. -/
theorem transGen_of_source (hr : ∀ x y, r' x y → r x y ∨ x = n ∧ p y) (h : TransGen r' x y) :
    TransGen r x y ∨ ReflTransGen r x n ∧ ∃ z, p z ∧ ReflTransGen r z y := by
  induction h with
  | single hxy =>
      rcases hr _ _ hxy with hxy | ⟨rfl, hp⟩
      · exact Or.inl (.single hxy)
      · exact Or.inr ⟨.refl, _, hp, .refl⟩
  | tail _ hyz ih =>
      rcases hr _ _ hyz with hyz | ⟨rfl, hp⟩
      · rcases ih with ih | ⟨hxn, z, hz, hzy⟩
        · exact Or.inl (ih.tail hyz)
        · exact Or.inr ⟨hxn, z, hz, hzy.tail hyz⟩
      · rcases ih with ih | ⟨hxn, -⟩
        · exact Or.inr ⟨ih.to_reflTransGen, _, hp, .refl⟩
        · exact Or.inr ⟨hxn, _, hp, .refl⟩

/-- **Edges out of one vertex** close no cycle if none of them leads to where one comes from. -/
theorem Acyclic.source (h : Acyclic r) (hr : ∀ x y, r' x y → r x y ∨ x = n ∧ p y)
    (hp : ∀ y, p y → ¬ ReflTransGen r y n) : Acyclic r' := by
  intro x hx
  rcases transGen_of_source hr hx with hold | ⟨hxn, z, hz, hzx⟩
  · exact h x hold
  · exact hp z hz (hzx.trans hxn)

/-- **Among finitely many** somebody does not wait for any of them. -/
theorem Acyclic.exists_sink [Finite α] (h : Acyclic r) {s : Set α} (hs : s.Nonempty) :
    ∃ x ∈ s, ∀ y ∈ s, ¬ r x y := by
  have : IsTrans α (TransGen (Function.swap r)) := ⟨fun _ _ _ => TransGen.trans⟩
  have : Std.Irrefl (TransGen (Function.swap r)) := ⟨fun x hx => h x (transGen_swap.1 hx)⟩
  have hwf := Finite.wellFounded_of_trans_of_irrefl (TransGen (Function.swap r))
  obtain ⟨x, hx, hmin⟩ := hwf.has_min s hs
  exact ⟨x, hx, fun y hy hxy => hmin y hy (.single hxy)⟩

end Waiting
