import Mathlib.Logic.Function.Basic

set_option autoImplicit false

/-! # Claims of threads on shared objects

Each thread's program counter says which object it works on, if any, and how far it is: a *view*
`P → Option (A × σ)`. An assignment `A → Own T B σ` says who works on an object, or, if nobody does,
which state the object rests in. `Claims` says that the two agree, so an object is worked on by at
most one thread. The lemmas are the ways in which one thread's step can keep them in agreement: it
takes an object at rest, passes on to another stage, puts the object down, or leaves it. -/

namespace Intrusive

/-- The owner of an object: at rest in a state of type `B`, or held by a thread at a stage. -/
inductive Own (T B σ : Type*) where
  | rest (b : B)
  | held (t : T) (x : σ)

variable {T A B σ P : Type*} {view : P → Option (A × σ)} {pc : T → P} {own own' : A → Own T B σ}
  {t : T} {a : A} {x y : σ} {b : B} {p : P}

/-- A thread views an object at a stage exactly if the object is held by it at that stage. -/
def Claims (view : P → Option (A × σ)) (pc : T → P) (own : A → Own T B σ) : Prop :=
  ∀ t a x, view (pc t) = some (a, x) ↔ own a = .held t x

namespace Claims

theorem held (h : Claims view pc own) (hv : view (pc t) = some (a, x)) : own a = .held t x :=
  (h t a x).1 hv

theorem view_eq (h : Claims view pc own) (ho : own a = .held t x) : view (pc t) = some (a, x) :=
  (h t a x).2 ho

/-- An object at rest is viewed by nobody. -/
theorem ne_of_rest (h : Claims view pc own) (ho : own a = .rest b) (t : T) (x : σ) :
    view (pc t) ≠ some (a, x) := fun hv => by
  rw [h.held hv] at ho
  cases ho

/-- Only the assignment of objects at rest has changed. -/
theorem congr (h : Claims view pc own) (heq : ∀ a t x, own' a = .held t x ↔ own a = .held t x) :
    Claims view pc own' := fun t a x => (h t a x).trans (heq a t x).symm

variable [DecidableEq T]

theorem keep (h : Claims view pc own) (hp : view p = view (pc t)) :
    Claims view (Function.update pc t p) own := by
  intro t' a x
  by_cases heq : t' = t
  · subst heq
    rw [Function.update_self, hp]
    exact h t' a x
  · rw [Function.update_of_ne heq]
    exact h t' a x

variable [DecidableEq A]

theorem take (h : Claims view pc own) (hv : view (pc t) = none) (ho : own a = .rest b)
    (hp : view p = some (a, x)) :
    Claims view (Function.update pc t p) (Function.update own a (.held t x)) := by
  intro t' a' x'
  by_cases ha : a' = a
  · subst ha
    rw [Function.update_self]
    by_cases heq : t' = t
    · subst heq
      rw [Function.update_self, hp]
      simp
    · rw [Function.update_of_ne heq]
      simp [h.ne_of_rest ho, Ne.symm heq]
  · rw [Function.update_of_ne ha]
    by_cases heq : t' = t
    · subst heq
      rw [Function.update_self, hp, ← h t' a' x', hv]
      simp [Ne.symm ha]
    · rw [Function.update_of_ne heq]
      exact h t' a' x'

theorem pass (h : Claims view pc own) (hv : view (pc t) = some (a, x)) (hp : view p = some (a, y)) :
    Claims view (Function.update pc t p) (Function.update own a (.held t y)) := by
  have ho := h.held hv
  intro t' a' x'
  by_cases ha : a' = a
  · subst ha
    rw [Function.update_self]
    by_cases heq : t' = t
    · subst heq
      rw [Function.update_self, hp]
      simp
    · rw [Function.update_of_ne heq, h t' a' x', ho]
      simp [Ne.symm heq]
  · rw [Function.update_of_ne ha]
    by_cases heq : t' = t
    · subst heq
      rw [Function.update_self, hp, ← h t' a' x', hv]
      simp [Ne.symm ha]
    · rw [Function.update_of_ne heq]
      exact h t' a' x'

theorem drop (h : Claims view pc own) (hv : view (pc t) = some (a, x)) (hp : view p = none) :
    Claims view (Function.update pc t p) (Function.update own a (.rest b)) := by
  have ho := h.held hv
  intro t' a' x'
  by_cases ha : a' = a
  · subst ha
    rw [Function.update_self]
    by_cases heq : t' = t
    · subst heq
      rw [Function.update_self, hp]
      simp
    · rw [Function.update_of_ne heq, h t' a' x', ho]
      simp [Ne.symm heq]
  · rw [Function.update_of_ne ha]
    by_cases heq : t' = t
    · subst heq
      rw [Function.update_self, hp, ← h t' a' x', hv]
      simp [Ne.symm ha]
    · rw [Function.update_of_ne heq]
      exact h t' a' x'

end Claims

end Intrusive
