import Mathlib.Data.Fin.Basic
import Mathlib.Data.Int.Cast.Lemmas
import Mathlib.Logic.Function.Basic

set_option autoImplicit false

/-! # Signed indices into an array

Programs that link the elements of an array by index use a signed integer, so that the negative ones
are free to mark ends. `slot` is the access to the array and fails outside it, `index` the address of
an element. `toIndex` narrows an unsigned number to such an index; `increment` counts in one. -/

namespace Intrusive

variable {N : ℕ} {n : Fin N} {i : ℤ}

/-- The element at an index. -/
def slot (i : ℤ) : Option (Fin N) :=
  if h : 0 ≤ i ∧ i < N then some ⟨i.toNat, by omega⟩ else none

/-- The index of an element. -/
def index (n : Fin N) : ℤ := n.val

theorem index_injective : Function.Injective (index (N := N)) := fun m n h =>
  Fin.ext (by simpa [index] using h)

theorem index_nonneg (n : Fin N) : 0 ≤ index n := by simp [index]

theorem neg_ne_index (hi : i < 0) (n : Fin N) : i ≠ index n := by
  have := index_nonneg n
  omega

theorem end_ne_index (n : Fin N) : (-1 : ℤ) ≠ index n := neg_ne_index (by omega) n

theorem index_ne_end (n : Fin N) : index n ≠ -1 := (end_ne_index n).symm

@[simp] theorem slot_index (n : Fin N) : slot (index n) = some n := by
  simp [slot, index]

theorem slot_eq (h : i = index n) : slot i = some n := by rw [h, slot_index]

theorem update_index {f : Fin N → ℤ} {m : Fin N} :
    Function.update f n i m = if index n = index m then i else f m := by
  rw [Function.update_apply]
  exact if_congr ⟨fun h => by rw [h], fun h => (index_injective h).symm⟩ rfl rfl

/-! ## Numbers of 32 bits -/

/-- `static_cast<int>` of a `size_t`. -/
@[irreducible] def toIndex (c : ℕ) : ℤ :=
  if c % 2 ^ 32 < 2 ^ 31 then (c % 2 ^ 32 : ℕ) else (c % 2 ^ 32 : ℕ) - 2 ^ 32

theorem toIndex_of_lt {c : ℕ} (hc : c < 2 ^ 31) : toIndex c = c := by
  unfold toIndex
  split <;> omega

/-- The first number that becomes negative. -/
theorem toIndex_two_pow : toIndex (2 ^ 31) = -2 ^ 31 := by
  unfold toIndex
  decide

/-- `++` of a nonnegative `int`, which has no value if it overflows. -/
def increment (c : ℕ) : Option ℕ := if c + 1 < 2 ^ 31 then some (c + 1) else none

theorem increment_of_lt {c : ℕ} (hc : c + 1 < 2 ^ 31) : increment c = some (c + 1) := if_pos hc

end Intrusive
