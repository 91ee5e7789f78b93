import Mathlib.Algebra.Order.Floor.Ring
import Mathlib.Data.Int.Log
import Mathlib.Data.Nat.Cast.Order.Field
import Mathlib.Data.Rat.Floor
import Mathlib.Tactic.Linarith
import Mathlib.Tactic.Positivity
import Mathlib.Tactic.Ring

set_option autoImplicit false

/-! # Rounding to a binary precision

`roundTo p q` is the rational with `p` significant bits nearest to `q`, the one with an even last bit
in a tie. It is what an IEEE operation delivers whose exact result is `q`, as long as the exponent
stays in the range of the format. It exceeds `q` by at most the factor `1 + 2^-p` (`roundTo_le`) and
does not cross an integer of `p` bits (`natCast_le_roundTo`, `roundTo_le_natCast`), so such an integer
is its own rounding. -/

namespace Rounding

variable {p : ℕ} {q : ℚ}

/-! ## To an integer -/

/-- The integer nearest to `q`, the even one in a tie. -/
def halfEven (q : ℚ) : ℤ :=
  if q - ⌊q⌋ < 1 / 2 then ⌊q⌋
  else if 1 / 2 < q - ⌊q⌋ then ⌊q⌋ + 1
  else if ⌊q⌋ % 2 = 0 then ⌊q⌋ else ⌊q⌋ + 1

theorem halfEven_le (q : ℚ) : (halfEven q : ℚ) ≤ q + 1 / 2 := by
  have hfloor := Int.floor_le q
  unfold halfEven
  split_ifs <;> push_cast <;> linarith

theorem halfEven_le_of_le {z : ℤ} (h : q ≤ z) : halfEven q ≤ z := by
  have hfloor := Int.floor_le q
  have hle : ⌊q⌋ ≤ z := by exact_mod_cast hfloor.trans h
  -- rounding up needs a fractional part
  have hup : q - ⌊q⌋ ≠ 0 → ⌊q⌋ + 1 ≤ z := fun hne => by
    have hlt : (⌊q⌋ : ℚ) < z := lt_of_lt_of_le (lt_of_le_of_ne hfloor (fun h => hne (by linarith))) h
    exact_mod_cast hlt
  unfold halfEven
  split_ifs with hlow
  · exact hle
  · exact hup (by linarith)
  · exact hle
  · exact hup (by linarith)

theorem le_halfEven {z : ℤ} (h : (z : ℚ) ≤ q) : z ≤ halfEven q := by
  have hfloor := Int.le_floor.2 h
  unfold halfEven
  split_ifs <;> omega

/-! ## To `p` bits -/

/-- The distance of neighbouring numbers of `p` bits around `q`. -/
def ulp (p : ℕ) (q : ℚ) : ℚ := 2 ^ (Int.log 2 q - (p - 1))

/-- The number of `p` bits nearest to `q`. -/
def roundTo (p : ℕ) (q : ℚ) : ℚ := halfEven (q / ulp p q) * ulp p q

theorem ulp_pos (p : ℕ) (q : ℚ) : 0 < ulp p q := zpow_pos (by norm_num) _

theorem ulp_le (hq : 0 < q) : ulp p q ≤ 2 * q * (1 / 2) ^ p := by
  have hlog : (2 : ℚ) ^ Int.log 2 q ≤ q := Int.zpow_log_le_self (by decide) hq
  have hulp : ulp p q = 2 ^ Int.log 2 q * (2 * (1 / 2) ^ p) := by
    rw [ulp, show Int.log 2 q - ((p : ℤ) - 1) = Int.log 2 q + (1 - p) by ring,
      zpow_add₀ (by norm_num), zpow_sub₀ (by norm_num), zpow_one, zpow_natCast, one_div_pow]
    ring
  have hpos : (0 : ℚ) ≤ 2 * (1 / 2) ^ p := by positivity
  calc ulp p q = 2 ^ Int.log 2 q * (2 * (1 / 2) ^ p) := hulp
    _ ≤ q * (2 * (1 / 2) ^ p) := mul_le_mul_of_nonneg_right hlog hpos
    _ = 2 * q * (1 / 2) ^ p := by ring

@[simp] theorem roundTo_zero (p : ℕ) : roundTo p 0 = 0 := by
  simp [roundTo, halfEven]

theorem roundTo_le (hq : 0 ≤ q) : roundTo p q ≤ q + q * (1 / 2) ^ p := by
  rcases hq.eq_or_lt with rfl | hq
  · simp
  have hpos := ulp_pos p q
  have hround := mul_le_mul_of_nonneg_right (halfEven_le (q / ulp p q)) hpos.le
  have hsplit : (q / ulp p q + 1 / 2) * ulp p q = q + ulp p q / 2 := by
    field_simp
  have hulp := ulp_le (p := p) hq
  rw [hsplit] at hround
  rw [roundTo]
  linarith

theorem roundTo_nonneg (hq : 0 ≤ q) : 0 ≤ roundTo p q := by
  have hround : (0 : ℤ) ≤ halfEven (q / ulp p q) :=
    le_halfEven (by simpa using div_nonneg hq (ulp_pos p q).le)
  exact mul_nonneg (by exact_mod_cast hround) (ulp_pos p q).le

theorem roundTo_le_two_mul (hq : 0 ≤ q) : roundTo p q ≤ 2 * q := by
  have hpow : (1 / 2 : ℚ) ^ p ≤ 1 := pow_le_one₀ (by norm_num) (by norm_num)
  have := roundTo_le (p := p) hq
  nlinarith

/-- Below `2^p` the integers are multiples of the distance. -/
theorem exists_multiple {k : ℕ} (hlog : Int.log 2 q ≤ p - 1) :
    ∃ z : ℤ, (k : ℚ) = z * ulp p q := by
  obtain ⟨d, hd⟩ : ∃ d : ℕ, Int.log 2 q - (p - 1) = -(d : ℤ) :=
    ⟨((p - 1 : ℤ) - Int.log 2 q).toNat, by omega⟩
  refine ⟨k * 2 ^ d, ?_⟩
  rw [ulp, hd, zpow_neg, zpow_natCast]
  push_cast
  field_simp

theorem natCast_le_roundTo (hp : 1 ≤ p) {k : ℕ} (hk : k ≤ 2 ^ p) (h : (k : ℚ) ≤ q) :
    (k : ℚ) ≤ roundTo p q := by
  have hpos := ulp_pos p q
  have hmultiple : ∀ z : ℤ, z * ulp p q ≤ q → z * ulp p q ≤ roundTo p q := fun z hz =>
    mul_le_mul_of_nonneg_right (by exact_mod_cast le_halfEven ((le_div_iff₀ hpos).2 hz)) hpos.le
  rcases Nat.eq_zero_or_pos k with rfl | hkpos
  · simpa using roundTo_nonneg (by simpa using h)
  have hq : 0 < q := lt_of_lt_of_le (by exact_mod_cast hkpos) h
  rcases le_or_gt (Int.log 2 q) (p - 1) with hlog | hlog
  · obtain ⟨z, hz⟩ := exists_multiple (k := k) hlog
    rw [hz] at h ⊢
    exact hmultiple z h
  · -- `q` has at least as many bits as `2^p`, and the power of two below it is a multiple
    have hpow : (2 : ℚ) ^ Int.log 2 q = ((2 ^ (p - 1) : ℕ) : ℤ) * ulp p q := by
      rw [ulp, zpow_sub₀ (by norm_num), show ((p : ℤ) - 1) = ((p - 1 : ℕ) : ℤ) by omega, zpow_natCast]
      push_cast
      field_simp
    have hbelow : (2 : ℚ) ^ Int.log 2 q ≤ q := Int.zpow_log_le_self (by decide) hq
    have hk' : (k : ℚ) ≤ 2 ^ Int.log 2 q := by
      calc (k : ℚ) ≤ 2 ^ p := by exact_mod_cast hk
        _ = 2 ^ (p : ℤ) := (zpow_natCast _ _).symm
        _ ≤ 2 ^ Int.log 2 q := zpow_le_zpow_right₀ (by norm_num) (by omega)
    rw [hpow] at hbelow hk'
    exact hk'.trans (hmultiple _ hbelow)

theorem roundTo_le_natCast {k : ℕ} (hk : k < 2 ^ p) (hq : 0 ≤ q) (h : q ≤ k) : roundTo p q ≤ k := by
  have hpos := ulp_pos p q
  rcases hq.eq_or_lt with rfl | hq
  · simp
  have hlog : Int.log 2 q ≤ p - 1 := by
    have hlt : q < ((2 : ℕ) : ℚ) ^ (p : ℤ) := by
      rw [zpow_natCast]
      exact lt_of_le_of_lt h (by exact_mod_cast hk)
    have hbits := (Int.lt_zpow_iff_log_lt (by decide) hq).1 hlt
    omega
  obtain ⟨z, hz⟩ := exists_multiple (k := k) hlog
  rw [hz] at h ⊢
  exact mul_le_mul_of_nonneg_right
    (by exact_mod_cast halfEven_le_of_le ((div_le_iff₀ hpos).2 h)) hpos.le

/-- An integer of `p` bits is its own rounding. -/
theorem roundTo_natCast (hp : 1 ≤ p) {k : ℕ} (hk : k < 2 ^ p) : roundTo p k = k :=
  le_antisymm (roundTo_le_natCast hk (Nat.cast_nonneg k) le_rfl)
    (natCast_le_roundTo hp hk.le le_rfl)

/-- The rounded quotient of two integers of `p` bits has the same integer part as the exact one. -/
theorem floor_roundTo_div (hp : 1 ≤ p) {m d : ℕ} (hm : m < 2 ^ p) (hd : 1 ≤ d) :
    ⌊roundTo p (m / d)⌋₊ = m / d := by
  have hdpos : (0 : ℚ) < d := by exact_mod_cast hd
  have hq : (0 : ℚ) ≤ m / d := div_nonneg (Nat.cast_nonneg m) hdpos.le
  refine (Nat.floor_eq_iff (roundTo_nonneg hq)).2 ⟨?_, ?_⟩
  · exact natCast_le_roundTo hp ((Nat.div_le_self m d).trans hm.le) Nat.cast_div_le
  · -- the exact quotient misses the next integer by `1 / d`, more than the rounding can add
    have hnext : (m : ℚ) + 1 ≤ (((m / d : ℕ) : ℚ) + 1) * d := by
      have := Nat.lt_mul_div_succ m hd
      exact_mod_cast (by rw [mul_comm]; exact this : m + 1 ≤ (m / d + 1) * d)
    have hround : (m : ℚ) * (1 / 2) ^ p < 1 := by
      have hm' : (m : ℚ) < 2 ^ p := by exact_mod_cast hm
      rw [one_div_pow, mul_one_div, div_lt_one (by positivity)]
      exact hm'
    calc roundTo p (m / d) ≤ m / d + m / d * (1 / 2) ^ p := roundTo_le hq
      _ = (m + m * (1 / 2) ^ p) / d := by ring
      _ < (m + 1) / d := (div_lt_div_iff_of_pos_right hdpos).2 (by linarith)
      _ ≤ ((m / d : ℕ) : ℚ) + 1 := (div_le_iff₀ hdpos).2 hnext

end Rounding
