import Mathlib

namespace TdxHq.PackedFloat

/-- The number a word stands for, with `p` bits of mantissa and the given bias. -/
def value (p : ℕ) (bias : ℤ) (w : ℕ) : ℚ :=
  (1 + (w % 2 ^ p : ℕ) / 2 ^ p) * 2 ^ ((w / 2 ^ p : ℕ) - bias)

variable {p : ℕ} {bias : ℤ}

theorem value_eq_scaled (w : ℕ) :
    value p bias w = 2 ^ ((w / 2 ^ p : ℕ) - bias - p) * (2 ^ p + (w % 2 ^ p : ℕ)) := by
  have hp : (2 : ℚ) ^ p ≠ 0 := by positivity
  have hscale : (2 : ℚ) ^ ((w / 2 ^ p : ℕ) - bias) = 2 ^ ((w / 2 ^ p : ℕ) - bias - p) * 2 ^ p := by
    rw [← zpow_natCast, ← zpow_add₀ two_ne_zero, sub_add_cancel]
  rw [value, hscale]
  field_simp

theorem value_strictMono : StrictMono (value p bias) := by
  intro a b hab
  rw [value_eq_scaled, value_eq_scaled]
  have hdiv : a / 2 ^ p ≤ b / 2 ^ p := Nat.div_le_div_right hab.le
  have ha := Nat.div_add_mod a (2 ^ p)
  have hb := Nat.div_add_mod b (2 ^ p)
  have hpos : (0 : ℚ) < 2 ^ ((a / 2 ^ p : ℕ) - bias - p) := by positivity
  rcases hdiv.eq_or_lt with he | hlt
  · -- in one binade the mantissas decide
    have hmod : a % 2 ^ p < b % 2 ^ p := by
      rw [he] at ha
      omega
    rw [← he]
    gcongr
  · have hmant : ((a % 2 ^ p : ℕ) : ℚ) < 2 ^ p := by
      exact_mod_cast Nat.mod_lt a (by positivity)
    have hstep : (2 : ℚ) ^ ((a / 2 ^ p : ℕ) - bias - p) * 2 ≤ 2 ^ ((b / 2 ^ p : ℕ) - bias - p) := by
      rw [← zpow_add_one₀ two_ne_zero]
      apply zpow_le_zpow_right₀ one_le_two
      omega
    calc (2 : ℚ) ^ ((a / 2 ^ p : ℕ) - bias - p) * (2 ^ p + (a % 2 ^ p : ℕ))
        < 2 ^ ((a / 2 ^ p : ℕ) - bias - p) * (2 ^ p + 2 ^ p) := by gcongr
      _ = 2 ^ ((a / 2 ^ p : ℕ) - bias - p) * 2 * 2 ^ p := by ring
      _ ≤ 2 ^ ((b / 2 ^ p : ℕ) - bias - p) * 2 ^ p := by gcongr
      _ ≤ 2 ^ ((b / 2 ^ p : ℕ) - bias - p) * (2 ^ p + (b % 2 ^ p : ℕ)) := by
        gcongr
        exact le_add_of_nonneg_right (Nat.cast_nonneg _)

end TdxHq.PackedFloat
