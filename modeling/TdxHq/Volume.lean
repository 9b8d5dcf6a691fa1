import TdxHq.Text
import TdxHq.Price
import TdxHq.Library.PackedFloat

namespace TdxHq.Volume

/-- The `double` operations of the program and of the runtime library. -/
structure DoubleOps (D : Type) where
  lit : ℚ → D
  ofInt : ℤ → D
  add : D → D → D
  mul : D → D → D
  div : D → D → D
  pow : D → ℤ → D
  lt : D → D → Bool
  /-- A `float` that is returned where a `double` is wanted. -/
  toFloat : D → D
  format3 : D → List Char

variable {D : Type} (ops : DoubleOps D)

def dblXmm6 (dwEcx : ℤ) : D :=
  let tmpEax := if dwEcx < 0 then -dwEcx else dwEcx
  let power := ops.pow (ops.lit 2) tmpEax
  if dwEcx < 0 then ops.div (ops.lit 1) power else power

def dblXmm4 (dwEdx : ℤ) (hleax : ℕ) : D :=
  if 0x80 < hleax then
    let tmpdblXmm3 := ops.pow (ops.lit 2) (dwEdx + 1)
    let dblXmm0 := ops.mul (ops.pow (ops.lit 2) dwEdx) (ops.lit 128)
    ops.add dblXmm0 (ops.mul (ops.ofInt (hleax &&& 0x7f : ℕ)) tmpdblXmm3)
  else if 0 ≤ dwEdx then ops.mul (ops.pow (ops.lit 2) dwEdx) (ops.ofInt hleax)
  else ops.mul (ops.div (ops.ofInt 1) (ops.pow (ops.lit 2) dwEdx)) (ops.ofInt hleax)

/-- `dbl_xmm3` and `dbl_xmm1`: one of the two low bytes, doubled with the exponent's low bit. -/
def dblLow (exponent : ℤ) (hleax byte : ℕ) : D :=
  let part := ops.mul (ops.pow (ops.lit 2) exponent) (ops.ofInt byte)
  if hleax &&& 0x80 ≠ 0 then ops.mul part (ops.lit 2) else part

def dblRet (ivol : ℕ) : D :=
  -- `char` is signed
  let logpoint : ℤ := ((ivol >>> (8 * 3) : ℕ) : ℤ).bmod 256
  let hleax := (ivol >>> (8 * 2)) &&& 0xff
  let lheax := (ivol >>> 8) &&& 0xff
  let lleax := ivol &&& 0xff
  let dwEcx := logpoint * 2 - 0x7f
  let dwEdx := logpoint * 2 - 0x86
  let dwEsi := logpoint * 2 - 0x8e
  let dwEax := logpoint * 2 - 0x96
  ops.add
    (ops.add (ops.add (dblXmm6 ops dwEcx) (dblXmm4 ops dwEdx hleax)) (dblLow ops dwEsi hleax lheax))
    (dblLow ops dwEax hleax lleax)

def getVolume (ivol : ℕ) : D := ops.toFloat (dblRet ops ivol)

def formatExact (q : ℚ) : List Char :=
  let milli := ⌊|q| * 1000 + 1 / 2⌋.toNat
  (if q < 0 then ['-'] else []) ++ Text.formatInt 0 1 (milli / 1000 : ℕ) ++ ['.'] ++
    Text.formatInt 0 3 (milli % 1000 : ℕ)

theorem notMem_formatExact {c : Char} (hmark : c ∉ [' ', '-', '.']) (hdigit : ¬ c.isDigit)
    (q : ℚ) : c ∉ formatExact q := by
  have hint : ∀ (width precision : ℕ) (z : ℤ), c ∉ Text.formatInt width precision z := by
    intro width precision z hc
    rcases Text.mem_formatInt hc with rfl | rfl | hd
    · exact hmark (by simp)
    · exact hmark (by simp)
    · exact hdigit hd
  have hsign : c ∉ (if q < 0 then ['-'] else []) := by
    intro hc
    split_ifs at hc
    · exact hmark (by simp_all)
    · simp at hc
  have hpoint : c ∉ ['.'] := fun hc => hmark (by simp_all)
  simp only [formatExact, List.mem_append, not_or]
  exact ⟨⟨⟨hsign, hint _ _ _⟩, hpoint⟩, hint _ _ _⟩

/-- The operations without rounding. -/
def exact : DoubleOps ℚ where
  lit q := q
  ofInt z := z
  add x y := x + y
  mul x y := x * y
  div x y := x / y
  pow x k := x ^ k
  lt x y := decide (x < y)
  toFloat x := x
  format3 := formatExact

/-- The branch that multiplies by `1/pow( 2.0 ,dwEdx )` is not taken with a byte other than 0:
`dwEdx` is negative there already, and is not made positive first as `dwEcx` is. -/
def Straight (ivol : ℕ) : Prop :=
  67 ≤ ivol / 2 ^ 24 ∨ ivol / 2 ^ 16 % 256 = 0 ∨ 0x80 < ivol / 2 ^ 16 % 256

/-- The high mantissa byte in units of `2 ^ dwEdx`: with the low bit of the exponent set, that
bit is worth a second leading one and the others count twice. -/
def spread (hleax : ℕ) : ℕ := if 128 ≤ hleax then 128 + 2 * (hleax % 128) else hleax

/-- The weight that the low bit of the exponent gives to the low bytes. -/
def weight (hleax : ℕ) : ℕ := if 128 ≤ hleax then 2 else 1

theorem dblXmm6_exact (x : ℤ) : dblXmm6 exact x = 2 ^ x := by
  by_cases hx : x < 0
  · simp [dblXmm6, exact, hx, zpow_neg]
  · simp [dblXmm6, exact, hx]

theorem dblLow_exact {hleax : ℕ} (hh : hleax < 256) (x : ℤ) (byte : ℕ) :
    dblLow exact x hleax byte = 2 ^ x * (weight hleax * byte) := by
  have hbit : hleax &&& 0x80 ≠ 0 ↔ 128 ≤ hleax := Price.and_0x80 ⟨hleax, hh⟩
  by_cases h128 : 128 ≤ hleax
  · simp only [dblLow, exact, if_pos (hbit.mpr h128), weight, if_pos h128]
    push_cast
    ring
  · simp only [dblLow, exact, if_neg (mt hbit.mp h128), weight, if_neg h128]
    push_cast
    ring

theorem dblXmm4_exact_iff {hleax : ℕ} (hh : hleax < 256) (x : ℤ) :
    dblXmm4 exact x hleax = 2 ^ x * spread hleax ↔ 0 ≤ x ∨ hleax = 0 ∨ 0x80 < hleax := by
  by_cases h80 : 0x80 < hleax
  · simp only [dblXmm4, exact, if_pos h80, spread, if_pos h80.le, Price.and_0x7f]
    rw [zpow_add_one₀ two_ne_zero, Int.cast_natCast]
    simp only [h80, or_true, iff_true]
    push_cast
    ring
  · have hspread : spread hleax = hleax := by
      rw [spread]
      split_ifs with h128
      · omega
      · rfl
    by_cases hx : 0 ≤ x
    · simp [dblXmm4, exact, h80, hx, hspread]
    · -- `2 ^ x` and its inverse differ where `x` is not 0
      have hne : (2 : ℚ) ^ (-x) ≠ 2 ^ x := by
        intro h
        have := zpow_right_injective₀ two_pos (by norm_num) h
        omega
      have hxmm4 : dblXmm4 exact x hleax = 2 ^ (-x) * hleax := by
        simp [dblXmm4, exact, h80, hx, zpow_neg]
      rw [hxmm4, hspread, mul_eq_mul_right_iff, Nat.cast_eq_zero]
      simp only [hne, hx, h80, false_or, or_false]

theorem dblRet_exact {ivol : ℕ} (hivol : ivol < 2 ^ 31) :
    dblRet exact ivol =
      2 ^ (2 * (ivol / 2 ^ 24 : ℕ) - 127 : ℤ) +
        dblXmm4 exact (2 * (ivol / 2 ^ 24 : ℕ) - 134) (ivol / 2 ^ 16 % 256) +
        2 ^ (2 * (ivol / 2 ^ 24 : ℕ) - 142 : ℤ) *
          (weight (ivol / 2 ^ 16 % 256) * (ivol / 2 ^ 8 % 256 : ℕ)) +
        2 ^ (2 * (ivol / 2 ^ 24 : ℕ) - 150 : ℤ) *
          (weight (ivol / 2 ^ 16 % 256) * (ivol % 256 : ℕ)) := by
  have hbyte : ∀ n : ℕ, n &&& 0xff = n % 256 := fun n => Nat.and_two_pow_sub_one_eq_mod n 8
  have hlog : ((ivol / 2 ^ 24 : ℕ) : ℤ).bmod 256 = (ivol / 2 ^ 24 : ℕ) :=
    Int.bmod_eq_of_le (by omega) (by omega)
  have hh : ivol / 2 ^ 16 % 256 < 256 := Nat.mod_lt _ (by decide)
  simp only [dblRet, Nat.shiftRight_eq_div_pow, hbyte, Nat.reduceMul, hlog]
  rw [dblXmm6_exact, dblLow_exact hh, dblLow_exact hh, mul_comm _ (2 : ℤ)]
  rfl

theorem value_eq_parts (ivol : ℕ) :
    PackedFloat.value 23 127 ivol =
      2 ^ (2 * (ivol / 2 ^ 24 : ℕ) - 127 : ℤ) +
        2 ^ (2 * (ivol / 2 ^ 24 : ℕ) - 134 : ℤ) * spread (ivol / 2 ^ 16 % 256) +
        2 ^ (2 * (ivol / 2 ^ 24 : ℕ) - 142 : ℤ) *
          (weight (ivol / 2 ^ 16 % 256) * (ivol / 2 ^ 8 % 256 : ℕ)) +
        2 ^ (2 * (ivol / 2 ^ 24 : ℕ) - 150 : ℤ) *
          (weight (ivol / 2 ^ 16 % 256) * (ivol % 256 : ℕ)) := by
  have hexp : ivol / 2 ^ 23 = 2 * (ivol / 2 ^ 24) + ivol / 2 ^ 16 % 256 / 128 := by omega
  have hmant : ivol % 2 ^ 23 =
      2 ^ 16 * (ivol / 2 ^ 16 % 256 % 128) + 2 ^ 8 * (ivol / 2 ^ 8 % 256) + ivol % 256 := by omega
  have hh : ivol / 2 ^ 16 % 256 < 256 := Nat.mod_lt _ (by decide)
  rw [PackedFloat.value_eq_scaled, hmant, hexp]
  generalize ivol / 2 ^ 16 % 256 = hleax at hh ⊢
  generalize ivol / 2 ^ 24 = logpoint
  -- everything is a multiple of the last place
  have hunit : ∀ (x : ℤ) (k : ℕ), x = 2 * logpoint - 150 + k →
      (2 : ℚ) ^ x = 2 ^ (2 * (logpoint : ℤ) - 150) * 2 ^ k := by
    intro x k hx
    rw [hx, zpow_add₀ two_ne_zero, zpow_natCast]
  rw [hunit (2 * logpoint - 127) 23 (by omega), hunit (2 * logpoint - 134) 16 (by omega),
    hunit (2 * logpoint - 142) 8 (by omega)]
  by_cases h128 : 128 ≤ hleax
  · rw [hunit _ 1 (by push_cast; omega), spread, weight, if_pos h128, if_pos h128]
    push_cast
    ring
  · have hmod : hleax % 128 = hleax := Nat.mod_eq_of_lt (by omega)
    rw [hunit _ 0 (by push_cast; omega), spread, weight, if_neg h128, if_neg h128, hmod]
    push_cast
    ring

theorem dblRet_exact_iff {ivol : ℕ} (hivol : ivol < 2 ^ 31) :
    dblRet exact ivol = PackedFloat.value 23 127 ivol ↔ Straight ivol := by
  have hh : ivol / 2 ^ 16 % 256 < 256 := Nat.mod_lt _ (by decide)
  have hx : (0 : ℤ) ≤ 2 * (ivol / 2 ^ 24 : ℕ) - 134 ↔ 67 ≤ ivol / 2 ^ 24 := by omega
  rw [dblRet_exact hivol, value_eq_parts, add_left_inj, add_left_inj, add_right_inj,
    dblXmm4_exact_iff hh, hx, Straight]

/-- In exact arithmetic `GetVolume` gives the number that a word with a clear sign bit stands
for exactly where it does not take the inverse of a power that is one already; on these words
it is strictly increasing. -/
theorem getVolume_decodes_iff {ivol : ℕ} (hivol : ivol < 2 ^ 31) :
    (dblRet exact ivol = PackedFloat.value 23 127 ivol ↔ Straight ivol) ∧
    ∀ ivol', ivol' < ivol → Straight ivol' → Straight ivol →
      getVolume exact ivol' < getVolume exact ivol := by
  refine ⟨dblRet_exact_iff hivol, ?_⟩
  intro ivol' hlt hstraight' hstraight
  have hv' := (dblRet_exact_iff (hlt.trans hivol)).mpr hstraight'
  have hv := (dblRet_exact_iff hivol).mpr hstraight
  calc getVolume exact ivol' = PackedFloat.value 23 127 ivol' := hv'
    _ < PackedFloat.value 23 127 ivol := PackedFloat.value_strictMono hlt
    _ = getVolume exact ivol := hv.symm

/-- The turnover of the sample response. -/
theorem getVolume_sample : dblRet exact 0x4D7CC397 = 265042288 := by
  have hword : 0x4D7CC397 < 2 ^ 31 := by decide
  rw [(getVolume_decodes_iff hword).1.mpr (Or.inl (by decide)), PackedFloat.value]
  norm_num

/-- The word of 32.25 is read as 36, and the one of 63.75 as more than the one of 64.5. -/
theorem small_turnover_misread :
    (1 ≤ 0x42010000 / 2 ^ 23 ∧ 0x42010000 / 2 ^ 23 ≤ 254) ∧
      PackedFloat.value 23 127 0x42010000 = 32.25 ∧ dblRet exact 0x42010000 = 36 ∧
      getVolume exact 0x42810000 < getVolume exact 0x427F0000 := by
  have hvalue : PackedFloat.value 23 127 0x42010000 = 32.25 := by
    rw [PackedFloat.value]
    norm_num
  exact ⟨by decide, hvalue, by decide +kernel, by decide +kernel⟩

end TdxHq.Volume
