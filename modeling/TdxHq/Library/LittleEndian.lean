import Mathlib

namespace TdxHq

abbrev Byte := Fin 256

instance neZeroByte : NeZero 256 := ⟨by decide⟩

namespace LittleEndian

/-- The `w` bytes of `n`, least significant first; what does not fit is dropped. -/
def toBytes : ℕ → ℕ → List Byte
  | 0, _ => []
  | w + 1, n => ⟨n % 256, Nat.mod_lt n (by decide)⟩ :: toBytes w (n / 256)

/-- The number a byte string stands for, least significant byte first. -/
def value : List Byte → ℕ
  | [] => 0
  | b :: bs => b.val + 256 * value bs

@[simp] theorem toBytes_length (w n : ℕ) : (toBytes w n).length = w := by
  induction w generalizing n with
  | zero => rfl
  | succ w ih => simp [toBytes, ih]

theorem value_lt (bs : List Byte) : value bs < 256 ^ bs.length := by
  induction bs with
  | nil => simp [value]
  | cons b bs ih =>
    have hb := b.isLt
    simp only [value, List.length_cons, pow_succ]
    omega

theorem value_toBytes_mod (w n : ℕ) : value (toBytes w n) = n % 256 ^ w := by
  induction w generalizing n with
  | zero => simp [toBytes, value, Nat.mod_one]
  | succ w ih =>
    simp only [toBytes, value, ih]
    rw [pow_succ', Nat.mod_mul]

theorem value_toBytes {w n : ℕ} (h : n < 256 ^ w) : value (toBytes w n) = n := by
  rw [value_toBytes_mod, Nat.mod_eq_of_lt h]

theorem toBytes_value (bs : List Byte) : toBytes bs.length (value bs) = bs := by
  induction bs with
  | nil => rfl
  | cons b bs ih =>
    have hb := b.isLt
    have hm : (b.val + 256 * value bs) % 256 = b.val := by omega
    have hd : (b.val + 256 * value bs) / 256 = value bs := by omega
    simp only [List.length_cons, value, toBytes, hm, hd, ih]

theorem toBytes_injective {w m n : ℕ} (hm : m < 256 ^ w) (hn : n < 256 ^ w)
    (h : toBytes w m = toBytes w n) : m = n := by
  have hv := congrArg value h
  rwa [value_toBytes hm, value_toBytes hn] at hv

end LittleEndian

end TdxHq
