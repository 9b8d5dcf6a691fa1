import TdxHq.Library.LittleEndian

namespace TdxHq.Ascii

def ofChar (c : Char) : Byte := Fin.ofNat 256 c.toNat

def text (s : String) : List Byte := s.toList.map ofChar

def isDigit (b : Byte) : Bool := 48 ≤ b.val && b.val ≤ 57

def value (bs : List Byte) : ℕ := bs.foldl (fun n b => 10 * n + (b.val - 48)) 0

def ofNat (n : ℕ) : List Byte := (Nat.toDigits 10 n).map ofChar

def ofInt (z : ℤ) : List Byte := if z < 0 then 45 :: ofNat z.natAbs else ofNat z.natAbs

def toNat? (bs : List Byte) : Option ℕ :=
  if !bs.isEmpty && bs.all isDigit then some (value bs) else none

/-- A number with an optional sign. -/
def toInt? : List Byte → Option ℤ
  | 45 :: bs => (toNat? bs).map fun n : ℕ => -(n : ℤ)
  | 43 :: bs => (toNat? bs).map fun n : ℕ => (n : ℤ)
  | bs => (toNat? bs).map fun n : ℕ => (n : ℤ)

theorem val_ofChar {c : Char} (h : c.isDigit) :
    (ofChar c).val = c.toNat ∧ 48 ≤ c.toNat ∧ c.toNat ≤ 57 := by
  have hrange : 48 ≤ c.toNat ∧ c.toNat ≤ 57 := Char.isDigit_iff_toNat.mp h
  refine ⟨?_, hrange⟩
  simp only [ofChar, Fin.ofNat]
  omega

theorem isDigit_ofNat {n : ℕ} {b : Byte} (h : b ∈ ofNat n) : isDigit b := by
  obtain ⟨c, hc, rfl⟩ := List.mem_map.mp h
  obtain ⟨hval, hlo, hhi⟩ := val_ofChar (Nat.isDigit_of_mem_toDigits (by decide) (by decide) hc)
  simp [isDigit, hval, hlo, hhi]

theorem ofNat_ne_nil (n : ℕ) : ofNat n ≠ [] := by
  rw [ofNat, ne_eq, List.map_eq_nil_iff]
  exact Nat.toDigits_ne_nil

theorem foldl_ofChar (cs : List Char) (h : ∀ c ∈ cs, c.isDigit) (n : ℕ) :
    (cs.map ofChar).foldl (fun n b => 10 * n + (b.val - 48)) n = Nat.ofDigitChars 10 cs n := by
  induction cs generalizing n with
  | nil => simp
  | cons c cs ih =>
    have hc := (val_ofChar (h c (by simp))).1
    rw [List.map_cons, List.foldl_cons, ih (fun d hd => h d (by simp [hd])),
      Nat.ofDigitChars_cons, hc]
    rfl

theorem value_ofNat (n : ℕ) : value (ofNat n) = n := by
  rw [value, ofNat, foldl_ofChar _ fun c hc =>
    Nat.isDigit_of_mem_toDigits (by decide) (by decide) hc]
  exact Nat.ofDigitChars_ten_toDigits

theorem toNat?_ofNat (n : ℕ) : toNat? (ofNat n) = some n := by
  have hne : (ofNat n).isEmpty = false := List.isEmpty_eq_false_iff.mpr (ofNat_ne_nil n)
  have hall : (ofNat n).all isDigit = true := List.all_eq_true.mpr fun b hb => isDigit_ofNat hb
  rw [toNat?, hne, hall, value_ofNat]
  rfl

theorem toInt?_ofNat (n : ℕ) : toInt? (ofNat n) = some (n : ℤ) := by
  have hdigits : ∀ b ∈ ofNat n, isDigit b := fun b hb => isDigit_ofNat hb
  have hread := toNat?_ofNat n
  cases hn : ofNat n with
  | nil => exact absurd hn (ofNat_ne_nil n)
  | cons b bs =>
    rw [hn] at hdigits hread
    have hb : isDigit b := hdigits b (by simp)
    unfold toInt?
    split
    · next heq =>
      rw [(List.cons.inj heq).1] at hb
      exact absurd hb (by decide)
    · next heq =>
      rw [(List.cons.inj heq).1] at hb
      exact absurd hb (by decide)
    · rw [hread]
      rfl

theorem toInt?_ofInt (z : ℤ) : toInt? (ofInt z) = some z := by
  unfold ofInt
  split_ifs with hz
  · rw [toInt?, toNat?_ofNat, Option.map_some]
    congr 1
    omega
  · rw [toInt?_ofNat]
    congr 1
    omega

theorem mem_ofInt {z : ℤ} {b : Byte} (h : b ∈ ofInt z) : b = 45 ∨ isDigit b := by
  unfold ofInt at h
  split_ifs at h
  · rcases List.mem_cons.mp h with rfl | h
    · exact Or.inl rfl
    · exact Or.inr (isDigit_ofNat h)
  · exact Or.inr (isDigit_ofNat h)

example : toInt? (text "-17") = some (-17) := by decide +kernel

end TdxHq.Ascii
