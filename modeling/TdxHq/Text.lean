import Mathlib

namespace TdxHq.Text

/-- `AfxExtractSubString`: field `iSubString` between the separators, empty past the last. -/
def afxExtractSubString (fullString : List Char) (iSubString : ℕ) (chSep : Char) : List Char :=
  (fullString.splitOn chSep).getD iSubString []

theorem splitOn_lines {sep : Char} {lines : List (List Char)} (h : ∀ l ∈ lines, sep ∉ l) :
    (lines.flatMap fun l => l ++ [sep]).splitOn sep = lines ++ [[]] := by
  induction lines with
  | nil => rfl
  | cons l lines ih =>
    rw [List.flatMap_cons, List.append_assoc, List.singleton_append,
      List.splitOn_append_cons_self, List.splitOn_eq_singleton (h l (by simp)),
      ih fun l' hl' => h l' (List.mem_cons_of_mem l hl')]
    rfl

/-- `%W.Pd`: at least `precision` digits, then blanks in front up to `width` characters. -/
def formatInt (width precision : ℕ) (z : ℤ) : List Char :=
  let digits := Nat.toDigits 10 z.natAbs
  let body := (if z < 0 then ['-'] else []) ++
    List.replicate (precision - digits.length) '0' ++ digits
  List.replicate (width - body.length) ' ' ++ body

example : formatInt 4 1 987 = " 987".toList := by decide

example : formatInt 0 2 (-7) = "-07".toList := by decide

theorem formatInt_natCast (width precision n : ℕ) :
    formatInt width precision n =
      ((Nat.toDigits 10 n).leftpad precision '0').leftpad width ' ' := by
  have hsign : ¬ (n : ℤ) < 0 := not_lt.mpr (Int.natCast_nonneg n)
  simp only [formatInt, if_neg hsign, Int.natAbs_natCast, List.nil_append, List.leftpad]

theorem formatInt_plain (z : ℤ) :
    formatInt 0 1 z = (if z < 0 then ['-'] else []) ++ Nat.toDigits 10 z.natAbs := by
  have hpos : 0 < (Nat.toDigits 10 z.natAbs).length := Nat.length_toDigits_pos
  have hzeros : 1 - (Nat.toDigits 10 z.natAbs).length = 0 := by omega
  simp [formatInt, hzeros]

theorem formatInt_length_le (width precision k : ℕ) {z : ℤ} (hk : 0 < k) (hwidth : width ≤ k)
    (hprecision : precision ≤ k) (hz : z.natAbs < 10 ^ k) :
    (formatInt width precision z).length ≤ k + if z < 0 then 1 else 0 := by
  have hdigits : (Nat.toDigits 10 z.natAbs).length ≤ k :=
    (Nat.length_toDigits_le_iff (by decide) hk).mpr hz
  simp only [formatInt, List.length_append, List.length_replicate]
  split_ifs <;> simp only [List.length_singleton, List.length_nil] <;> omega

theorem mem_formatInt {width precision : ℕ} {z : ℤ} {c : Char}
    (h : c ∈ formatInt width precision z) : c = ' ' ∨ c = '-' ∨ c.isDigit := by
  simp only [formatInt, List.mem_append, List.mem_replicate] at h
  rcases h with ⟨-, rfl⟩ | (h | ⟨-, rfl⟩) | h
  · exact Or.inl rfl
  · right; left
    split_ifs at h
    · exact List.mem_singleton.mp h
    · simp at h
  · exact Or.inr (Or.inr rfl)
  · exact Or.inr (Or.inr (Nat.isDigit_of_mem_toDigits (by decide) (by decide) h))

/-- The buffer holds `text` and the terminator `nul` behind it. -/
def EndsAt {τ : Type} (nul : τ) (buf text : List τ) : Prop :=
  nul ∉ text ∧ ∃ rest, buf = text ++ nul :: rest

/-- A text that is copied into a buffer without its terminator ends where there was one. -/
theorem endsAt_copy_iff {τ : Type} {nul : τ} {text : List τ} (htext : nul ∉ text)
    (old : List τ) :
    EndsAt nul (text ++ old.drop text.length) text ↔ old[text.length]? = some nul := by
  rw [← List.head?_drop, List.head?_eq_some_iff]
  simp only [EndsAt, htext, not_false_eq_true, true_and, List.append_cancel_left_eq]

def NUL : Char := Char.ofNat 0

def IsCStr (buf text : List Char) : Prop := NUL ∉ text ∧ ∃ rest, buf = text ++ NUL :: rest

/-- The C string at the beginning of a buffer, unless that is read to its end in vain. -/
def cStr (buf : List Char) : Option (List Char) :=
  if NUL ∈ buf then some (buf.takeWhile (· ≠ NUL)) else none

theorem cStr_of_isCStr {buf text : List Char} (h : IsCStr buf text) : cStr buf = some text := by
  obtain ⟨htext, rest, rfl⟩ := h
  have hall : ∀ c ∈ text, decide (c ≠ NUL) = true := by
    intro c hc
    exact decide_eq_true (ne_of_mem_of_not_mem hc htext)
  rw [cStr, if_pos (by simp), List.takeWhile_append_of_pos hall]
  simp

theorem isCStr_copy_iff {text : List Char} (htext : NUL ∉ text) (old : List Char) :
    IsCStr (text ++ old.drop text.length) text ↔ old[text.length]? = some NUL :=
  endsAt_copy_iff htext old

end TdxHq.Text
