import TdxHq.Bars

namespace TdxHq.Bars

open Price Volume

/-- The next `n` bars, after one that closed at `iPreClose`. -/
def readBars (Category : ℕ) (UzipedData : List Byte) : ℕ → ℤ → ParseM (List Bar)
  | 0, _ => pure []
  | n + 1, iPreClose => do
    let bar ← readBar Category UzipedData iPreClose
    let bars ← readBars Category UzipedData n bar.iPriceClose
    return bar :: bars

def readTable (Category : ℕ) (UzipedData : List Byte) : ParseM (List Bar) := do
  let resCount ← next UzipedData 2
  readBars Category UzipedData resCount 0

/-- The text of bars as they were read. -/
def tableText {D : Type} (ops : DoubleOps D) (bars : List Bar) : List Char :=
  heading ++ bars.flatMap (csLine ops)

theorem readBars_length {Category : ℕ} {UzipedData : List Byte} {n : ℕ} {iPreClose : ℤ}
    {c c' : Cursor} {bars : List Bar}
    (h : readBars Category UzipedData n iPreClose c = .ok bars c') : bars.length = n := by
  induction n generalizing iPreClose c c' bars with
  | zero =>
    obtain ⟨rfl, -⟩ := Reader.pure_eq_ok.mp h
    rfl
  | succ n ih =>
    obtain ⟨bar, c₁, -, hrest⟩ := Reader.bind_eq_ok.mp h
    obtain ⟨bars', c₂, hbars, hpure⟩ := Reader.bind_eq_ok.mp hrest
    obtain ⟨rfl, -⟩ := Reader.pure_eq_ok.mp hpure
    rw [List.length_cons, ih hbars]

theorem iterate_barRound {D : Type} (ops : DoubleOps D) (Category : ℕ) (UzipedData : List Byte)
    (n : ℕ) (t : Table) :
    Reader.iterate (barRound ops Category UzipedData) n t =
      readBars Category UzipedData n t.iPreClose >>= fun bars =>
        pure ⟨bars.foldl (fun _ bar => bar.iPriceClose) t.iPreClose,
          t.csResult ++ bars.flatMap (csLine ops)⟩ := by
  induction n generalizing t with
  | zero => simp [Reader.iterate, readBars]
  | succ n ih =>
    simp only [Reader.iterate, readBars, barRound, bind_assoc, pure_bind, ih]
    congr 1
    funext bar
    congr 1
    funext bars
    simp

/-- What the parser returns is the number of bars and their text. -/
theorem parseBody_eq_ok {D : Type} {ops : DoubleOps D} {Category : ℕ} {UzipedData : List Byte}
    {n : ℕ} {text : List Char} {c : Cursor}
    (h : parseBody ops Category UzipedData atStart = .ok (n, text) c) :
    ∃ bars, readTable Category UzipedData atStart = .ok bars c ∧ bars.length = n ∧
      text = tableText ops bars := by
  obtain ⟨resCount, c₁, hcount, hrest⟩ := Reader.bind_eq_ok.mp h
  obtain ⟨t, c₂, hloop, hpure⟩ := Reader.bind_eq_ok.mp hrest
  rw [iterate_barRound] at hloop
  obtain ⟨bars, c₃, hbars, ht⟩ := Reader.bind_eq_ok.mp hloop
  obtain ⟨rfl, rfl⟩ := Reader.pure_eq_ok.mp ht
  obtain ⟨hres, rfl⟩ := Reader.pure_eq_ok.mp hpure
  obtain ⟨rfl, rfl⟩ := Prod.mk.inj hres
  refine ⟨bars, ?_, readBars_length hbars, rfl⟩
  rw [readTable, Reader.bind_of_ok hcount, hbars]

section Row

variable {D : Type} (ops : DoubleOps D)

def row (bar : Bar) : List Char := (csLine ops bar).dropLast

theorem csLine_eq_row (bar : Bar) : csLine ops bar = row ops bar ++ ['\n'] := by
  unfold row csLine
  rw [List.dropLast_concat]

theorem row_eq_columns (bar : Bar) : row ops bar = [','].intercalate (columns ops bar) := by
  unfold row
  rw [csLine_eq_columns, List.dropLast_concat]

theorem row_ne_nil (bar : Bar) : row ops bar ≠ [] := by
  unfold row csLine
  rw [List.dropLast_concat]
  simp

/-- The characters of a row: those of its numbers and five marks between them. -/
def RowChar (c : Char) : Prop :=
  c ∈ ['"', '-', ' ', ':', ','] ∨ c.isDigit ∨ ∃ x, c ∈ ops.format3 x

theorem rowChar_of_mem_row (bar : Bar) : ∀ c ∈ row ops bar, RowChar ops c := by
  have hint : ∀ (width precision : ℕ) (z : ℤ), ∀ c ∈ Text.formatInt width precision z,
      RowChar ops c := by
    intro width precision z c hc
    rcases Text.mem_formatInt hc with rfl | rfl | hdigit
    · exact Or.inl (by simp)
    · exact Or.inl (by simp)
    · exact Or.inr (Or.inl hdigit)
  have hreal : ∀ x : D, ∀ c ∈ ops.format3 x, RowChar ops c :=
    fun x c hc => Or.inr (Or.inr ⟨x, hc⟩)
  have hmark : ∀ marks ⊆ ['"', '-', ' ', ':', ','], ∀ c ∈ marks, RowChar ops c :=
    fun marks hsub c hc => Or.inl (hsub hc)
  unfold row csLine
  rw [List.dropLast_concat]
  simp only [List.forall_mem_append]
  and_intros
  all_goals first
    | exact hint _ _ _
    | exact hreal _
    | exact hmark _ (by simp)

variable {ops}

theorem notMem_row {sep : Char} (hmark : sep ∉ ['"', '-', ' ', ':', ','])
    (hdigit : ¬ sep.isDigit) (hformat : ∀ x, sep ∉ ops.format3 x) (bar : Bar) :
    sep ∉ row ops bar := by
  intro h
  rcases rowChar_of_mem_row ops bar sep h with hm | hd | ⟨x, hx⟩
  · exact hmark hm
  · exact hdigit hd
  · exact hformat x hx

end Row

theorem wrap32_isInt (z : ℤ) : IsInt (wrap32 z) := by
  have hlo := Int.le_bmod (x := z) (m := 2 ^ 32) (by decide)
  have hhi := Int.bmod_lt (x := z) (m := 2 ^ 32) (by decide)
  constructor
  · simpa [wrap32] using hlo
  · simpa [wrap32] using hhi

theorem tailFold_isInt {data : ℤ} (hdata : IsInt data) (posByte : ℕ) (bs : List Byte) :
    IsInt (tailFold data posByte bs) := by
  induction bs generalizing data posByte with
  | nil => exact hdata
  | cons b bs ih => exact ih (wrap32_isInt _) _

theorem priceOf_isInt (bs : List Byte) : IsInt (priceOf bs) := by
  cases bs with
  | nil => decide
  | cons b bs =>
    have hlow : IsInt (b.val % 64 : ℕ) := ⟨by omega, by omega⟩
    rw [priceOf]
    split_ifs
    · exact wrap32_isInt _
    · exact tailFold_isInt hlow 6 bs

theorem getPrice_isInt {pData : List Byte} {c c' : Cursor} {v : ℤ}
    (h : getPrice pData c = .ok v c') : IsInt v := by
  obtain ⟨bs, -, -, -, rfl, -⟩ := getPrice_eq_ok h
  exact priceOf_isInt bs

theorem next_lt {pData : List Byte} {c c' : Cursor} {w n : ℕ} (hpos : 0 < w)
    (h : next pData w c = .ok n c') : n < 256 ^ w := by
  obtain ⟨hlen, rfl, -⟩ := next_eq_ok hpos h
  have hlt := LittleEndian.value_lt ((pData.drop c.pos).take w)
  rwa [List.length_take_of_le hlen] at hlt

structure Ranged (bar : Bar) : Prop where
  year : bar.year < 10 ^ 6
  month : bar.month < 10 ^ 2
  day : bar.day < 10 ^ 2
  hour : bar.hour < 10 ^ 4
  minute : bar.minute < 10 ^ 2
  iPriceOpen : IsInt bar.iPriceOpen
  iPriceClose : IsInt bar.iPriceClose
  iPriceHight : IsInt bar.iPriceHight
  iPriceLow : IsInt bar.iPriceLow
  Volume : IsInt bar.Volume
  iTurnOver : bar.iTurnOver < 2 ^ 32

/-- The packed date can have a year of six digits, the packed time an hour of four. -/
theorem readDate_ranged {Category : ℕ} {UzipedData : List Byte} {c c' : Cursor}
    {year month day hour minute : ℕ}
    (h : readDate Category UzipedData c = .ok (year, month, day, hour, minute) c') :
    year < 10 ^ 6 ∧ month < 10 ^ 2 ∧ day < 10 ^ 2 ∧ hour < 10 ^ 4 ∧ minute < 10 ^ 2 := by
  unfold readDate at h
  split_ifs at h
  · obtain ⟨zipday, c₁, hday, hrest⟩ := Reader.bind_eq_ok.mp h
    obtain ⟨tminutes, c₂, hminutes, hpure⟩ := Reader.bind_eq_ok.mp hrest
    obtain ⟨heq, -⟩ := Reader.pure_eq_ok.mp hpure
    have hd := next_lt Nat.two_pos hday
    have hm := next_lt Nat.two_pos hminutes
    simp only [Prod.mk.injEq, Nat.shiftRight_eq_div_pow] at heq
    omega
  · obtain ⟨zipday, c₁, hday, hpure⟩ := Reader.bind_eq_ok.mp h
    obtain ⟨heq, -⟩ := Reader.pure_eq_ok.mp hpure
    have hd := next_lt (by decide) hday
    simp only [Prod.mk.injEq] at heq
    omega

theorem readBar_ranged {Category : ℕ} {UzipedData : List Byte} {iPreClose : ℤ} {c c' : Cursor}
    {bar : Bar} (h : readBar Category UzipedData iPreClose c = .ok bar c') : Ranged bar := by
  obtain ⟨⟨year, month, day, hour, minute⟩, c₀, hdate, h⟩ := Reader.bind_eq_ok.mp h
  obtain ⟨openStep, c₁, -, h⟩ := Reader.bind_eq_ok.mp h
  obtain ⟨closeStep, c₂, -, h⟩ := Reader.bind_eq_ok.mp h
  obtain ⟨hightStep, c₃, -, h⟩ := Reader.bind_eq_ok.mp h
  obtain ⟨lowStep, c₄, -, h⟩ := Reader.bind_eq_ok.mp h
  obtain ⟨volume, c₅, hvolume, h⟩ := Reader.bind_eq_ok.mp h
  obtain ⟨iTurnOver, c₆, hturn, h⟩ := Reader.bind_eq_ok.mp h
  obtain ⟨rfl, -⟩ := Reader.pure_eq_ok.mp h
  obtain ⟨hyear, hmonth, hday, hhour, hminute⟩ := readDate_ranged hdate
  have hvol : IsInt (if volume = 0 then 1 else volume) := by
    split_ifs
    · decide
    · exact getPrice_isInt hvolume
  exact ⟨hyear, hmonth, hday, hhour, hminute, wrap32_isInt _, wrap32_isInt _, wrap32_isInt _,
    wrap32_isInt _, hvol, next_lt (by decide) hturn⟩

theorem readBars_ranged {Category : ℕ} {UzipedData : List Byte} {n : ℕ} {iPreClose : ℤ}
    {c c' : Cursor} {bars : List Bar}
    (h : readBars Category UzipedData n iPreClose c = .ok bars c') :
    ∀ bar ∈ bars, Ranged bar := by
  induction n generalizing iPreClose c c' bars with
  | zero =>
    obtain ⟨rfl, -⟩ := Reader.pure_eq_ok.mp h
    simp
  | succ n ih =>
    obtain ⟨bar, c₁, hbar, hrest⟩ := Reader.bind_eq_ok.mp h
    obtain ⟨bars', c₂, hbars, hpure⟩ := Reader.bind_eq_ok.mp hrest
    obtain ⟨rfl, -⟩ := Reader.pure_eq_ok.mp hpure
    intro b hb
    rcases List.mem_cons.mp hb with rfl | hb
    · exact readBar_ranged hbar
    · exact ih hbars b hb

theorem readTable_ranged {Category : ℕ} {UzipedData : List Byte} {c c' : Cursor}
    {bars : List Bar} (h : readTable Category UzipedData c = .ok bars c') :
    ∀ bar ∈ bars, Ranged bar := by
  obtain ⟨resCount, c₁, -, hbars⟩ := Reader.bind_eq_ok.mp h
  exact readBars_ranged hbars

def formatMilli (n : ℤ) : List Char :=
  (if n < 0 then ['-'] else []) ++ Text.formatInt 0 1 (n.natAbs / 1000 : ℕ) ++ ['.'] ++
    Text.formatInt 0 3 (n.natAbs % 1000 : ℕ)

/-- How `%.3f` prints the numbers of the table: a price is exact, and a `float` that is not
negative is below `10 ^ 39`, or infinite. -/
structure Prints {D : Type} (ops : DoubleOps D) : Prop where
  price : ∀ n, IsInt n → ops.format3 (thousandth ops n) = formatMilli n
  amount : ∀ w < 2 ^ 32, ¬ ops.lt (getVolume ops w) (ops.lit (1 / 10000000)) →
    (ops.format3 (getVolume ops w)).length ≤ 43

theorem formatNat_length_le (width precision k : ℕ) {n : ℕ} (hk : 0 < k) (hwidth : width ≤ k)
    (hprecision : precision ≤ k) (hn : n < 10 ^ k) :
    (Text.formatInt width precision n).length ≤ k := by
  have h := Text.formatInt_length_le width precision k hk hwidth hprecision (z := n)
    (by simpa using hn)
  rwa [if_neg (by omega), Nat.add_zero] at h

theorem formatMilli_length_le {n : ℤ} (hn : IsInt n) : (formatMilli n).length ≤ 12 := by
  have hsign : (if n < 0 then ['-'] else []).length ≤ 1 := by split_ifs <;> simp
  have hn' : n.natAbs ≤ 2 ^ 31 := by
    have hlo := hn.1
    have hhi := hn.2
    omega
  have hwhole := formatNat_length_le 0 1 7 (n := n.natAbs / 1000)
    (by decide) (by decide) (by decide) (by omega)
  have hplaces := formatNat_length_le 0 3 3
    (n := n.natAbs % 1000) (by decide) (by decide) (by decide) (by omega)
  simp only [formatMilli, List.length_append, List.length_singleton]
  omega

section Width

variable {D : Type} {ops : DoubleOps D} (hops : Prints ops)
include hops

theorem price_length_le {n : ℤ} (hn : IsInt n) :
    (ops.format3 (thousandth ops n)).length ≤ 12 := by
  rw [hops.price n hn]
  exact formatMilli_length_le hn

theorem dbvol_length_le {bar : Bar} (hbar : Ranged bar) :
    (ops.format3 (dbvol ops bar)).length ≤ 43 := by
  simp only [dbvol]
  split_ifs with hlt
  · have h := price_length_le hops hbar.iPriceClose
    omega
  · exact hops.amount bar.iTurnOver hbar.iTurnOver hlt

theorem csLine_length_le {bar : Bar} (hbar : Ranged bar) : (csLine ops bar).length ≤ 134 := by
  -- six digits for the year, four for the hour, two for the rest
  have hyear := formatNat_length_le 4 1 6
    (by decide) (by decide) (by decide) hbar.year
  have hmonth := formatNat_length_le 0 2 2
    (by decide) (by decide) (by decide) hbar.month
  have hday := formatNat_length_le 0 2 2
    (by decide) (by decide) (by decide) hbar.day
  have hhour := formatNat_length_le 0 2 4
    (by decide) (by decide) (by decide) hbar.hour
  have hminute := formatNat_length_le 0 2 2
    (by decide) (by decide) (by decide) hbar.minute
  have hsecond := formatNat_length_le 0 2 2 (n := 0)
    (by decide) (by decide) (by decide) (by decide)
  have hopen := price_length_le hops hbar.iPriceOpen
  have hclose := price_length_le hops hbar.iPriceClose
  have hhight := price_length_le hops hbar.iPriceHight
  have hlow := price_length_le hops hbar.iPriceLow
  have hvolume : (Text.formatInt 0 1 bar.Volume).length ≤ 11 := by
    have hlo := hbar.Volume.1
    have hhi := hbar.Volume.2
    have h := Text.formatInt_length_le 0 1 10 (z := bar.Volume)
      (by decide) (by decide) (by decide) (by omega)
    split_ifs at h <;> omega
  have hamount := dbvol_length_le hops hbar
  unfold csLine
  simp only [List.length_append, List.length_cons, List.length_nil]
  rw [Nat.cast_zero] at hsecond
  omega

/-- The text of a response with at most 800 bars fits into the caller's buffer, with room for
the terminator. -/
theorem table_fits {Category n : ℕ} {UzipedData : List Byte} {text : List Char} {c : Cursor}
    (hparse : parseBody ops Category UzipedData atStart = .ok (n, text) c) (hn : n ≤ 800) :
    text.length ≤ 256 * 800 - 1 := by
  obtain ⟨bars, hbars, hlen, rfl⟩ := parseBody_eq_ok hparse
  have hheading : heading.length = 44 := by decide
  have hrows : (bars.flatMap (csLine ops)).length ≤ 134 * bars.length := by
    have hwidth : ∀ k ∈ bars.map fun bar => (csLine ops bar).length, k ≤ 134 := by
      intro k hk
      obtain ⟨bar, hbar, rfl⟩ := List.mem_map.mp hk
      exact csLine_length_le hops (readTable_ranged hbars bar hbar)
    have hsum := List.sum_le_card_nsmul _ 134 hwidth
    rwa [List.length_map, smul_eq_mul, Nat.mul_comm, ← List.length_flatMap] at hsum
  rw [tableText, List.length_append]
  omega

end Width

/-- Exact arithmetic, with the largest `float` as the limit of what is returned. -/
def single : DoubleOps ℚ := { exact with toFloat := fun x => min x (2 ^ 128 - 2 ^ 104) }

theorem single_price (n : ℤ) : single.format3 (thousandth single n) = formatMilli n := by
  have hmilli : ⌊|(n : ℚ) / 1000| * 1000 + 1 / 2⌋.toNat = n.natAbs := by
    have habs : |(n : ℚ) / 1000| * 1000 = (n.natAbs : ℤ) := by
      rw [abs_div, abs_of_pos (show (0 : ℚ) < 1000 by norm_num), div_mul_cancel₀ _ (by norm_num),
        Int.natCast_natAbs, Int.cast_abs]
    rw [habs, Int.floor_intCast_add, show ⌊(1 / 2 : ℚ)⌋ = 0 by norm_num, add_zero,
      Int.toNat_natCast]
  have hsign : (n : ℚ) / 1000 < 0 ↔ n < 0 := by
    rw [div_lt_iff₀ (by norm_num), zero_mul, Int.cast_lt_zero]
  change formatExact ((n : ℚ) / 1000) = _
  simp only [formatExact, hmilli, hsign, formatMilli]

theorem single_amount {q : ℚ} (hpos : 0 ≤ q) (hq : q ≤ 2 ^ 128) :
    (formatExact q).length ≤ 43 := by
  have hfloor : ⌊|q| * 1000 + 1 / 2⌋ < 10 ^ 42 := by
    rw [Int.floor_lt, abs_of_nonneg hpos]
    push_cast
    linarith
  have hmilli : ⌊|q| * 1000 + 1 / 2⌋.toNat < 10 ^ 42 := by omega
  simp only [formatExact, if_neg (not_lt.mpr hpos)]
  generalize ⌊|q| * 1000 + 1 / 2⌋.toNat = milli at hmilli
  have hwhole := formatNat_length_le 0 1 39 (n := milli / 1000)
    (by decide) (by decide) (by decide) (by omega)
  have hplaces := formatNat_length_le 0 3 3 (n := milli % 1000)
    (by decide) (by decide) (by decide) (by omega)
  simp only [List.length_append, List.length_singleton, List.length_nil]
  omega

theorem single_prints : Prints single where
  price n _ := single_price n
  amount := by
    intro w _ hlt
    have hge : ¬ getVolume single w < 1 / 10000000 := by simpa [single, exact] using hlt
    apply single_amount
    · linarith
    · exact (min_le_right _ _).trans (by norm_num)

def wideBars : List Bar :=
  [⟨429496, 72, 95, 15, 0, -2147483647, -2147483647, 0, -2147483647, -2147483647, 0x7F7FFFFF⟩,
    ⟨2015, 1, 5, 15, 0, -1000000, 16020, 16280, -15600, 2860436, 0x4D7CC397⟩,
    ⟨2015, 1, 6, 15, 0, 15850, 15780, 16390, 15550, 0, 0⟩]

theorem table_fits_sample :
    ∃ text c, parseBody single 9 (encodeBody 9 wideBars) atStart = .ok (3, text) c ∧
      text = sheet single 9 wideBars ∧ text.length ≤ 256 * 800 - 1 := by
  obtain ⟨c, hparse⟩ := @parseBody_encodeBody ℚ single 9 wideBars (by decide) (by decide)
  exact ⟨_, c, hparse, rows_eq_sheet single 9 wideBars,
    table_fits single_prints hparse (by decide)⟩

end TdxHq.Bars
