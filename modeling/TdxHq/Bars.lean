import TdxHq.Price
import TdxHq.Volume

namespace TdxHq.Bars

open Price Volume

structure Bar where
  year : ℕ
  month : ℕ
  day : ℕ
  hour : ℕ
  minute : ℕ
  iPriceOpen : ℤ
  iPriceClose : ℤ
  iPriceHight : ℤ
  iPriceLow : ℤ
  Volume : ℤ
  iTurnOver : ℕ
  deriving DecidableEq, Repr

/-- The categories whose bars carry a time of day. -/
def intraday (Category : ℕ) : Bool := Category < 4 || Category == 7 || Category == 8

def readDate (Category : ℕ) (UzipedData : List Byte) : ParseM (ℕ × ℕ × ℕ × ℕ × ℕ) :=
  if intraday Category then do
    let zipday ← next UzipedData 2
    let tminutes ← next UzipedData 2
    return ((zipday >>> 11) + 2004, zipday % 2048 / 100, zipday % 2048 % 100,
      tminutes / 60, tminutes % 60)
  else do
    let zipday ← next UzipedData 4
    -- daily bars are given the close of the market
    return (zipday / 10000, zipday % 10000 / 100, zipday % 100, 15, 0)

def readBar (Category : ℕ) (UzipedData : List Byte) (iPreClose : ℤ) : ParseM Bar := do
  let (year, month, day, hour, minute) ← readDate Category UzipedData
  let openStep ← getPrice UzipedData
  let iPriceOpen := wrap32 (iPreClose + openStep)
  -- all prices but the open are relative to the open of the bar
  let closeStep ← getPrice UzipedData
  let iPriceClose := wrap32 (iPriceOpen + closeStep)
  let hightStep ← getPrice UzipedData
  let iPriceHight := wrap32 (iPriceOpen + hightStep)
  let lowStep ← getPrice UzipedData
  let iPriceLow := wrap32 (iPriceOpen + lowStep)
  let volume ← getPrice UzipedData
  let iTurnOver ← next UzipedData 4
  return { year, month, day, hour, minute, iPriceOpen, iPriceClose, iPriceHight, iPriceLow,
           Volume := if volume = 0 then 1 else volume, iTurnOver }

section Rows

variable {D : Type} (ops : DoubleOps D)

def thousandth (iPrice : ℤ) : D := ops.div (ops.ofInt iPrice) (ops.lit 1000)

def dbvol (bar : Bar) : D :=
  let vol := getVolume ops bar.iTurnOver
  if ops.lt vol (ops.lit (1 / 10000000)) then thousandth ops bar.iPriceClose else vol

/-- `csLine.Format("\"%4d-%.2d-%.2d %.2d:%.2d:%.2d\",%.3f,%.3f,%.3f,%.3f,%d,%.3f\n", …)`. -/
def csLine (bar : Bar) : List Char :=
  ['"'] ++ Text.formatInt 4 1 bar.year ++ ['-'] ++ Text.formatInt 0 2 bar.month ++ ['-'] ++
    Text.formatInt 0 2 bar.day ++ [' '] ++ Text.formatInt 0 2 bar.hour ++ [':'] ++
    Text.formatInt 0 2 bar.minute ++ [':'] ++ Text.formatInt 0 2 0 ++ ['"', ','] ++
    ops.format3 (thousandth ops bar.iPriceOpen) ++ [','] ++
    ops.format3 (thousandth ops bar.iPriceClose) ++ [','] ++
    ops.format3 (thousandth ops bar.iPriceHight) ++ [','] ++
    ops.format3 (thousandth ops bar.iPriceLow) ++ [','] ++
    Text.formatInt 0 1 bar.Volume ++ [','] ++ ops.format3 (dbvol ops bar) ++ ['\n']

def heading : List Char := "datetime,open,close,hight,low,volume,amount\n".toList

structure Table where
  iPreClose : ℤ
  csResult : List Char
  deriving DecidableEq, Repr

def barRound (Category : ℕ) (UzipedData : List Byte) (t : Table) : ParseM Table := do
  let bar ← readBar Category UzipedData t.iPreClose
  return ⟨bar.iPriceClose, t.csResult ++ csLine ops bar⟩

def parseBody (Category : ℕ) (UzipedData : List Byte) : ParseM (ℕ × List Char) := do
  let resCount ← next UzipedData 2
  let t ← Reader.iterate (barRound ops Category UzipedData) resCount ⟨0, heading⟩
  return (resCount, t.csResult)

end Rows

def barFormat : Language Byte := chunk 4 * shortPrice ^ 5 * chunk 4

/-- A count and that many bars; what follows them does not matter. -/
def bodyFormat : Language Byte :=
  {body | ∃ n < 65536, ∃ bars ∈ barFormat ^ n, ∃ rest,
    body = LittleEndian.toBytes 2 n ++ bars ++ rest}

def atStart : Cursor := ⟨0, []⟩

/-- The parser comes to its end inside the body, and its shifts are within an `int`. -/
def SafelyParsed {D : Type} (ops : DoubleOps D) (Category : ℕ) (UzipedData : List Byte) : Prop :=
  ∃ res c, parseBody ops Category UzipedData atStart = .ok res c ∧ InWidth c

theorem chunk_mul (m n : ℕ) : chunk m * chunk n = chunk (m + n) := by
  ext bs
  rw [Language.mem_mul, mem_chunk]
  constructor
  · rintro ⟨xs, hx, ys, hy, rfl⟩
    rw [List.length_append, mem_chunk.mp hx, mem_chunk.mp hy]
  · intro hbs
    have htake : bs.take m ∈ chunk m := mem_chunk.mpr (List.length_take_of_le (by omega))
    have hdrop : bs.drop m ∈ chunk n := mem_chunk.mpr (by rw [List.length_drop]; omega)
    exact ⟨bs.take m, htake, bs.drop m, hdrop, List.take_append_drop m bs⟩

theorem readDate_accepts (Category : ℕ) (UzipedData : List Byte) :
    Reader.Accepts InWidth (ahead UzipedData) (readDate Category UzipedData) (chunk 4) := by
  have htwo := next_accepts UzipedData Nat.two_pos
  have hfour := next_accepts UzipedData (show 0 < 4 by decide)
  unfold readDate
  split_ifs
  · rw [show chunk 4 = chunk 2 * chunk 2 from (chunk_mul 2 2).symm]
    exact htwo.bind fun zipday => htwo.map _
  · exact hfour.map _

theorem readBar_accepts (Category : ℕ) (UzipedData : List Byte) (iPreClose : ℤ) :
    Reader.Accepts InWidth (ahead UzipedData) (readBar Category UzipedData iPreClose)
      barFormat := by
  have hprice := getPrice_accepts UzipedData
  have hfour := next_accepts UzipedData (show 0 < 4 by decide)
  have hformat : barFormat = chunk 4 * (shortPrice * (shortPrice * (shortPrice *
      (shortPrice * (shortPrice * chunk 4))))) := by
    simp only [barFormat, pow_succ, pow_zero, one_mul, mul_assoc]
  rw [hformat]
  -- the five prices are read whatever the date was
  apply (readDate_accepts Category UzipedData).bind
  rintro ⟨year, month, day, hour, minute⟩
  exact hprice.bind fun openStep => hprice.bind fun closeStep => hprice.bind fun hightStep =>
    hprice.bind fun lowStep => hprice.bind fun volume => hfour.map _

theorem barRound_accepts {D : Type} (ops : DoubleOps D) (Category : ℕ) (UzipedData : List Byte)
    (t : Table) :
    Reader.Accepts InWidth (ahead UzipedData) (barRound ops Category UzipedData t) barFormat := by
  unfold barRound
  exact (readBar_accepts Category UzipedData t.iPreClose).map fun bar =>
    (⟨bar.iPriceClose, t.csResult ++ csLine ops bar⟩ : Table)

theorem bars_accepts {D : Type} (ops : DoubleOps D) (Category : ℕ) (UzipedData : List Byte)
    (n : ℕ) (t : Table) :
    Reader.Accepts InWidth (ahead UzipedData)
      (Reader.iterate (barRound ops Category UzipedData) n t) (barFormat ^ n) :=
  Reader.Accepts.iterate (barRound_accepts ops Category UzipedData) n t

theorem mem_bodyFormat_of_safelyParsed {D : Type} {ops : DoubleOps D} {Category : ℕ}
    {UzipedData : List Byte} (h : SafelyParsed ops Category UzipedData) :
    UzipedData ∈ bodyFormat := by
  obtain ⟨res, c, hparse, hc⟩ := h
  -- the parser has read a count, then that many bars
  obtain ⟨n, c₁, hcount, hrest⟩ := Reader.bind_eq_ok.mp hparse
  obtain ⟨t, c₂, hbars, hpure⟩ := Reader.bind_eq_ok.mp hrest
  obtain ⟨-, rfl⟩ := Reader.pure_eq_ok.mp hpure
  obtain ⟨hlen, hn, rfl⟩ := next_eq_ok Nat.two_pos hcount
  obtain ⟨bars, hmem, hahead⟩ :=
    (bars_accepts ops Category UzipedData n ⟨0, heading⟩).sound hbars hc
  have htwo : (UzipedData.take 2).length = 2 := List.length_take_of_le hlen
  have hfield : LittleEndian.toBytes 2 n = UzipedData.take 2 := by
    have hinv := LittleEndian.toBytes_value (UzipedData.take 2)
    rwa [htwo, show LittleEndian.value (UzipedData.take 2) = n from hn.symm] at hinv
  have hlt : n < 65536 := by
    have hval := LittleEndian.value_lt (UzipedData.take 2)
    rwa [htwo, show LittleEndian.value (UzipedData.take 2) = n from hn.symm] at hval
  refine ⟨n, hlt, bars, hmem, ahead UzipedData c₂, ?_⟩
  calc UzipedData = UzipedData.take 2 ++ UzipedData.drop 2 := (List.take_append_drop 2 _).symm
    _ = LittleEndian.toBytes 2 n ++ (bars ++ ahead UzipedData c₂) := by
      rw [hfield, ← hahead]
      rfl
    _ = _ := (List.append_assoc _ _ _).symm

theorem safelyParsed_of_mem_bodyFormat {D : Type} (ops : DoubleOps D) (Category : ℕ)
    {UzipedData : List Byte} (h : UzipedData ∈ bodyFormat) :
    SafelyParsed ops Category UzipedData := by
  obtain ⟨n, hn, bars, hmem, rest, hbody⟩ := h
  have hstart : UzipedData.drop atStart.pos = LittleEndian.toBytes 2 n ++ (bars ++ rest) := by
    rw [hbody, List.append_assoc]
    rfl
  have hcount := next_of_drop hstart (LittleEndian.toBytes_length 2 n) Nat.two_pos
  rw [LittleEndian.value_toBytes hn] at hcount
  have hahead : ahead UzipedData ⟨atStart.pos + 2, atStart.shifts⟩ = bars ++ rest :=
    drop_add_of_drop hstart
  have hclean : InWidth ⟨atStart.pos + 2, atStart.shifts⟩ := by simp [InWidth, atStart]
  obtain ⟨t, c, hbars, hc, -⟩ :=
    (bars_accepts ops Category UzipedData n ⟨0, heading⟩).complete hclean hmem hahead
  refine ⟨(n, t.csResult), c, ?_, hc⟩
  rw [parseBody, Reader.bind_of_ok hcount, Reader.bind_of_ok hbars]
  rfl

/-- A body is parsed without leaving it, and without a shift past the width of an `int`,
exactly when it holds as many complete bars as it announces. -/
theorem safelyParsed_iff {D : Type} (ops : DoubleOps D) (Category : ℕ) (UzipedData : List Byte) :
    SafelyParsed ops Category UzipedData ↔ UzipedData ∈ bodyFormat :=
  ⟨mem_bodyFormat_of_safelyParsed, safelyParsed_of_mem_bodyFormat ops Category⟩

/-- A body of two bytes that announces a bar makes the parser read past its end. -/
theorem announced_bar_missing :
    ¬ ∀ (Category : ℕ) (UzipedData : List Byte), UzipedData.length ≤ 65535 →
      SafelyParsed exact Category UzipedData := by
  intro h
  obtain ⟨res, c, hparse, -⟩ := h 9 [1, 0] (by decide)
  cases hparse

/-- The layouts of the format: bars up to an hour carry the time. -/
def Timed (Category : ℕ) : Prop := Category < 4 ∨ Category = 7 ∨ Category = 8

instance (Category : ℕ) : Decidable (Timed Category) := inferInstanceAs (Decidable (_ ∨ _))

theorem intraday_iff (Category : ℕ) : intraday Category = true ↔ Timed Category := by
  simp [intraday, Timed, or_assoc]

def encodeDate (Category : ℕ) (bar : Bar) : List Byte :=
  if Timed Category then
    LittleEndian.toBytes 2 ((bar.year - 2004) * 2048 + bar.month * 100 + bar.day) ++
      LittleEndian.toBytes 2 (bar.hour * 60 + bar.minute)
  else LittleEndian.toBytes 4 (bar.year * 10000 + bar.month * 100 + bar.day)

/-- Prices go out as differences: the open to the last close, the others to the open. -/
def encodeBar (Category : ℕ) (prevClose : ℤ) (bar : Bar) : List Byte :=
  encodeDate Category bar ++ (encodePrice (bar.iPriceOpen - prevClose) ++
    (encodePrice (bar.iPriceClose - bar.iPriceOpen) ++
    (encodePrice (bar.iPriceHight - bar.iPriceOpen) ++
    (encodePrice (bar.iPriceLow - bar.iPriceOpen) ++
    (encodePrice bar.Volume ++ LittleEndian.toBytes 4 bar.iTurnOver)))))

def encodeBars (Category : ℕ) : ℤ → List Bar → List Byte
  | _, [] => []
  | prevClose, bar :: bars =>
    encodeBar Category prevClose bar ++ encodeBars Category bar.iPriceClose bars

def encodeBody (Category : ℕ) (bars : List Bar) : List Byte :=
  LittleEndian.toBytes 2 bars.length ++ encodeBars Category 0 bars

def DateFits (Category : ℕ) (bar : Bar) : Prop :=
  if Timed Category then
    2004 ≤ bar.year ∧ bar.year ≤ 2035 ∧ bar.day < 100 ∧ bar.month * 100 + bar.day < 2048 ∧
      bar.minute < 60 ∧ bar.hour * 60 + bar.minute < 65536
  else
    bar.month < 100 ∧ bar.day < 100 ∧ bar.year * 10000 + bar.month * 100 + bar.day < 2 ^ 32

def IsInt (z : ℤ) : Prop := -2 ^ 31 ≤ z ∧ z < 2 ^ 31

/-- The bar can be encoded after a bar that closed at `prevClose`. -/
def BarFits (Category : ℕ) (prevClose : ℤ) (bar : Bar) : Prop :=
  DateFits Category bar ∧
    (IsInt bar.iPriceOpen ∧ IsInt bar.iPriceClose ∧ IsInt bar.iPriceHight ∧ IsInt bar.iPriceLow) ∧
    (∀ v ∈ [bar.iPriceOpen - prevClose, bar.iPriceClose - bar.iPriceOpen,
      bar.iPriceHight - bar.iPriceOpen, bar.iPriceLow - bar.iPriceOpen, bar.Volume],
      v.natAbs ≤ 2 ^ 31 - 1) ∧
    bar.iTurnOver < 2 ^ 32

def BarsFit (Category : ℕ) : ℤ → List Bar → Prop
  | _, [] => True
  | prevClose, bar :: bars =>
    BarFits Category prevClose bar ∧ BarsFit Category bar.iPriceClose bars

/-- A bar as it is printed: a daily bar is dated 15:00, and no bar has volume 0. -/
def printed (Category : ℕ) (bar : Bar) : Bar :=
  { bar with
    hour := if Timed Category then bar.hour else 15
    minute := if Timed Category then bar.minute else 0
    Volume := if bar.Volume = 0 then 1 else bar.Volume }

section Columns

variable {D : Type} (ops : DoubleOps D)

def twoDigits (n : ℕ) : List Char := (Nat.toDigits 10 n).leftpad 2 '0'

def priceColumn (iPrice : ℤ) : List Char :=
  ops.format3 (ops.div (ops.ofInt iPrice) (ops.lit 1000))

/-- The columns for a bar: date and time, the four prices, volume and amount.  An amount below
`1e-7` is replaced by the close. -/
def columns (bar : Bar) : List (List Char) :=
  [['"'] ++ (Nat.toDigits 10 bar.year).leftpad 4 ' ' ++ ['-'] ++ twoDigits bar.month ++ ['-'] ++
      twoDigits bar.day ++ [' '] ++ twoDigits bar.hour ++ [':'] ++ twoDigits bar.minute ++
      [':', '0', '0', '"'],
    priceColumn ops bar.iPriceOpen, priceColumn ops bar.iPriceClose,
    priceColumn ops bar.iPriceHight, priceColumn ops bar.iPriceLow,
    (if bar.Volume < 0 then ['-'] else []) ++ Nat.toDigits 10 bar.Volume.natAbs,
    if ops.lt (getVolume ops bar.iTurnOver) (ops.lit (1 / 10000000)) then
      priceColumn ops bar.iPriceClose
    else ops.format3 (getVolume ops bar.iTurnOver)]

/-- The table of bars: a header line, and a line of columns with commas between them for each
bar. -/
def sheet (Category : ℕ) (bars : List Bar) : List Char :=
  "datetime,open,close,hight,low,volume,amount\n".toList ++
    bars.flatMap fun bar => [','].intercalate (columns ops (printed Category bar)) ++ ['\n']

theorem format3_dbvol (bar : Bar) : ops.format3 (dbvol ops bar) =
    if ops.lt (getVolume ops bar.iTurnOver) (ops.lit (1 / 10000000)) then
      priceColumn ops bar.iPriceClose
    else ops.format3 (getVolume ops bar.iTurnOver) := by
  unfold dbvol
  dsimp only
  split_ifs
  · rfl
  · rfl

theorem csLine_eq_columns (bar : Bar) :
    csLine ops bar = [','].intercalate (columns ops bar) ++ ['\n'] := by
  have hprice : ∀ iPrice, ops.format3 (thousandth ops iPrice) = priceColumn ops iPrice :=
    fun _ => rfl
  have htwo : ∀ n : ℕ, Text.formatInt 0 2 n = twoDigits n := by
    intro n
    rw [Text.formatInt_natCast, List.leftpad.eq_1 0, Nat.zero_sub]
    rfl
  have hseconds : Text.formatInt 0 2 0 = ['0', '0'] := by decide
  have hyear : Text.formatInt 4 1 bar.year = (Nat.toDigits 10 bar.year).leftpad 4 ' ' := by
    have hpos : 0 < (Nat.toDigits 10 bar.year).length := Nat.length_toDigits_pos
    rw [Text.formatInt_natCast, List.leftpad.eq_1 1, Nat.sub_eq_zero_of_le hpos]
    rfl
  unfold csLine
  rw [format3_dbvol, hprice, hprice, hprice, hprice, htwo, htwo, htwo, htwo, hseconds, hyear,
    Text.formatInt_plain]
  simp only [columns, List.intercalate, List.intersperse, List.flatten_cons, List.flatten_nil,
    List.append_assoc, List.cons_append, List.nil_append, List.append_nil]

end Columns

def rows {D : Type} (ops : DoubleOps D) (Category : ℕ) (bars : List Bar) : List Char :=
  heading ++ bars.flatMap fun bar => csLine ops (printed Category bar)

theorem rows_eq_sheet {D : Type} (ops : DoubleOps D) (Category : ℕ) (bars : List Bar) :
    rows ops Category bars = sheet ops Category bars := by
  unfold rows sheet
  simp only [csLine_eq_columns]
  rfl

instance (Category : ℕ) (bar : Bar) : Decidable (DateFits Category bar) :=
  inferInstanceAs (Decidable (ite _ _ _))

instance (z : ℤ) : Decidable (IsInt z) := inferInstanceAs (Decidable (_ ∧ _))

instance (Category : ℕ) (prevClose : ℤ) (bar : Bar) : Decidable (BarFits Category prevClose bar) :=
  inferInstanceAs (Decidable (_ ∧ _))

instance decidableBarsFit (Category : ℕ) :
    ∀ (prevClose : ℤ) (bars : List Bar), Decidable (BarsFit Category prevClose bars)
  | _, [] => isTrue trivial
  | prevClose, bar :: bars =>
    @instDecidableAnd (BarFits Category prevClose bar) (BarsFit Category bar.iPriceClose bars) _
      (decidableBarsFit Category bar.iPriceClose bars)

theorem wrap32_add_sub {base price : ℤ} (h : IsInt price) :
    wrap32 (base + (price - base)) = price := by
  rw [add_sub_cancel, wrap32_eq h.1 h.2]

theorem next_reads_toBytes (UzipedData : List Byte) {w n : ℕ} (hpos : 0 < w) (hn : n < 256 ^ w) :
    Reader.Reads (fun _ => True) (ahead UzipedData) (next UzipedData w)
      (LittleEndian.toBytes w n) n := by
  have h := next_reads UzipedData (LittleEndian.toBytes w n) (LittleEndian.toBytes_length w n) hpos
  rwa [LittleEndian.value_toBytes hn] at h

theorem getPrice_reads_encodePrice (UzipedData : List Byte) {v : ℤ} (hv : v.natAbs ≤ 2 ^ 31 - 1) :
    Reader.Reads (fun _ => True) (ahead UzipedData) (getPrice UzipedData) (encodePrice v) v := by
  have h := getPrice_reads UzipedData (encodePrice_isPrice v)
  rwa [priceOf_encodePrice (by omega)] at h

theorem intradayDate {year month day : ℕ} (hy : 2004 ≤ year) (hday : day < 100)
    (hmd : month * 100 + day < 2048) :
    (((year - 2004) * 2048 + month * 100 + day) >>> 11) + 2004 = year ∧
      ((year - 2004) * 2048 + month * 100 + day) % 2048 / 100 = month ∧
      ((year - 2004) * 2048 + month * 100 + day) % 2048 % 100 = day := by
  have hdiv : ((year - 2004) * 2048 + month * 100 + day) / 2 ^ 11 = year - 2004 := by omega
  have hmod : ((year - 2004) * 2048 + month * 100 + day) % 2048 = month * 100 + day := by omega
  rw [Nat.shiftRight_eq_div_pow, hdiv, hmod]
  refine ⟨?_, ?_, ?_⟩ <;> omega

theorem readDate_reads (Category : ℕ) (UzipedData : List Byte) {bar : Bar}
    (hfit : DateFits Category bar) :
    Reader.Reads (fun _ => True) (ahead UzipedData) (readDate Category UzipedData)
      (encodeDate Category bar)
      (bar.year, bar.month, bar.day, (printed Category bar).hour,
        (printed Category bar).minute) := by
  unfold DateFits at hfit
  unfold readDate encodeDate
  by_cases hday : Timed Category
  · simp only [intraday_iff, hday, ↓reduceIte, printed] at hfit ⊢
    obtain ⟨hlo, hhi, hd, hmd, hmin, hhm⟩ := hfit
    have hzip : (bar.year - 2004) * 2048 + bar.month * 100 + bar.day < 256 ^ 2 := by omega
    obtain ⟨hyear, hmonth, hdate⟩ := intradayDate hlo hd hmd
    refine (next_reads_toBytes UzipedData Nat.two_pos hzip).bind ?_
    refine (next_reads_toBytes UzipedData Nat.two_pos hhm).map_eq ?_
    rw [hyear, hmonth, hdate, show (bar.hour * 60 + bar.minute) / 60 = bar.hour by omega,
      show (bar.hour * 60 + bar.minute) % 60 = bar.minute by omega]
  · simp only [intraday_iff, hday, ↓reduceIte, printed] at hfit ⊢
    obtain ⟨hm, hd, hzip⟩ := hfit
    refine (next_reads_toBytes UzipedData (show 0 < 4 by decide) hzip).map_eq ?_
    simp only [Prod.mk.injEq, and_true]
    refine ⟨?_, ?_, ?_⟩ <;> omega

theorem readBar_reads (Category : ℕ) (UzipedData : List Byte) {prevClose : ℤ} {bar : Bar}
    (hfit : BarFits Category prevClose bar) :
    Reader.Reads (fun _ => True) (ahead UzipedData) (readBar Category UzipedData prevClose)
      (encodeBar Category prevClose bar) (printed Category bar) := by
  obtain ⟨hdate, ⟨hopen, hclose, hhight, hlow⟩, hvar, hturn⟩ := hfit
  have hprice : ∀ v ∈ [bar.iPriceOpen - prevClose, bar.iPriceClose - bar.iPriceOpen,
      bar.iPriceHight - bar.iPriceOpen, bar.iPriceLow - bar.iPriceOpen, bar.Volume],
      Reader.Reads (fun _ => True) (ahead UzipedData) (getPrice UzipedData) (encodePrice v) v :=
    fun v hv => getPrice_reads_encodePrice UzipedData (hvar v hv)
  unfold readBar encodeBar
  -- the fields in the order of the loop body, each with its own bytes
  refine (readDate_reads Category UzipedData hdate).bind ?_
  refine (hprice _ (by simp)).bind ((hprice _ (by simp)).bind ((hprice _ (by simp)).bind
    ((hprice _ (by simp)).bind ((hprice _ (by simp)).bind ?_))))
  refine (next_reads_toBytes UzipedData (show 0 < 4 by decide) hturn).map_eq ?_
  simp only [wrap32_add_sub hopen, wrap32_add_sub hclose, wrap32_add_sub hhight,
    wrap32_add_sub hlow]
  rfl

theorem bars_reads {D : Type} (ops : DoubleOps D) (Category : ℕ) (UzipedData : List Byte)
    (bars : List Bar) (t : Table) (hfit : BarsFit Category t.iPreClose bars) :
    Reader.Reads (fun _ => True) (ahead UzipedData)
      (Reader.iterate (barRound ops Category UzipedData) bars.length t)
      (encodeBars Category t.iPreClose bars)
      ⟨bars.foldl (fun _ bar => bar.iPriceClose) t.iPreClose,
        t.csResult ++ bars.flatMap fun bar => csLine ops (printed Category bar)⟩ := by
  induction bars generalizing t with
  | nil =>
    rw [List.flatMap_nil, List.append_nil]
    exact Reader.Reads.pure t
  | cons bar bars ih =>
    have hround : Reader.Reads (fun _ => True) (ahead UzipedData)
        (barRound ops Category UzipedData t) (encodeBar Category t.iPreClose bar)
        ⟨bar.iPriceClose, t.csResult ++ csLine ops (printed Category bar)⟩ :=
      (readBar_reads Category UzipedData hfit.1).map_eq rfl
    have hrest := ih ⟨bar.iPriceClose, t.csResult ++ csLine ops (printed Category bar)⟩ hfit.2
    rw [List.flatMap_cons, ← List.append_assoc]
    exact hround.bind hrest

theorem length_encodeBar (Category : ℕ) (prevClose : ℤ) (bar : Bar) :
    4 ≤ (encodeBar Category prevClose bar).length := by
  simp only [encodeBar, List.length_append, LittleEndian.toBytes_length]
  omega

theorem length_encodeBars (Category : ℕ) (prevClose : ℤ) (bars : List Bar) :
    bars.length ≤ (encodeBars Category prevClose bars).length := by
  induction bars generalizing prevClose with
  | nil => exact Nat.zero_le _
  | cons bar bars ih =>
    have hbar := length_encodeBar Category prevClose bar
    have hbars := ih bar.iPriceClose
    simp only [encodeBars, List.length_append, List.length_cons]
    omega

/-- The parser gives back the bars of an encoded body. -/
theorem parseBody_encodeBody {D : Type} (ops : DoubleOps D) (Category : ℕ) {bars : List Bar}
    (hfit : BarsFit Category 0 bars) (hlen : (encodeBody Category bars).length ≤ 65535) :
    ∃ c, parseBody ops Category (encodeBody Category bars) atStart =
      .ok (bars.length, rows ops Category bars) c := by
  have hn : bars.length < 256 ^ 2 := by
    have hbars := length_encodeBars Category 0 bars
    simp only [encodeBody, List.length_append, LittleEndian.toBytes_length] at hlen
    omega
  have hreads : Reader.Reads (fun _ => True) (ahead (encodeBody Category bars))
      (parseBody ops Category (encodeBody Category bars))
      (LittleEndian.toBytes 2 bars.length ++ encodeBars Category 0 bars)
      (bars.length, rows ops Category bars) :=
    (next_reads_toBytes _ Nat.two_pos hn).bind
      ((bars_reads ops Category _ bars ⟨0, heading⟩ hfit).map_eq rfl)
  obtain ⟨c, hparse, -⟩ := hreads atStart [] trivial (by rw [List.append_nil]; rfl)
  exact ⟨c, hparse⟩

end TdxHq.Bars
