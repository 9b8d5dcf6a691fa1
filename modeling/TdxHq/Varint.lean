import TdxHq.Bars

namespace TdxHq.Varint

open Price Bars

def toInt (z : ℤ) : Option ℤ := if IsInt z then some z else none

/-- `x << s`, if the amount is less than the width and the result is an `int`. -/
def shlInt (x s : ℕ) : Option ℤ := if s < 32 then toInt (x * 2 ^ s) else none

def strictLoop (pData : List Byte) : ℕ → ℤ → ℕ → ℕ → Option (ℤ × ℕ)
  | 0, _, _, _ => none
  | fuel + 1, data, posByte, pos => do
    let bdata ← pData[pos + 1]?
    let term ← shlInt (bdata.val &&& 0x7f) posByte
    let data ← toInt (data + term)
    let _ ← toInt (posByte + 7 : ℕ)
    if bdata.val &&& 0x80 ≠ 0 then strictLoop pData fuel data (posByte + 7) (pos + 1)
    else return (data, pos + 1)

def strictData (pData : List Byte) (pos : ℕ) (bdata : Byte) : Option (ℤ × ℕ) :=
  if bdata.val &&& 0x80 ≠ 0 then strictLoop pData pData.length (bdata.val &&& 0x3f : ℕ) 6 pos
  else some ((bdata.val &&& 0x3f : ℕ), pos)

def strictSign (bdata : Byte) (data : ℤ) : Option ℤ :=
  if bdata.val &&& 0x40 ≠ 0 then toInt (-data) else some data

/-- `getPrice`, with the value and the new position, if no operation overflows. -/
def strictPrice (pData : List Byte) (pos : ℕ) : Option (ℤ × ℕ) := do
  let bdata ← pData[pos]?
  let (data, last) ← strictData pData pos bdata
  let data ← strictSign bdata data
  return (data, last + 1)

theorem toInt_eq_some {z v : ℤ} : toInt z = some v ↔ IsInt z ∧ z = v := by
  unfold toInt
  split_ifs with h
  · simp [h]
  · simp [h]

theorem toInt_of_isInt {z : ℤ} (h : IsInt z) : toInt z = some z := if_pos h

theorem wrap32_of_isInt {z : ℤ} (h : IsInt z) : wrap32 z = z := wrap32_eq h.1 h.2

theorem shlInt_eq_some {x s : ℕ} {v : ℤ} (h : shlInt x s = some v) : shl32 x s = v := by
  unfold shlInt at h
  split_ifs at h with hs
  obtain ⟨hint, rfl⟩ := toInt_eq_some.mp h
  rw [shl32, Nat.mod_eq_of_lt hs, wrap32_of_isInt hint]

theorem drop_of_getElem? {pData : List Byte} {p : ℕ} {b : Byte} (h : pData[p]? = some b) :
    pData.drop p = b :: pData.drop (p + 1) := by
  obtain ⟨hp, rfl⟩ := List.getElem?_eq_some_iff.mp h
  exact List.drop_eq_getElem_cons hp

theorem getPriceLoop_of_strict {pData : List Byte} (fuel : ℕ) :
    ∀ {data v : ℤ} {posByte pos p : ℕ} (shifts : List ℕ),
      strictLoop pData fuel data posByte pos = some (v, p) →
      ∃ shifts', getPriceLoop pData fuel data posByte ⟨pos, shifts⟩ = .ok v ⟨p, shifts'⟩ := by
  induction fuel with
  | zero =>
    intro data v posByte pos p shifts h
    cases h
  | succ fuel ih =>
    intro data v posByte pos p shifts h
    simp only [strictLoop, Option.bind_eq_bind, Option.bind_eq_some_iff] at h
    obtain ⟨b, hb, term, hterm, sum, hsum, -, -, h⟩ := h
    obtain ⟨hint, rfl⟩ := toInt_eq_some.mp hsum
    rw [and_0x7f] at hterm
    rw [getPriceLoop_succ (drop_of_getElem? hb), shlInt_eq_some hterm, wrap32_of_isInt hint]
    simp only [and_0x80] at h
    split_ifs at h ⊢
    · exact ih _ h
    · cases h
      exact ⟨_, rfl⟩

/-- Where nothing overflows, the program returns the exact number. -/
theorem getPrice_of_strict {pData : List Byte} {v : ℤ} {c : Cursor} {p : ℕ}
    (h : strictPrice pData c.pos = some (v, p)) :
    ∃ shifts, getPrice pData c = .ok v ⟨p, shifts⟩ := by
  simp only [strictPrice, Option.bind_eq_bind, Option.bind_eq_some_iff] at h
  obtain ⟨b, hb, ⟨data, last⟩, hdata, v', hsigned, h⟩ := h
  obtain ⟨rfl, rfl⟩ := Prod.mk.inj (Option.some.inj h)
  have hload : load pData 1 c = .ok b.val c := load_byte (drop_of_getElem? hb)
  -- the loop, if there is one
  have hloop : ∃ shifts, (if b.val &&& 0x80 ≠ 0 then
      getPriceLoop pData pData.length ((b.val &&& 0x3f : ℕ) : ℤ) 6
      else pure ((b.val &&& 0x3f : ℕ) : ℤ)) c = .ok data ⟨last, shifts⟩ := by
    unfold strictData at hdata
    split_ifs at hdata ⊢
    · exact getPriceLoop_of_strict pData.length c.shifts hdata
    · cases hdata
      exact ⟨c.shifts, rfl⟩
  have hsign : (if b.val &&& 0x40 ≠ 0 then wrap32 (-data) else data) = v' := by
    unfold strictSign at hsigned
    split_ifs at hsigned ⊢
    · obtain ⟨hint, rfl⟩ := toInt_eq_some.mp hsigned
      exact wrap32_of_isInt hint
    · exact Option.some.inj hsigned
  obtain ⟨shifts, hloop⟩ := hloop
  refine ⟨shifts, ?_⟩
  rw [getPrice, Reader.bind_of_ok hload, ← hsign]
  split_ifs at hloop ⊢
  all_goals
    rw [Reader.bind_of_ok hloop]
    rfl

/-- Six bits of the first byte and seven of each other, at the shifts 6, 13, 20, 27. -/
def bitSum : List Byte → ℕ
  | [] => 0
  | b :: bs => (b.val &&& 0x3f) + (bs.mapIdx fun i b => (b.val &&& 0x7f) * 2 ^ (6 + 7 * i)).sum

/-- One encoding: its last byte is the only one without bit `0x80`, it has at most five bytes, and
its magnitude is within an `int`. -/
structure Encoding (bs : List Byte) : Prop where
  isPrice : IsPrice bs
  short : bs.length ≤ 5
  fits : bitSum bs ≤ 2 ^ 31 - 1

def signedValue : List Byte → ℤ
  | [] => 0
  | b :: bs => if b.val &&& 0x40 ≠ 0 then -(bitSum (b :: bs) : ℤ) else bitSum (b :: bs)

theorem sum_tail (bs : List Byte) (n : ℕ) :
    (bs.mapIdx fun i b => (b.val &&& 0x7f) * 2 ^ (n + 7 * i)).sum = 2 ^ n * tailValue bs := by
  induction bs generalizing n with
  | nil => simp [tailValue]
  | cons b bs ih =>
    have hshift : (fun (i : ℕ) (b : Byte) => (b.val &&& 0x7f) * 2 ^ (n + 7 * (i + 1))) =
        fun i b => (b.val &&& 0x7f) * 2 ^ (n + 7 + 7 * i) := by
      funext i b
      congr 2
      omega
    rw [List.mapIdx_cons, List.sum_cons, hshift, ih (n + 7), tailValue, and_0x7f]
    ring

theorem bitSum_eq (bs : List Byte) : bitSum bs = magnitude bs := by
  cases bs with
  | nil => rfl
  | cons b bs =>
    rw [bitSum, magnitude, sum_tail, and_0x3f]
    norm_num

theorem toInt_natCast {n : ℕ} (hn : n < 2 ^ 31) : toInt n = some (n : ℤ) :=
  toInt_of_isInt ⟨by omega, by omega⟩

theorem bind_of_some {α β : Type} {x : Option α} {f : α → Option β} {a : α} (h : x = some a) :
    (x >>= f) = f a := by
  rw [h]
  rfl

theorem getElem?_of_drop {pData rest : List Byte} {b : Byte} {p : ℕ}
    (h : pData.drop p = b :: rest) : pData[p]? = some b := by
  have hget := congrArg (fun l => l[0]?) h
  simpa using hget

theorem strictLoop_succ {pData rest : List Byte} {b : Byte} {data posByte pos : ℕ}
    (h : pData.drop (pos + 1) = b :: rest) (hpos : posByte < 32)
    (hfit : data + b.val % 128 * 2 ^ posByte < 2 ^ 31) (fuel : ℕ) :
    strictLoop pData (fuel + 1) data posByte pos =
      if 128 ≤ b.val then
        strictLoop pData fuel (data + b.val % 128 * 2 ^ posByte : ℕ) (posByte + 7) (pos + 1)
      else some (((data + b.val % 128 * 2 ^ posByte : ℕ) : ℤ), pos + 1) := by
  have hterm : shlInt (b.val &&& 0x7f) posByte = some ((b.val % 128 * 2 ^ posByte : ℕ) : ℤ) := by
    have hcast : ((b.val % 128 : ℕ) : ℤ) * 2 ^ posByte = (b.val % 128 * 2 ^ posByte : ℕ) := by
      norm_num
    rw [and_0x7f, shlInt, if_pos hpos, hcast, toInt_natCast (by omega)]
  have hstep : toInt (data + (b.val % 128 * 2 ^ posByte : ℕ)) =
      some ((data + b.val % 128 * 2 ^ posByte : ℕ) : ℤ) := by
    rw [← Nat.cast_add, toInt_natCast hfit]
  have hshift : toInt (posByte + 7 : ℕ) = some ((posByte + 7 : ℕ) : ℤ) :=
    toInt_natCast (by omega)
  rw [strictLoop, bind_of_some (getElem?_of_drop h), bind_of_some hterm, bind_of_some hstep,
    bind_of_some hshift]
  by_cases hb : 128 ≤ b.val
  · rw [if_pos ((and_0x80 b).mpr hb), if_pos hb]
  · rw [if_neg (mt (and_0x80 b).mp hb), if_neg hb, Option.pure_def]

theorem strictLoop_of_isPrice {pData bs : List Byte} (hbs : IsPrice bs) :
    ∀ (fuel data posByte pos : ℕ) (rest : List Byte), pData.drop (pos + 1) = bs ++ rest →
      bs.length ≤ fuel → posByte + 7 * bs.length < 32 + 7 →
      data + 2 ^ posByte * tailValue bs < 2 ^ 31 →
      strictLoop pData fuel data posByte pos =
        some (((data + 2 ^ posByte * tailValue bs : ℕ) : ℤ), pos + bs.length) := by
  induction bs with
  | nil => exact absurd hbs not_isPrice_nil
  | cons b bs ih =>
    intro fuel data posByte pos rest h hfuel hpos hfit
    obtain ⟨fuel, rfl⟩ := Nat.exists_eq_add_of_lt (Nat.lt_of_lt_of_le (Nat.succ_pos _) hfuel)
    rw [add_tailValue_cons] at hfit ⊢
    simp only [List.length_cons] at hpos hfuel
    rw [strictLoop_succ h (by omega) (by omega)]
    rcases isPrice_cons.mp hbs with ⟨hb, rfl⟩ | ⟨hb, hbs'⟩
    · rw [if_neg (by omega)]
      simp [tailValue]
    · have hnext : pData.drop (pos + 1 + 1) = bs ++ rest := drop_succ_of_drop h
      rw [if_pos hb, ih hbs' _ _ _ _ rest hnext (by omega) (by omega) hfit, List.length_cons,
        Nat.add_assoc pos, Nat.add_comm 1]

theorem strictData_of_isPrice {pData bs rest : List Byte} {b : Byte} {p : ℕ}
    (hprice : IsPrice (b :: bs)) (hshort : (b :: bs).length ≤ 5)
    (hfits : bitSum (b :: bs) ≤ 2 ^ 31 - 1) (h : pData.drop p = b :: bs ++ rest) :
    strictData pData p b = some ((bitSum (b :: bs) : ℤ), p + bs.length) := by
  rw [bitSum_eq, magnitude] at hfits ⊢
  simp only [List.length_cons] at hshort
  rw [strictData, and_0x3f]
  rcases isPrice_cons.mp hprice with ⟨hb, rfl⟩ | ⟨hb, hbs⟩
  · rw [if_neg (mt (and_0x80 b).mp (by omega))]
    simp [tailValue]
  · have hnext : pData.drop (p + 1) = bs ++ rest := drop_succ_of_drop h
    have hfuel : bs.length ≤ pData.length := by
      have hlen := add_length_le_of_drop hnext hbs.length_pos
      omega
    rw [if_pos ((and_0x80 b).mpr hb),
      strictLoop_of_isPrice hbs _ _ 6 p rest hnext hfuel (by omega) (by omega)]
    norm_num

theorem strictSign_of_fits (b : Byte) {n : ℕ} (hn : n ≤ 2 ^ 31 - 1) :
    strictSign b n = some (if b.val &&& 0x40 ≠ 0 then -(n : ℤ) else n) := by
  unfold strictSign
  split_ifs
  · exact toInt_of_isInt ⟨by omega, by omega⟩
  · rfl

/-- An encoding is decoded exactly. -/
theorem strictPrice_of_encoding {pData bs rest : List Byte} {p : ℕ} (hbs : Encoding bs)
    (h : pData.drop p = bs ++ rest) :
    strictPrice pData p = some (signedValue bs, p + bs.length) := by
  obtain ⟨hprice, hshort, hfits⟩ := hbs
  rcases bs with _ | ⟨b, bs⟩
  · exact absurd hprice not_isPrice_nil
  rw [strictPrice, bind_of_some (getElem?_of_drop h),
    bind_of_some (strictData_of_isPrice hprice hshort hfits h)]
  dsimp only
  rw [bind_of_some (strictSign_of_fits b hfits), Option.pure_def, signedValue, List.length_cons,
    Nat.add_assoc]

/-- Among the encodings of `v`, of any length, none is shorter than `bs`. -/
structure Shortest (v : ℤ) (bs : List Byte) : Prop where
  isPrice : IsPrice bs
  value : signedValue bs = v
  least : ∀ bs', IsPrice bs' → signedValue bs' = v → bs.length ≤ bs'.length

theorem natAbs_signedValue (bs : List Byte) : (signedValue bs).natAbs = magnitude bs := by
  rw [← bitSum_eq]
  cases bs with
  | nil => rfl
  | cons b bs =>
    rw [signedValue]
    split_ifs
    · rw [Int.natAbs_neg, Int.natAbs_natCast]
    · rw [Int.natAbs_natCast]

theorem signedValue_eq_priceOf {bs : List Byte} (hlen : bs.length ≤ 5)
    (hfit : magnitude bs < 2 ^ 31) : signedValue bs = priceOf bs := by
  cases bs with
  | nil => rfl
  | cons b bs =>
    rw [priceOf_eq hlen hfit, signedValue, bitSum_eq]
    by_cases hb : 64 ≤ b.val % 128
    · rw [if_pos ((and_0x40 b).mpr hb), if_pos hb]
    · rw [if_neg (mt (and_0x40 b).mp hb), if_neg hb]

theorem tailValue_lt (bs : List Byte) : tailValue bs < 128 ^ bs.length := by
  induction bs with
  | nil => exact Nat.one_pos
  | cons b bs ih =>
    rw [tailValue, List.length_cons, pow_succ]
    omega

theorem magnitude_lt (b : Byte) (bs : List Byte) : magnitude (b :: bs) < 64 * 128 ^ bs.length := by
  have htail := tailValue_lt bs
  rw [magnitude]
  omega

theorem encodeTail_length_le {n : ℕ} (more : ℕ) {j : ℕ} (hn : n < 128 ^ (j + 1)) :
    (encodeTail more n).length ≤ j + 1 := by
  induction more generalizing n j with
  | zero => simp [encodeTail]
  | succ more ih =>
    rw [encodeTail]
    split_ifs with hsmall
    · simp
    · cases j with
      | zero => omega
      | succ j =>
        rw [pow_succ] at hn
        have hrest := ih (n := n / 128) (j := j) (by omega)
        rw [List.length_cons]
        omega

theorem encodePrice_length_le {v : ℤ} {k : ℕ} (hv : v.natAbs < 64 * 128 ^ k) :
    (encodePrice v).length ≤ k + 1 := by
  unfold encodePrice
  split_ifs with hsmall
  · simp
  · cases k with
    | zero => omega
    | succ k =>
      have htail := encodeTail_length_le (n := v.natAbs / 64) (j := k) 3 (by omega)
      rw [List.length_cons]
      omega

theorem encodePrice_shortest {v : ℤ} (hv : v.natAbs ≤ 2 ^ 31 - 1) :
    Shortest v (encodePrice v) where
  isPrice := encodePrice_isPrice v
  value := by
    have hfit : v.natAbs < 2 ^ 31 := by omega
    have hmag := magnitude_encodePrice hfit
    rw [signedValue_eq_priceOf (encodePrice_length v) (by omega), priceOf_encodePrice hfit]
  least bs hbs hvalue := by
    cases bs with
    | nil => exact absurd hbs not_isPrice_nil
    | cons b bs =>
      apply encodePrice_length_le
      rw [← hvalue, natAbs_signedValue]
      exact magnitude_lt b bs

theorem Shortest.encoding {v : ℤ} {bs : List Byte} (h : Shortest v bs)
    (hv : v.natAbs ≤ 2 ^ 31 - 1) : Encoding bs where
  isPrice := h.isPrice
  short := by
    have hcanonical := encodePrice_shortest hv
    have hleast := h.least _ hcanonical.isPrice hcanonical.value
    have hlen := encodePrice_length v
    omega
  fits := by
    rw [bitSum_eq, ← natAbs_signedValue, h.value]
    exact hv

/-- `n` calls of `getPrice`, one after the other on the same position. -/
def getPrices (pData : List Byte) : ℕ → ParseM (List ℤ)
  | 0 => return []
  | n + 1 => do
    let data ← getPrice pData
    let rest ← getPrices pData n
    return data :: rest

theorem getPrice_of_encoding {pData bs rest : List Byte} {c : Cursor} (hbs : Encoding bs)
    (h : pData.drop c.pos = bs ++ rest) :
    ∃ shifts, getPrice pData c = .ok (signedValue bs) ⟨c.pos + bs.length, shifts⟩ := by
  apply getPrice_of_strict
  exact strictPrice_of_encoding hbs h

theorem getPrices_of_encodings {pData rest : List Byte} {bss : List (List Byte)}
    (hbss : ∀ bs ∈ bss, Encoding bs) {c : Cursor} (h : pData.drop c.pos = bss.flatten ++ rest) :
    ∃ shifts, getPrices pData bss.length c =
      .ok (bss.map signedValue) ⟨c.pos + bss.flatten.length, shifts⟩ := by
  induction bss generalizing c with
  | nil => exact ⟨c.shifts, rfl⟩
  | cons bs bss ih =>
    rw [List.flatten_cons, List.append_assoc] at h
    obtain ⟨shifts, hfirst⟩ := getPrice_of_encoding (hbss bs (by simp)) h
    -- the next call starts where this one has left the position
    have hnext : pData.drop (c.pos + bs.length) = bss.flatten ++ rest := drop_add_of_drop h
    obtain ⟨shifts', hrest⟩ := ih (fun bs' hbs' => hbss bs' (by simp [hbs']))
      (c := ⟨c.pos + bs.length, shifts⟩) hnext
    refine ⟨shifts', ?_⟩
    rw [List.length_cons, getPrices, Reader.bind_of_ok hfirst, Reader.bind_of_ok hrest,
      List.map_cons, List.flatten_cons, List.length_append, ← Nat.add_assoc]
    rfl

/-- `getPrice` inverts the price code.  On every encoding it returns the number, with no overflow,
and moves the position behind the last byte.  So it inverts the shortest encodings, and successive
calls read a sequence of encodings number by number. -/
theorem getPrice_inverts (pData : List Byte) (c : Cursor) :
    (∀ bs rest, Encoding bs → pData.drop c.pos = bs ++ rest →
      strictPrice pData c.pos = some (signedValue bs, c.pos + bs.length) ∧
      (∃ shifts, getPrice pData c = .ok (signedValue bs) ⟨c.pos + bs.length, shifts⟩) ∧
      c.pos + bs.length ≤ pData.length) ∧
    (∀ v : ℤ, |v| ≤ 2 ^ 31 - 1 → Shortest v (encodePrice v) ∧
      ∀ bs rest, Shortest v bs → pData.drop c.pos = bs ++ rest →
        ∃ shifts, getPrice pData c = .ok v ⟨c.pos + bs.length, shifts⟩) ∧
    ∀ (bss : List (List Byte)) (rest : List Byte), (∀ bs ∈ bss, Encoding bs) →
      pData.drop c.pos = bss.flatten ++ rest →
      ∃ shifts, getPrices pData bss.length c =
        .ok (bss.map signedValue) ⟨c.pos + bss.flatten.length, shifts⟩ := by
  refine ⟨?_, ?_, ?_⟩
  · intro bs rest hbs h
    refine ⟨strictPrice_of_encoding hbs h, getPrice_of_encoding hbs h, ?_⟩
    exact add_length_le_of_drop h hbs.isPrice.length_pos
  · intro v hv
    have habs : v.natAbs ≤ 2 ^ 31 - 1 := by
      rw [Int.abs_eq_natAbs] at hv
      omega
    refine ⟨encodePrice_shortest habs, ?_⟩
    intro bs rest hbs h
    have hread := getPrice_of_encoding (hbs.encoding habs) h
    rwa [hbs.value] at hread
  · intro bss rest hbss h
    exact getPrices_of_encodings hbss h

def sampleFields : List (List Byte) :=
  [[0xBD, 0x0F], [0x07], [0x06], [0x07], [0x42], [0x93, 0xFD, 0xA6, 0x0E]]

theorem sampleFields_encoding : ∀ bs ∈ sampleFields, Encoding bs := by
  intro bs hbs
  simp only [sampleFields, List.mem_cons, List.not_mem_nil, or_false] at hbs
  refine ⟨?_, ?_, ?_⟩
  · rcases hbs with rfl | rfl | rfl | rfl | rfl | rfl <;> simp [isPrice_cons]
  · rcases hbs with rfl | rfl | rfl | rfl | rfl | rfl <;> decide
  · rcases hbs with rfl | rfl | rfl | rfl | rfl | rfl <;> decide

theorem getPrice_inverts_sample :
    (∃ shifts, getPrices (0x0E :: 0x0B :: (sampleFields.flatten ++ [0xFD, 0x0F])) 6 ⟨2, []⟩ =
      .ok [1021, 7, 6, 7, -2, 14999379] ⟨12, shifts⟩) ∧
    strictPrice (0x0E :: 0x0B :: (sampleFields.flatten ++ [0xFD, 0x0F])) 8 =
      some (14999379, 12) ∧
    ∃ shifts, getPrice (encodePrice (-1021) ++ [0x9E]) ⟨0, []⟩ =
      .ok (-1021) ⟨(encodePrice (-1021)).length, shifts⟩ := by
  refine ⟨?_, ?_, ?_⟩
  · exact (getPrice_inverts _ ⟨2, []⟩).2.2 sampleFields [0xFD, 0x0F] sampleFields_encoding rfl
  · exact ((getPrice_inverts _ ⟨8, []⟩).1 [0x93, 0xFD, 0xA6, 0x0E] [0xFD, 0x0F]
      (sampleFields_encoding _ (by decide)) rfl).1
  · obtain ⟨hshortest, hread⟩ := (getPrice_inverts (encodePrice (-1021) ++ [0x9E]) ⟨0, []⟩).2.1
      (-1021) (by decide)
    obtain ⟨shifts, hread⟩ := hread _ [0x9E] hshortest rfl
    rw [Nat.zero_add] at hread
    exact ⟨shifts, hread⟩

end TdxHq.Varint
