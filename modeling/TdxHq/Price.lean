import TdxHq.ByteBuffer

namespace TdxHq.Price

def wrap32 (z : ℤ) : ℤ := z.bmod (2 ^ 32)

/-- `x << s` on an `int`; the shift instruction looks at the low five bits of `s`. -/
def shl32 (x s : ℕ) : ℤ := wrap32 (x * 2 ^ (s % 32))

theorem wrap32_eq {z : ℤ} (hlo : -2 ^ 31 ≤ z) (hhi : z < 2 ^ 31) : wrap32 z = z :=
  Int.bmod_eq_of_le (by simpa using hlo) (by simpa using hhi)

theorem wrap32_natCast {n : ℕ} (hn : n < 2 ^ 31) : wrap32 n = n :=
  wrap32_eq (by omega) (by omega)

/-- Where the parser stands, and the amounts it has shifted by so far. -/
structure Cursor where
  pos : ℕ
  shifts : List ℕ
  deriving DecidableEq, Repr

abbrev ParseM := EStateM Fault Cursor

def advance (n : ℕ) : ParseM Unit := fun c => .ok () { c with pos := c.pos + n }

def load (pData : List Byte) (w : ℕ) : ParseM ℕ := fun c =>
  if c.pos + w ≤ pData.length then .ok (LittleEndian.value ((pData.drop c.pos).take w)) c
  else .error .invalidAccess c

def noteShift (posByte : ℕ) : ParseM Unit := fun c =>
  .ok () { c with shifts := c.shifts ++ [posByte] }

/-- The `do … while` loop of `getPrice`.  Every round reads a further byte of `pData`, so a
read outside it ends the loop before `fuel = pData.length` rounds are over. -/
def getPriceLoop (pData : List Byte) : ℕ → ℤ → ℕ → ParseM ℤ
  | 0, _, _ => throw .invalidAccess
  | fuel + 1, data, posByte => do
    advance 1
    let bdata ← load pData 1
    noteShift posByte
    let data := wrap32 (data + shl32 (bdata &&& 0x7f) posByte)
    if bdata &&& 0x80 ≠ 0 then getPriceLoop pData fuel data (posByte + 7) else return data

def getPrice (pData : List Byte) : ParseM ℤ := do
  let bdata ← load pData 1
  let data := ((bdata &&& 0x3f : ℕ) : ℤ)
  let bSign := bdata &&& 0x40 ≠ 0
  let data ← if bdata &&& 0x80 ≠ 0 then getPriceLoop pData pData.length data 6 else pure data
  -- `getPrice` leaves `pos` behind the last byte it has read
  advance 1
  return if bSign then wrap32 (-data) else data

theorem and_0x80 (b : Byte) : b.val &&& 0x80 ≠ 0 ↔ 128 ≤ b.val := by
  revert b
  decide +kernel

theorem and_0x40 (b : Byte) : b.val &&& 0x40 ≠ 0 ↔ 64 ≤ b.val % 128 := by
  revert b
  decide +kernel

theorem and_0x7f (n : ℕ) : n &&& 0x7f = n % 128 := Nat.and_two_pow_sub_one_eq_mod n 7

theorem and_0x3f (n : ℕ) : n &&& 0x3f = n % 64 := Nat.and_two_pow_sub_one_eq_mod n 6

def tailFold : ℤ → ℕ → List Byte → ℤ
  | data, _, [] => data
  | data, posByte, b :: bs =>
    tailFold (wrap32 (data + shl32 (b.val % 128) posByte)) (posByte + 7) bs

/-- The number the bytes of one price stand for. -/
def priceOf : List Byte → ℤ
  | [] => 0
  | b :: bs =>
    if 64 ≤ b.val % 128 then wrap32 (-tailFold (b.val % 64 : ℕ) 6 bs)
    else tailFold (b.val % 64 : ℕ) 6 bs

def shiftAmounts (posByte k : ℕ) : List ℕ := (List.range k).map fun i => posByte + 7 * i

/-- The bytes of one price: all but the last have bit `0x80`. -/
def IsPrice (bs : List Byte) : Prop :=
  ∃ init last, bs = init ++ [last] ∧ (∀ b ∈ init, 128 ≤ b.val) ∧ last.val < 128

theorem not_isPrice_nil : ¬ IsPrice [] := by
  rintro ⟨init, last, heq, -⟩
  simp at heq

theorem IsPrice.length_pos {bs : List Byte} (hbs : IsPrice bs) : 0 < bs.length := by
  obtain ⟨init, last, rfl, -⟩ := hbs
  simp

theorem isPrice_cons {b : Byte} {bs : List Byte} :
    IsPrice (b :: bs) ↔ (b.val < 128 ∧ bs = []) ∨ (128 ≤ b.val ∧ IsPrice bs) := by
  constructor
  · rintro ⟨init, last, heq, hinit, hlast⟩
    rcases init with _ | ⟨c, init⟩
    · obtain ⟨rfl, rfl⟩ := List.cons.inj heq
      exact Or.inl ⟨hlast, rfl⟩
    · obtain ⟨rfl, rfl⟩ := List.cons.inj heq
      exact Or.inr ⟨hinit b (by simp), init, last, rfl, fun c hc => hinit c (by simp [hc]), hlast⟩
  · rintro (⟨hb, rfl⟩ | ⟨hb, init, last, rfl, hinit, hlast⟩)
    · exact ⟨[], b, rfl, by simp, hb⟩
    · refine ⟨b :: init, last, rfl, ?_, hlast⟩
      simpa using ⟨hb, hinit⟩

theorem isPrice_prefix_or (l : List Byte) :
    (∃ bs rest, l = bs ++ rest ∧ IsPrice bs) ∨ ∀ b ∈ l, 128 ≤ b.val := by
  induction l with
  | nil => exact Or.inr (by simp)
  | cons b l ih =>
    by_cases hb : b.val < 128
    · exact Or.inl ⟨[b], l, rfl, isPrice_cons.mpr (Or.inl ⟨hb, rfl⟩)⟩
    · rcases ih with ⟨bs, rest, rfl, hbs⟩ | hall
      · exact Or.inl ⟨b :: bs, rest, rfl, isPrice_cons.mpr (Or.inr ⟨by omega, hbs⟩)⟩
      · refine Or.inr fun c hc => ?_
        rcases List.mem_cons.mp hc with rfl | hc
        · omega
        · exact hall c hc

theorem shiftAmounts_succ (posByte k : ℕ) :
    shiftAmounts posByte (k + 1) = posByte :: shiftAmounts (posByte + 7) k := by
  simp only [shiftAmounts, List.range_succ_eq_map, List.map_cons, List.map_map, Nat.mul_zero,
    Nat.add_zero]
  congr 1
  apply List.map_congr_left
  intro i _
  simp only [Function.comp_apply, Nat.succ_eq_add_one]
  omega

theorem add_length_le_of_drop {pData bs rest : List Byte} {p : ℕ}
    (h : pData.drop p = bs ++ rest) (hpos : 0 < bs.length) : p + bs.length ≤ pData.length := by
  have hlen := congrArg List.length h
  simp only [List.length_drop, List.length_append] at hlen
  omega

theorem load_of_drop {pData bs rest : List Byte} {c : Cursor} (h : pData.drop c.pos = bs ++ rest)
    {w : ℕ} (hw : bs.length = w) (hpos : 0 < w) :
    load pData w c = .ok (LittleEndian.value bs) c := by
  have hlen := add_length_le_of_drop h (by omega)
  rw [load, if_pos (by omega), h, List.take_left' hw]

theorem load_past {pData : List Byte} {c : Cursor} {w : ℕ}
    (h : (pData.drop c.pos).length < w) : load pData w c = .error .invalidAccess c := by
  rw [List.length_drop] at h
  rw [load, if_neg (by omega)]

theorem drop_add_of_drop {pData bs rest : List Byte} {p : ℕ} (h : pData.drop p = bs ++ rest) :
    pData.drop (p + bs.length) = rest := by
  rw [← List.drop_drop, h, List.drop_left]

theorem load_byte {pData rest : List Byte} {b : Byte} {c : Cursor}
    (h : pData.drop c.pos = b :: rest) : load pData 1 c = .ok b.val c := by
  have hload : load pData 1 c = .ok (LittleEndian.value [b]) c := load_of_drop h rfl Nat.one_pos
  rw [hload]
  simp [LittleEndian.value]

theorem drop_succ_of_drop {pData rest : List Byte} {b : Byte} {p : ℕ}
    (h : pData.drop p = b :: rest) : pData.drop (p + 1) = rest := by
  rw [← List.drop_drop, h, List.drop_one, List.tail_cons]

theorem getPriceLoop_succ {pData rest : List Byte} {b : Byte} {c : Cursor}
    (h : pData.drop (c.pos + 1) = b :: rest) (fuel : ℕ) (data : ℤ) (posByte : ℕ) :
    getPriceLoop pData (fuel + 1) data posByte c =
      if 128 ≤ b.val then
        getPriceLoop pData fuel (wrap32 (data + shl32 (b.val % 128) posByte)) (posByte + 7)
          ⟨c.pos + 1, c.shifts ++ [posByte]⟩
      else .ok (wrap32 (data + shl32 (b.val % 128) posByte))
        ⟨c.pos + 1, c.shifts ++ [posByte]⟩ := by
  have hadv : advance 1 c = .ok () ⟨c.pos + 1, c.shifts⟩ := rfl
  have hload : load pData 1 ⟨c.pos + 1, c.shifts⟩ = .ok b.val ⟨c.pos + 1, c.shifts⟩ :=
    load_byte h
  have hnote : noteShift posByte ⟨c.pos + 1, c.shifts⟩ =
    .ok () ⟨c.pos + 1, c.shifts ++ [posByte]⟩ := rfl
  rw [getPriceLoop, Reader.bind_of_ok hadv, Reader.bind_of_ok hload, Reader.bind_of_ok hnote]
  simp only [and_0x80, and_0x7f]
  split_ifs
  · rfl
  · rfl

theorem getPriceLoop_of_isPrice {pData bs : List Byte} (hbs : IsPrice bs) :
    ∀ (fuel : ℕ) (data : ℤ) (posByte : ℕ) (c : Cursor) (rest : List Byte),
      pData.drop (c.pos + 1) = bs ++ rest → bs.length ≤ fuel →
      getPriceLoop pData fuel data posByte c = .ok (tailFold data posByte bs)
        ⟨c.pos + bs.length, c.shifts ++ shiftAmounts posByte bs.length⟩ := by
  induction bs with
  | nil => exact absurd hbs not_isPrice_nil
  | cons b bs ih =>
    intro fuel data posByte c rest h hfuel
    obtain ⟨fuel, rfl⟩ := Nat.exists_eq_add_of_lt (Nat.lt_of_lt_of_le (Nat.succ_pos _) hfuel)
    rw [getPriceLoop_succ h]
    -- the loop ends here, or the price goes on with `bs`
    rcases isPrice_cons.mp hbs with ⟨hb, rfl⟩ | ⟨hb, hbs'⟩
    · rw [if_neg (by omega)]
      simp [tailFold, shiftAmounts]
    · have hnext : pData.drop (c.pos + 1 + 1) = bs ++ rest := drop_succ_of_drop h
      rw [if_pos hb, ih hbs' _ _ _ ⟨c.pos + 1, c.shifts ++ [posByte]⟩ rest hnext
        (by simp only [List.length_cons] at hfuel; omega)]
      simp only [tailFold, List.length_cons, shiftAmounts_succ, List.append_assoc,
        List.cons_append, List.nil_append, Nat.add_assoc, Nat.add_comm 1]

theorem getPriceLoop_open {pData : List Byte} (fuel : ℕ) :
    ∀ (data : ℤ) (posByte : ℕ) (c : Cursor), (∀ b ∈ pData.drop (c.pos + 1), 128 ≤ b.val) →
      ∃ c', getPriceLoop pData fuel data posByte c = .error .invalidAccess c' := by
  induction fuel with
  | zero =>
    intro data posByte c _
    exact ⟨c, rfl⟩
  | succ fuel ih =>
    intro data posByte c hall
    cases h : pData.drop (c.pos + 1) with
    | nil =>
      have hload : load pData 1 ⟨c.pos + 1, c.shifts⟩ =
          .error .invalidAccess ⟨c.pos + 1, c.shifts⟩ := load_past (by simp [h])
      refine ⟨⟨c.pos + 1, c.shifts⟩, ?_⟩
      have hadv : advance 1 c = .ok () ⟨c.pos + 1, c.shifts⟩ := rfl
      rw [getPriceLoop, Reader.bind_of_ok hadv, Reader.bind_of_error hload]
    | cons b rest =>
      rw [h] at hall
      rw [getPriceLoop_succ h, if_pos (hall b (by simp))]
      apply ih
      have hnext : pData.drop (c.pos + 1 + 1) = rest := drop_succ_of_drop h
      rw [hnext]
      exact fun b' hb' => hall b' (by simp [hb'])

/-- One price is read to its last byte; the value depends on its bytes alone. -/
theorem getPrice_of_isPrice {pData bs rest : List Byte} {c : Cursor} (hbs : IsPrice bs)
    (h : pData.drop c.pos = bs ++ rest) :
    getPrice pData c =
      .ok (priceOf bs) ⟨c.pos + bs.length, c.shifts ++ shiftAmounts 6 (bs.length - 1)⟩ := by
  rcases bs with _ | ⟨b, bs⟩
  · exact absurd hbs not_isPrice_nil
  have hload : load pData 1 c = .ok b.val c := load_byte h
  rw [getPrice, Reader.bind_of_ok hload]
  simp only [and_0x80, and_0x40, and_0x3f]
  rcases isPrice_cons.mp hbs with ⟨hb, rfl⟩ | ⟨hb, hbs'⟩
  · simp only [show ¬ 128 ≤ b.val by omega, if_false]
    simp [priceOf, tailFold, shiftAmounts, advance, bind, EStateM.bind, pure, EStateM.pure]
  · have hnext : pData.drop (c.pos + 1) = bs ++ rest := drop_succ_of_drop h
    have hfuel : bs.length ≤ pData.length := by
      have hlen := add_length_le_of_drop hnext hbs'.length_pos
      omega
    simp only [if_pos hb]
    rw [Reader.bind_of_ok (getPriceLoop_of_isPrice hbs' pData.length _ 6 c rest hnext hfuel)]
    simp [priceOf, advance, bind, EStateM.bind, pure, EStateM.pure, Nat.add_assoc]

theorem getPrice_open {pData : List Byte} {c : Cursor}
    (hall : ∀ b ∈ pData.drop c.pos, 128 ≤ b.val) :
    ∃ c', getPrice pData c = .error .invalidAccess c' := by
  cases h : pData.drop c.pos with
  | nil => exact ⟨c, by rw [getPrice, Reader.bind_of_error (load_past (by simp [h]))]⟩
  | cons b rest =>
    rw [h] at hall
    have hload : load pData 1 c = .ok b.val c := load_byte h
    have hnext : pData.drop (c.pos + 1) = rest := drop_succ_of_drop h
    obtain ⟨c', hloop⟩ := getPriceLoop_open pData.length
      ((b.val % 64 : ℕ) : ℤ) 6 c (by
        rw [hnext]
        exact fun b' hb' => hall b' (by simp [hb']))
    refine ⟨c', ?_⟩
    rw [getPrice, Reader.bind_of_ok hload]
    simp only [and_0x80, and_0x40, and_0x3f, if_pos (hall b (by simp))]
    rw [Reader.bind_of_error hloop]

theorem getPrice_eq_ok {pData : List Byte} {c c' : Cursor} {v : ℤ}
    (h : getPrice pData c = .ok v c') :
    ∃ bs rest, pData.drop c.pos = bs ++ rest ∧ IsPrice bs ∧ v = priceOf bs ∧
      c' = ⟨c.pos + bs.length, c.shifts ++ shiftAmounts 6 (bs.length - 1)⟩ := by
  rcases isPrice_prefix_or (pData.drop c.pos) with ⟨bs, rest, hd, hbs⟩ | hall
  · rw [getPrice_of_isPrice hbs hd, EStateM.Result.ok.injEq] at h
    exact ⟨bs, rest, hd, hbs, h.1.symm, h.2.symm⟩
  · obtain ⟨c₁, herr⟩ := getPrice_open hall
    rw [herr] at h
    cases h

def ahead (pData : List Byte) (c : Cursor) : List Byte := pData.drop c.pos

/-- All shifts so far were by less than the width of an `int`. -/
def InWidth (c : Cursor) : Prop := ∀ s ∈ c.shifts, s < 32

def next (pData : List Byte) (w : ℕ) : ParseM ℕ := do
  let x ← load pData w
  advance w
  return x

def chunk (w : ℕ) : Language Byte := {bs | bs.length = w}

/-- The prices that no shift takes out of an `int`. -/
def shortPrice : Language Byte := {bs | IsPrice bs ∧ bs.length ≤ 5}

theorem mem_chunk {w : ℕ} {bs : List Byte} : bs ∈ chunk w ↔ bs.length = w := Iff.rfl

theorem next_of_drop {pData bs rest : List Byte} {c : Cursor} {w : ℕ}
    (h : pData.drop c.pos = bs ++ rest) (hw : bs.length = w) (hpos : 0 < w) :
    next pData w c = .ok (LittleEndian.value bs) ⟨c.pos + w, c.shifts⟩ := by
  rw [next, Reader.bind_of_ok (load_of_drop h hw hpos)]
  rfl

theorem next_eq_ok {pData : List Byte} {c c' : Cursor} {w n : ℕ} (hpos : 0 < w)
    (h : next pData w c = .ok n c') :
    w ≤ (pData.drop c.pos).length ∧ n = LittleEndian.value ((pData.drop c.pos).take w) ∧
      c' = ⟨c.pos + w, c.shifts⟩ := by
  by_cases hlen : w ≤ (pData.drop c.pos).length
  · have hsplit : pData.drop c.pos = (pData.drop c.pos).take w ++ (pData.drop c.pos).drop w :=
      (List.take_append_drop w _).symm
    rw [next_of_drop hsplit (List.length_take_of_le hlen) hpos, EStateM.Result.ok.injEq] at h
    exact ⟨hlen, h.1.symm, h.2.symm⟩
  · rw [next, Reader.bind_of_error (load_past (by omega))] at h
    cases h

theorem next_accepts (pData : List Byte) {w : ℕ} (hpos : 0 < w) :
    Reader.Accepts InWidth (ahead pData) (next pData w) (chunk w) where
  back h hg := by
    obtain ⟨-, -, rfl⟩ := next_eq_ok hpos h
    exact hg
  sound {c n c'} h _ := by
    obtain ⟨hlen, -, rfl⟩ := next_eq_ok hpos h
    refine ⟨(pData.drop c.pos).take w, List.length_take_of_le hlen, ?_⟩
    rw [ahead, ahead, ← List.drop_drop, List.take_append_drop]
  complete {c bs rest} hg hbs hv := by
    refine ⟨_, _, next_of_drop hv hbs hpos, hg, ?_⟩
    have hrest := drop_add_of_drop hv
    rwa [show bs.length = w from hbs] at hrest

theorem next_reads (pData bs : List Byte) {w : ℕ} (hw : bs.length = w) (hpos : 0 < w) :
    Reader.Reads (fun _ => True) (ahead pData) (next pData w) bs (LittleEndian.value bs) := by
  intro c rest _ hv
  refine ⟨_, next_of_drop hv hw hpos, trivial, ?_⟩
  rw [← hw]
  exact drop_add_of_drop hv

theorem shiftAmounts_lt_iff (k : ℕ) : (∀ s ∈ shiftAmounts 6 k, s < 32) ↔ k ≤ 4 := by
  constructor
  · intro h
    by_contra hk
    have hmem : 6 + 7 * 4 ∈ shiftAmounts 6 k :=
      List.mem_map.mpr ⟨4, List.mem_range.mpr (by omega), rfl⟩
    exact absurd (h _ hmem) (by decide)
  · intro hk s hs
    obtain ⟨i, hi, rfl⟩ := List.mem_map.mp hs
    have hlt := List.mem_range.mp hi
    omega

theorem inWidth_append_iff {c : Cursor} {p k : ℕ} :
    InWidth ⟨p, c.shifts ++ shiftAmounts 6 k⟩ ↔ InWidth c ∧ k ≤ 4 := by
  rw [← shiftAmounts_lt_iff]
  simp only [InWidth, List.mem_append, or_imp, forall_and]

/-- `getPrice` stays inside the body and within the width of an `int` exactly on the
prices of at most five bytes. -/
theorem getPrice_accepts (pData : List Byte) :
    Reader.Accepts InWidth (ahead pData) (getPrice pData) shortPrice where
  back h hg := by
    obtain ⟨bs, rest, -, -, -, rfl⟩ := getPrice_eq_ok h
    exact (inWidth_append_iff.mp hg).1
  sound {c v c'} h hg := by
    obtain ⟨bs, rest, hd, hbs, -, rfl⟩ := getPrice_eq_ok h
    have hk := (inWidth_append_iff.mp hg).2
    refine ⟨bs, ⟨hbs, by omega⟩, ?_⟩
    rw [ahead, ahead, drop_add_of_drop hd, hd]
  complete {c bs rest} hg hbs hv := by
    have hlen : bs.length - 1 ≤ 4 := by
      have := hbs.2
      omega
    exact ⟨_, _, getPrice_of_isPrice hbs.1 hv, inWidth_append_iff.mpr ⟨hg, hlen⟩,
      drop_add_of_drop hv⟩

theorem getPrice_reads (pData : List Byte) {bs : List Byte} (hbs : IsPrice bs) :
    Reader.Reads (fun _ => True) (ahead pData) (getPrice pData) bs (priceOf bs) := by
  intro c rest _ hv
  exact ⟨_, getPrice_of_isPrice hbs hv, trivial, drop_add_of_drop hv⟩

def tailValue : List Byte → ℕ
  | [] => 0
  | b :: bs => b.val % 128 + 128 * tailValue bs

def magnitude : List Byte → ℕ
  | [] => 0
  | b :: bs => b.val % 64 + 64 * tailValue bs

theorem add_tailValue_cons (b : Byte) (bs : List Byte) (data posByte : ℕ) :
    data + 2 ^ posByte * tailValue (b :: bs) =
      data + b.val % 128 * 2 ^ posByte + 2 ^ (posByte + 7) * tailValue bs := by
  simp only [tailValue, pow_add]
  ring

theorem tailFold_eq (bs : List Byte) (data posByte : ℕ) (hpos : posByte + 7 * bs.length < 32 + 7)
    (hfit : data + 2 ^ posByte * tailValue bs < 2 ^ 31) :
    tailFold data posByte bs = (data + 2 ^ posByte * tailValue bs : ℕ) := by
  induction bs generalizing data posByte with
  | nil => simp [tailFold, tailValue]
  | cons b bs ih =>
    rw [add_tailValue_cons] at hfit ⊢
    simp only [List.length_cons] at hpos
    -- the term and the partial sum are at most the whole sum, so neither wraps
    have hterm : shl32 (b.val % 128) posByte = (b.val % 128 * 2 ^ posByte : ℕ) := by
      have hlt : b.val % 128 * 2 ^ posByte < 2 ^ 31 := by omega
      rw [shl32, Nat.mod_eq_of_lt (show posByte < 32 by omega), ← wrap32_natCast hlt]
      push_cast
      rfl
    have hstep : wrap32 (data + shl32 (b.val % 128) posByte) =
        (data + b.val % 128 * 2 ^ posByte : ℕ) := by
      rw [hterm, ← Nat.cast_add, wrap32_natCast (by omega)]
    rw [tailFold, hstep, ih _ _ (by omega) hfit]

theorem priceOf_eq {b : Byte} {bs : List Byte} (hlen : (b :: bs).length ≤ 5)
    (hfit : magnitude (b :: bs) < 2 ^ 31) :
    priceOf (b :: bs) =
      if 64 ≤ b.val % 128 then -(magnitude (b :: bs) : ℤ) else magnitude (b :: bs) := by
  simp only [List.length_cons] at hlen
  have htail : tailFold (b.val % 64 : ℕ) 6 bs = (magnitude (b :: bs) : ℕ) :=
    tailFold_eq bs (b.val % 64) 6 (by omega) hfit
  rw [priceOf, htail, wrap32_eq (by norm_cast at hfit ⊢; omega) (by norm_cast at hfit ⊢; omega)]

def encodeTail : ℕ → ℕ → List Byte
  | 0, n => [Fin.ofNat 256 (n % 128)]
  | more + 1, n =>
    if n < 128 then [Fin.ofNat 256 n]
    else Fin.ofNat 256 (128 + n % 128) :: encodeTail more (n / 128)

def signBit (v : ℤ) : ℕ := if v < 0 then 64 else 0

/-- The shortest encoding of a number; 34 bits are room enough for every `int`. -/
def encodePrice (v : ℤ) : List Byte :=
  if v.natAbs < 64 then [Fin.ofNat 256 (signBit v + v.natAbs)]
  else Fin.ofNat 256 (128 + signBit v + v.natAbs % 64) :: encodeTail 3 (v.natAbs / 64)

theorem encodeTail_isPrice (more n : ℕ) : IsPrice (encodeTail more n) := by
  induction more generalizing n with
  | zero => exact isPrice_cons.mpr (Or.inl ⟨by simp [Fin.ofNat]; omega, rfl⟩)
  | succ more ih =>
    rw [encodeTail]
    split_ifs with hn
    · exact isPrice_cons.mpr (Or.inl ⟨by simp [Fin.ofNat]; omega, rfl⟩)
    · exact isPrice_cons.mpr (Or.inr ⟨by simp [Fin.ofNat]; omega, ih (n / 128)⟩)

theorem encodeTail_length (more n : ℕ) : (encodeTail more n).length ≤ more + 1 := by
  induction more generalizing n with
  | zero => simp [encodeTail]
  | succ more ih =>
    have hrest := ih (n / 128)
    rw [encodeTail]
    split_ifs
    · simp
    · simpa using hrest

theorem tailValue_encodeTail (more n : ℕ) (hn : n < 128 ^ (more + 1)) :
    tailValue (encodeTail more n) = n := by
  induction more generalizing n with
  | zero =>
    simp only [encodeTail, tailValue, Fin.ofNat]
    omega
  | succ more ih =>
    have hrest := ih (n / 128) (by rw [pow_succ] at hn; omega)
    rw [encodeTail]
    split_ifs with hsmall
    · simp only [tailValue, Fin.ofNat]
      omega
    · simp only [tailValue, hrest, Fin.ofNat]
      omega

theorem signBit_cases (v : ℤ) : (v < 0 ∧ signBit v = 64) ∨ (0 ≤ v ∧ signBit v = 0) := by
  unfold signBit
  split_ifs with hv
  · exact Or.inl ⟨hv, rfl⟩
  · exact Or.inr ⟨by omega, rfl⟩

theorem encodePrice_isPrice (v : ℤ) : IsPrice (encodePrice v) := by
  have hsign := signBit_cases v
  unfold encodePrice
  split_ifs with hsmall
  · refine isPrice_cons.mpr (Or.inl ⟨?_, rfl⟩)
    simp only [Fin.ofNat]
    omega
  · refine isPrice_cons.mpr (Or.inr ⟨?_, encodeTail_isPrice 3 _⟩)
    simp only [Fin.ofNat]
    omega

theorem encodePrice_length (v : ℤ) : (encodePrice v).length ≤ 5 := by
  have htail := encodeTail_length 3 (v.natAbs / 64)
  unfold encodePrice
  split_ifs
  · simp
  · simp only [List.length_cons]
    omega

theorem magnitude_encodePrice {v : ℤ} (hv : v.natAbs < 2 ^ 31) :
    magnitude (encodePrice v) = v.natAbs := by
  have hsign := signBit_cases v
  have htail : tailValue (encodeTail 3 (v.natAbs / 64)) = v.natAbs / 64 :=
    tailValue_encodeTail 3 _ (by omega)
  unfold encodePrice
  split_ifs with hsmall
  · simp only [magnitude, tailValue, Fin.ofNat]
    omega
  · simp only [magnitude, htail, Fin.ofNat]
    omega

theorem priceOf_encodePrice {v : ℤ} (hv : v.natAbs < 2 ^ 31) : priceOf (encodePrice v) = v := by
  have hsign := signBit_cases v
  have hlen := encodePrice_length v
  have hmag := magnitude_encodePrice hv
  unfold encodePrice at hlen hmag ⊢
  split_ifs at hlen hmag ⊢ with hsmall
  · rw [priceOf_eq hlen (by omega), hmag]
    simp only [Fin.ofNat]
    split_ifs <;> omega
  · rw [priceOf_eq hlen (by omega), hmag]
    simp only [Fin.ofNat]
    split_ifs <;> omega

end TdxHq.Price
