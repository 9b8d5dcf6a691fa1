import TdxHq.ByteBuffer
import TdxHq.Library.SortedMap

namespace TdxHq.Serialize
open CByteBuffer

inductive IntTy
  | uint8 | uint16 | uint32 | uint64 | int8 | int16 | int32
  deriving DecidableEq, Repr

namespace IntTy

def width : IntTy → ℕ
  | uint8 | int8 => 1
  | uint16 | int16 => 2
  | uint32 | int32 => 4
  | uint64 => 8

def signed : IntTy → Bool
  | int8 | int16 | int32 => true
  | _ => false

def range (s : IntTy) : ℤ := 256 ^ s.width

def lo (s : IntTy) : ℤ := if s.signed then -(s.range / 2) else 0

def hi (s : IntTy) : ℤ := (if s.signed then s.range / 2 else s.range) - 1

abbrev Val (s : IntTy) := { z : ℤ // s.lo ≤ z ∧ z ≤ s.hi }

/-- The unsigned number with the same bytes (two's complement). -/
def toRep (s : IntTy) (z : s.Val) : ℕ := (z.val % s.range).toNat

def reading (s : IntTy) (m : ℤ) : ℤ := if s.signed ∧ s.range ≤ 2 * m then m - s.range else m

theorem reading_mem (s : IntTy) {m : ℤ} (h0 : 0 ≤ m) (h : m < s.range) :
    s.lo ≤ s.reading m ∧ s.reading m ≤ s.hi := by
  cases s <;> simp only [reading, lo, hi, range, width, signed, true_and, false_and,
    Bool.false_eq_true, ↓reduceIte] at h ⊢ <;> omega

theorem range_pos (s : IntTy) : 0 < s.range := by cases s <;> decide

def ofRep (s : IntTy) (n : ℕ) : s.Val :=
  ⟨s.reading (n % s.range), s.reading_mem (Int.emod_nonneg _ s.range_pos.ne')
    (Int.emod_lt_of_pos _ s.range_pos)⟩

theorem width_pos (s : IntTy) : 0 < s.width := by cases s <;> decide

theorem width_le (s : IntTy) : s.width ≤ 8 := by cases s <;> decide

theorem toRep_lt (s : IntTy) (z : s.Val) : s.toRep z < 256 ^ s.width := by
  have h := Int.emod_lt_of_pos z.val s.range_pos
  have h0 := Int.emod_nonneg z.val s.range_pos.ne'
  have hr : s.range = ((256 ^ s.width : ℕ) : ℤ) := by simp [range]
  rw [toRep]
  omega

theorem reading_emod (s : IntTy) (z : s.Val) : s.reading (z.val % s.range) = z.val := by
  obtain ⟨z, hlo, hhi⟩ := z
  cases s <;> simp only [reading, lo, hi, range, width, signed, true_and, false_and,
    Bool.false_eq_true, ↓reduceIte] at hlo hhi ⊢ <;> omega

theorem ofRep_toRep (s : IntTy) (z : s.Val) : s.ofRep (s.toRep z) = z := by
  apply Subtype.ext
  simp only [ofRep, toRep]
  rw [Int.toNat_of_nonneg (Int.emod_nonneg _ s.range_pos.ne'), Int.emod_emod_of_dvd _ dvd_rfl,
    reading_emod]

theorem toRep_ofRep (s : IntTy) {n : ℕ} (h : n < 256 ^ s.width) : s.toRep (s.ofRep n) = n := by
  cases s <;> simp only [toRep, ofRep, reading, range, width, signed, true_and, false_and,
    Bool.false_eq_true, ↓reduceIte] at h ⊢ <;> omega

end IntTy

/-- The types that both operators accept.  `operator>>(time_t)` makes `>>` ambiguous for `int64`,
and a load may change a `float` or `double`, so these three are left out. -/
inductive Ty
  | bool
  | int (s : IntTy)
  | string
  | vector (t : Ty)
  | map (k v : Ty)
  deriving DecidableEq, Repr

/-- A C++ type with its `std::less`. -/
structure Ordered where
  carrier : Type
  order : LinearOrder carrier

instance (o : Ordered) : LinearOrder o.carrier := o.order

/-- The values of a type.  Strings and containers compare lexicographically, characters
as unsigned bytes, as `std::less` does; the keys of a map are in this order. -/
def Ty.ordered : Ty → Ordered
  | .bool => ⟨Bool, inferInstance⟩
  | .int s => ⟨s.Val, inferInstance⟩
  | .string => ⟨List Byte, inferInstance⟩
  | .vector t => ⟨List t.ordered.carrier, inferInstance⟩
  | .map k v => ⟨SortedMap k.ordered.carrier v.ordered.carrier, inferInstance⟩

abbrev Ty.Val (t : Ty) : Type := t.ordered.carrier

def write (build : Build) : (t : Ty) → t.Val → BufferM Unit
  | .bool, value => appendScalar build 1 (Bool.toNat value)
  | .int s, value => appendScalar build s.width (s.toRep value)
  | .string, value => do
    append build value (List.length value)
    appendScalar build 1 0
  | .vector t, v => do
    appendScalar build 4 (List.length v)
    List.forM v (write build t)
  | .map k v, m => do
    appendScalar build 4 (SortedMap.entries m).length
    (SortedMap.entries m).forM fun e => do
      write build k e.1
      write build v e.2

def read : (t : Ty) → BufferM t.Val
  | .bool => do
    -- `read<char>() > 0`, and `char` is signed
    let c ← readScalar 1
    return decide (0 < c ∧ c < 128)
  | .int s => do
    let n ← readScalar s.width
    return s.ofRep n
  | .string => readString
  | .vector t => do
    let vsize ← readScalar 4
    Reader.iterate (fun v : List t.Val => do
      let x ← read t
      return v ++ [x]) vsize []
  | .map k v => do
    let msize ← readScalar 4
    Reader.iterate (fun m : SortedMap k.Val v.Val => do
      let a ← read k
      let x ← read v
      return m.insert (a, x)) msize SortedMap.empty

abbrev Item := Σ t : Ty, t.Val

def writeAll (build : Build) (vs : List Item) : BufferM Unit :=
  vs.forM fun v => write build v.1 v.2

def readAll : List Ty → BufferM (List Item)
  | [] => return []
  | t :: ts => do
    let v ← read t
    let vs ← readAll ts
    return ⟨t, v⟩ :: vs

def terminated (str : List Byte) : List Byte := str ++ [0]

@[simp] theorem terminated_length (str : List Byte) :
    (terminated str).length = str.length + 1 := by
  simp [terminated]

/-- The bytes of a value, written down without the buffer. -/
def encode : (t : Ty) → t.Val → List Byte
  | .bool, value => LittleEndian.toBytes 1 (Bool.toNat value)
  | .int s, value => LittleEndian.toBytes s.width (s.toRep value)
  | .string, value => terminated value
  | .vector t, v => LittleEndian.toBytes 4 (List.length v) ++ List.flatMap (encode t) v
  | .map k v, m => LittleEndian.toBytes 4 (SortedMap.entries m).length ++
      (SortedMap.entries m).flatMap fun e => encode k e.1 ++ encode v e.2

def encodeAll (vs : List Item) : List Byte := vs.flatMap fun v => encode v.1 v.2

theorem encode_length_pos (t : Ty) (v : t.Val) : 0 < (encode t v).length := by
  cases t with
  | bool => simp [encode]
  | int s => simpa [encode] using s.width_pos
  | string => exact Nat.lt_of_lt_of_eq (Nat.succ_pos _) (terminated_length v).symm
  | vector t => simp [encode]
  | map k v => simp [encode]

theorem write_appends (build : Build) (t : Ty) (v : t.Val) :
    Appends build (write build t v) (encode t v) := by
  induction t with
  | bool => exact appends_scalar build 1 _
  | int s => exact appends_scalar build s.width _
  | string => exact (appends_append build v).bind (appends_scalar build 1 0)
  | vector t ih =>
    exact (appends_scalar build 4 _).bind (Appends.forM (encode t) v fun x _ => ih x)
  | map k t ihk iht =>
    refine (appends_scalar build 4 _).bind (Appends.forM _ (SortedMap.entries v) fun e _ => ?_)
    exact (ihk e.1).bind (iht e.2)

theorem writeAll_appends (build : Build) (vs : List Item) :
    Appends build (writeAll build vs) (encodeAll vs) :=
  Appends.forM _ vs fun v _ => write_appends build v.1 v.2

def NulFree : (t : Ty) → t.Val → Prop
  | .bool, _ => True
  | .int _, _ => True
  | .string, value => 0 ∉ (show List Byte from value)
  | .vector t, v => ∀ x ∈ (show List t.Val from v), NulFree t x
  | .map k v, m => ∀ e ∈ SortedMap.entries m, NulFree k e.1 ∧ NulFree v e.2

instance decidableNulFree : (t : Ty) → (v : t.Val) → Decidable (NulFree t v)
  | .bool, _ => isTrue trivial
  | .int _, _ => isTrue trivial
  | .string, value => inferInstanceAs (Decidable (0 ∉ (show List Byte from value)))
  | .vector t, v =>
    have := decidableNulFree t
    inferInstanceAs (Decidable (∀ x ∈ (show List t.Val from v), NulFree t x))
  | .map k v, m =>
    have := decidableNulFree k
    have := decidableNulFree v
    inferInstanceAs (Decidable (∀ e ∈ SortedMap.entries m, NulFree k e.1 ∧ NulFree v e.2))

/-- A buffer that is only being read: data and write cursor stay as they are. -/
structure Reading (storage : List Byte) (wpos : ℕ) (b : CByteBuffer) : Prop where
  storage_eq : b.mStorage = storage
  wpos_eq : b.mWritePos = wpos
  ready : b.Ready

section Reading

variable {storage : List Byte} {wpos : ℕ}

theorem Reading.skip {b : CByteBuffer} (hb : Reading storage wpos b) {n : ℕ}
    (h : n ≤ b.unread.length) : Reading storage wpos (b.skip n) :=
  ⟨hb.storage_eq, hb.wpos_eq, hb.ready.skip h⟩

theorem readScalar_reads {w n : ℕ} (hw : 0 < w) (hn : n < 256 ^ w) :
    Reader.Reads (Reading storage wpos) unread (readScalar w) (LittleEndian.toBytes w n) n := by
  intro b rest hb hv
  have hlen : w ≤ b.unread.length := by simp [hv]
  have htake : b.unread.take w = LittleEndian.toBytes w n := by
    rw [hv, List.take_left' (LittleEndian.toBytes_length w n)]
  refine ⟨b.skip w, ?_, hb.skip hlen, ?_⟩
  · rw [readScalar_ok hb.ready hw hlen, htake, LittleEndian.value_toBytes hn]
  · rw [skip_unread, hv, List.drop_left' (LittleEndian.toBytes_length w n)]

theorem readString_reads {str : List Byte} (hstr : 0 ∉ str) :
    Reader.Reads (Reading storage wpos) unread readString (terminated str) str := by
  intro b rest hb hv
  have hu : b.unread = str ++ 0 :: rest := by simpa [terminated] using hv
  have hlen : str.length + 1 ≤ b.unread.length := by simp [hu]
  exact ⟨b.skip (str.length + 1), readString_terminated hb.ready hstr hu, hb.skip hlen,
    by simp [hu]⟩

theorem foldl_push_back {α : Type} (v w : List α) :
    v.foldl (fun v x => v ++ [x]) w = w ++ v := by
  induction v generalizing w with
  | nil => simp
  | cons x v ih => simp [ih]

theorem length_le_flatMap_of_mem {α : Type} (enc : α → List Byte) {xs : List α} {x : α}
    (hx : x ∈ xs) : (enc x).length ≤ (xs.flatMap enc).length :=
  (List.sublist_flatten_of_mem (List.mem_map_of_mem hx)).length_le

theorem read_bool_reads (v : Bool) :
    Reader.Reads (Reading storage wpos) unread (read .bool) (encode .bool v) v := by
  have hn : v.toNat < 256 ^ 1 := by cases v <;> decide
  have h : Reader.Reads (Reading storage wpos) unread (read .bool) (encode .bool v)
      (decide (0 < v.toNat ∧ v.toNat < 128)) :=
    (readScalar_reads (by decide) hn).map fun c => decide (0 < c ∧ c < 128)
  cases v <;> exact h

theorem read_int_reads (s : IntTy) (v : s.Val) :
    Reader.Reads (Reading storage wpos) unread (read (.int s)) (encode (.int s) v) v := by
  have h : Reader.Reads (Reading storage wpos) unread (read (.int s)) (encode (.int s) v)
      (s.ofRep (s.toRep v)) :=
    (readScalar_reads s.width_pos (s.toRep_lt v)).map s.ofRep
  rwa [s.ofRep_toRep] at h

theorem read_vector_reads {t : Ty} (v : List t.Val) (hcount : v.length < 256 ^ 4)
    (h : ∀ x ∈ v, Reader.Reads (Reading storage wpos) unread (read t) (encode t x) x) :
    Reader.Reads (Reading storage wpos) unread (read (.vector t)) (encode (.vector t) v) v := by
  have hloop := Reader.Reads.iterate (fun (v : List t.Val) x => v ++ [x]) (encode t) v
    (fun x hx w => (h x hx).map fun x => w ++ [x]) []
  rw [foldl_push_back, List.nil_append] at hloop
  exact (readScalar_reads (by decide) hcount).bind hloop

theorem read_map_reads {k t : Ty} (m : SortedMap k.Val t.Val)
    (hcount : m.entries.length < 256 ^ 4)
    (hk : ∀ e ∈ m.entries, Reader.Reads (Reading storage wpos) unread (read k) (encode k e.1) e.1)
    (ht : ∀ e ∈ m.entries, Reader.Reads (Reading storage wpos) unread (read t) (encode t e.2) e.2) :
    Reader.Reads (Reading storage wpos) unread (read (.map k t)) (encode (.map k t) m) m := by
  have hloop := Reader.Reads.iterate (fun (m : SortedMap k.Val t.Val) e => m.insert e)
    (fun e => encode k e.1 ++ encode t e.2) m.entries
    (fun e he w => (hk e he).bind (f := fun a => read t >>= fun x => pure (w.insert (a, x)))
      ((ht e he).map fun x => w.insert (e.1, x))) SortedMap.empty
  rw [SortedMap.foldl_insert_empty] at hloop
  exact (readScalar_reads (by decide) hcount).bind hloop

/-- Every reader consumes exactly what its writer produced, whatever follows. -/
theorem read_reads (t : Ty) (v : t.Val) (hnul : NulFree t v)
    (hlen : (encode t v).length < 256 ^ 4) :
    Reader.Reads (Reading storage wpos) unread (read t) (encode t v) v := by
  induction t with
  | bool => exact read_bool_reads v
  | int s => exact read_int_reads s v
  | string => exact readString_reads hnul
  | vector t ih =>
    simp only [encode, List.length_append] at hlen
    have hcount := Reader.length_le_flatMap (encode t) v fun x _ => encode_length_pos t x
    -- an element is no longer than the vector, and there are no more elements than bytes
    refine read_vector_reads v (by omega) fun x hx => ih x (hnul x hx) ?_
    have hx := length_le_flatMap_of_mem (encode t) hx
    omega
  | map k t ihk iht =>
    simp only [encode, List.length_append] at hlen
    have hcount := Reader.length_le_flatMap (fun e => encode k e.1 ++ encode t e.2)
      (SortedMap.entries v) fun e _ => by
        have := encode_length_pos k e.1
        rw [List.length_append]
        omega
    have hmem : ∀ e ∈ SortedMap.entries v,
        (encode k e.1).length < 256 ^ 4 ∧ (encode t e.2).length < 256 ^ 4 := by
      intro e he
      have he := length_le_flatMap_of_mem (fun e => encode k e.1 ++ encode t e.2) he
      rw [List.length_append] at he
      omega
    exact read_map_reads v (by omega) (fun e he => ihk e.1 (hnul e he).1 (hmem e he).1)
      (fun e he => iht e.2 (hnul e he).2 (hmem e he).2)

theorem readAll_reads (vs : List Item) (hnul : ∀ v ∈ vs, NulFree v.1 v.2)
    (hlen : (encodeAll vs).length < 256 ^ 4) :
    Reader.Reads (Reading storage wpos) unread (readAll (vs.map Sigma.fst)) (encodeAll vs) vs := by
  induction vs with
  | nil => exact Reader.Reads.pure []
  | cons v vs ih =>
    simp only [encodeAll, List.flatMap_cons, List.length_append] at hlen
    have hv : Reader.Reads (Reading storage wpos) unread (read v.1) (encode v.1 v.2) v.2 :=
      read_reads v.1 v.2 (hnul v (by simp)) (by omega)
    have hvs := ih (fun u hu => hnul u (by simp [hu])) (by simp only [encodeAll]; omega)
    exact hv.bind (hvs.map fun vs => v :: vs)

end Reading

/-- What is written with `<<` into a fresh buffer is read back with `>>` in the same order,
and nothing is left over. -/
theorem readAll_writeAll (build : Build) (vs : List Item) (hnul : ∀ v ∈ vs, NulFree v.1 v.2)
    (hsize : (encodeAll vs).length < 10000000) :
    ∃ b b', writeAll build vs fresh = .ok () b ∧ readAll (vs.map Sigma.fst) b = .ok vs b' ∧
      b'.mReadPos = b'.mWritePos ∧ b'.mWritePos = b'.size := by
  have hlim : 10000000 ≤ limit build := by cases build <;> decide
  have hw := writeAll_appends build vs fresh rfl (by rw [fresh_size]; omega)
  have hstart : Reading (encodeAll vs) (encodeAll vs).length (fresh.extend (encodeAll vs)) := by
    refine ⟨rfl, by simp [extend, fresh, size], ⟨Nat.zero_le _, ?_⟩⟩
    rw [extend_size, fresh_size, addressSpace]
    omega
  obtain ⟨b', hr, hb', hv'⟩ := readAll_reads vs hnul (by omega) _ [] hstart
    (by simp [unread, fresh])
  have hend : b'.mReadPos = b'.size := by
    have hlen := b'.unread_length
    have hle := hb'.ready.rpos_le
    rw [hv', List.length_nil] at hlen
    omega
  have hsz : b'.mWritePos = b'.size := by rw [hb'.wpos_eq, size, hb'.storage_eq]
  exact ⟨_, b', hw, hr, hend.trans hsz.symm, hsz⟩

def sampleItems : List Item :=
  [⟨.map .string (.vector (.int .int16)),
      (⟨[([65], [⟨-2, by decide⟩, ⟨7, by decide⟩]), ([66], [])], by decide⟩ :
        SortedMap (List Byte) (List (IntTy.Val .int16)))⟩,
    ⟨.bool, true⟩]

theorem readAll_writeAll_sample :
    ∃ b b', writeAll .debug sampleItems fresh = .ok () b ∧
      readAll (sampleItems.map Sigma.fst) b = .ok sampleItems b' ∧
      b'.mReadPos = b'.mWritePos ∧ b'.mWritePos = b'.size :=
  readAll_writeAll .debug sampleItems
    (by decide) (by decide)

def Plain : Ty → Prop
  | .bool => False
  | .int _ => True
  | .string => True
  | .vector t => Plain t
  | .map _ _ => False

def sumReads {α : Type} (rd : BufferM α) (f : CByteBuffer → ℕ) : ℕ → CByteBuffer → ℕ
  | 0, _ => 0
  | n + 1, b => f b + match rd b with
    | .ok _ b' => sumReads rd f n b'
    | .error _ _ => 0

/-- How many of the string reads that `>>` makes for a value of type `t` run into the end of
the data before they meet a NUL. -/
def missing : Ty → CByteBuffer → ℕ
  | .bool, _ => 0
  | .int _, _ => 0
  | .string, b => if 0 ∈ b.unread then 0 else 1
  | .vector t, b => match readScalar 4 b with
    | .ok n b' => sumReads (read t) (missing t) n b'
    | .error _ _ => 0
  | .map _ _, _ => 0

def missingAll : List Ty → CByteBuffer → ℕ
  | [], _ => 0
  | t :: ts, b => missing t b + match read t b with
    | .ok _ b' => missingAll ts b'
    | .error _ _ => 0

/-- `bs` is what was consumed between `b` and `b'`, with `k` NULs behind it that were not
there; a NUL is only missing where the data ends. -/
def Undoes (b b' : CByteBuffer) (bs : List Byte) (k : ℕ) : Prop :=
  ∃ n ≤ b.unread.length, b' = b.skip n ∧ bs = b.unread.take n ++ List.replicate k 0 ∧
    (k ≠ 0 → n = b.unread.length)

theorem Undoes.refl (b : CByteBuffer) : Undoes b b [] 0 :=
  ⟨0, Nat.zero_le _, rfl, by simp, by simp⟩

theorem Undoes.trans {b b' b'' : CByteBuffer} {bs cs : List Byte} {j k : ℕ}
    (h : Undoes b b' bs j) (h' : Undoes b' b'' cs k) : Undoes b b'' (bs ++ cs) (j + k) := by
  obtain ⟨m, hm, rfl, rfl, hj⟩ := h
  obtain ⟨n, hn, rfl, rfl, hk⟩ := h'
  simp only [skip_unread, List.length_drop] at hn hk ⊢
  refine ⟨m + n, by omega, by simp, ?_, by omega⟩
  rw [List.take_add]
  rcases Nat.eq_zero_or_pos j with rfl | hpos
  · simp
  · -- where a NUL was missing the data was at its end, so nothing was consumed after it
    have hmlen := hj (by omega)
    have hn0 : n = 0 := by omega
    simp [hn0, hmlen]

theorem Undoes.ready {b b' : CByteBuffer} {bs : List Byte} {k : ℕ} (hb : b.Ready)
    (h : Undoes b b' bs k) : b'.Ready := by
  obtain ⟨n, hn, rfl, -, -⟩ := h
  exact hb.skip hn

theorem readScalar_undoes {b b' : CByteBuffer} (hb : b.Ready) {w n : ℕ} (hw : 0 < w)
    (hw' : w < addressSpace) (h : readScalar w b = .ok n b') :
    Undoes b b' (LittleEndian.toBytes w n) 0 ∧ n < 256 ^ w := by
  obtain ⟨hlen, rfl, rfl⟩ := readScalar_eq_ok hb hw hw' h
  have htake : (b.unread.take w).length = w := by simp [hlen]
  have hbytes := LittleEndian.toBytes_value (b.unread.take w)
  have hlt := LittleEndian.value_lt (b.unread.take w)
  rw [htake] at hbytes hlt
  exact ⟨⟨w, hlen, rfl, by simp [hbytes], by simp⟩, hlt⟩

theorem readString_undoes {b b' : CByteBuffer} (hb : b.Ready) {str : List Byte}
    (h : readString b = .ok str b') : Undoes b b' (terminated str) (missing .string b) := by
  by_cases h0 : 0 ∈ b.unread
  · obtain ⟨s, rest, hu, hs⟩ := List.eq_append_cons_of_mem h0
    rw [readString_terminated hb hs hu, EStateM.Result.ok.injEq] at h
    obtain ⟨rfl, rfl⟩ := h
    refine ⟨s.length + 1, by simp [hu], rfl, ?_, by simp [missing, h0]⟩
    have h1 : (0 : Byte) ∈ s ++ 0 :: rest := by simp
    simp [missing, hu, h1, terminated, List.take_length_add_append]
  · rw [readString_unterminated hb h0, EStateM.Result.ok.injEq] at h
    obtain ⟨rfl, rfl⟩ := h
    exact ⟨b.unread.length, le_rfl, rfl, by simp [missing, h0, terminated], by simp⟩

theorem vector_loop_undoes {t : Ty}
    (ih : ∀ b b' x, b.Ready → read t b = .ok x b' → Undoes b b' (encode t x) (missing t b))
    (n : ℕ) {b b' : CByteBuffer} {v w : List t.Val} (hb : b.Ready)
    (h : Reader.iterate (fun v : List t.Val => do
      let x ← read t
      return v ++ [x]) n w b = .ok v b') :
    ∃ xs, v = w ++ xs ∧ xs.length = n ∧
      Undoes b b' (xs.flatMap (encode t)) (sumReads (read t) (missing t) n b) := by
  induction n generalizing b w with
  | zero =>
    obtain ⟨rfl, rfl⟩ := Reader.pure_eq_ok.mp h
    exact ⟨[], by simp, rfl, Undoes.refl b⟩
  | succ n hn =>
    obtain ⟨w', b₁, h₁, h₂⟩ := Reader.bind_eq_ok.mp h
    obtain ⟨x, b₂, hx, hp⟩ := Reader.bind_eq_ok.mp h₁
    obtain ⟨rfl, rfl⟩ := Reader.pure_eq_ok.mp hp
    have hux := ih b b₂ x hb hx
    obtain ⟨xs, rfl, hlen, hu⟩ := hn (hux.ready hb) h₂
    refine ⟨x :: xs, by simp, by simp [hlen], ?_⟩
    simpa [sumReads, hx] using hux.trans hu

theorem read_undoes (t : Ty) (ht : Plain t) :
    ∀ b b' v, b.Ready → read t b = .ok v b' → Undoes b b' (encode t v) (missing t b) := by
  induction t with
  | bool => exact ht.elim
  | map k v => exact ht.elim
  | int s =>
    intro b b' v hb h
    obtain ⟨n, b₁, h₁, hp⟩ := Reader.bind_eq_ok.mp h
    obtain ⟨rfl, rfl⟩ := Reader.pure_eq_ok.mp hp
    have hw := s.width_le
    obtain ⟨hu, hn⟩ := readScalar_undoes hb s.width_pos (by rw [addressSpace]; omega) h₁
    simpa only [encode, missing, s.toRep_ofRep hn] using hu
  | string =>
    intro b b' v hb h
    exact readString_undoes hb h
  | vector t ih =>
    intro b b' v hb h
    obtain ⟨n, b₁, h₁, h₂⟩ := Reader.bind_eq_ok.mp h
    obtain ⟨hu, -⟩ := readScalar_undoes hb (by decide) (by decide) h₁
    obtain ⟨xs, rfl, hlen, hu'⟩ := vector_loop_undoes (ih ht) n (hu.ready hb) h₂
    have hall := hu.trans hu'
    rw [Nat.zero_add] at hall
    simpa only [encode, missing, h₁, List.nil_append, hlen] using hall

theorem readAll_undoes (ts : List Ty) (hts : ∀ t ∈ ts, Plain t) :
    ∀ b b' vs, b.Ready → readAll ts b = .ok vs b' →
      Undoes b b' (encodeAll vs) (missingAll ts b) := by
  induction ts with
  | nil =>
    intro b b' vs hb h
    obtain ⟨rfl, rfl⟩ := Reader.pure_eq_ok.mp h
    exact Undoes.refl b
  | cons t ts ih =>
    intro b b' vs hb h
    -- the first read ends in `b₁`, the others go on from there
    obtain ⟨v, b₁, h₁, h₂⟩ := Reader.bind_eq_ok.mp h
    obtain ⟨ws, b₂, h₃, hp⟩ := Reader.bind_eq_ok.mp h₂
    obtain ⟨rfl, rfl⟩ := Reader.pure_eq_ok.mp hp
    have hu := read_undoes t (hts t (by simp)) b b₁ v hb h₁
    have hu' := ih (fun t ht => hts t (by simp [ht])) b₁ b₂ ws (hu.ready hb) h₃
    simpa [missingAll, h₁, encodeAll] using hu.trans hu'

/-- The bytes `storage[old rpos, new rpos)` between two states of one buffer. -/
def consumed (b b' : CByteBuffer) : List Byte :=
  (b.mStorage.drop b.mReadPos).take (b'.mReadPos - b.mReadPos)

theorem Undoes.eq_consumed {b b' : CByteBuffer} {bs : List Byte} {k : ℕ}
    (h : Undoes b b' bs k) : bs = consumed b b' ++ List.replicate k 0 := by
  obtain ⟨n, -, rfl, rfl, -⟩ := h
  simp [consumed, unread]

theorem Undoes.length_eq {b b' : CByteBuffer} {bs : List Byte} {k : ℕ}
    (h : Undoes b b' bs k) : bs.length = b'.mReadPos - b.mReadPos + k := by
  obtain ⟨n, hn, rfl, rfl, -⟩ := h
  simp [Nat.min_eq_left hn]

theorem vector_length_le {t : Ty} (v : List t.Val) :
    v.length ≤ (encode (.vector t) v).length := by
  have h := Reader.length_le_flatMap (encode t) v fun x _ => encode_length_pos t x
  simp only [encode, List.length_append]
  omega

/-- Writing the values of any successful sequence of reads into a fresh buffer gives back the
consumed bytes, and behind them one NUL for each string read that met the end of the data
instead of its NUL.  With none of these it gives back exactly the consumed bytes, and a vector
has at most as many elements as bytes were consumed for it. -/
theorem writeAll_readAll (build : Build) {b b' : CByteBuffer} {ts : List Ty} {vs : List Item}
    (hb : b.Ready) (hts : ∀ t ∈ ts, Plain t) (h : readAll ts b = .ok vs b')
    (hroom : b'.mReadPos - b.mReadPos + missingAll ts b ≤ limit build) :
    (∃ c, writeAll build vs fresh = .ok () c ∧
      c.mStorage = consumed b b' ++ List.replicate (missingAll ts b) 0) ∧
    (∀ (t : Ty) (c c' : CByteBuffer) (v : List t.Val), Plain t → c.Ready →
      read (.vector t) c = .ok v c' →
      v.length ≤ c'.mReadPos - c.mReadPos + missing (.vector t) c) := by
  constructor
  · have hu := readAll_undoes ts hts b b' vs hb h
    have hw := writeAll_appends build vs fresh rfl (by rw [fresh_size, hu.length_eq]; omega)
    exact ⟨_, hw, by rw [extend_mStorage, ← hu.eq_consumed]; rfl⟩
  · intro t c c' v ht hc hv
    have hu := read_undoes (.vector t) ht c c' v hc hv
    rw [← hu.length_eq]
    exact vector_length_le v

/-- Two numbers and a string whose NUL is missing, read from behind a first byte. -/
theorem writeAll_readAll_sample :
    ∃ c, writeAll .debug [⟨.int .uint16, ⟨513, by decide⟩⟩, ⟨.string, [72, 81]⟩] fresh = .ok () c ∧
      c.mStorage = [1, 2, 72, 81, 0] :=
  (writeAll_readAll .debug ⟨by decide, by decide⟩ (by simp [Plain])
    (show readAll [.int .uint16, .string] ⟨1, 5, [9, 1, 2, 72, 81]⟩ =
      .ok [⟨.int .uint16, ⟨513, by decide⟩⟩, ⟨.string, [72, 81]⟩]
        ⟨5, 5, [9, 1, 2, 72, 81]⟩ from rfl)
    (by decide)).1

/-- The string reader stops at the end of the data without a NUL and without an error: `"A"`
comes back one byte longer, and four bytes are read as a vector of five strings. -/
theorem unterminated_not_undone :
    (¬ ∀ (b b' : CByteBuffer) (ts : List Ty) (vs : List Item), b.Ready → (∀ t ∈ ts, Plain t) →
      readAll ts b = .ok vs b' →
      ∃ c, writeAll .release vs fresh = .ok () c ∧ c.mStorage = consumed b b') ∧
    read (.vector .string) ⟨0, 4, [5, 0, 0, 0]⟩ =
      .ok (show List (List Byte) from [[], [], [], [], []]) ⟨4, 4, [5, 0, 0, 0]⟩ := by
  constructor
  · intro h
    obtain ⟨c, hc, hs⟩ := h ⟨0, 1, [65]⟩ ⟨1, 1, [65]⟩ [.string] [⟨.string, [65]⟩]
      ⟨by decide, by decide⟩ (by simp [Plain]) rfl
    have hw : writeAll .release [⟨.string, [65]⟩] fresh = .ok () ⟨0, 2, [65, 0]⟩ := rfl
    rw [hw] at hc
    cases hc
    revert hs
    decide
  · rfl

end TdxHq.Serialize
