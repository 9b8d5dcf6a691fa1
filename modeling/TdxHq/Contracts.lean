import TdxHq.Queue
import TdxHq.Text

namespace TdxHq.Contracts

open CByteBuffer
open Queue (Scalar)

/-- A read of `len` bytes gives them and moves the cursor, where they are there, and throws
without a trace otherwise. -/
def BlockContract (b : CByteBuffer) (len : ℕ) : Prop :=
  (b.mReadPos + len ≤ b.size →
    readBlock len b = .ok ((b.mStorage.drop b.mReadPos).take len) (b.skip len)) ∧
  (b.size < b.mReadPos + len → readBlock len b = .error .outOfRange b)

theorem readBlock_of_wrapped {b : CByteBuffer} {len : ℕ} (hr : b.mReadPos < b.size)
    (hs : b.size < addressSpace) (hlen : len < sizeTRange)
    (hwrap : sizeTRange ≤ b.mReadPos + len) : readBlock len b = .error .invalidAccess b := by
  simp only [addressSpace, sizeTRange] at hs hlen hwrap
  have hmod : (b.mReadPos + len) % sizeTRange = b.mReadPos + len - 2 ^ 32 := by
    simp only [sizeTRange]
    omega
  simp only [readBlock, hmod]
  rw [if_neg (by omega), if_neg (by omega), if_pos (by omega)]

/-- The block read keeps its contract except where no byte is asked for at the end of the data,
and where the 32-bit sum wraps in front of it. -/
theorem blockContract_iff {b : CByteBuffer} {len : ℕ} (hr : b.mReadPos ≤ b.size)
    (hs : b.size < 2 ^ 31) (hlen : len < 2 ^ 32) :
    BlockContract b len ↔
      (len = 0 → b.mReadPos < b.size) ∧ (b.mReadPos < b.size → b.mReadPos + len < 2 ^ 32) := by
  rcases Nat.lt_or_ge b.mReadPos b.size with hlt | hge
  · -- there is unread data, so only the sum can go wrong
    simp only [hlt, implies_true, true_and, forall_const]
    constructor
    · intro h
      by_contra hwrap
      have hthrow := h.2 (by omega)
      rw [readBlock_of_wrapped hlt hs hlen (by simp only [sizeTRange]; omega)] at hthrow
      cases hthrow
    · intro hwrap
      exact ⟨readBlock_of_le hlt hs, fun h => readBlock_of_lt h hwrap⟩
  · simp only [Nat.not_lt.mpr hge, imp_false, false_imp_iff, and_true]
    constructor
    · intro h h0
      have hread := h.1 (by omega)
      rw [readBlock_at_end hge] at hread
      cases hread
    · intro h0
      refine ⟨?_, fun _ => readBlock_at_end hge len⟩
      intro hle
      exact absurd (show len = 0 by omega) h0

theorem blockContract_sample :
    BlockContract ⟨1, 3, [7, 8, 9]⟩ 2 ∧ BlockContract ⟨3, 3, [7, 8, 9]⟩ (2 ^ 32 - 1) :=
  ⟨(blockContract_iff (by decide) (by decide) (by decide)).mpr (by decide),
    (blockContract_iff (by decide) (by decide) (by decide)).mpr (by decide)⟩

/-- No byte of an empty buffer cannot be had, and four gigabytes of a buffer of two bytes are
copied. -/
theorem block_read_misjudged :
    (readBlock 0 fresh = .error .outOfRange fresh ∧ ¬ BlockContract fresh 0) ∧
      readBlock (2 ^ 32 - 1) ⟨1, 2, [7, 8]⟩ = .error .invalidAccess ⟨1, 2, [7, 8]⟩ ∧
      ¬ BlockContract ⟨1, 2, [7, 8]⟩ (2 ^ 32 - 1) := by
  refine ⟨⟨rfl, ?_⟩, rfl, ?_⟩
  · intro h
    cases h.1 (by decide)
  · intro h
    cases h.2 (by decide)

/-- A typed read gives the number in its bytes and moves the cursor, where they are there, and
throws without a trace otherwise. -/
def TypedContract (b : CByteBuffer) (w : ℕ) : Prop :=
  (b.mReadPos + w ≤ b.size →
    readScalar w b = .ok (LittleEndian.value ((b.mStorage.drop b.mReadPos).take w)) (b.skip w)) ∧
  (b.size < b.mReadPos + w → readScalar w b = .error .outOfRange b)

theorem typedContract_of_size {b : CByteBuffer} (hs : b.size < addressSpace) {w : ℕ} (hw : 0 < w)
    (hw' : w < addressSpace) : TypedContract b w := by
  constructor
  · intro h
    rw [readScalar, Reader.bind_of_ok (readBlock_of_le (by omega) hs h)]
    rfl
  · intro h
    have hthrow : readBlock w b = .error .outOfRange b := by
      rcases Nat.lt_or_ge b.mReadPos b.size with hlt | hge
      · apply readBlock_of_lt h
        simp only [addressSpace, sizeTRange] at *
        omega
      · -- the sum may have wrapped, but `at` looks at the cursor alone
        exact readBlock_at_end hge w
    rw [readScalar, Reader.bind_of_error hthrow]

inductive Access
  | rpos (rpos_ : Fin sizeTRange)
  | read (T : Scalar)
  deriving DecidableEq

def leftBehind {α : Type} : EStateM.Result Fault CByteBuffer α → CByteBuffer
  | .ok _ b | .error _ b => b

def access (b : CByteBuffer) : Access → CByteBuffer
  | .rpos rpos_ => leftBehind (setRpos rpos_ b)
  | .read T => leftBehind (readScalar T.sizeof b)

theorem sizeof_pos (T : Scalar) : 0 < T.sizeof := by cases T <;> decide

theorem typedContract_scalar {b : CByteBuffer} (hs : b.size < addressSpace) (T : Scalar) :
    TypedContract b T.sizeof := by
  apply typedContract_of_size hs (sizeof_pos T)
  exact T.sizeof_le.trans_lt (by decide)

theorem access_size {b : CByteBuffer} (hs : b.size < addressSpace) (a : Access) :
    (access b a).size = b.size := by
  cases a with
  | rpos rpos_ => rfl
  | read T =>
    obtain ⟨hok, hthrow⟩ := typedContract_scalar hs T
    rcases Nat.lt_or_ge b.size (b.mReadPos + T.sizeof) with hlt | hge
    · rw [access, hthrow hlt]
      rfl
    · rw [access, hok hge]
      rfl

theorem foldl_access_size {b : CByteBuffer} (hs : b.size < addressSpace) (as : List Access) :
    (as.foldl access b).size < addressSpace := by
  induction as generalizing b with
  | nil => exact hs
  | cons a as ih =>
    apply ih
    rwa [access_size hs]

/-- Every typed read keeps its contract, wherever the cursor was set to and whatever was read
before. -/
theorem typed_reads {b : CByteBuffer} (hs : b.size < 2 ^ 31) (as : List Access) :
    ∀ pre T post, as = pre ++ .read T :: post →
      TypedContract (pre.foldl access b) T.sizeof := by
  intro pre T post _
  exact typedContract_scalar (foldl_access_size hs pre) T

/-- A read of the whole buffer, and one from a cursor with which the sum wraps to 3. -/
theorem typed_reads_sample :
    TypedContract ([.read .uint32, .rpos ⟨2 ^ 32 - 1, by decide⟩].foldl access
      ⟨0, 4, [1, 2, 3, 4]⟩) 4 :=
  typed_reads (by decide) [.read .uint32, .rpos ⟨2 ^ 32 - 1, by decide⟩, .read .uint32]
    [.read .uint32, .rpos ⟨2 ^ 32 - 1, by decide⟩] .uint32 [] rfl

/-- `A.append(B)` adds a run of bytes at the end of `B`, with all that are unread in it. -/
def AppendsRun (build : Build) (A B : CByteBuffer) : Prop :=
  ∃ run, appendBuffer build B A = .ok () (A.extend run) ∧ run <:+ B.mStorage ∧ B.unread <:+ run

/-- A buffer can be appended exactly if it is empty, or nothing of it has been read and there is
room. -/
theorem appendsRun_iff (build : Build) {A : CByteBuffer} (hw : A.mWritePos = A.size)
    (B : CByteBuffer) :
    AppendsRun build A B ↔ B.size = 0 ∨ (B.mReadPos = 0 ∧ Room build A.size B.size) := by
  by_cases hempty : B.size = 0
  · have hstorage : B.mStorage = [] := List.length_eq_zero_iff.mp hempty
    have hcall : appendBuffer build B A = .ok () (A.extend []) := by
      rw [appendBuffer, if_neg (not_not.mpr hempty), extend_nil hw]
      rfl
    refine iff_of_true ⟨[], hcall, List.nil_suffix, ?_⟩ (Or.inl hempty)
    simp [unread, hstorage]
  have hcall : appendBuffer build B A = append build B.unread B.size A := by
    rw [appendBuffer, if_pos hempty]
  rw [AppendsRun, hcall, or_iff_right hempty]
  by_cases hread : B.mReadPos = 0
  · have hunread : B.unread = B.mStorage := by rw [unread, hread, List.drop_zero]
    rw [and_iff_right hread, hunread]
    constructor
    · rintro ⟨run, hrun, -⟩
      by_contra hroom
      obtain ⟨f, hf⟩ := append_of_not_room hw hroom
      exact absurd (hf.symm.trans hrun) (by simp)
    · intro hroom
      exact ⟨B.mStorage, append_of_room hw hroom, List.suffix_rfl, List.suffix_rfl⟩
  · -- the pointer is at the cursor, but the count is that of the whole buffer
    have hshort : B.unread.length < B.size := by
      rw [unread_length]
      omega
    obtain ⟨f, hf⟩ := append_of_short build A hshort
    rw [hf]
    simp [hread]

theorem appendsRun_sample : AppendsRun .debug ⟨0, 1, [7]⟩ ⟨0, 2, [8, 9]⟩ :=
  (appendsRun_iff .debug rfl ⟨0, 2, [8, 9]⟩).mpr (by decide)

/-- With one byte read, two bytes are copied where only one is left. -/
theorem read_buffer_overrun :
    appendBuffer .release ⟨1, 2, [8, 9]⟩ fresh = .error .invalidAccess fresh ∧
      ¬ AppendsRun .release fresh ⟨1, 2, [8, 9]⟩ := by
  refine ⟨rfl, ?_⟩
  intro ⟨run, hrun, _⟩
  cases hrun

def nextString (b : CByteBuffer) : List Byte := b.unread.takeWhile (· ≠ 0)

/-- `operator>>(char[])` leaves the string in `value` that `operator>>(std::string&)` would
return, and consumes the same bytes. -/
def ReadersAgree (b : CByteBuffer) (value : List Byte) : Prop :=
  ∃ str b' value', readString b = .ok str b' ∧ readChars value b = .ok value' b' ∧
    Text.EndsAt 0 value' str

theorem zero_notMem_nextString (b : CByteBuffer) : 0 ∉ nextString b := by
  intro h
  simpa using List.mem_takeWhile_imp h

theorem takeWhile_of_zero_notMem {str : List Byte} (hstr : 0 ∉ str) :
    str.takeWhile (· ≠ 0) = str := by
  apply List.takeWhile_eq_self_iff.mpr
  intro c hc
  exact decide_eq_true (ne_of_mem_of_not_mem hc hstr)

theorem nextString_of_terminated {b : CByteBuffer} {str rest : List Byte} (hstr : 0 ∉ str)
    (hu : b.unread = str ++ 0 :: rest) : nextString b = str := by
  rw [nextString, hu, List.takeWhile_append_of_pos]
  · simp
  · intro c hc
    exact decide_eq_true (ne_of_mem_of_not_mem hc hstr)

theorem readString_eq {b : CByteBuffer} (hs : b.size < addressSpace) :
    ∃ b', readString b = .ok (nextString b) b' := by
  rcases Nat.lt_or_ge b.size b.mReadPos with hpast | hr
  · -- the cursor is past the data, so the loop is not entered
    have hu : b.unread = [] := List.length_eq_zero_iff.mp (by rw [unread_length]; omega)
    refine ⟨b, ?_⟩
    rw [readString, Reader.get_bind, nextString, hu]
    rfl
  · by_cases h0 : 0 ∈ b.unread
    · obtain ⟨str, rest, hu, hstr⟩ := List.eq_append_cons_of_mem h0
      rw [nextString_of_terminated hstr hu]
      exact ⟨_, readString_terminated ⟨hr, hs⟩ hstr hu⟩
    · rw [nextString, takeWhile_of_zero_notMem h0]
      exact ⟨_, readString_unterminated ⟨hr, hs⟩ h0⟩

theorem strncpy_self {dest str : List Byte} (hstr : 0 ∉ str) :
    strncpy dest str str.length = str ++ dest.drop str.length := by
  rw [strncpy, takeWhile_of_zero_notMem hstr]
  simp [overwrite]

/-- The readers agree exactly if the array had a NUL where the string ends. -/
theorem readersAgree_iff {b : CByteBuffer} (hs : b.size < 2 ^ 31) (value : List Byte) :
    ReadersAgree b value ↔ value[(nextString b).length]? = some 0 := by
  obtain ⟨b', hread⟩ := readString_eq hs
  rcases Nat.lt_or_ge value.length (nextString b).length with hlong | hfits
  · -- the array is too short, and so is what it held before
    have hchars : readChars value b = .error .invalidAccess b' := by
      rw [readChars, Reader.bind_of_ok hread, if_pos hlong]
      rfl
    rw [List.getElem?_eq_none hlong.le, ReadersAgree, hchars]
    simp
  · have hchars : readChars value b =
        .ok (nextString b ++ value.drop (nextString b).length) b' := by
      rw [readChars, Reader.bind_of_ok hread, if_neg (Nat.not_lt.mpr hfits),
        strncpy_self (zero_notMem_nextString b)]
      rfl
    rw [← Text.endsAt_copy_iff (zero_notMem_nextString b), ReadersAgree, hread, hchars]
    constructor
    · rintro ⟨str, b'', value', hstr, hvalue, hends⟩
      cases hstr
      cases hvalue
      exact hends
    · intro hends
      exact ⟨_, _, _, rfl, rfl, hends⟩

theorem readersAgree_sample : ReadersAgree ⟨0, 3, [72, 81, 0]⟩ [1, 2, 0, 3] :=
  (readersAgree_iff (by decide) [1, 2, 0, 3]).mpr (by decide)

/-- A string of one character, read onto one of two: the second character stays. -/
theorem stale_character_kept :
    readString ⟨0, 2, [65, 0]⟩ = .ok [65] ⟨2, 2, [65, 0]⟩ ∧
      readChars [66, 67, 0] ⟨0, 2, [65, 0]⟩ = .ok [65, 67, 0] ⟨2, 2, [65, 0]⟩ ∧
      ¬ ReadersAgree ⟨0, 2, [65, 0]⟩ [66, 67, 0] := by
  refine ⟨rfl, rfl, ?_⟩
  intro ⟨str, b', value', hstr, hvalue, hends⟩
  cases hstr
  cases hvalue
  obtain ⟨-, rest, hends⟩ := hends
  cases hends

end TdxHq.Contracts
