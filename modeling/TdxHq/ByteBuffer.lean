import TdxHq.Library.LittleEndian
import TdxHq.Library.Reader

namespace TdxHq

def sizeTRange : ℕ := 2 ^ 32

/-- A Win32 process has 2 GiB of address space: no vector is this long. -/
def addressSpace : ℕ := 2 ^ 31

/-- The two configurations of the project file; `assert` is only alive in the first. -/
inductive Build
  | debug
  | release
  deriving DecidableEq, Repr

inductive Fault
  | outOfRange
  | badAlloc
  | assertion
  | invalidAccess
  deriving DecidableEq, Repr

/-- `size_t` is 32 bits wide in the Win32 build: the cursors are below `2 ^ 32`, and the sums the
code forms with them wrap. -/
structure CByteBuffer where
  mReadPos : ℕ
  mWritePos : ℕ
  mStorage : List Byte
  deriving DecidableEq, Repr

abbrev BufferM := EStateM Fault CByteBuffer

namespace CByteBuffer

def fresh : CByteBuffer := ⟨0, 0, []⟩

def size (b : CByteBuffer) : ℕ := b.mStorage.length

@[simp] theorem fresh_size : fresh.size = 0 := rfl

def unread (b : CByteBuffer) : List Byte := b.mStorage.drop b.mReadPos

def setRpos (rpos : ℕ) : BufferM Unit := fun b => .ok () { b with mReadPos := rpos }

def overwrite (storage : List Byte) (pos : ℕ) (src : List Byte) : List Byte :=
  storage.take pos ++ src ++ storage.drop (pos + src.length)

def grown (b : CByteBuffer) (wanted : ℕ) : List Byte :=
  b.mStorage ++ List.replicate (wanted - b.size) 0

/-- `append(const uint8 *src, size_t cnt)`; `src` lists the bytes that can be read
at the pointer. -/
def append (build : Build) (src : List Byte) (cnt : ℕ) : BufferM Unit := fun b =>
  if cnt = 0 then .ok () b
  else if build = .debug ∧ ¬ b.size < 10000000 then .error .assertion b
  else
    let wanted := (b.mWritePos + cnt) % sizeTRange
    if b.size < wanted ∧ addressSpace ≤ wanted then .error .badAlloc b
    else
      let storage := b.grown wanted
      if storage.length < b.mWritePos + cnt ∨ src.length < cnt then .error .invalidAccess b
      else .ok ()
        { b with
          mStorage := overwrite storage b.mWritePos (src.take cnt)
          mWritePos := wanted }

/-- `append<T>(T value)`: the object representation of a scalar of `w` bytes. -/
def appendScalar (build : Build) (w n : ℕ) : BufferM Unit :=
  append build (LittleEndian.toBytes w n) w

/-- `read(uint8 *dest, size_t len)`; `read<T>()` makes the same two checks with
`len = sizeof(T)`.  The second is the one of `mStorage.at`. -/
def readBlock (len : ℕ) : BufferM (List Byte) := fun b =>
  if b.size < (b.mReadPos + len) % sizeTRange then .error .outOfRange b
  else if b.size ≤ b.mReadPos then .error .outOfRange b
  else if b.size < b.mReadPos + len then .error .invalidAccess b
  else .ok (b.unread.take len) { b with mReadPos := (b.mReadPos + len) % sizeTRange }

def readScalar (w : ℕ) : BufferM ℕ := do
  let bs ← readBlock w
  return LittleEndian.value bs

/-- The loop of `operator>>(std::string&)`; a round makes the cursor one larger, so
`fuel` rounds are enough where as many bytes are ahead of it. -/
def readStringLoop : ℕ → List Byte → BufferM (List Byte)
  | 0, value => pure value
  | fuel + 1, value => do
    let b ← get
    if b.mReadPos < b.size then
      let c ← readScalar 1
      if c = 0 then return value
      else readStringLoop fuel (value ++ [Fin.ofNat 256 c])
    else return value

def readString : BufferM (List Byte) := do
  let b ← get
  readStringLoop b.unread.length []

/-- `append(const std::string&)`: the characters and the NUL of `c_str()` in one block. -/
def appendString (build : Build) (str : List Byte) : BufferM Unit :=
  append build (str ++ [0]) (str.length + 1)

/-- `append(const CByteBuffer&)`: `contents()` points at the read cursor of `buffer`, and
`size()` bytes are taken from there on. -/
def appendBuffer (build : Build) (buffer : CByteBuffer) : BufferM Unit :=
  if buffer.size ≠ 0 then append build buffer.unread buffer.size else pure ()

def strncpy (dest src : List Byte) (n : ℕ) : List Byte :=
  let copied := (src.takeWhile (· ≠ 0)).take n
  overwrite dest 0 (copied ++ List.replicate (n - copied.length) 0)

/-- `operator>>(char value[])`: the loop of `operator>>(std::string&)` on a local string, which
is then copied to `value`. -/
def readChars (value : List Byte) : BufferM (List Byte) := do
  let strValue ← readString
  if value.length < strValue.length then throw .invalidAccess
  else return strncpy value strValue strValue.length

def clear : BufferM Unit := fun _ => .ok () ⟨0, 0, []⟩

def erase (num : ℕ) : BufferM ℕ := fun b =>
  if num ≤ b.size then
    let storage := b.mStorage.drop num
    .ok 1 ⟨0, storage.length, storage⟩
  else .ok 0 b

/-- Bytes a buffer may grow to before `append` fails. -/
def limit : Build → ℕ
  | .debug => 10000000
  | .release => 2 ^ 31 - 1

/-- Nothing is cut off in front of the read cursor and the vector exists. -/
structure Ready (b : CByteBuffer) : Prop where
  rpos_le : b.mReadPos ≤ b.size
  small : b.size < addressSpace

theorem unread_length (b : CByteBuffer) : b.unread.length = b.size - b.mReadPos := by
  simp [unread, size]

def extend (b : CByteBuffer) (bs : List Byte) : CByteBuffer :=
  { b with mStorage := b.mStorage ++ bs, mWritePos := b.size + bs.length }

def Room (build : Build) (size cnt : ℕ) : Prop :=
  cnt = 0 ∨ ((build = .debug → size < 10000000) ∧ size + cnt < addressSpace)

instance roomDecidable (build : Build) (size cnt : ℕ) : Decidable (Room build size cnt) :=
  inferInstanceAs (Decidable (_ ∨ _))

theorem append_of_room {build : Build} {b : CByteBuffer} {src : List Byte}
    (hw : b.mWritePos = b.size) (hroom : Room build b.size src.length) :
    append build src src.length b = .ok () (b.extend src) := by
  by_cases h0 : src.length = 0
  · have hsrc : src = [] := List.length_eq_zero_iff.mp h0
    subst hsrc
    simp only [append, extend, List.length_nil, ↓reduceIte, List.append_nil, Nat.add_zero, ← hw]
  · -- the assertion holds, the 32-bit sum does not wrap and the vector can be grown
    obtain ⟨hdebug, hspace⟩ := hroom.resolve_left h0
    have hassert : ¬ (build = .debug ∧ ¬ b.size < 10000000) := fun h => h.2 (hdebug h.1)
    rw [addressSpace] at hspace
    have hmod : (b.mWritePos + src.length) % sizeTRange = b.size + src.length := by
      rw [hw]
      exact Nat.mod_eq_of_lt (by simp only [sizeTRange]; omega)
    have halloc : ¬ (b.size < b.size + src.length ∧ addressSpace ≤ b.size + src.length) := by
      simp only [addressSpace]
      omega
    have hgrown : (b.grown (b.size + src.length)).length = b.size + src.length := by
      simp only [grown, List.length_append, List.length_replicate, size]
      omega
    have hmem : ¬ ((b.grown (b.size + src.length)).length < b.mWritePos + src.length ∨
        src.length < src.length) := by
      rw [hgrown, hw]
      omega
    have hover : overwrite (b.grown (b.size + src.length)) b.mWritePos src =
        b.mStorage ++ src := by
      simp [overwrite, grown, hw, size]
    simp only [append, if_neg h0, if_neg hassert, hmod, if_neg halloc, if_neg hmem,
      List.take_length, hover, extend]

theorem append_of_not_room {build : Build} {b : CByteBuffer} {src : List Byte}
    (hw : b.mWritePos = b.size) (hroom : ¬ Room build b.size src.length) :
    ∃ f, append build src src.length b = .error f b := by
  have h0 : src.length ≠ 0 := fun h => hroom (Or.inl h)
  by_cases hassert : build = .debug ∧ ¬ b.size < 10000000
  · exact ⟨.assertion, by simp only [append, if_neg h0, if_pos hassert]⟩
  · have hspace : addressSpace ≤ b.size + src.length := by
      by_contra h
      exact hroom (Or.inr ⟨fun hd => by_contra fun hs => hassert ⟨hd, hs⟩, by omega⟩)
    by_cases halloc : b.size < (b.mWritePos + src.length) % sizeTRange ∧
        addressSpace ≤ (b.mWritePos + src.length) % sizeTRange
    · exact ⟨.badAlloc, by simp only [append, if_neg h0, if_neg hassert, if_pos halloc]⟩
    · -- the sum has wrapped, so the vector does not become long enough
      have hmem : (b.grown ((b.mWritePos + src.length) % sizeTRange)).length <
          b.mWritePos + src.length ∨ src.length < src.length := by
        rw [hw] at halloc ⊢
        simp only [grown, List.length_append, List.length_replicate, size, addressSpace,
          sizeTRange] at halloc hspace ⊢
        omega
      exact ⟨.invalidAccess, by
        simp only [append, if_neg h0, if_neg hassert, if_neg halloc, if_pos hmem]⟩

theorem append_of_short (build : Build) (b : CByteBuffer) {src : List Byte} {cnt : ℕ}
    (h : src.length < cnt) : ∃ f, append build src cnt b = .error f b := by
  have h0 : cnt ≠ 0 := by omega
  simp only [append, if_neg h0]
  split_ifs
  · exact ⟨_, rfl⟩
  · exact ⟨_, rfl⟩
  · exact ⟨_, rfl⟩
  · next hmem => exact absurd (Or.inr h) hmem

theorem room_of_limit {build : Build} {size cnt : ℕ} (h : size + cnt ≤ limit build) :
    Room build size cnt := by
  by_cases h0 : cnt = 0
  · exact Or.inl h0
  · right
    cases build with
    | debug =>
      simp only [limit] at h
      exact ⟨fun _ => by omega, by rw [addressSpace]; omega⟩
    | release =>
      simp only [limit] at h
      exact ⟨nofun, by rw [addressSpace]; omega⟩

theorem append_end {build : Build} {b : CByteBuffer} {src : List Byte}
    (hw : b.mWritePos = b.size) (hroom : b.size + src.length ≤ limit build) :
    append build src src.length b = .ok () (b.extend src) :=
  append_of_room hw (room_of_limit hroom)

@[simp] theorem extend_size (b : CByteBuffer) (bs : List Byte) :
    (b.extend bs).size = b.size + bs.length := by
  simp [extend, size]

@[simp] theorem extend_mStorage (b : CByteBuffer) (bs : List Byte) :
    (b.extend bs).mStorage = b.mStorage ++ bs := rfl

@[simp] theorem extend_mReadPos (b : CByteBuffer) (bs : List Byte) :
    (b.extend bs).mReadPos = b.mReadPos := rfl

theorem extend_mWritePos (b : CByteBuffer) (bs : List Byte) :
    (b.extend bs).mWritePos = (b.extend bs).size := by
  rw [extend_size]
  rfl

theorem extend_extend (b : CByteBuffer) (bs cs : List Byte) :
    (b.extend bs).extend cs = b.extend (bs ++ cs) := by
  simp [extend, size, Nat.add_assoc]

theorem extend_nil {b : CByteBuffer} (hw : b.mWritePos = b.size) : b.extend [] = b := by
  simp [extend, ← hw]

/-- `p` writes exactly `bs` behind the data of every buffer with room for it. -/
def Appends (build : Build) (p : BufferM Unit) (bs : List Byte) : Prop :=
  ∀ b : CByteBuffer, b.mWritePos = b.size → b.size + bs.length ≤ limit build →
    p b = .ok () (b.extend bs)

theorem appends_append (build : Build) (src : List Byte) :
    Appends build (append build src src.length) src := by
  intro b hw hroom
  exact append_end hw hroom

theorem appends_scalar (build : Build) (w n : ℕ) :
    Appends build (appendScalar build w n) (LittleEndian.toBytes w n) := by
  have h := appends_append build (LittleEndian.toBytes w n)
  rwa [LittleEndian.toBytes_length] at h

theorem appends_string (build : Build) (str : List Byte) :
    Appends build (appendString build str) (str ++ [0]) := by
  have h := appends_append build (str ++ [0])
  rwa [List.length_append, List.length_singleton] at h

theorem Appends.bind {build : Build} {p q : BufferM Unit} {bs cs : List Byte}
    (hp : Appends build p bs) (hq : Appends build q cs) :
    Appends build (p >>= fun _ => q) (bs ++ cs) := by
  intro b hw hroom
  rw [List.length_append] at hroom
  rw [Reader.bind_of_ok (hp b hw (by omega)),
    hq (b.extend bs) (extend_mWritePos b bs) (by rw [extend_size]; omega), extend_extend]

theorem Appends.forM {α : Type} {build : Build} {p : α → BufferM Unit} (enc : α → List Byte)
    (xs : List α) (h : ∀ x ∈ xs, Appends build (p x) (enc x)) :
    Appends build (xs.forM p) (xs.flatMap enc) := by
  induction xs with
  | nil =>
    intro b hw _
    rw [List.flatMap_nil, extend_nil hw]
    rfl
  | cons x xs ih =>
    rw [List.flatMap_cons]
    exact (h x (by simp)).bind (ih fun y hy => h y (by simp [hy]))

def appendAll (build : Build) : List (List Byte) → BufferM Unit
  | [] => pure ()
  | piece :: pieces => append build piece piece.length >>= fun _ => appendAll build pieces

def RoomAll (build : Build) : ℕ → List (List Byte) → Prop
  | _, [] => True
  | size, piece :: pieces =>
    Room build size piece.length ∧ RoomAll build (size + piece.length) pieces

theorem roomAll_of_limit {build : Build} {size : ℕ} (pieces : List (List Byte))
    (h : size + pieces.flatten.length ≤ limit build) : RoomAll build size pieces := by
  induction pieces generalizing size with
  | nil => trivial
  | cons piece pieces ih =>
    rw [List.flatten_cons, List.length_append] at h
    exact ⟨room_of_limit (by omega), ih (by omega)⟩

theorem appendAll_of_room {build : Build} (pieces : List (List Byte)) {b : CByteBuffer}
    (hw : b.mWritePos = b.size) (hroom : RoomAll build b.size pieces) :
    appendAll build pieces b = .ok () (b.extend pieces.flatten) := by
  induction pieces generalizing b with
  | nil =>
    rw [List.flatten_nil, extend_nil hw]
    rfl
  | cons piece pieces ih =>
    have hnext := @ih (b.extend piece) (extend_mWritePos b piece) (by
      rw [extend_size]
      exact hroom.2)
    rw [appendAll, Reader.bind_of_ok (append_of_room hw hroom.1), hnext, extend_extend,
      List.flatten_cons]

theorem appendAll_of_not_room {build : Build} (pieces : List (List Byte)) {b : CByteBuffer}
    (hw : b.mWritePos = b.size) (hroom : ¬ RoomAll build b.size pieces) :
    ∃ f b', appendAll build pieces b = .error f b' := by
  induction pieces generalizing b with
  | nil => exact absurd trivial hroom
  | cons piece pieces ih =>
    rw [appendAll]
    by_cases hpiece : Room build b.size piece.length
    · rw [Reader.bind_of_ok (append_of_room hw hpiece)]
      apply ih (extend_mWritePos b piece)
      rw [extend_size]
      exact fun hrest => hroom ⟨hpiece, hrest⟩
    · obtain ⟨f, hf⟩ := append_of_not_room hw hpiece
      exact ⟨f, b, Reader.bind_of_error hf⟩

def skip (b : CByteBuffer) (n : ℕ) : CByteBuffer := { b with mReadPos := b.mReadPos + n }

@[simp] theorem skip_mStorage (b : CByteBuffer) (n : ℕ) : (b.skip n).mStorage = b.mStorage := rfl

@[simp] theorem skip_mWritePos (b : CByteBuffer) (n : ℕ) : (b.skip n).mWritePos = b.mWritePos := rfl

@[simp] theorem skip_mReadPos (b : CByteBuffer) (n : ℕ) :
    (b.skip n).mReadPos = b.mReadPos + n := rfl

@[simp] theorem skip_size (b : CByteBuffer) (n : ℕ) : (b.skip n).size = b.size := rfl

@[simp] theorem skip_zero (b : CByteBuffer) : b.skip 0 = b := rfl

@[simp] theorem skip_skip (b : CByteBuffer) (m n : ℕ) : (b.skip m).skip n = b.skip (m + n) := by
  simp [skip, Nat.add_assoc]

@[simp] theorem skip_unread (b : CByteBuffer) (n : ℕ) : (b.skip n).unread = b.unread.drop n := by
  simp [unread]

theorem Ready.skip {b : CByteBuffer} (hb : b.Ready) {n : ℕ} (h : n ≤ b.unread.length) :
    (b.skip n).Ready := by
  have hr := hb.rpos_le
  rw [unread_length] at h
  exact ⟨by simp only [skip_mReadPos, skip_size]; omega, hb.small⟩

theorem readBlock_of_le {b : CByteBuffer} {len : ℕ} (hr : b.mReadPos < b.size)
    (hs : b.size < addressSpace) (h : b.mReadPos + len ≤ b.size) :
    readBlock len b = .ok ((b.mStorage.drop b.mReadPos).take len) (b.skip len) := by
  simp only [addressSpace] at hs
  have hmod : (b.mReadPos + len) % sizeTRange = b.mReadPos + len :=
    Nat.mod_eq_of_lt (by simp only [sizeTRange]; omega)
  simp only [readBlock, hmod]
  rw [if_neg (by omega), if_neg (by omega), if_neg (by omega)]
  rfl

theorem readBlock_of_lt {b : CByteBuffer} {len : ℕ} (h : b.size < b.mReadPos + len)
    (hwrap : b.mReadPos + len < sizeTRange) : readBlock len b = .error .outOfRange b := by
  have hmod : (b.mReadPos + len) % sizeTRange = b.mReadPos + len := Nat.mod_eq_of_lt hwrap
  simp only [readBlock, hmod]
  rw [if_pos h]

/-- At the end of the data `at` throws, whatever is asked for. -/
theorem readBlock_at_end {b : CByteBuffer} (hr : b.size ≤ b.mReadPos) (len : ℕ) :
    readBlock len b = .error .outOfRange b := by
  simp only [readBlock]
  split_ifs
  · rfl
  · rfl

theorem readBlock_ok {b : CByteBuffer} (hb : b.Ready) {len : ℕ} (hlen : 0 < len)
    (h : len ≤ b.unread.length) : readBlock len b = .ok (b.unread.take len) (b.skip len) := by
  have hr := hb.rpos_le
  rw [unread_length] at h
  exact readBlock_of_le (by omega) hb.small (by omega)

theorem fresh_extend_ready {bs : List Byte} (h : bs.length < addressSpace) :
    (fresh.extend bs).Ready :=
  ⟨Nat.zero_le _, by rwa [extend_size, fresh_size, Nat.zero_add]⟩

theorem readBlock_fresh_extend {bs : List Byte} (hne : 0 < bs.length)
    (h : bs.length < addressSpace) :
    readBlock bs.length (fresh.extend bs) = .ok bs ((fresh.extend bs).skip bs.length) := by
  have hunread : (fresh.extend bs).unread = bs := rfl
  rw [readBlock_ok (fresh_extend_ready h) hne (by rw [hunread]), hunread, List.take_length]

theorem readBlock_short {b : CByteBuffer} (hb : b.Ready) {len : ℕ} (hlen : len < addressSpace)
    (h : b.unread.length < len) : readBlock len b = .error .outOfRange b := by
  have hr := hb.rpos_le
  have hs := hb.small
  rw [unread_length] at h
  apply readBlock_of_lt (by omega)
  simp only [addressSpace, sizeTRange] at *
  omega

theorem readScalar_ok {b : CByteBuffer} (hb : b.Ready) {w : ℕ} (hw : 0 < w)
    (h : w ≤ b.unread.length) :
    readScalar w b = .ok (LittleEndian.value (b.unread.take w)) (b.skip w) := by
  rw [readScalar, Reader.bind_of_ok (readBlock_ok hb hw h)]
  rfl

theorem readScalar_short {b : CByteBuffer} (hb : b.Ready) {w : ℕ} (hw : w < addressSpace)
    (h : b.unread.length < w) : readScalar w b = .error .outOfRange b := by
  rw [readScalar, Reader.bind_of_error (readBlock_short hb hw h)]

theorem readScalar_eq_ok {b b' : CByteBuffer} (hb : b.Ready) {w n : ℕ} (hw : 0 < w)
    (hw' : w < addressSpace) (h : readScalar w b = .ok n b') :
    w ≤ b.unread.length ∧ LittleEndian.value (b.unread.take w) = n ∧ b.skip w = b' := by
  by_cases hlen : w ≤ b.unread.length
  · rw [readScalar_ok hb hw hlen, EStateM.Result.ok.injEq] at h
    exact ⟨hlen, h.1, h.2⟩
  · rw [readScalar_short hb hw' (by omega)] at h
    cases h

theorem readStringLoop_succ {b : CByteBuffer} (hb : b.Ready) {c : Byte} {cs : List Byte}
    (hu : b.unread = c :: cs) (fuel : ℕ) (value : List Byte) :
    readStringLoop (fuel + 1) value b =
      if c = 0 then .ok value (b.skip 1) else readStringLoop fuel (value ++ [c]) (b.skip 1) := by
  have hlen : b.unread.length = cs.length + 1 := by rw [hu]; rfl
  have hlt : b.mReadPos < b.size := by
    rw [unread_length] at hlen
    omega
  have hread : readScalar 1 b = .ok c.val (b.skip 1) := by
    rw [readScalar_ok hb (by decide) (by omega), hu]
    simp [LittleEndian.value]
  rw [readStringLoop, Reader.get_bind]
  simp only [if_pos hlt]
  rw [Reader.bind_of_ok hread]
  by_cases h0 : c = 0
  · simp only [h0, Fin.val_zero, ↓reduceIte]
    rfl
  · have hv : c.val ≠ 0 := fun h => h0 (Fin.ext h)
    have hc : Fin.ofNat 256 c.val = c := Fin.ext (Nat.mod_eq_of_lt c.isLt)
    simp only [if_neg hv, if_neg h0, hc]

theorem readStringLoop_terminated (str rest : List Byte) (hstr : 0 ∉ str) :
    ∀ {b : CByteBuffer} (fuel : ℕ) (value : List Byte), b.Ready → str.length < fuel →
      b.unread = str ++ 0 :: rest →
      readStringLoop fuel value b = .ok (value ++ str) (b.skip (str.length + 1)) := by
  induction str with
  | nil =>
    intro b fuel value hb hfuel hu
    obtain ⟨fuel, rfl⟩ := Nat.exists_eq_add_of_lt hfuel
    simpa using readStringLoop_succ hb hu (0 + fuel) value
  | cons c str ih =>
    intro b fuel value hb hfuel hu
    obtain ⟨fuel, rfl⟩ := Nat.exists_eq_add_of_lt (Nat.zero_lt_of_lt hfuel)
    simp only [List.mem_cons, not_or] at hstr
    have hlen : 1 ≤ b.unread.length := by rw [hu]; simp
    rw [readStringLoop_succ hb hu, if_neg (Ne.symm hstr.1),
      ih hstr.2 (0 + fuel) (value ++ [c]) (hb.skip hlen) (by simp at hfuel; omega) (by simp [hu])]
    simp [Nat.add_comm]

theorem readStringLoop_unterminated (str : List Byte) (hstr : 0 ∉ str) :
    ∀ {b : CByteBuffer} (fuel : ℕ) (value : List Byte), b.Ready → str.length ≤ fuel →
      b.unread = str →
      readStringLoop fuel value b = .ok (value ++ str) (b.skip str.length) := by
  induction str with
  | nil =>
    intro b fuel value hb hfuel hu
    -- nothing is ahead, so the test of the loop fails
    have hge : ¬ b.mReadPos < b.size := by
      have hlen := b.unread_length
      rw [hu] at hlen
      simp only [List.length_nil] at hlen
      omega
    cases fuel with
    | zero => simp [readStringLoop, Reader.pure_apply]
    | succ fuel =>
      rw [readStringLoop, Reader.get_bind]
      simp only [if_neg hge, List.append_nil]
      rfl
  | cons c str ih =>
    intro b fuel value hb hfuel hu
    obtain ⟨fuel, rfl⟩ := Nat.exists_eq_add_of_lt (Nat.zero_lt_of_lt hfuel)
    simp only [List.mem_cons, not_or] at hstr
    have hlen : 1 ≤ b.unread.length := by rw [hu]; simp
    rw [readStringLoop_succ hb hu, if_neg (Ne.symm hstr.1),
      ih hstr.2 (0 + fuel) (value ++ [c]) (hb.skip hlen) (by simp at hfuel; omega) (by simp [hu])]
    simp [Nat.add_comm]

theorem readString_terminated {b : CByteBuffer} (hb : b.Ready) {str rest : List Byte}
    (hstr : 0 ∉ str) (hu : b.unread = str ++ 0 :: rest) :
    readString b = .ok str (b.skip (str.length + 1)) := by
  have hfuel : str.length < b.unread.length := by rw [hu]; simp
  rw [readString, Reader.get_bind]
  exact readStringLoop_terminated str rest hstr b.unread.length [] hb hfuel hu

theorem readString_unterminated {b : CByteBuffer} (hb : b.Ready) (hu : 0 ∉ b.unread) :
    readString b = .ok b.unread (b.skip b.unread.length) := by
  rw [readString, Reader.get_bind]
  exact readStringLoop_unterminated b.unread hu b.unread.length [] hb le_rfl rfl

end CByteBuffer

end TdxHq
