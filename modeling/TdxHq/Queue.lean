import TdxHq.Serialize
import TdxHq.Library.Runs

namespace TdxHq.Queue
open CByteBuffer

inductive Scalar
  | bool | uint8 | uint16 | uint32 | uint64 | int8 | int16 | int32 | int64 | float | double | time
  deriving DecidableEq, Repr

/-- Bytes in a value; `time_t` has 64 bits. -/
def Scalar.sizeof : Scalar → ℕ
  | bool | uint8 | int8 => 1
  | uint16 | int16 => 2
  | uint32 | int32 | float => 4
  | uint64 | int64 | double | time => 8

inductive Op
  | append (src : List Byte)
  /-- `append<T>` of the value whose bytes are those of the number `rep`. -/
  | appendValue (T : Scalar) (rep : ℕ)
  | appendString (str : List Byte)
  | readValue (T : Scalar)
  /-- `operator>>(std::string&)`, and `operator>>(char[])`, which has the same loop. -/
  | readString
  | read (len : Fin addressSpace)
  | erase
  | clear
  deriving DecidableEq

def Op.call (build : Build) : Op → BufferM Unit
  | .append src => CByteBuffer.append build src src.length
  | .appendValue T rep => appendScalar build T.sizeof rep
  | .appendString str => CByteBuffer.appendString build str
  | .readValue T => readScalar T.sizeof >>= fun _ => pure ()
  | .readString => CByteBuffer.readString >>= fun _ => pure ()
  | .read len => readBlock len >>= fun _ => pure ()
  | .erase => do
    let b ← get
    let _ ← CByteBuffer.erase b.mReadPos
  | .clear => CByteBuffer.clear

inductive Out
  | value (rep : ℕ)
  | bytes (bs : List Byte)
  deriving DecidableEq, Repr

def Op.reader : Op → Option (BufferM Out)
  | .readValue T => some (readScalar T.sizeof >>= fun rep => pure (.value rep))
  | .readString => some (CByteBuffer.readString >>= fun value => pure (.bytes value))
  | .read len => some (readBlock len >>= fun dest => pure (.bytes dest))
  | _ => none

/-- The bytes `bs` encode what the reader has handed out; `rest` follows them. -/
def Op.HandsOut : Op → Out → List Byte → List Byte → Prop
  | .readValue T, .value rep, bs, _ =>
    rep < 256 ^ T.sizeof ∧ bs = LittleEndian.toBytes T.sizeof rep
  | .readString, .bytes str, bs, rest => 0 ∉ str ∧ (bs = str ++ [0] ∨ bs = str ∧ rest = [])
  | .read len, .bytes dest, bs, _ => bs = dest ∧ dest.length = len
  | _, _, _, _ => False

def Op.offered : Op → List Byte
  | .append src => src
  | .appendValue T rep => LittleEndian.toBytes T.sizeof rep
  | .appendString str => str ++ [0]
  | _ => []

structure Recorded where
  buffer : CByteBuffer
  /-- Bytes of all appends since the last `clear()`, whether the call returned or not. -/
  appended : List Byte
  /-- Bytes of all successful reads since the last `clear()`. -/
  consumed : List Byte
  deriving DecidableEq, Repr

def start : Recorded := ⟨fresh, [], []⟩

def leftBy : EStateM.Result Fault CByteBuffer Unit → CByteBuffer
  | .ok _ b | .error _ b => b

def Recorded.append (q : Recorded) (src : List Byte)
    (r : EStateM.Result Fault CByteBuffer Unit) : Recorded :=
  { q with buffer := leftBy r, appended := q.appended ++ src }

def Recorded.read (q : Recorded) : EStateM.Result Fault CByteBuffer Unit → Recorded
  | .ok _ b => { q with buffer := b, consumed := q.consumed ++ Serialize.consumed q.buffer b }
  | .error _ b => { q with buffer := b }

/-- One operation; the caller catches what it throws and goes on with the buffer as it is. -/
def step (build : Build) (q : Recorded) (o : Op) : Recorded :=
  let r := o.call build q.buffer
  match o with
  | .append _ | .appendValue _ _ | .appendString _ => q.append o.offered r
  | .readValue _ | .readString | .read _ => q.read r
  | .erase => { q with buffer := leftBy r }
  | .clear => ⟨leftBy r, [], []⟩

/-- The cursors are in order and no byte is lost, repeated or out of its place. -/
structure Lossless (q : Recorded) : Prop where
  rpos_le : q.buffer.mReadPos ≤ q.buffer.size
  wpos_eq : q.buffer.mWritePos = q.buffer.size
  bytes_eq : q.appended = q.consumed ++ q.buffer.unread

theorem Scalar.sizeof_le (T : Scalar) : T.sizeof ≤ 8 := by cases T <;> decide

/-- From a buffer in order the reader moves the read cursor over bytes that are there, which
encode what it returns, or it throws and leaves the buffer as it was. -/
def Advances {α : Type} (E : α → List Byte → List Byte → Prop) (rd : BufferM α) : Prop :=
  ∀ b : CByteBuffer, b.Ready →
    (∃ a, ∃ n ≤ b.unread.length, rd b = .ok a (b.skip n) ∧
      E a (b.unread.take n) (b.unread.drop n)) ∨ ∃ e, rd b = .error e b

theorem Advances.map {α β : Type} {E : α → List Byte → List Byte → Prop}
    {E' : β → List Byte → List Byte → Prop} {rd : BufferM α} (h : Advances E rd) (f : α → β)
    (hE : ∀ a bs rest, E a bs rest → E' (f a) bs rest) :
    Advances E' (rd >>= fun a => pure (f a)) := by
  intro b hb
  rcases h b hb with ⟨a, n, hn, hrd, ha⟩ | ⟨e, hrd⟩
  · left
    exact ⟨f a, n, hn, by rw [Reader.bind_of_ok hrd, Reader.pure_apply], hE _ _ _ ha⟩
  · right
    exact ⟨e, Reader.bind_of_error hrd⟩

theorem readBlock_advances {len : ℕ} (hlen : len < addressSpace) :
    Advances (fun dest bs _ => bs = dest ∧ dest.length = len) (readBlock len) := by
  intro b hb
  by_cases hshort : b.unread.length < len
  · right
    exact ⟨_, readBlock_short hb hlen hshort⟩
  have htake : (b.unread.take len).length = len := List.length_take_of_le (by omega)
  by_cases h0 : len = 0
  · -- `at()` throws at the end of the data even where no byte is asked for
    subst h0
    by_cases hend : b.size ≤ b.mReadPos
    · right
      exact ⟨_, readBlock_at_end hend 0⟩
    · left
      exact ⟨_, 0, Nat.zero_le _, readBlock_of_le (by omega) hb.small (by omega), rfl, htake⟩
  · left
    exact ⟨_, len, by omega, readBlock_ok hb (by omega) (by omega), rfl, htake⟩

theorem readScalar_advances {w : ℕ} (hw : w < addressSpace) :
    Advances (fun rep bs _ => rep < 256 ^ w ∧ bs = LittleEndian.toBytes w rep)
      (readScalar w) := by
  apply (readBlock_advances hw).map LittleEndian.value
  rintro dest bs - ⟨rfl, rfl⟩
  exact ⟨LittleEndian.value_lt bs, (LittleEndian.toBytes_value bs).symm⟩

theorem readString_advances :
    Advances (fun str bs rest => 0 ∉ str ∧ (bs = str ++ [0] ∨ bs = str ∧ rest = []))
      readString := by
  intro b hb
  left
  by_cases h0 : 0 ∈ b.unread
  · obtain ⟨str, rest, hu, hstr⟩ := List.eq_append_cons_of_mem h0
    refine ⟨str, str.length + 1, by simp [hu], readString_terminated hb hstr hu, hstr, ?_⟩
    left
    rw [hu, List.take_length_add_append]
    rfl
  · refine ⟨b.unread, b.unread.length, le_rfl, readString_unterminated hb h0, h0, ?_⟩
    right
    exact ⟨List.take_length, List.drop_length⟩

theorem reader_advances {o : Op} {rd : BufferM Out} (h : o.reader = some rd) :
    Advances o.HandsOut rd := by
  cases o with
  | readValue T =>
    obtain rfl := Option.some.inj h
    exact (readScalar_advances (lt_of_le_of_lt T.sizeof_le (by decide))).map _
      fun _ _ _ hE => hE
  | readString =>
    obtain rfl := Option.some.inj h
    exact readString_advances.map _ fun _ _ _ hE => hE
  | read len =>
    obtain rfl := Option.some.inj h
    exact (readBlock_advances len.isLt).map _ fun _ _ _ hE => hE
  | _ => cases h

theorem step_reader (build : Build) (q : Recorded) {o : Op} {rd : BufferM Out}
    (h : o.reader = some rd) : step build q o = q.read ((rd >>= fun _ => pure ()) q.buffer) := by
  cases o with
  | readValue T =>
    obtain rfl := Option.some.inj h
    rw [bind_assoc]
    rfl
  | readString =>
    obtain rfl := Option.some.inj h
    rw [bind_assoc]
    rfl
  | read len =>
    obtain rfl := Option.some.inj h
    rw [bind_assoc]
    rfl
  | _ => cases h

theorem consumed_skip (b : CByteBuffer) (n : ℕ) :
    Serialize.consumed b (b.skip n) = b.unread.take n := by
  simp [Serialize.consumed, unread]

namespace Lossless

variable {build : Build} {q : Recorded}

theorem ready (h : Lossless q) (hsize : q.buffer.size < 10000000) : q.buffer.Ready :=
  ⟨h.rpos_le, by rw [addressSpace]; omega⟩

theorem append (h : Lossless q) {p : BufferM Unit} {src : List Byte} (hp : Appends build p src)
    (hroom : q.buffer.size + src.length < 10000000) :
    Lossless (q.append src (p q.buffer)) ∧
      (q.append src (p q.buffer)).buffer.size = q.buffer.size + src.length := by
  have hr := h.rpos_le
  have hlim : 10000000 ≤ limit build := by cases build <;> decide
  have hu : (q.buffer.extend src).unread = q.buffer.unread ++ src := by
    rw [unread, extend_mStorage, extend_mReadPos, List.drop_append_of_le_length hr]
    rfl
  rw [hp q.buffer h.wpos_eq (by omega)]
  refine ⟨⟨?_, extend_mWritePos q.buffer src, ?_⟩, extend_size q.buffer src⟩
  · simp only [Recorded.append, leftBy, extend_mReadPos, extend_size]
    omega
  · simp only [Recorded.append, leftBy]
    rw [hu, ← List.append_assoc, ← h.bytes_eq]

theorem read (h : Lossless q) (hsize : q.buffer.size < 10000000) {α : Type}
    {E : α → List Byte → List Byte → Prop} {rd : BufferM α} (hrd : Advances E rd) :
    Lossless (q.read ((rd >>= fun _ => pure ()) q.buffer)) ∧
      (q.read ((rd >>= fun _ => pure ()) q.buffer)).buffer.size = q.buffer.size := by
  have hr := h.rpos_le
  have hunit : Advances (fun _ _ _ => True) (rd >>= fun _ => pure ()) :=
    hrd.map (fun _ => ()) fun _ _ _ _ => trivial
  rcases hunit q.buffer (h.ready hsize) with ⟨_, n, hn, hcall, -⟩ | ⟨e, hcall⟩
  · rw [hcall]
    refine ⟨⟨?_, h.wpos_eq, ?_⟩, skip_size q.buffer n⟩
    · rw [unread_length] at hn
      simp only [Recorded.read, skip_mReadPos, skip_size]
      omega
    · simp only [Recorded.read]
      rw [consumed_skip, skip_unread, List.append_assoc, List.take_append_drop]
      exact h.bytes_eq
  · rw [hcall]
    exact ⟨h, rfl⟩

theorem handsOut (h : Lossless q) (hsize : q.buffer.size < 10000000) {o : Op} {rd : BufferM Out}
    (hrd : o.reader = some rd) {out : Out} {b : CByteBuffer} (hcall : rd q.buffer = .ok out b) :
    (step build q o).buffer = b ∧ ∃ bs, o.HandsOut out bs b.unread ∧
      (step build q o).consumed = q.consumed ++ bs := by
  have hstep : step build q o = q.read (.ok () b) := by
    rw [step_reader build q hrd, Reader.bind_of_ok hcall]
    rfl
  rcases reader_advances hrd q.buffer (h.ready hsize) with ⟨a, n, -, hcall', hout⟩ | ⟨e, hcall'⟩
  · rw [hcall] at hcall'
    cases hcall'
    rw [hstep]
    refine ⟨rfl, q.buffer.unread.take n, ?_, ?_⟩
    · rwa [skip_unread]
    · simp only [Recorded.read]
      rw [consumed_skip]
  · rw [hcall] at hcall'
    cases hcall'

end Lossless

theorem erase_rpos {b : CByteBuffer} (hr : b.mReadPos ≤ b.size) :
    CByteBuffer.erase b.mReadPos b = .ok 1 ⟨0, b.unread.length, b.unread⟩ := by
  simp only [CByteBuffer.erase, if_pos hr, unread]

/-- One step keeps the queue in order, and the buffer grows by no more than is put in. -/
theorem step_lossless (build : Build) {q : Recorded} (hq : Lossless q) (o : Op)
    (hroom : q.buffer.size + o.offered.length < 10000000) :
    Lossless (step build q o) ∧
      (step build q o).buffer.size ≤ q.buffer.size + o.offered.length := by
  -- the operations are appends, reads and the two that forget bytes
  have hsize : q.buffer.size < 10000000 := by omega
  have happend : ∀ {p : BufferM Unit}, Appends build p o.offered →
      Lossless (q.append o.offered (p q.buffer)) ∧
        (q.append o.offered (p q.buffer)).buffer.size ≤ q.buffer.size + o.offered.length :=
    fun hp => (hq.append hp hroom).imp_right Eq.le
  have hread : ∀ {α : Type} {E : α → List Byte → List Byte → Prop} {rd : BufferM α},
      Advances E rd → Lossless (q.read ((rd >>= fun _ => pure ()) q.buffer)) ∧
        (q.read ((rd >>= fun _ => pure ()) q.buffer)).buffer.size ≤
          q.buffer.size + o.offered.length :=
    fun hrd => (hq.read hsize hrd).imp_right fun h => by rw [h]; exact Nat.le_add_right _ _
  cases o with
  | append src => exact happend (appends_append build src)
  | appendValue T rep => exact happend (appends_scalar build T.sizeof rep)
  | appendString str => exact happend (appends_string build str)
  | readValue T => exact hread (readScalar_advances (lt_of_le_of_lt T.sizeof_le (by decide)))
  | readString => exact hread readString_advances
  | read len => exact hread (readBlock_advances len.isLt)
  | erase =>
    have hcall : Op.erase.call build q.buffer =
        .ok () ⟨0, q.buffer.unread.length, q.buffer.unread⟩ := by
      rw [Op.call, Reader.get_bind, Reader.bind_of_ok (erase_rpos hq.rpos_le), Reader.pure_apply]
    simp only [step, hcall, leftBy]
    refine ⟨⟨Nat.zero_le _, rfl, hq.bytes_eq⟩, ?_⟩
    rw [CByteBuffer.size, unread_length]
    omega
  | clear => exact ⟨⟨Nat.zero_le _, rfl, rfl⟩, Nat.zero_le _⟩

def total (os : List Op) : ℕ := (os.map fun o => o.offered.length).sum

theorem always_lossless (build : Build) {q : Recorded} (hq : Lossless q) (os : List Op)
    (hroom : q.buffer.size + total os < 10000000) :
    Runs.Always (step build) (fun q => Lossless q ∧ q.buffer.size < 10000000) q os := by
  induction os generalizing q with
  | nil => exact ⟨hq, by omega⟩
  | cons o os ih =>
    simp only [total, List.map_cons, List.sum_cons] at hroom
    obtain ⟨hnext, hsize⟩ := step_lossless build hq o (by omega)
    exact ⟨⟨hq, by omega⟩, ih hnext (by simp only [total]; omega)⟩

/-- After every operation of a sequence that puts in fewer than ten million bytes, what was
appended is what was consumed and behind it what is still unread; and what a reader consumes
encodes what it hands out. -/
theorem lossless_queue (build : Build) (os : List Op) (hroom : total os < 10000000) :
    (∀ pre post, os = pre ++ post → Lossless (pre.foldl (step build) start)) ∧
    ∀ pre o post, os = pre ++ o :: post → ∀ rd, o.reader = some rd →
      ∀ out b, rd (pre.foldl (step build) start).buffer = .ok out b →
        (step build (pre.foldl (step build) start) o).buffer = b ∧
        ∃ bs, o.HandsOut out bs b.unread ∧
          (step build (pre.foldl (step build) start) o).consumed =
            (pre.foldl (step build) start).consumed ++ bs := by
  have hstart : Lossless start := ⟨le_rfl, rfl, rfl⟩
  have hall := Runs.always_iff_prefix.mp
    (always_lossless build hstart os (by rw [start, fresh_size]; omega))
  refine ⟨fun pre post hos => (hall pre post hos).1, ?_⟩
  intro pre o post hos rd hrd out b hcall
  obtain ⟨hq, hsize⟩ := hall pre (o :: post) hos
  exact hq.handsOut hsize hrd hcall

def sampleOps : List Op :=
  [.append [72, 81], .readString, .appendValue .uint16 513, .read ⟨9, by decide⟩,
    .readValue .uint8, .erase, .appendString [65]]

theorem lossless_queue_sample :
    sampleOps.foldl (step .debug) start =
        ⟨⟨0, 3, [2, 65, 0]⟩, [72, 81, 1, 2, 65, 0], [72, 81, 1]⟩ ∧
      Lossless (sampleOps.foldl (step .debug) start) ∧
      ∃ bs, Op.readString.HandsOut (.bytes [72, 81]) bs [] ∧
        ([.append [72, 81], .readString].foldl (step .debug) start).consumed = [] ++ bs := by
  obtain ⟨hlossless, hout⟩ := lossless_queue .debug sampleOps (by decide)
  exact ⟨by decide, hlossless sampleOps [] (by simp),
    (hout [.append [72, 81]] .readString _ rfl _ rfl (.bytes [72, 81]) ⟨2, 2, [72, 81]⟩ rfl).2⟩

end TdxHq.Queue
