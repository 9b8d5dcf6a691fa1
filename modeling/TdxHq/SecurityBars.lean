import TdxHq.Bars
import TdxHq.Connection
import TdxHq.Request

namespace TdxHq.SecurityBars

open CByteBuffer Request Bars
open Connection (Code Handle connectNum)

inductive Move
  /-- It returns at most `k` bytes of what is there, and at least one. -/
  | deliver (k : ℕ)
  | close
  | fail
  deriving DecidableEq, Repr

/-- One end of a connection.  Where `moves` is used up, `recv` returns all it is asked for. -/
structure Socket where
  inbox : List Byte
  moves : List Move
  /-- `none` where `send` takes all it is given, else what it returns. -/
  sendRet : Option ℤ
  deriving DecidableEq, Repr

/-- What a call can change: the socket, the bytes given to `send`, and the two output
parameters. -/
structure CallState where
  socket : Socket
  outbox : List (List Byte)
  Count : ℕ
  szResult : List Char
  deriving DecidableEq, Repr

def CallState.left (s : CallState) (inbox : List Byte) (moves : List Move) : CallState :=
  { s with socket := { s.socket with inbox := inbox, moves := moves } }

/-- The state with the two output parameters set; the text is copied without a NUL. -/
def CallState.store (s : CallState) (resCount : ℕ) (csResult : List Char) : CallState :=
  { s with
    Count := resCount
    szResult := csResult ++ s.szResult.drop csResult.length }

inductive Stop
  | fault (f : Fault)
  | blocked
  deriving DecidableEq, Repr

abbrev CallM := EStateM Stop CallState

structure Uncompressed where
  ret : ℤ
  written : List Byte
  destLen : ℕ

/-- The build, and the library functions that are not part of the program. -/
structure Env (D : Type) where
  build : Build
  ops : Volume.DoubleOps D
  /-- `uncompress`, from the room at the destination and the source bytes. -/
  uncompress : ℕ → List Byte → Uncompressed

def send (data : List Byte) : CallM ℤ := fun s =>
  .ok (s.socket.sendRet.getD data.length) { s with outbox := s.outbox ++ [data] }

/-- `k` bytes of the inbox, where `len` are asked for; no byte can be had at once. -/
def hand (k len : ℕ) (moves : List Move) : CallM (Option (List Byte)) := fun s =>
  if len = 0 then .ok (some []) s
  else if s.socket.inbox = [] then .error .blocked s
  else
    let n := max 1 (min k len)
    .ok (some (s.socket.inbox.take n)) (s.left (s.socket.inbox.drop n) moves)

/-- `recv`; `none` is `SOCKET_ERROR`. -/
def recv (len : ℕ) : CallM (Option (List Byte)) := fun s =>
  match s.socket.moves with
  | [] => hand len len [] s
  | .deliver k :: moves => hand k len moves s
  | .close :: moves => .ok (some []) (s.left s.socket.inbox moves)
  | .fail :: moves => .ok none (s.left s.socket.inbox moves)

def recvRet : Option (List Byte) → ℤ
  | none => -1
  | some chunk => chunk.length

def toSizeT (z : ℤ) : ℕ := (z % sizeTRange).toNat

def fill (b : CByteBuffer) (p : BufferM Unit) : CallM CByteBuffer := fun s =>
  match p b with
  | .ok _ b' => .ok b' s
  | .error f _ => .error (.fault f) s

def consult {α : Type} (b : CByteBuffer) (p : BufferM α) : CallM α := fun s =>
  match p b with
  | .ok a _ => .ok a s
  | .error f _ => .error (.fault f) s

def slot (skHQ : ℕ → Option Handle) (connectID : ℤ) : CallM (Option Handle) :=
  if 0 ≤ connectID ∧ connectID < connectNum then pure (skHQ connectID.toNat)
  else throw (.fault .invalidAccess)

/-- The two sizes in the header, read through `bfRecv`. -/
def readHead (build : Build) (recvHead : List Byte) : BufferM (ℕ × ℕ) := do
  append build recvHead 0x10
  let _ignor ← readScalar 4
  let _ignor ← readScalar 4
  let _ignor ← readScalar 4
  let wZipedSize ← readScalar 2
  let wUzipedSize ← readScalar 2
  return (wZipedSize, wUzipedSize)

/-- The `do … while` loop.  A round that goes on has taken a byte from the inbox, so `fuel`
rounds are enough where the inbox is shorter; the next one would wait for ever. -/
def bodyLoop (build : Build) (wZipedSize : ℕ) : ℕ → CByteBuffer → CallM (ℤ × CByteBuffer)
  | 0, _ => throw .blocked
  | fuel + 1, bfRecvedBody => do
    let chunk ← recv wZipedSize
    -- the bytes behind the chunk in `ZipedData` are never copied: `cnt` is its length, or wraps
    -- to a number of bytes that no vector can hold
    let bfRecvedBody ←
      fill bfRecvedBody (append build (chunk.getD []) (toSizeT (recvRet chunk)))
    if recvRet chunk ≠ 0 ∧ bfRecvedBody.size ≠ wZipedSize then
      bodyLoop build wZipedSize fuel bfRecvedBody
    else return (recvRet chunk, bfRecvedBody)

section Receive

variable {D : Type} (env : Env D)

/-- `UzipedData`: zeros, then the body or what `uncompress` makes of it.  Neither its status
nor the length it reports changes what follows. -/
def unzip (wZipedSize wUzipedSize : ℕ) (ZipedData : List Byte) : List Byte :=
  if wZipedSize = wUzipedSize then ZipedData.take wUzipedSize
  else overwrite (List.replicate wUzipedSize 0) 0
    ((env.uncompress wUzipedSize ZipedData).written.take wUzipedSize)

def tabulate (Category : ℕ) (UzipedData : List Byte) : CallM Code := fun s =>
  match parseBody env.ops Category UzipedData atStart with
  | .error f _ => .error (.fault f) s
  | .ok (resCount, csResult) _ =>
    -- the text is copied without a look at the size of the buffer
    if s.szResult.length < csResult.length then .error (.fault .invalidAccess) s
    else .ok .ok (s.store resCount csResult)

def receiveBody (Category wZipedSize wUzipedSize : ℕ) : CallM Code := do
  let s ← get
  let (iRecvedBody, bfRecvedBody) ←
    bodyLoop env.build wZipedSize (s.socket.inbox.length + 1) fresh
  -- only a close is noticed
  if iRecvedBody = 0 then return .recv
  else
    let ZipedData ← consult bfRecvedBody (do setRpos 0; readBlock wZipedSize)
    tabulate env Category (unzip env wZipedSize wUzipedSize ZipedData)

def receive (Category : ℕ) : CallM Code := do
  let recvHead ← recv 0x10
  if recvRet recvHead = 0x10 then
    let (wZipedSize, wUzipedSize) ← consult fresh (readHead env.build (recvHead.getD []))
    receiveBody env Category wZipedSize wUzipedSize
  else return .recv

def getSecurityBars (skHQ : ℕ → Option Handle) (connectID : ℤ) (call : BarsCall) :
    CallM Code := do
  let bfSend ← fill fresh (fillRequest env.build call)
  match ← slot skHQ connectID with
  | none => return .cont
  | some _ =>
    let datatosend ← consult bfSend (readBlock bfSend.size)
    let nSended ← send datatosend
    -- `SOCKET_ERROR` or a part of the request
    if nSended ≠ bfSend.size then return .send
    else receive env call.Category

end Receive

@[simp] theorem left_inbox (s : CallState) (inbox : List Byte) (moves : List Move) :
    (s.left inbox moves).socket.inbox = inbox := rfl

@[simp] theorem left_left (s : CallState) (inbox inbox' : List Byte) (moves moves' : List Move) :
    (s.left inbox moves).left inbox' moves' = s.left inbox' moves' := rfl

def Delivers (moves : List Move) : Prop := ∀ m ∈ moves, ∃ k, m = .deliver k

def pick (moves : List Move) (len : ℕ) : ℕ :=
  match moves with
  | .deliver k :: _ => max 1 (min k len)
  | _ => len

theorem pick_pos {moves : List Move} {len : ℕ} (hlen : 0 < len) : 0 < pick moves len := by
  unfold pick
  split
  · omega
  · exact hlen

theorem Delivers.tail {moves : List Move} (h : Delivers moves) : Delivers moves.tail :=
  fun m hm => h m (List.mem_of_mem_tail hm)

theorem recv_eq {s : CallState} {len : ℕ} (hd : Delivers s.socket.moves) (hlen : 0 < len)
    (hin : s.socket.inbox ≠ []) :
    recv len s = .ok (some (s.socket.inbox.take (pick s.socket.moves len)))
      (s.left (s.socket.inbox.drop (pick s.socket.moves len)) s.socket.moves.tail) := by
  have hne : len ≠ 0 := by omega
  cases hm : s.socket.moves with
  | nil =>
    have hmax : max 1 (min len len) = len := by omega
    simp only [recv, hm, hand, if_neg hne, if_neg hin, hmax, pick, List.tail_nil]
  | cons m moves =>
    obtain ⟨k, rfl⟩ := hd m (by simp [hm])
    simp only [recv, hm, hand, if_neg hne, if_neg hin, pick, List.tail_cons]

theorem fill_of_ok {b b' : CByteBuffer} {p : BufferM Unit} (h : p b = .ok () b')
    (s : CallState) : fill b p s = .ok b' s := by
  simp only [fill, h]

theorem fill_of_error {b b' : CByteBuffer} {p : BufferM Unit} {f : Fault}
    (h : p b = .error f b') (s : CallState) : fill b p s = .error (.fault f) s := by
  simp only [fill, h]

theorem consult_of_ok {α : Type} {b b' : CByteBuffer} {p : BufferM α} {a : α}
    (h : p b = .ok a b') (s : CallState) : consult b p s = .ok a s := by
  simp only [consult, h]

theorem toSizeT_natCast {n : ℕ} (hn : n < sizeTRange) : toSizeT n = n := by
  unfold toSizeT
  rw [Int.emod_eq_of_lt (by omega) (by exact_mod_cast hn), Int.toNat_natCast]

theorem wordLimit_le (build : Build) : 65535 ≤ limit build := by
  cases build <;> decide

theorem room_of_le (build : Build) {size cnt : ℕ} (h : size + cnt ≤ 65535) :
    Room build size cnt := by
  apply room_of_limit
  exact h.trans (wordLimit_le build)

theorem append_chunk {build : Build} {got chunk : List Byte}
    (hroom : Room build got.length chunk.length) :
    append build chunk (toSizeT (recvRet (some chunk))) (fresh.extend got) =
      .ok () (fresh.extend (got ++ chunk)) := by
  have hcnt : toSizeT (recvRet (some chunk)) = chunk.length := by
    apply toSizeT_natCast
    rcases hroom with h0 | ⟨-, hspace⟩
    · rw [h0]
      decide
    · simp only [sizeTRange, addressSpace] at *
      omega
  rw [hcnt, append_of_room (extend_mWritePos _ _) (by rwa [extend_size, fresh_size, Nat.zero_add]),
    extend_extend]

theorem recvRet_ne_zero {chunk : List Byte} (hne : chunk ≠ []) : recvRet (some chunk) ≠ 0 := by
  have hlen := List.length_pos_iff.mpr hne
  simp only [recvRet]
  omega

theorem bodyLoop_succ {build : Build} {wZipedSize fuel : ℕ} {got chunk : List Byte}
    {s s' : CallState} (hrecv : recv wZipedSize s = .ok (some chunk) s') (hne : chunk ≠ [])
    (hroom : Room build got.length chunk.length) :
    bodyLoop build wZipedSize (fuel + 1) (fresh.extend got) s =
      if got.length + chunk.length ≠ wZipedSize then
        bodyLoop build wZipedSize fuel (fresh.extend (got ++ chunk)) s'
      else .ok ((chunk.length : ℤ), fresh.extend (got ++ chunk)) s' := by
  have hpos := recvRet_ne_zero hne
  rw [bodyLoop, Reader.bind_of_ok hrecv, Option.getD_some,
    Reader.bind_of_ok (fill_of_ok (append_chunk hroom) s')]
  simp only [extend_size, fresh_size, Nat.zero_add, List.length_append]
  by_cases hfull : got.length + chunk.length = wZipedSize
  · rw [if_neg (by tauto), if_neg (by tauto)]
    rfl
  · rw [if_pos ⟨hpos, hfull⟩, if_pos hfull]

theorem bodyLoop_collects (build : Build) {wZipedSize : ℕ} (hz : wZipedSize ≤ 65535) (fuel : ℕ) :
    ∀ (got : List Byte) (s : CallState), Delivers s.socket.moves → s.socket.inbox ≠ [] →
      got.length + s.socket.inbox.length = wZipedSize → s.socket.inbox.length ≤ fuel →
      ∃ iRecvedBody moves, iRecvedBody ≠ 0 ∧
        bodyLoop build wZipedSize fuel (fresh.extend got) s =
          .ok (iRecvedBody, fresh.extend (got ++ s.socket.inbox)) (s.left [] moves) := by
  induction fuel with
  | zero =>
    intro got s _ hin _ hfuel
    exact absurd (List.length_eq_zero_iff.mp (by omega)) hin
  | succ fuel ih =>
    intro got s hd hin hsum hfuel
    have hpos := List.length_pos_iff.mpr hin
    have hrecv := recv_eq hd (show 0 < wZipedSize by omega) hin
    generalize hn : pick s.socket.moves wZipedSize = n at hrecv
    have hn0 : 0 < n := hn ▸ pick_pos (by omega)
    have hchunk : (s.socket.inbox.take n).length = min n s.socket.inbox.length :=
      List.length_take
    have hne : s.socket.inbox.take n ≠ [] := List.length_pos_iff.mp (by omega)
    rw [bodyLoop_succ hrecv hne (room_of_le build (by omega))]
    -- nothing follows the body, so a `recv` cannot take too much
    by_cases hlast : s.socket.inbox.length ≤ n
    · -- the rest of the body has come
      rw [if_neg (by omega), List.take_of_length_le hlast, List.drop_of_length_le hlast]
      exact ⟨_, _, by omega, rfl⟩
    · have hrest : (s.socket.inbox.drop n).length = s.socket.inbox.length - n := List.length_drop
      have hrest_ne : s.socket.inbox.drop n ≠ [] := List.length_pos_iff.mp (by omega)
      obtain ⟨i, moves, hi, hloop⟩ := ih (got ++ s.socket.inbox.take n)
        (s.left (s.socket.inbox.drop n) s.socket.moves.tail) hd.tail hrest_ne
        (by rw [List.length_append, left_inbox]; omega) (by rw [left_inbox]; omega)
      refine ⟨i, moves, hi, ?_⟩
      rw [if_pos (by omega), hloop, left_inbox, left_left, List.append_assoc,
        List.take_append_drop]

theorem recv_chunk {s : CallState} {len : ℕ} {c later : List Byte} {more : List Move}
    (hne : c ≠ []) (hlen : c.length ≤ len) (hin : s.socket.inbox = c ++ later)
    (hmoves : s.socket.moves = .deliver c.length :: more) :
    recv len s = .ok (some c) (s.left later more) := by
  have hpos := List.length_pos_iff.mpr hne
  have hinne : s.socket.inbox ≠ [] := by
    rw [hin]
    exact List.append_ne_nil_of_left_ne_nil hne later
  have hmax : max 1 (min c.length len) = c.length := by omega
  simp only [recv, hmoves, hand, if_neg (show len ≠ 0 by omega), if_neg hinne, hmax]
  rw [hin, List.take_left, List.drop_left]

theorem length_le_flatten {chunks : List (List Byte)} (hchunks : ∀ c ∈ chunks, c ≠ []) :
    chunks.length ≤ chunks.flatten.length := by
  rw [← List.flatMap_id]
  exact Reader.length_le_flatMap id chunks fun c hc => List.length_pos_iff.mpr (hchunks c hc)

theorem bodyLoop_chunks (build : Build) {wZipedSize : ℕ} (hz : wZipedSize ≤ 65535)
    (later : List Byte) (more : List Move) (chunks : List (List Byte)) :
    ∀ (fuel : ℕ) (got : List Byte) (s : CallState), (∀ c ∈ chunks, c ≠ []) → chunks ≠ [] →
      s.socket.inbox = chunks.flatten ++ later →
      s.socket.moves = (chunks.map fun c => .deliver c.length) ++ more →
      got.length + chunks.flatten.length = wZipedSize → chunks.length ≤ fuel →
      ∃ iRecvedBody, iRecvedBody ≠ 0 ∧
        bodyLoop build wZipedSize fuel (fresh.extend got) s =
          .ok (iRecvedBody, fresh.extend (got ++ chunks.flatten)) (s.left later more) := by
  induction chunks with
  | nil =>
    intro fuel got s _ hne
    exact absurd rfl hne
  | cons c chunks ih =>
    intro fuel got s hchunks _ hin hmoves hsum hfuel
    obtain ⟨fuel, rfl⟩ := Nat.exists_eq_add_of_lt (Nat.lt_of_lt_of_le (Nat.succ_pos _) hfuel)
    have hc : c ≠ [] := hchunks c (by simp)
    have hpos := List.length_pos_iff.mpr hc
    simp only [List.flatten_cons, List.length_append, List.append_assoc] at hin hsum
    have hrecv := recv_chunk hc (show c.length ≤ wZipedSize by omega) hin hmoves
    rw [bodyLoop_succ hrecv hc (room_of_le build (by omega))]
    by_cases hlast : chunks = []
    · subst hlast
      simp only [List.flatten_nil, List.length_nil, Nat.add_zero] at hsum
      rw [if_neg (by omega), List.flatten_cons, List.flatten_nil, List.append_nil]
      exact ⟨c.length, by omega, rfl⟩
    · -- the chunks that are still to come are not empty
      have hchunks' : ∀ d ∈ chunks, d ≠ [] := fun d hd => hchunks d (by simp [hd])
      have hrest : 0 < chunks.flatten.length :=
        Nat.lt_of_lt_of_le (List.length_pos_iff.mpr hlast) (length_le_flatten hchunks')
      obtain ⟨i, hi, hloop⟩ := ih (0 + fuel) (got ++ c)
        (s.left (chunks.flatten ++ later) ((chunks.map fun c => .deliver c.length) ++ more))
        hchunks' hlast rfl rfl
        (by rw [List.length_append]; omega) (by simp only [List.length_cons] at hfuel; omega)
      refine ⟨i, hi, ?_⟩
      rw [if_pos (by omega), List.flatten_cons, ← List.append_assoc]
      exact hloop

/-- A response: a header of 16 bytes, whose last two fields are the size of the body as it is
transported and as it is meant, and the body. -/
structure Frame where
  ignored : List Byte
  wUzipedSize : Word
  body : List Byte
  ignored_length : ignored.length = 12
  body_ne : body ≠ []
  body_length : body.length < 65536

namespace Frame

def head (f : Frame) : List Byte :=
  f.ignored ++ (LittleEndian.toBytes 2 f.body.length ++ LittleEndian.toBytes 2 f.wUzipedSize)

def bytes (f : Frame) : List Byte := f.head ++ f.body

theorem head_length (f : Frame) : f.head.length = 0x10 := by
  simp [head, f.ignored_length]

theorem body_le (f : Frame) : f.body.length ≤ 65535 := Nat.le_of_lt_succ f.body_length

theorem bytes_ne (f : Frame) : f.bytes ≠ [] :=
  List.append_ne_nil_of_right_ne_nil _ f.body_ne

/-- The count and the text of the frame, if its body can be parsed. -/
def table {D : Type} (env : Env D) (Category : ℕ) (f : Frame) : Option (ℕ × List Char) :=
  match parseBody env.ops Category (unzip env f.body.length f.wUzipedSize f.body) atStart with
  | .ok r _ => some r
  | .error _ _ => none

end Frame

theorem readScalar_skip {b : CByteBuffer} (hb : b.Ready) {n w : ℕ} (hw : 0 < w)
    (h : n + w ≤ b.unread.length) :
    readScalar w (b.skip n) =
      .ok (LittleEndian.value ((b.unread.drop n).take w)) (b.skip (n + w)) := by
  have hlen : w ≤ (b.skip n).unread.length := by
    rw [skip_unread, List.length_drop]
    omega
  rw [readScalar_ok (hb.skip (by omega)) hw hlen, skip_unread, skip_skip]

def zipedSize (recvHead : List Byte) : ℕ := LittleEndian.value ((recvHead.drop 12).take 2)

theorem zipedSize_le (recvHead : List Byte) : zipedSize recvHead ≤ 65535 := by
  have hlt := LittleEndian.value_lt ((recvHead.drop 12).take 2)
  have hlen : ((recvHead.drop 12).take 2).length ≤ 2 := by
    rw [List.length_take]
    exact Nat.min_le_left 2 _
  have hpow := Nat.pow_le_pow_right (show 0 < 256 by decide) hlen
  rw [zipedSize]
  omega

def uzipedSize (recvHead : List Byte) : ℕ := LittleEndian.value ((recvHead.drop 14).take 2)

theorem readHead_of_length (build : Build) {recvHead : List Byte} (hlen : recvHead.length = 0x10) :
    readHead build recvHead fresh =
      .ok (zipedSize recvHead, uzipedSize recvHead) ((fresh.extend recvHead).skip 16) := by
  have hlim := wordLimit_le build
  have happend : append build recvHead 0x10 fresh = .ok () (fresh.extend recvHead) := by
    have h : append build recvHead recvHead.length fresh = .ok () (fresh.extend recvHead) :=
      append_end rfl (by rw [fresh_size]; omega)
    rwa [hlen] at h
  have hready : (fresh.extend recvHead).Ready :=
    fresh_extend_ready (by simp only [addressSpace]; omega)
  have hunread : (fresh.extend recvHead).unread = recvHead := rfl
  have hread : ∀ {n w : ℕ}, 0 < w → n + w ≤ 16 → readScalar w ((fresh.extend recvHead).skip n) =
      .ok (LittleEndian.value ((recvHead.drop n).take w)) ((fresh.extend recvHead).skip (n + w)) :=
    fun hw h => readScalar_skip hready hw (by rw [hunread]; omega)
  -- three numbers that are ignored, then the two sizes
  have h₀ : readScalar 4 (fresh.extend recvHead) = .ok _ ((fresh.extend recvHead).skip 4) :=
    hread (show 0 < 4 by decide) (show 0 + 4 ≤ 16 by decide)
  have h₁ := hread (show 0 < 4 by decide) (show 4 + 4 ≤ 16 by decide)
  have h₂ := hread (show 0 < 4 by decide) (show 8 + 4 ≤ 16 by decide)
  have h₃ := hread (show 0 < 2 by decide) (show 12 + 2 ≤ 16 by decide)
  have h₄ := hread (show 0 < 2 by decide) (show 14 + 2 ≤ 16 by decide)
  rw [readHead, Reader.bind_of_ok happend, Reader.bind_of_ok h₀, Reader.bind_of_ok h₁,
    Reader.bind_of_ok h₂, Reader.bind_of_ok h₃, Reader.bind_of_ok h₄, Reader.pure_apply]
  rfl

theorem zipedSize_head (f : Frame) : zipedSize f.head = f.body.length := by
  rw [zipedSize, Frame.head, List.drop_left' f.ignored_length, List.take_left' (by simp),
    LittleEndian.value_toBytes f.body_length]

theorem uzipedSize_head (f : Frame) : uzipedSize f.head = f.wUzipedSize.val := by
  rw [uzipedSize, Frame.head, ← List.append_assoc, List.drop_left' (by simp [f.ignored_length]),
    List.take_of_length_le (by simp), LittleEndian.value_toBytes f.wUzipedSize.isLt]

theorem readBack_eq {body : List Byte} (hne : body ≠ []) (hlen : body.length < 65536) :
    (do setRpos 0; readBlock body.length : BufferM (List Byte)) (fresh.extend body) =
      .ok body ((fresh.extend body).skip body.length) := by
  have hrpos : setRpos 0 (fresh.extend body) = .ok () (fresh.extend body) := rfl
  rw [Reader.bind_of_ok hrpos]
  exact readBlock_fresh_extend (List.length_pos_iff.mpr hne) (by simp only [addressSpace]; omega)

section Call

variable {D : Type} {env : Env D}

theorem tabulate_of_parse {Category : ℕ} {UzipedData : List Byte} {n : ℕ} {text : List Char}
    {c : Price.Cursor} {s : CallState}
    (hparse : parseBody env.ops Category UzipedData atStart = .ok (n, text) c)
    (hroom : text.length ≤ s.szResult.length) :
    tabulate env Category UzipedData s = .ok .ok (s.store n text) := by
  simp only [tabulate, hparse, if_neg (show ¬ s.szResult.length < text.length by omega)]

theorem tabulate_of_table {Category : ℕ} {f : Frame} {n : ℕ} {text : List Char} {s : CallState}
    (htable : f.table env Category = some (n, text)) (hroom : text.length ≤ s.szResult.length) :
    tabulate env Category (unzip env f.body.length f.wUzipedSize f.body) s =
      .ok .ok (s.store n text) := by
  unfold Frame.table at htable
  cases hparse : parseBody env.ops Category
      (unzip env f.body.length f.wUzipedSize f.body) atStart with
  | error e c =>
    rw [hparse] at htable
    cases htable
  | ok r c =>
    rw [hparse] at htable
    obtain rfl := Option.some.inj htable
    exact tabulate_of_parse hparse hroom

theorem receiveBody_of_body {Category wUzipedSize : ℕ} {body : List Byte} {s s' : CallState}
    {iRecvedBody : ℤ} (hi : iRecvedBody ≠ 0) (hne : body ≠ []) (hlen : body.length < 65536)
    (hloop : bodyLoop env.build body.length (s.socket.inbox.length + 1) fresh s =
      .ok (iRecvedBody, fresh.extend body) s') :
    receiveBody env Category body.length wUzipedSize s =
      tabulate env Category (unzip env body.length wUzipedSize body) s' := by
  rw [receiveBody, Reader.get_bind, Reader.bind_of_ok hloop]
  simp only [if_neg hi]
  rw [Reader.bind_of_ok (consult_of_ok (readBack_eq hne hlen) _)]

theorem receiveBody_of_loop {Category : ℕ} {f : Frame} {n : ℕ} {text : List Char}
    {s s' : CallState} {iRecvedBody : ℤ} (htable : f.table env Category = some (n, text))
    (hi : iRecvedBody ≠ 0)
    (hloop : bodyLoop env.build f.body.length (s.socket.inbox.length + 1) fresh s =
      .ok (iRecvedBody, fresh.extend f.body) s')
    (hroom : text.length ≤ s'.szResult.length) :
    receiveBody env Category f.body.length f.wUzipedSize s = .ok .ok (s'.store n text) := by
  rw [receiveBody_of_body hi f.body_ne f.body_length hloop]
  exact tabulate_of_table htable hroom

theorem receive_of_length {Category : ℕ} {recvHead : List Byte} {s s' : CallState}
    (hrecv : recv 0x10 s = .ok (some recvHead) s') (hlen : recvHead.length = 0x10) :
    receive env Category s =
      receiveBody env Category (zipedSize recvHead) (uzipedSize recvHead) s' := by
  have hret : recvRet (some recvHead) = 0x10 := by
    rw [recvRet, hlen]
    rfl
  rw [receive, Reader.bind_of_ok hrecv, if_pos hret, Option.getD_some,
    Reader.bind_of_ok (consult_of_ok (readHead_of_length env.build hlen) _)]

theorem receive_of_head {Category : ℕ} {f : Frame} {s s' : CallState}
    (hrecv : recv 0x10 s = .ok (some f.head) s') :
    receive env Category s = receiveBody env Category f.body.length f.wUzipedSize s' := by
  rw [receive_of_length hrecv f.head_length, zipedSize_head, uzipedSize_head]

/-- A frame with nothing behind it is received and tabulated however its body is cut. -/
theorem receive_of_frame {Category : ℕ} {f : Frame} {n : ℕ} {text : List Char} {s : CallState}
    (htable : f.table env Category = some (n, text)) (hd : Delivers s.socket.moves)
    (hin : s.socket.inbox = f.bytes) (hhead : pick s.socket.moves 0x10 = 0x10)
    (hroom : text.length ≤ s.szResult.length) :
    ∃ moves, receive env Category s = .ok .ok ((s.left [] moves).store n text) := by
  have hrecv := recv_eq hd (show 0 < 0x10 by decide) (by rw [hin]; exact f.bytes_ne)
  rw [hhead, hin, Frame.bytes, List.take_left' f.head_length, List.drop_left' f.head_length]
    at hrecv
  obtain ⟨i, moves, hi, hloop⟩ := bodyLoop_collects env.build f.body_le (f.body.length + 1) []
    (s.left f.body s.socket.moves.tail) hd.tail f.body_ne
    (by rw [List.length_nil, Nat.zero_add, left_inbox]) (Nat.le_succ _)
  rw [List.nil_append, left_left, left_inbox, extend_nil rfl] at hloop
  refine ⟨moves, ?_⟩
  rw [receive_of_head hrecv]
  exact receiveBody_of_loop htable hi hloop hroom

/-- A header that comes in pieces ends the call, and the rest of the frame stays unread. -/
theorem receive_of_cut_head {Category : ℕ} {s : CallState} (hd : Delivers s.socket.moves)
    (hin : s.socket.inbox ≠ []) (hcut : pick s.socket.moves 0x10 < 0x10) :
    receive env Category s = .ok .recv
      (s.left (s.socket.inbox.drop (pick s.socket.moves 0x10)) s.socket.moves.tail) := by
  have hrecv := recv_eq hd (show 0 < 0x10 by decide) hin
  have hret : recvRet (some (s.socket.inbox.take (pick s.socket.moves 0x10))) ≠ 0x10 := by
    rw [recvRet, List.length_take]
    omega
  rw [receive, Reader.bind_of_ok hrecv, if_neg hret, Reader.pure_apply]

/-- A call on an open socket sends its request, and goes on to receive if that is taken
whole. -/
theorem getSecurityBars_eq {skHQ : ℕ → Option Handle} {connectID : ℤ} {call : BarsCall}
    {s : CallState} (hfits : Fits env.build call) (hid : 0 ≤ connectID ∧ connectID < connectNum)
    (hopen : skHQ connectID.toNat ≠ none) :
    getSecurityBars env skHQ connectID call s =
      if s.socket.sendRet.getD (requestBytes call).length ≠ (requestBytes call).length then
        .ok .send { s with outbox := s.outbox ++ [requestBytes call] }
      else receive env call.Category { s with outbox := s.outbox ++ [requestBytes call] } := by
  have hslot : slot skHQ connectID s = .ok (skHQ connectID.toNat) s := by
    rw [slot, if_pos hid, Reader.pure_apply]
  obtain ⟨h, hh⟩ := Option.ne_none_iff_exists'.mp hopen
  have hsent : send (requestBytes call) s =
      .ok (s.socket.sendRet.getD (requestBytes call).length)
        { s with outbox := s.outbox ++ [requestBytes call] } := rfl
  have hsize : (fresh.extend (requestBytes call)).size = (requestBytes call).length := rfl
  rw [getSecurityBars, Reader.bind_of_ok (fill_of_ok (fillRequest_of_fits hfits) s),
    Reader.bind_of_ok hslot, hh]
  dsimp only
  rw [Reader.bind_of_ok (consult_of_ok (readBlock_request hfits) s), Reader.bind_of_ok hsent, hsize]
  split_ifs <;> rfl

theorem getSecurityBars_of_sent {skHQ : ℕ → Option Handle} {connectID : ℕ} {call : BarsCall}
    {s : CallState} (hid : connectID < connectNum) (hopen : skHQ connectID ≠ none)
    (hsend : s.socket.sendRet = none) (hroom : 22 + call.Zqdm.strlen ≤ limit env.build) :
    getSecurityBars env skHQ connectID call s =
      receive env call.Category { s with outbox := s.outbox ++ [requestBytes call] } := by
  rw [getSecurityBars_eq (fits_of_limit hroom) ⟨by omega, by exact_mod_cast hid⟩
    (by rwa [Int.toNat_natCast]), hsend, Option.getD_none, if_neg (by simp)]

/-- The frame waits on the socket: its header comes in one piece, its body in `chunks`. -/
def arriving (f : Frame) (chunks : List (List Byte)) (later : List Byte) (more : List Move) :
    Socket where
  inbox := f.head ++ (chunks.flatten ++ later)
  moves := .deliver f.head.length :: ((chunks.map fun c => .deliver c.length) ++ more)
  sendRet := none

theorem unzip_of_body {f : Frame} {body : List Byte} (hu : f.wUzipedSize = body.length)
    (hraw : f.body.length = body.length → f.body = body)
    (hzip : f.body.length ≠ body.length →
      (env.uncompress body.length f.body).written = body) :
    unzip env f.body.length f.wUzipedSize f.body = body := by
  unfold unzip
  rw [hu]
  split_ifs with hsize
  · rw [hraw hsize, List.take_length]
  · rw [hzip hsize, List.take_length]
    simp [overwrite]

/-- A body that was encoded from bars, and sent as it is or compressed, comes back as the
table of these bars, however TCP cuts it and whatever is sent after it. -/
theorem getSecurityBars_roundTrip (env : Env D) (skHQ : ℕ → Option Handle) (connectID : ℕ)
    (call : BarsCall) (bars : List Bar) (f : Frame) (chunks : List (List Byte))
    (later : List Byte) (more : List Move) (outbox : List (List Byte)) (Count : ℕ)
    (szResult : List Char)
    (hid : connectID < connectNum) (hopen : skHQ connectID ≠ none)
    (hrequest : 22 + call.Zqdm.strlen ≤ limit env.build)
    (hfit : BarsFit call.Category 0 bars)
    (hlen : (encodeBody call.Category bars).length ≤ 65535)
    (hu : f.wUzipedSize = (encodeBody call.Category bars).length)
    (hraw : f.body.length = (encodeBody call.Category bars).length →
      f.body = encodeBody call.Category bars)
    (hzip : f.body.length ≠ (encodeBody call.Category bars).length →
      (env.uncompress (encodeBody call.Category bars).length f.body).written =
        encodeBody call.Category bars)
    (hchunks : ∀ c ∈ chunks, c ≠ []) (hbody : chunks.flatten = f.body)
    (hroom : (sheet env.ops call.Category bars).length ≤ szResult.length) :
    getSecurityBars env skHQ connectID call
        ⟨arriving f chunks later more, outbox, Count, szResult⟩ =
      .ok .ok ⟨⟨later, more, none⟩, outbox ++ [requestBytes call], bars.length,
        sheet env.ops call.Category bars ++
          szResult.drop (sheet env.ops call.Category bars).length⟩ := by
  obtain ⟨c, hparse⟩ := parseBody_encodeBody env.ops call.Category hfit hlen
  have htable : f.table env call.Category =
      some (bars.length, sheet env.ops call.Category bars) := by
    rw [Frame.table, unzip_of_body hu hraw hzip, hparse, rows_eq_sheet]
  -- the header is one `recv`, the body as many as there are chunks
  have hne : f.head ≠ [] := List.length_pos_iff.mp (by rw [f.head_length]; decide)
  have hchunks_ne : chunks ≠ [] := by
    rintro rfl
    exact f.body_ne hbody.symm
  let s : CallState :=
    ⟨arriving f chunks later more, outbox ++ [requestBytes call], Count, szResult⟩
  have hrecv : recv 0x10 s = .ok (some f.head) (s.left (chunks.flatten ++ later) _) :=
    recv_chunk hne f.head_length.le rfl rfl
  obtain ⟨i, hi, hloop⟩ := bodyLoop_chunks env.build f.body_le later more chunks
    ((chunks.flatten ++ later).length + 1) [] (s.left (chunks.flatten ++ later) _) hchunks
    hchunks_ne rfl rfl (by rw [List.length_nil, Nat.zero_add, hbody])
    (by rw [List.length_append]; have := length_le_flatten hchunks; omega)
  rw [List.nil_append, hbody, extend_nil rfl] at hloop
  rw [getSecurityBars_of_sent hid hopen rfl hrequest]
  change receive env call.Category s = _
  rw [receive_of_head hrecv, hbody]
  exact receiveBody_of_loop htable hi hloop hroom

end Call

def sampleBars : List Bar :=
  [⟨2015, 1, 5, 15, 0, 15990, 16020, 16280, 15600, 2860436, 0x4D7CC397⟩,
    ⟨2015, 1, 6, 15, 0, 15850, 15780, 16390, 15550, 0, 0⟩]

def sampleStream : List Byte :=
  [0x78, 0x01, 0x01, 39, 0, 216, 255] ++ encodeBody 9 sampleBars ++ [19, 196, 12, 191]

def sampleFrame : Frame where
  ignored := [0xb1, 0xcb, 0x74, 0x00, 0x0c, 0x01, 0x08, 0x64, 0x01, 0x00, 0x2d, 0x05]
  wUzipedSize := 39
  body := sampleStream
  ignored_length := rfl
  body_ne := by decide
  body_length := by decide

def sampleEnv : Env ℚ :=
  ⟨.release, Volume.exact, fun _ _ => ⟨0, encodeBody 9 sampleBars, 39⟩⟩

def sampleText : List Char :=
  ("datetime,open,close,hight,low,volume,amount\n" ++
    "\"2015-01-05 15:00:00\",15.990,16.020,16.280,15.600,2860436,265042288.000\n" ++
    "\"2015-01-06 15:00:00\",15.850,15.780,16.390,15.550,1,15.780\n").toList

theorem sheet_sample : sheet Volume.exact 9 sampleBars = sampleText := by decide +kernel

/-- A compressed response that comes in three pieces. -/
theorem getSecurityBars_sample :
    getSecurityBars sampleEnv (fun _ => some 7) (0 : ℕ) (askFrom 0)
        ⟨arriving sampleFrame [sampleStream.take 20, sampleStream.drop 20] [] [], [], 1,
          List.replicate 204800 ' '⟩ =
      .ok .ok ⟨⟨[], [], none⟩, [requestBytes (askFrom 0)], 2,
        sampleText ++ List.replicate (204800 - 175) ' '⟩ := by
  have h := getSecurityBars_roundTrip sampleEnv (fun _ => some 7) 0 (askFrom 0) sampleBars
    sampleFrame [sampleStream.take 20, sampleStream.drop 20] [] [] [] 1
    (List.replicate 204800 ' ') (by decide) (by simp) (by decide) (by decide) (by decide)
    (by decide) (by decide) (fun _ => rfl) (by decide) (by decide)
    (by rw [List.length_replicate]; decide +kernel)
  have hlen : sampleText.length = 175 := by decide +kernel
  have htext : sheet sampleEnv.ops (askFrom 0).Category sampleBars = sampleText := sheet_sample
  rw [htext, hlen, List.drop_replicate] at h
  exact h

end TdxHq.SecurityBars
