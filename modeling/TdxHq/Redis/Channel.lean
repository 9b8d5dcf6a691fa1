import TdxHq.Library.Ascii
import TdxHq.Library.Reader

namespace TdxHq.Redis

abbrev Str := List Byte

inductive Exception
  | connectionError (err : Str)
  | protocolError (err : Str)
  | keyError (err : Str)
  | runtimeError (err : Str)
  | badLexicalCast
  | outOfRange
  | lengthError
  | invalidAccess
  | blocked
  deriving DecidableEq, Repr

inductive Turn
  /-- Another `k` bytes have arrived, and at least one is there. -/
  | arrive (k : ℕ)
  | interrupt
  | fail (err : Str)
  deriving DecidableEq, Repr

/-- The bytes the server has sent, and what happens at the coming calls of `recv`. -/
structure Channel where
  inbox : Str
  /-- How much of the inbox has arrived. -/
  queued : ℕ
  /-- Where they are used up, all of the inbox has arrived. -/
  turns : List Turn
  /-- The server sends nothing behind the inbox and has closed the connection. -/
  closed : Bool
  deriving DecidableEq, Repr

abbrev ChannelM := EStateM Exception Channel

/-- `recv` of at most `n` bytes with `queued` bytes there, if there are so many; with `MSG_PEEK`
they stay. -/
def deliver (peek : Bool) (n queued : ℕ) (turns : List Turn) : ChannelM Str := fun c =>
  -- `recv` returns 0
  if n = 0 ∨ (c.inbox = [] ∧ c.closed) then
    .error (.connectionError (Ascii.text "connection was closed")) { c with turns := turns }
  else if c.inbox = [] then .error .blocked c
  else
    -- the call waits until a byte is there
    let queued := min c.inbox.length (max 1 queued)
    let bytes_received := min n queued
    .ok (c.inbox.take bytes_received)
      (if peek then { c with queued := queued, turns := turns }
      else
        { c with
          inbox := c.inbox.drop bytes_received
          queued := queued - bytes_received
          turns := turns })

def recvLoop (peek : Bool) (n : ℕ) : List Turn → ChannelM Str
  | [] => fun c => deliver peek n c.inbox.length [] c
  | .arrive k :: turns => fun c => deliver peek n (c.queued + k) turns c
  | .interrupt :: turns => recvLoop peek n turns
  | .fail err :: turns => fun c =>
    .error (.connectionError (Ascii.text "recv error: " ++ err)) { c with turns := turns }

def recvOrThrow (peek : Bool) (n : ℕ) : ChannelM Str := fun c => recvLoop peek n c.turns c

def LF : Byte := 10

def CR : Byte := 13

def lbr : Str := [CR, LF]

def rtrim (str ws : Str) : Str := str.rdropWhile ws.contains

def bufferSize : ℕ := 64

/-- The loop of `read_line`.  `total_bytes_read` is compared with `max_size` and never raised, so
only the delimiter ends the loop; a round that goes on has taken a byte from the inbox, and
`fuel` rounds are enough where the inbox is shorter. -/
def readLineLoop : ℕ → Str → ChannelM Str
  | 0, _ => throw .blocked
  | fuel + 1, oss => do
    let buffer ← recvOrThrow true bufferSize
    if buffer.contains LF then
      -- up to the delimiter: what is behind it stays for the next reply
      let to_read := (buffer.takeWhile (· != LF)).length + 1
      let _ ← recvOrThrow false to_read
      return oss ++ buffer.take to_read
    else
      let _ ← recvOrThrow false buffer.length
      readLineLoop fuel (oss ++ buffer)

def readLine : ChannelM Str := do
  let c ← get
  let line ← readLineLoop (c.inbox.length + 1) []
  return rtrim line lbr

def readNLoop : ℕ → ℕ → Str → ChannelM Str
  | _, 0, buffer => return buffer
  | 0, _ + 1, _ => throw .blocked
  | fuel + 1, n + 1, buffer => do
    let bp ← recvOrThrow false (n + 1)
    readNLoop fuel (n + 1 - bp.length) (buffer ++ bp)

/-- `read_n`; a negative `n` is a size no vector can have, and with none `&buffer[0]` is taken of
an empty vector. -/
def readN (n : ℤ) : ChannelM Str := do
  let c ← get
  if n < 0 then throw .lengthError
  else if n = 0 then throw .invalidAccess
  else readNLoop (c.inbox.length + 1) n.toNat []

def NoFail (turns : List Turn) : Prop := ∀ err, Turn.fail err ∉ turns

/-- The connection stays up. -/
structure Live (c : Channel) : Prop where
  noFail : NoFail c.turns
  up : c.closed = false

def Channel.took (c : Channel) (m queued : ℕ) (turns : List Turn) : Channel :=
  { c with inbox := c.inbox.drop m, queued := queued, turns := turns }

theorem took_inbox (c : Channel) (m queued : ℕ) (turns : List Turn) :
    (c.took m queued turns).inbox = c.inbox.drop m := rfl

theorem took_took (c : Channel) (m m' q q' : ℕ) (turns turns' : List Turn) :
    (c.took m q turns).took m' q' turns' = c.took (m + m') q' turns' := by
  simp only [Channel.took, List.drop_drop]

theorem not_closed {c : Channel} {n : ℕ} (hn : 0 < n) (hin : c.inbox ≠ []) :
    ¬ (n = 0 ∨ (c.inbox = [] ∧ c.closed = true)) := by
  simp only [hin, false_and, or_false]
  omega

theorem deliver_peek {c : Channel} {n : ℕ} (hn : 0 < n) (hin : c.inbox ≠ []) (queued : ℕ)
    (turns : List Turn) :
    ∃ q, 0 < q ∧ q ≤ c.inbox.length ∧ deliver true n queued turns c =
      .ok (c.inbox.take (min n q)) { c with queued := q, turns := turns } := by
  have hlen := List.length_pos_iff.mpr hin
  refine ⟨min c.inbox.length (max 1 queued), by omega, by omega, ?_⟩
  rw [deliver, if_neg (not_closed hn hin), if_neg hin]
  rfl

theorem deliver_take {c : Channel} {n : ℕ} (hn : 0 < n) (hin : c.inbox ≠ []) (queued : ℕ)
    (turns : List Turn) :
    ∃ m q, 0 < m ∧ m ≤ n ∧ m ≤ c.inbox.length ∧ (n ≤ queued → n ≤ c.inbox.length → m = n) ∧
      deliver false n queued turns c = .ok (c.inbox.take m) (c.took m q turns) := by
  have hlen := List.length_pos_iff.mpr hin
  refine ⟨min n (min c.inbox.length (max 1 queued)), min c.inbox.length (max 1 queued) -
    min n (min c.inbox.length (max 1 queued)), by omega, by omega, by omega, by omega, ?_⟩
  rw [deliver, if_neg (not_closed hn hin), if_neg hin]
  rfl

theorem recvLoop_eq_deliver (peek : Bool) (n : ℕ) (c : Channel) (turns : List Turn)
    (hnone : NoFail turns) :
    ∃ queued turns', (c.queued ≤ queued ∨ c.inbox.length ≤ queued) ∧
      NoFail turns' ∧
      recvLoop peek n turns c = deliver peek n queued turns' c := by
  induction turns with
  | nil => exact ⟨c.inbox.length, [], Or.inr le_rfl, hnone, rfl⟩
  | cons t turns ih =>
    have htail : NoFail turns := by
      intro err hmem
      exact hnone err (List.mem_cons_of_mem t hmem)
    cases t with
    | arrive k => exact ⟨c.queued + k, turns, Or.inl (by omega), htail, rfl⟩
    | interrupt => exact ih htail
    | fail err => exact absurd List.mem_cons_self (hnone err)

theorem recvOrThrow_peek {c : Channel} {n : ℕ} (hn : 0 < n) (hin : c.inbox ≠ [])
    (hlive : NoFail c.turns) :
    ∃ q turns, 0 < q ∧ q ≤ c.inbox.length ∧ NoFail turns ∧
      recvOrThrow true n c =
        .ok (c.inbox.take (min n q)) { c with queued := q, turns := turns } := by
  obtain ⟨queued, turns, -, hnone, hloop⟩ := recvLoop_eq_deliver true n c c.turns hlive
  obtain ⟨q, hq, hqlen, heq⟩ := deliver_peek hn hin queued turns
  exact ⟨q, turns, hq, hqlen, hnone, hloop.trans heq⟩

theorem recvOrThrow_take {c : Channel} {n : ℕ} (hn : 0 < n) (hin : c.inbox ≠ [])
    (hlive : NoFail c.turns) :
    ∃ m q turns, 0 < m ∧ m ≤ n ∧ m ≤ c.inbox.length ∧
      (n ≤ c.queued → n ≤ c.inbox.length → m = n) ∧ NoFail turns ∧
      recvOrThrow false n c = .ok (c.inbox.take m) (c.took m q turns) := by
  obtain ⟨queued, turns, hqueued, hnone, hloop⟩ := recvLoop_eq_deliver false n c c.turns hlive
  obtain ⟨m, q, hm, hmn, hmlen, hall, heq⟩ := deliver_take hn hin queued turns
  exact ⟨m, q, turns, hm, hmn, hmlen, fun hq hle => hall (by omega) hle, hnone, hloop.trans heq⟩

theorem recvOrThrow_peeked {c : Channel} {m : ℕ} (hm : 0 < m) (hqueued : m ≤ c.queued)
    (hlen : m ≤ c.inbox.length) (hlive : NoFail c.turns) :
    ∃ q turns, NoFail turns ∧
      recvOrThrow false m c = .ok (c.inbox.take m) (c.took m q turns) := by
  have hin : c.inbox ≠ [] := List.length_pos_iff.mp (by omega)
  obtain ⟨k, q, turns, -, -, -, hall, hnone, heq⟩ := recvOrThrow_take hm hin hlive
  rw [hall hqueued hlen] at heq
  exact ⟨q, turns, hnone, heq⟩

theorem takeWhile_line {line rest : Str} (hline : LF ∉ line) :
    (line ++ LF :: rest).takeWhile (· != LF) = line := by
  rw [List.takeWhile_append_of_pos]
  · simp
  · intro b hb
    simpa using ne_of_mem_of_not_mem hb hline

theorem bufferSize_pos : 0 < bufferSize := by decide

theorem readLineLoop_last {line rest : Str} {c : Channel} {q : ℕ} {turns : List Turn}
    (hline : LF ∉ line) (hin : c.inbox = line ++ LF :: rest)
    (hnone : NoFail turns) (hseen : line.length < min bufferSize q)
    (hpeek : recvOrThrow true bufferSize c =
      .ok (c.inbox.take (min bufferSize q)) { c with queued := q, turns := turns })
    (fuel : ℕ) (oss : Str) :
    ∃ q turns, NoFail turns ∧
      readLineLoop (fuel + 1) oss c =
        .ok (oss ++ line ++ [LF]) (c.took (line.length + 1) q turns) := by
  -- the peek reaches beyond the end of the line
  have hbuffer : c.inbox.take (min bufferSize q) =
      line ++ LF :: rest.take (min bufferSize q - line.length - 1) := by
    obtain ⟨k, hk⟩ := Nat.exists_eq_add_of_lt hseen
    rw [hin, hk, Nat.add_assoc, List.take_length_add_append, List.take_succ_cons]
    congr 3
    omega
  have htake : (line ++ LF :: rest.take (min bufferSize q - line.length - 1)).take
      (line.length + 1) = line ++ [LF] := by
    rw [List.take_length_add_append]
    rfl
  have hlen : line.length + 1 ≤ c.inbox.length := by
    simp only [hin, List.length_append, List.length_cons]
    omega
  have hqueued : line.length + 1 ≤ q := by omega
  obtain ⟨q', turns', hnone', htaken⟩ := recvOrThrow_peeked
    (c := { c with queued := q, turns := turns }) (Nat.succ_pos line.length) hqueued hlen hnone
  refine ⟨q', turns', hnone', ?_⟩
  rw [readLineLoop, Reader.bind_of_ok hpeek, hbuffer, takeWhile_line hline, if_pos (by simp),
    Reader.bind_of_ok htaken, htake, List.append_assoc]
  rfl

theorem readLineLoop_more {line rest : Str} {c : Channel} {q : ℕ} {turns : List Turn}
    (hline : LF ∉ line) (hin : c.inbox = line ++ LF :: rest) (hq : 0 < q)
    (hnone : NoFail turns) (hmore : min bufferSize q ≤ line.length)
    (hpeek : recvOrThrow true bufferSize c =
      .ok (c.inbox.take (min bufferSize q)) { c with queued := q, turns := turns })
    (fuel : ℕ) (oss : Str) :
    ∃ q' turns', NoFail turns' ∧
      readLineLoop (fuel + 1) oss c = readLineLoop fuel (oss ++ line.take (min bufferSize q))
        (c.took (min bufferSize q) q' turns') := by
  -- the peek ends inside the line
  have hbuffer : c.inbox.take (min bufferSize q) = line.take (min bufferSize q) := by
    rw [hin, List.take_append_of_le_length hmore]
  have hnot : ¬ (line.take (min bufferSize q)).contains LF = true := by
    rw [List.contains_iff_mem]
    exact fun hmem => hline (List.mem_of_mem_take hmem)
  have hpos : 0 < min bufferSize q := by
    have := bufferSize_pos
    omega
  have hlen : min bufferSize q ≤ c.inbox.length := by
    rw [hin, List.length_append]
    omega
  obtain ⟨q', turns', hnone', htaken⟩ := recvOrThrow_peeked
    (c := { c with queued := q, turns := turns }) hpos (Nat.min_le_right bufferSize q) hlen hnone
  refine ⟨q', turns', hnone', ?_⟩
  rw [readLineLoop, Reader.bind_of_ok hpeek, hbuffer, if_neg hnot, List.length_take_of_le hmore,
    Reader.bind_of_ok htaken]
  rfl

theorem readLineLoop_line (fuel : ℕ) :
    ∀ (line oss rest : Str) (c : Channel), LF ∉ line →
      c.inbox = line ++ LF :: rest → NoFail c.turns →
      line.length < fuel →
      ∃ q turns, NoFail turns ∧
        readLineLoop fuel oss c =
          .ok (oss ++ line ++ [LF]) (c.took (line.length + 1) q turns) := by
  induction fuel with
  | zero =>
    intro line oss rest c _ _ _ hfuel
    omega
  | succ fuel ih =>
    intro line oss rest c hline hin hlive hfuel
    obtain ⟨q, turns, hq, -, hnone, hpeek⟩ :=
      recvOrThrow_peek bufferSize_pos (by simp [hin]) hlive
    rcases Nat.lt_or_ge line.length (min bufferSize q) with hlt | hge
    · exact readLineLoop_last hline hin hnone hlt hpeek fuel oss
    · obtain ⟨q₁, turns₁, hnone₁, hround⟩ :=
        readLineLoop_more hline hin hq hnone hge hpeek fuel oss
      -- the rest of the line is shorter
      have hpos := bufferSize_pos
      obtain ⟨q₂, turns₂, hnone₂, hloop⟩ := ih (line.drop (min bufferSize q))
        (oss ++ line.take (min bufferSize q)) rest (c.took (min bufferSize q) q₁ turns₁)
        (fun hmem => hline (List.mem_of_mem_drop hmem))
        (by rw [took_inbox, hin, List.drop_append_of_le_length hge]) hnone₁
        (by rw [List.length_drop]; omega)
      refine ⟨q₂, turns₂, hnone₂, ?_⟩
      have hcount : min bufferSize q + ((line.drop (min bufferSize q)).length + 1) =
          line.length + 1 := by
        rw [List.length_drop]
        omega
      rw [hround, hloop, took_took, hcount, List.append_assoc oss, List.take_append_drop]

/-- `read_line` takes one line off the socket, of any length and however it arrives, and leaves
what follows. -/
theorem readLine_consumes {line : Str} (hline : LF ∉ line) :
    Reader.Consumes Live Channel.inbox readLine (line ++ [LF]) (.ok (rtrim line lbr)) := by
  intro c rest hlive hin
  rw [List.append_assoc, List.singleton_append] at hin
  have hfuel : line.length < c.inbox.length + 1 := by
    rw [hin, List.length_append]
    omega
  obtain ⟨q, turns, hnone, hloop⟩ :=
    readLineLoop_line (c.inbox.length + 1) line [] rest c hline hin hlive.noFail hfuel
  refine ⟨c.took (line.length + 1) q turns, ?_, ⟨hnone, hlive.up⟩, ?_⟩
  · have htrim : rtrim ([] ++ line ++ [LF]) lbr = rtrim line lbr := by
      rw [List.nil_append]
      exact List.rdropWhile_concat_pos _ _ _ (by decide)
    rw [readLine, Reader.get_bind, Reader.bind_of_ok hloop, htrim]
    rfl
  · rw [took_inbox, hin, List.drop_length_add_append]
    rfl

theorem readNLoop_block (fuel : ℕ) :
    ∀ (bs buffer rest : Str) (c : Channel), c.inbox = bs ++ rest → Live c → bs.length ≤ fuel →
      ∃ c', readNLoop fuel bs.length buffer c = .ok (buffer ++ bs) c' ∧ Live c' ∧
        c'.inbox = rest := by
  induction fuel with
  | zero =>
    intro bs buffer rest c hin hlive hfuel
    obtain rfl := List.length_eq_zero_iff.mp (Nat.le_zero.mp hfuel)
    exact ⟨c, by rw [List.append_nil]; rfl, hlive, hin⟩
  | succ fuel ih =>
    intro bs buffer rest c hin hlive hfuel
    rcases bs with _ | ⟨b, bs⟩
    · exact ⟨c, by rw [List.append_nil]; rfl, hlive, hin⟩
    -- some `m` bytes of the block have arrived
    obtain ⟨m, q, turns, hm, hmn, -, -, hnone, htake⟩ :=
      recvOrThrow_take (Nat.succ_pos bs.length) (by simp [hin]) hlive.noFail
    have hhead : c.inbox.take m = (b :: bs).take m := by
      rw [hin, List.take_append_of_le_length hmn]
    have hrest : (c.took m q turns).inbox = (b :: bs).drop m ++ rest := by
      rw [took_inbox, hin, List.drop_append_of_le_length hmn]
    obtain ⟨c', hloop, hlive', hin'⟩ := ih ((b :: bs).drop m) (buffer ++ (b :: bs).take m) rest
      (c.took m q turns) hrest ⟨hnone, hlive.up⟩
      (by rw [List.length_drop]; simp only [List.length_cons] at hfuel ⊢; omega)
    refine ⟨c', ?_, hlive', hin'⟩
    rw [List.append_assoc, List.take_append_drop, List.length_drop] at hloop
    rw [List.length_cons, readNLoop, Reader.bind_of_ok htake, hhead, List.length_take_of_le hmn]
    exact hloop

/-- `read_n` takes a block off the socket, however it arrives. -/
theorem readN_consumes {bs : Str} (hne : bs ≠ []) :
    Reader.Consumes Live Channel.inbox (readN bs.length) bs (.ok bs) := by
  intro c rest hlive hin
  have hpos := List.length_pos_iff.mpr hne
  obtain ⟨c', hloop, hlive', hin'⟩ := readNLoop_block (c.inbox.length + 1) bs [] rest c hin hlive
    (by rw [hin, List.length_append]; omega)
  refine ⟨c', ?_, hlive', hin'⟩
  rw [readN, Reader.get_bind, if_neg (by omega), if_neg (by omega), Int.toNat_natCast, hloop]
  rfl

end TdxHq.Redis
