import TdxHq.Redis.Channel

namespace TdxHq.Redis

def IsLong (z : ℤ) : Prop := -2 ^ 31 ≤ z ∧ z < 2 ^ 31

instance decidableIsLong (z : ℤ) : Decidable (IsLong z) := inferInstanceAs (Decidable (_ ∧ _))

def lexicalCast (str : Str) : ChannelM ℤ :=
  match Ascii.toInt? str with
  | some z => if IsLong z then pure z else throw .badLexicalCast
  | none => throw .badLexicalCast

def missingValue : Str := Ascii.text "**nonexistent-key**"

def errorLead : Str := Ascii.text "-ERR "

def statusLead : Byte := 43

def errorChar : Byte := 45

def intLead : Byte := 58

def bulkLead : Byte := 36

def multiBulkLead : Byte := 42

def protocolError {α : Type} (err : String) : ChannelM α := throw (.protocolError (Ascii.text err))

def recvSingleLineReply : ChannelM Str := do
  let line ← readLine
  if line.isEmpty then protocolError "empty single line reply"
  else if errorLead.isPrefixOf line then
    let error_msg := line.drop errorLead.length
    throw (.protocolError (if error_msg.isEmpty then Ascii.text "unknown error" else error_msg))
  else if line.headD 0 ≠ statusLead then protocolError "unexpected prefix for status reply"
  else return line.drop 1

def recvOkReply : ChannelM Unit := do
  let reply ← recvSingleLineReply
  if reply ≠ Ascii.text "OK" then protocolError "expected OK response" else return ()

/-- `recv_bulk_reply_(socket, prefix)`: the number behind the first character. -/
def recvBulkLength (lead : Byte) : ChannelM ℤ := do
  let line ← readLine
  if line.headD 0 ≠ lead then protocolError "unexpected prefix for bulk reply"
  else lexicalCast (line.drop 1)

def toLong (z : ℤ) : ℤ := z.bmod (2 ^ 32)

def recvBulkReply : ChannelM Str := do
  let length ← recvBulkLength bulkLead
  if length = -1 then return missingValue
  else
    let real_length := toLong (length + 2)
    let data ← readN real_length
    if data.isEmpty then protocolError "invalid bulk reply data; empty"
    else if (data.length : ℤ) ≠ real_length then
      protocolError "invalid bulk reply data; data of unexpected length"
    else return data.take (data.length - 2)

def pushBulkReply (out : List Str) : ChannelM (List Str) := do
  let data ← recvBulkReply
  return out ++ [data]

/-- `recv_multi_bulk_reply_`; `reserve` refuses a size that wraps. -/
def recvMultiBulkReply (out : List Str) : ChannelM (ℤ × List Str) := do
  let length ← recvBulkLength multiBulkLead
  if length = -1 then throw (.keyError (Ascii.text "no such key"))
  else if out.length + length < 0 then throw .lengthError
  else
    let out ← Reader.iterate pushBulkReply length.toNat out
    return (length, out)

def recvIntReply : ChannelM ℤ := do
  let line ← readLine
  if line.isEmpty then protocolError "invalid integer reply; empty"
  else if line.headD 0 ≠ intLead then protocolError "unexpected prefix for integer reply"
  else lexicalCast (line.drop 1)

def recvIntOkReply : ChannelM Unit := do
  let z ← recvIntReply
  if z ≠ 1 then protocolError "expecting int reply of 1" else return ()

inductive ReplyData
  | statusCode (str : Str)
  | error (str : Str)
  | int (z : ℤ)
  | bulk (str : Str)
  | multiBulk (v : List Str)
  deriving DecidableEq, Repr

inductive ReplyType
  | statusCode | error | int | bulk | multiBulk
  deriving DecidableEq, Repr

def nextReplyType : ChannelM ReplyType := do
  let reply_lead ← recvOrThrow true 1
  if reply_lead.headD 0 = statusLead then return .statusCode
  else if reply_lead.headD 0 = errorChar then return .error
  else if reply_lead.headD 0 = intLead then return .int
  else if reply_lead.headD 0 = bulkLead then return .bulk
  else if reply_lead.headD 0 = multiBulkLead then return .multiBulk
  else throw (.runtimeError (Ascii.text "invalid/unknown rely type from redis server"))

def substr (line : Str) (n : ℕ) : ChannelM Str :=
  if line.length < n then throw .outOfRange else pure (line.drop n)

def recvGenericReply : ChannelM ReplyData := do
  match ← nextReplyType with
  | .statusCode =>
    let line ← readLine
    return .statusCode (← substr line 1)
  | .error =>
    let line ← readLine
    return .error (← substr line errorLead.length)
  | .int => return .int (← recvIntReply)
  | .bulk => return .bulk (← recvBulkReply)
  | .multiBulk =>
    let (_, v) ← recvMultiBulkReply []
    return .multiBulk v

namespace ReplyType

/-- The character such a reply begins with. -/
def lead : ReplyType → Byte
  | statusCode => statusLead
  | error => errorChar
  | int => intLead
  | bulk => bulkLead
  | multiBulk => multiBulkLead

theorem lead_injective : Function.Injective lead := by
  intro t t' h
  cases t <;> cases t' <;> first | rfl | exact absurd h (by decide)

theorem lead_ne_CR (t : ReplyType) : t.lead ≠ CR := by cases t <;> decide

theorem lead_ne_LF (t : ReplyType) : t.lead ≠ LF := by cases t <;> decide

end ReplyType

structure Line where
  text : Str
  plain : CR ∉ text ∧ LF ∉ text

/-- A string whose length, with the line break behind it, is an `int_type`. -/
structure Bulk where
  bytes : Str
  fits : bytes.length + 2 < 2 ^ 31

structure Bulks where
  items : List (Option Bulk)
  fits : items.length < 2 ^ 31

inductive Reply
  | status (line : Line)
  | error (line : Line)
  | int (z : {z : ℤ // IsLong z})
  | bulk (b : Option Bulk)
  | multiBulk (bs : Option Bulks)

def encodeBulk : Option Bulk → Str
  | none => bulkLead :: Ascii.ofInt (-1) ++ lbr
  | some b => bulkLead :: Ascii.ofInt b.bytes.length ++ lbr ++ (b.bytes ++ lbr)

def Reply.encode : Reply → Str
  | status line => statusLead :: line.text ++ lbr
  | error line => errorChar :: line.text ++ lbr
  | int z => intLead :: Ascii.ofInt z ++ lbr
  | bulk b => encodeBulk b
  | multiBulk none => multiBulkLead :: Ascii.ofInt (-1) ++ lbr
  | multiBulk (some bs) =>
    multiBulkLead :: Ascii.ofInt bs.items.length ++ lbr ++ bs.items.flatMap encodeBulk

/-- The string the client gives for a string or the lack of one. -/
def received (b : Option Bulk) : Str := (b.map Bulk.bytes).getD missingValue

def Plain (line : Str) : Prop := CR ∉ line ∧ LF ∉ line

theorem plain_cons {b : Byte} {line : Str} (hcr : b ≠ CR) (hlf : b ≠ LF) (h : Plain line) :
    Plain (b :: line) := by
  refine ⟨?_, ?_⟩
  · rw [List.mem_cons, not_or]
    exact ⟨hcr.symm, h.1⟩
  · rw [List.mem_cons, not_or]
    exact ⟨hlf.symm, h.2⟩

theorem plain_ofInt (z : ℤ) : Plain (Ascii.ofInt z) := by
  refine ⟨?_, ?_⟩
  · intro hmem
    exact absurd (Ascii.mem_ofInt hmem) (by decide)
  · intro hmem
    exact absurd (Ascii.mem_ofInt hmem) (by decide)

theorem rtrim_plain {line : Str} (h : Plain line) : rtrim line lbr = line := by
  apply List.rdropWhile_eq_self_iff.mpr
  intro hne hlast
  have hmem := List.getLast_mem hne
  rw [List.contains_iff_mem, lbr, List.mem_cons, List.mem_singleton] at hlast
  rcases hlast with hlast | hlast
  · exact h.1 (hlast ▸ hmem)
  · exact h.2 (hlast ▸ hmem)

theorem readLine_plain {line : Str} (h : Plain line) :
    Reader.Consumes Live Channel.inbox readLine (line ++ lbr) (.ok line) := by
  have hlf : LF ∉ line ++ [CR] := by
    rw [List.mem_append, not_or]
    exact ⟨h.2, by decide⟩
  have htrim : rtrim (line ++ [CR]) lbr = line := by
    rw [rtrim, List.rdropWhile_concat_pos _ _ _ (by decide)]
    exact rtrim_plain h
  have hread := readLine_consumes hlf
  rwa [htrim, List.append_assoc] at hread

theorem lexicalCast_consumes {z : ℤ} (hz : IsLong z) :
    Reader.Consumes Live Channel.inbox (lexicalCast (Ascii.ofInt z)) [] (.ok z) := by
  rw [lexicalCast, Ascii.toInt?_ofInt]
  dsimp only
  rw [if_pos hz]
  exact Reader.Consumes.pure z

theorem recvBulkLength_consumes (t : ReplyType) {z : ℤ} (hz : IsLong z) :
    Reader.Consumes Live Channel.inbox (recvBulkLength t.lead) (t.lead :: Ascii.ofInt z ++ lbr)
      (.ok z) := by
  apply (readLine_plain (plain_cons t.lead_ne_CR t.lead_ne_LF (plain_ofInt z))).andThen
  rw [List.headD_cons, if_neg (not_not.mpr rfl)]
  exact lexicalCast_consumes hz

theorem toLong_of_nat {n : ℕ} (hn : n < 2 ^ 31) : toLong n = n :=
  Int.bmod_eq_of_le (by omega) (by omega)

theorem recvBulkReply_consumes (b : Option Bulk) :
    Reader.Consumes Live Channel.inbox recvBulkReply (encodeBulk b) (.ok (received b)) := by
  cases b with
  | none =>
    apply (recvBulkLength_consumes .bulk (by decide)).andThen
    rw [if_pos rfl]
    exact Reader.Consumes.pure _
  | some b =>
    have hfits := b.fits
    have hlong : IsLong b.bytes.length := ⟨by omega, by omega⟩
    have hlen : (b.bytes ++ lbr).length = b.bytes.length + 2 := by simp [lbr]
    have hreal : toLong ((b.bytes.length : ℤ) + 2) = ((b.bytes ++ lbr).length : ℕ) := by
      rw [hlen, ← toLong_of_nat hfits, Nat.cast_add, Nat.cast_ofNat]
    apply (recvBulkLength_consumes .bulk hlong).bind
    rw [if_neg (by omega), hreal]
    apply (readN_consumes (by simp [lbr])).andThen
    rw [if_neg (by simp [lbr]), if_neg (by simp)]
    have htake : (b.bytes ++ lbr).take ((b.bytes ++ lbr).length - 2) = b.bytes := by
      rw [List.length_append]
      exact List.take_left' rfl
    rw [htake]
    exact Reader.Consumes.pure _

theorem pushBulkReply_reads (out : List Str) (b : Option Bulk) :
    Reader.Reads Live Channel.inbox (pushBulkReply out) (encodeBulk b) (out ++ [received b]) :=
  (Reader.consumes_ok_iff.mp (recvBulkReply_consumes b)).map fun data => out ++ [data]

theorem foldl_received (bs : List (Option Bulk)) (out : List Str) :
    bs.foldl (fun out b => out ++ [received b]) out = out ++ bs.map received := by
  induction bs generalizing out with
  | nil => simp
  | cons b bs ih => rw [List.foldl_cons, ih, List.map_cons, List.append_assoc]; rfl

theorem recvMultiBulkReply_consumes (out : List Str) (bs : Bulks) :
    Reader.Consumes Live Channel.inbox (recvMultiBulkReply out)
      (multiBulkLead :: Ascii.ofInt bs.items.length ++ lbr ++ bs.items.flatMap encodeBulk)
      (.ok (bs.items.length, out ++ bs.items.map received)) := by
  have hfits := bs.fits
  have hlong : IsLong bs.items.length := ⟨by omega, by omega⟩
  apply (recvBulkLength_consumes .multiBulk hlong).bind
  rw [if_neg (by omega), if_neg (by omega), Int.toNat_natCast]
  have hitems : Reader.Reads Live Channel.inbox
      (Reader.iterate pushBulkReply bs.items.length out) (bs.items.flatMap encodeBulk)
      (bs.items.foldl (fun out b => out ++ [received b]) out) :=
    Reader.Reads.iterate _ _ _ (fun b _ out => pushBulkReply_reads out b) out
  rw [foldl_received] at hitems
  exact hitems.map fun out => ((bs.items.length : ℤ), out)

/-- The functions that receive a reply. -/
inductive Kind
  | status | ok | int | intOk | bulk | multiBulk | generic
  deriving DecidableEq, Repr

namespace Kind

abbrev Result : Kind → Type
  | status => Str
  | ok => Unit
  | int => ℤ
  | intOk => Unit
  | bulk => Str
  | multiBulk => ℤ × List Str
  | generic => ReplyData

def recv : (k : Kind) → ChannelM k.Result
  | status => recvSingleLineReply
  | ok => recvOkReply
  | int => recvIntReply
  | intOk => recvIntOkReply
  | bulk => recvBulkReply
  | multiBulk => recvMultiBulkReply []
  | generic => recvGenericReply

end Kind

def refuse {α : Type} (err : String) : Except Exception α :=
  .error (.protocolError (Ascii.text err))

namespace Reply

def type : Reply → ReplyType
  | status _ => .statusCode
  | error _ => .error
  | int _ => .int
  | bulk _ => .bulk
  | multiBulk _ => .multiBulk

def line : Reply → Str
  | status line => line.text
  | error line => line.text
  | int z => Ascii.ofInt z
  | bulk none => Ascii.ofInt (-1)
  | bulk (some b) => Ascii.ofInt b.bytes.length
  | multiBulk none => Ascii.ofInt (-1)
  | multiBulk (some bs) => Ascii.ofInt bs.items.length

def head (r : Reply) : Str := r.type.lead :: r.line

def tail : Reply → Str
  | bulk (some b) => b.bytes ++ lbr
  | multiBulk (some bs) => bs.items.flatMap encodeBulk
  | _ => []

theorem encode_eq (r : Reply) : r.encode = r.head ++ lbr ++ r.tail := by
  cases r with
  | status line => exact (List.append_nil _).symm
  | error line => exact (List.append_nil _).symm
  | int z => exact (List.append_nil _).symm
  | bulk b =>
    cases b with
    | none => exact (List.append_nil _).symm
    | some b => rfl
  | multiBulk bs =>
    cases bs with
    | none => exact (List.append_nil _).symm
    | some bs => rfl

theorem line_plain (r : Reply) : Plain r.line := by
  cases r with
  | status line => exact line.plain
  | error line => exact line.plain
  | int z => exact plain_ofInt z
  | bulk b => cases b <;> exact plain_ofInt _
  | multiBulk bs => cases bs <;> exact plain_ofInt _

theorem head_plain (r : Reply) : Plain r.head := by
  exact plain_cons r.type.lead_ne_CR r.type.lead_ne_LF r.line_plain

def errorMessage (line : Line) : Exception :=
  if (Ascii.text "ERR ").isPrefixOf line.text then
    .protocolError (if (line.text.drop 4).isEmpty then Ascii.text "unknown error"
      else line.text.drop 4)
  else .protocolError (Ascii.text "unexpected prefix for status reply")

def asStatus : Reply → Except Exception Str
  | status line => .ok line.text
  | error line => .error (errorMessage line)
  | _ => refuse "unexpected prefix for status reply"

def asOk (r : Reply) : Except Exception Unit :=
  r.asStatus.bind fun str =>
    if str ≠ Ascii.text "OK" then refuse "expected OK response" else .ok ()

def asInt : Reply → Except Exception ℤ
  | int z => .ok z
  | _ => refuse "unexpected prefix for integer reply"

def asIntOk (r : Reply) : Except Exception Unit :=
  r.asInt.bind fun z => if z ≠ 1 then refuse "expecting int reply of 1" else .ok ()

def asBulk : Reply → Except Exception Str
  | bulk b => .ok (received b)
  | _ => refuse "unexpected prefix for bulk reply"

def asMultiBulk : Reply → Except Exception (ℤ × List Str)
  | multiBulk (some bs) => .ok (bs.items.length, bs.items.map received)
  | multiBulk none => .error (.keyError (Ascii.text "no such key"))
  | _ => refuse "unexpected prefix for bulk reply"

/-- An error that is not introduced by `ERR` loses its first four characters. -/
def asGeneric : Reply → Except Exception ReplyData
  | status line => .ok (.statusCode line.text)
  | error line =>
    if line.text.length < 4 then .error .outOfRange else .ok (.error (line.text.drop 4))
  | int z => .ok (.int z)
  | bulk b => .ok (.bulk (received b))
  | multiBulk (some bs) => .ok (.multiBulk (bs.items.map received))
  | multiBulk none => .error (.keyError (Ascii.text "no such key"))

theorem errorLead_eq : errorLead = errorChar :: Ascii.text "ERR " := by decide +kernel

theorem errorLead_length : errorLead.length = 5 := by decide +kernel

theorem recvSingleLineReply_refuses {r : Reply} (herror : r.type ≠ .error)
    (hstatus : r.type ≠ .statusCode) :
    Reader.Consumes Live Channel.inbox recvSingleLineReply (r.head ++ lbr)
      (refuse "unexpected prefix for status reply") := by
  apply (readLine_plain r.head_plain).andThen
  have herr : errorChar ≠ r.type.lead := ReplyType.lead_injective.ne herror.symm
  have hstat : r.type.lead ≠ statusLead := ReplyType.lead_injective.ne hstatus
  have hlead : errorLead.isPrefixOf (r.type.lead :: r.line) = false := by
    rw [errorLead_eq, List.isPrefixOf_cons_cons]
    simp [herr]
  rw [head, if_neg (by simp), hlead, if_neg Bool.false_ne_true, List.headD_cons, if_pos hstat]
  exact Reader.Consumes.throw _

theorem recvSingleLineReply_status (line : Line) :
    Reader.Consumes Live Channel.inbox recvSingleLineReply (statusLead :: line.text ++ lbr)
      (.ok line.text) := by
  apply (readLine_plain (head_plain (.status line))).andThen
  have hlead : errorLead.isPrefixOf (statusLead :: line.text) = false := by
    rw [errorLead_eq, List.isPrefixOf_cons_cons]
    rfl
  rw [show head (.status line) = statusLead :: line.text from rfl, if_neg (by simp), hlead,
    if_neg Bool.false_ne_true, List.headD_cons,
    if_neg (not_not.mpr rfl)]
  exact Reader.Consumes.pure _

theorem recvSingleLineReply_error (line : Line) :
    Reader.Consumes Live Channel.inbox recvSingleLineReply (errorChar :: line.text ++ lbr)
      (.error (errorMessage line)) := by
  apply (readLine_plain (head_plain (.error line))).andThen
  have hlead : errorLead.isPrefixOf (errorChar :: line.text) =
      (Ascii.text "ERR ").isPrefixOf line.text := by
    rw [errorLead_eq, List.isPrefixOf_cons_cons]
    simp
  rw [show head (.error line) = errorChar :: line.text from rfl, if_neg (by simp), hlead,
    errorLead_length, List.drop_succ_cons, errorMessage]
  by_cases herr : (Ascii.text "ERR ").isPrefixOf line.text = true
  · rw [if_pos herr, if_pos herr]
    exact Reader.Consumes.throw _
  · rw [if_neg herr, if_neg herr, List.headD_cons, if_pos (by decide)]
    exact Reader.Consumes.throw _

theorem recvSingleLineReply_consumes (r : Reply) :
    Reader.Consumes Live Channel.inbox recvSingleLineReply (r.head ++ lbr) r.asStatus := by
  cases r with
  | status line => exact recvSingleLineReply_status line
  | error line => exact recvSingleLineReply_error line
  | int z => exact recvSingleLineReply_refuses nofun nofun
  | bulk b => exact recvSingleLineReply_refuses nofun nofun
  | multiBulk bs => exact recvSingleLineReply_refuses nofun nofun

theorem recvOkReply_consumes (r : Reply) :
    Reader.Consumes Live Channel.inbox recvOkReply (r.head ++ lbr) r.asOk := by
  apply (recvSingleLineReply_consumes r).check
  intro str
  by_cases hok : str ≠ Ascii.text "OK"
  · rw [if_pos hok, if_pos hok]
    exact Reader.Consumes.throw _
  · rw [if_neg hok, if_neg hok]
    exact Reader.Consumes.pure _

theorem recvIntReply_refuses {r : Reply} (hint : r.type ≠ .int) :
    Reader.Consumes Live Channel.inbox recvIntReply (r.head ++ lbr)
      (refuse "unexpected prefix for integer reply") := by
  have hlead : r.type.lead ≠ intLead := ReplyType.lead_injective.ne hint
  apply (readLine_plain r.head_plain).andThen
  rw [head, if_neg (by simp), List.headD_cons, if_pos hlead]
  exact Reader.Consumes.throw _

theorem recvIntReply_int (z : {z : ℤ // IsLong z}) :
    Reader.Consumes Live Channel.inbox recvIntReply (intLead :: Ascii.ofInt z ++ lbr)
      (.ok z.1) := by
  apply (readLine_plain (head_plain (.int z))).andThen
  rw [show head (.int z) = intLead :: Ascii.ofInt z from rfl, if_neg (by simp), List.headD_cons,
    if_neg (not_not.mpr rfl)]
  exact lexicalCast_consumes z.2

theorem recvIntReply_consumes (r : Reply) :
    Reader.Consumes Live Channel.inbox recvIntReply (r.head ++ lbr) r.asInt := by
  cases r with
  | int z => exact recvIntReply_int z
  | status line => exact recvIntReply_refuses nofun
  | error line => exact recvIntReply_refuses nofun
  | bulk b => exact recvIntReply_refuses nofun
  | multiBulk bs => exact recvIntReply_refuses nofun

theorem recvIntOkReply_consumes (r : Reply) :
    Reader.Consumes Live Channel.inbox recvIntOkReply (r.head ++ lbr) r.asIntOk := by
  apply (recvIntReply_consumes r).check
  intro z
  by_cases hone : z ≠ 1
  · rw [if_pos hone, if_pos hone]
    exact Reader.Consumes.throw _
  · rw [if_neg hone, if_neg hone]
    exact Reader.Consumes.pure _

theorem recvBulkLength_refuses {r : Reply} {t : ReplyType} (ht : r.type ≠ t) :
    Reader.Consumes Live Channel.inbox (recvBulkLength t.lead) (r.head ++ lbr)
      (refuse "unexpected prefix for bulk reply") := by
  apply (readLine_plain r.head_plain).andThen
  rw [head, List.headD_cons, if_pos (ReplyType.lead_injective.ne ht)]
  exact Reader.Consumes.throw _

theorem recvBulkReply_refuses {r : Reply} (ht : r.type ≠ .bulk) :
    Reader.Consumes Live Channel.inbox recvBulkReply (r.head ++ lbr)
      (refuse "unexpected prefix for bulk reply") :=
  (recvBulkLength_refuses ht).bind_error _

theorem recvMultiBulkReply_refuses {r : Reply} (ht : r.type ≠ .multiBulk) (out : List Str) :
    Reader.Consumes Live Channel.inbox (recvMultiBulkReply out) (r.head ++ lbr)
      (refuse "unexpected prefix for bulk reply") :=
  (recvBulkLength_refuses ht).bind_error _

theorem recvMultiBulkReply_none (out : List Str) :
    Reader.Consumes Live Channel.inbox (recvMultiBulkReply out) (encode (.multiBulk none))
      (.error (.keyError (Ascii.text "no such key"))) := by
  apply (recvBulkLength_consumes .multiBulk (by decide)).andThen
  rw [if_pos rfl]
  exact Reader.Consumes.throw _

def readsTail : Kind → ReplyType → Bool
  | .generic, _ => true
  | .bulk, .bulk => true
  | .multiBulk, .multiBulk => true
  | _, _ => false

/-- What a function takes off the socket. -/
def taken (k : Kind) (r : Reply) : Str :=
  if readsTail k r.type then r.encode else r.head ++ lbr

def left (k : Kind) (r : Reply) : Str := if readsTail k r.type then [] else r.tail

theorem taken_append_left (k : Kind) (r : Reply) : taken k r ++ left k r = r.encode := by
  rw [taken, left]
  split_ifs
  · exact List.append_nil _
  · exact r.encode_eq.symm

/-- Nothing is left. -/
def covers (k : Kind) (r : Reply) : Bool := readsTail k r.type || r.tail.isEmpty

theorem left_eq_nil_iff (k : Kind) (r : Reply) : left k r = [] ↔ covers k r = true := by
  rw [left, covers]
  split_ifs with h
  · simp [h]
  · simp [h]

theorem recvBulkReply_taken (r : Reply) :
    Reader.Consumes Live Channel.inbox recvBulkReply (taken .bulk r) r.asBulk := by
  cases r with
  | bulk b => exact recvBulkReply_consumes b
  | status line => exact recvBulkReply_refuses (r := .status line) nofun
  | error line => exact recvBulkReply_refuses (r := .error line) nofun
  | int z => exact recvBulkReply_refuses (r := .int z) nofun
  | multiBulk bs => exact recvBulkReply_refuses (r := .multiBulk bs) nofun

theorem recvMultiBulkReply_taken (r : Reply) :
    Reader.Consumes Live Channel.inbox (recvMultiBulkReply []) (taken .multiBulk r)
      r.asMultiBulk := by
  cases r with
  | multiBulk bs =>
    cases bs with
    | none => exact recvMultiBulkReply_none []
    | some bs => exact recvMultiBulkReply_consumes [] bs
  | status line => exact recvMultiBulkReply_refuses (r := .status line) nofun []
  | error line => exact recvMultiBulkReply_refuses (r := .error line) nofun []
  | int z => exact recvMultiBulkReply_refuses (r := .int z) nofun []
  | bulk b => exact recvMultiBulkReply_refuses (r := .bulk b) nofun []

theorem nextReplyType_peeks (r : Reply) (c : Channel) (rest : Str) (hlive : Live c)
    (hin : c.inbox = r.encode ++ rest) :
    ∃ c', nextReplyType c = .ok r.type c' ∧ Live c' ∧ c'.inbox = c.inbox := by
  have hcons : ∃ tail, c.inbox = r.type.lead :: tail := by
    rw [hin, encode_eq, head]
    exact ⟨_, rfl⟩
  obtain ⟨tail, hcons⟩ := hcons
  obtain ⟨q, turns, hq, -, hnone, hpeek⟩ :=
    recvOrThrow_peek Nat.one_pos (by simp [hcons]) hlive.noFail
  refine ⟨{ c with queued := q, turns := turns }, ?_, ⟨hnone, hlive.up⟩, rfl⟩
  have htake : c.inbox.take (min 1 q) = [r.type.lead] := by
    rw [hcons, Nat.min_eq_left hq]
    rfl
  rw [nextReplyType, Reader.bind_of_ok hpeek, htake, List.headD_cons]
  cases r.type <;> rfl

theorem substr_consumes (line : Str) (n : ℕ) :
    Reader.Consumes Live Channel.inbox (substr line n) []
      (if line.length < n then .error .outOfRange else .ok (line.drop n)) := by
  rw [substr]
  split_ifs
  · exact Reader.Consumes.throw _
  · exact Reader.Consumes.pure _

theorem asGeneric_error (line : Line) :
    asGeneric (.error line) = Except.map ReplyData.error
      (if (head (.error line)).length < errorLead.length then .error .outOfRange
      else .ok ((head (.error line)).drop errorLead.length)) := by
  have hhead : head (.error line) = errorChar :: line.text := rfl
  rw [hhead, errorLead_length, List.length_cons, List.drop_succ_cons, asGeneric]
  by_cases hshort : line.text.length < 4
  · rw [if_pos hshort, if_pos (by omega)]
    rfl
  · rw [if_neg hshort, if_neg (by omega)]
    rfl

theorem recvGenericReply_consumes (r : Reply) :
    Reader.Consumes Live Channel.inbox recvGenericReply r.encode r.asGeneric := by
  apply Reader.Consumes.peek (r.nextReplyType_peeks)
  cases r with
  | status line =>
    apply (readLine_plain (head_plain (.status line))).andThen
    exact (substr_consumes (head (.status line)) 1).map ReplyData.statusCode
  | error line =>
    apply (readLine_plain (head_plain (.error line))).andThen
    rw [asGeneric_error]
    exact (substr_consumes (head (.error line)) errorLead.length).map ReplyData.error
  | int z => exact (recvIntReply_int z).map ReplyData.int
  | bulk b => exact (recvBulkReply_consumes b).map ReplyData.bulk
  | multiBulk bs =>
    cases bs with
    | none => exact (recvMultiBulkReply_none []).bind_error _
    | some bs => exact (recvMultiBulkReply_consumes [] bs).andThen (Reader.Consumes.pure _)

/-- What a function makes of a reply. -/
def as : (k : Kind) → Reply → Except Exception k.Result
  | .status => asStatus
  | .ok => asOk
  | .int => asInt
  | .intOk => asIntOk
  | .bulk => asBulk
  | .multiBulk => asMultiBulk
  | .generic => asGeneric

theorem recv_consumes (k : Kind) (r : Reply) :
    Reader.Consumes Live Channel.inbox k.recv (taken k r) (as k r) := by
  cases k with
  | status => exact recvSingleLineReply_consumes r
  | ok => exact recvOkReply_consumes r
  | int => exact recvIntReply_consumes r
  | intOk => exact recvIntOkReply_consumes r
  | bulk => exact recvBulkReply_taken r
  | multiBulk => exact recvMultiBulkReply_taken r
  | generic => exact recvGenericReply_consumes r

/-- A function that returns has taken the whole reply. -/
theorem covers_of_as_eq_ok {k : Kind} {r : Reply} {v : k.Result} (h : as k r = .ok v) :
    covers k r = true := by
  cases r with
  | status line => cases k <;> rfl
  | error line => cases k <;> rfl
  | int z => cases k <;> rfl
  | bulk b => cases k <;> first | rfl | cases h
  | multiBulk bs => cases k <;> first | rfl | cases h

theorem recv_whole {k : Kind} {r : Reply} (h : covers k r = true) :
    Reader.Consumes Live Channel.inbox k.recv r.encode (as k r) := by
  rw [← taken_append_left k r, (left_eq_nil_iff k r).mpr h, List.append_nil]
  exact recv_consumes k r

/-- However a reply arrives, a function that receives it takes its share of it and returns or
throws what it makes of it; the next call then finds the next reply exactly if nothing of this one
is left. -/
theorem recv_in_step_iff (k : Kind) (r : Reply) {c : Channel} {rest : Str} (hlive : Live c)
    (hin : c.inbox = r.encode ++ rest) :
    ∃ c', k.recv c = Reader.result (as k r) c' ∧ Live c' ∧ c'.inbox = left k r ++ rest ∧
      (c'.inbox = rest ↔ covers k r = true) := by
  rw [← taken_append_left k r, List.append_assoc] at hin
  obtain ⟨c', hrecv, hlive', hin'⟩ := recv_consumes k r c (left k r ++ rest) hlive hin
  refine ⟨c', hrecv, hlive', hin', ?_⟩
  rw [hin', ← left_eq_nil_iff, List.append_left_eq_self]

/-- A string where a number was expected: the line is taken, the string stays. -/
theorem recv_in_step_iff_hello :
    ∃ c', Kind.int.recv
        { inbox := encode (.bulk (some ⟨Ascii.text "hello", by decide⟩))
          queued := 0
          turns := [.arrive 3, .interrupt, .arrive 2]
          closed := false } =
        .error (.protocolError (Ascii.text "unexpected prefix for integer reply")) c' ∧
      Live c' ∧ c'.inbox = Ascii.text "hello" ++ lbr := by
  obtain ⟨c', hrecv, hlive, hinbox, -⟩ :=
    recv_in_step_iff .int (.bulk (some ⟨Ascii.text "hello", by decide⟩))
      (c := ⟨_, 0, [.arrive 3, .interrupt, .arrive 2], false⟩)
      ⟨by simp [NoFail], rfl⟩ (List.append_nil _).symm
  exact ⟨c', hrecv, hlive, hinbox⟩

end Reply

end TdxHq.Redis
