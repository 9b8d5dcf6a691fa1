import TdxHq.ByteBuffer

namespace TdxHq.Request

open CByteBuffer

abbrev Word := Fin 65536

instance neZeroWord : NeZero 65536 := ⟨by decide⟩

/-- What a `char *` parameter points to: the characters in front of the NUL. -/
structure CStr where
  chars : List Byte
  nulFree : 0 ∉ chars
  deriving DecidableEq

def CStr.strlen (s : CStr) : ℕ := s.chars.length

structure BarsCall where
  Category : Word
  Market : Word
  Zqdm : CStr
  Start : Word
  Count : Word
  deriving DecidableEq

def fillRequest (build : Build) (call : BarsCall) : BufferM Unit := do
  appendScalar build 2 0x10c
  appendScalar build 4 0x01016408
  appendScalar build 2 0x12
  appendScalar build 2 0x12
  appendScalar build 2 0x529
  appendScalar build 2 call.Market
  append build call.Zqdm.chars call.Zqdm.strlen
  appendScalar build 2 call.Category
  appendScalar build 4 1
  appendScalar build 2 call.Count

/-- `bfSend` is filled and read out again into `datatosend`. -/
def datatosend (build : Build) (call : BarsCall) : BufferM (List Byte) := do
  fillRequest build call
  let bfSend ← get
  readBlock bfSend.size

/-- The bytes a call hands to `send`, where it gets that far. -/
def sent (build : Build) (call : BarsCall) : Option (List Byte) :=
  match datatosend build call fresh with
  | .ok bytes _ => some bytes
  | .error _ _ => none

def requestBytes (call : BarsCall) : List Byte :=
  LittleEndian.toBytes 2 0x10c ++ (LittleEndian.toBytes 4 0x01016408 ++
    (LittleEndian.toBytes 2 0x12 ++ (LittleEndian.toBytes 2 0x12 ++
    (LittleEndian.toBytes 2 0x529 ++ (LittleEndian.toBytes 2 call.Market ++
    (call.Zqdm.chars ++ (LittleEndian.toBytes 2 call.Category ++
    (LittleEndian.toBytes 4 1 ++ LittleEndian.toBytes 2 call.Count))))))))

theorem requestBytes_length (call : BarsCall) :
    (requestBytes call).length = 22 + call.Zqdm.strlen := by
  simp only [requestBytes, List.length_append, LittleEndian.toBytes_length, CStr.strlen]
  omega

def fields (call : BarsCall) : List (List Byte) :=
  [LittleEndian.toBytes 2 0x10c, LittleEndian.toBytes 4 0x01016408, LittleEndian.toBytes 2 0x12,
    LittleEndian.toBytes 2 0x12, LittleEndian.toBytes 2 0x529, LittleEndian.toBytes 2 call.Market,
    call.Zqdm.chars, LittleEndian.toBytes 2 call.Category, LittleEndian.toBytes 4 1,
    LittleEndian.toBytes 2 call.Count]

theorem fields_flatten (call : BarsCall) : (fields call).flatten = requestBytes call := by
  simp [fields, requestBytes]

theorem fillRequest_eq_appendAll (build : Build) (call : BarsCall) :
    fillRequest build call = appendAll build (fields call) := by
  simp only [fillRequest, fields, appendAll, appendScalar, LittleEndian.toBytes_length,
    CStr.strlen, bind_pure_unit]

/-- The security code is short enough for `bfSend`: in a debug build the last `append` must
find fewer than ten million bytes there, otherwise the vector must exist. -/
def Fits (build : Build) (call : BarsCall) : Prop :=
  (build = .debug → 20 + call.Zqdm.strlen < 10000000) ∧ 22 + call.Zqdm.strlen < addressSpace

instance fitsDecidable (build : Build) (call : BarsCall) : Decidable (Fits build call) :=
  inferInstanceAs (Decidable (_ ∧ _))

theorem roomAll_fields_iff (build : Build) (call : BarsCall) :
    RoomAll build 0 (fields call) ↔ Fits build call := by
  simp only [RoomAll, Room, fields, LittleEndian.toBytes_length, Fits, CStr.strlen, addressSpace,
    and_true]
  cases build with
  | debug =>
    simp only [forall_const]
    omega
  | release =>
    simp only [reduceCtorEq, false_imp_iff, true_and, false_or]
    omega

theorem fillRequest_of_fits {build : Build} {call : BarsCall} (hfits : Fits build call) :
    fillRequest build call fresh = .ok () (fresh.extend (requestBytes call)) := by
  rw [fillRequest_eq_appendAll, ← fields_flatten]
  exact appendAll_of_room _ rfl ((roomAll_fields_iff build call).mpr hfits)

theorem fillRequest_of_not_fits {build : Build} {call : BarsCall} (hfits : ¬ Fits build call) :
    ∃ f b, fillRequest build call fresh = .error f b := by
  rw [fillRequest_eq_appendAll]
  exact appendAll_of_not_room _ rfl (mt (roomAll_fields_iff build call).mp hfits)

theorem fits_of_limit {build : Build} {call : BarsCall}
    (hroom : 22 + call.Zqdm.strlen ≤ limit build) : Fits build call := by
  rw [Fits, addressSpace]
  cases build with
  | debug =>
    simp only [limit] at hroom
    omega
  | release =>
    simp only [limit] at hroom
    exact ⟨fun h => absurd h (by decide), by omega⟩

theorem readBlock_request {build : Build} {call : BarsCall} (hfits : Fits build call) :
    readBlock (fresh.extend (requestBytes call)).size (fresh.extend (requestBytes call)) =
      .ok (requestBytes call)
        ((fresh.extend (requestBytes call)).skip (requestBytes call).length) := by
  have hlen := requestBytes_length call
  have hspace := hfits.2
  have hsize : (fresh.extend (requestBytes call)).size = (requestBytes call).length := rfl
  rw [hsize]
  exact readBlock_fresh_extend (by omega) (by omega)

theorem sent_eq {build : Build} {call : BarsCall} (hroom : 22 + call.Zqdm.strlen ≤ limit build) :
    sent build call = some (requestBytes call) := by
  have hfits := fits_of_limit hroom
  rw [sent, datatosend, Reader.bind_of_ok (fillRequest_of_fits hfits), Reader.get_bind,
    readBlock_request hfits]

def SameButStart (c₁ c₂ : BarsCall) : Prop := { c₁ with Start := c₂.Start } = c₂

theorem word_eq_of_toBytes_eq {m n : Word}
    (h : LittleEndian.toBytes 2 m = LittleEndian.toBytes 2 n) : m = n :=
  Fin.ext (LittleEndian.toBytes_injective m.isLt n.isLt h)

theorem CStr.eq_of_chars {s t : CStr} (h : s.chars = t.chars) : s = t := by
  cases s
  cases t
  congr

/-- Two requests of one length are the same only if all that differs is `Start`. -/
theorem sameButStart_of_requestBytes_eq {c₁ c₂ : BarsCall}
    (hlen : c₁.Zqdm.strlen = c₂.Zqdm.strlen) (h : requestBytes c₁ = requestBytes c₂) :
    SameButStart c₁ c₂ := by
  unfold requestBytes at h
  simp only [List.append_cancel_left_eq] at h
  obtain ⟨hmarket, h⟩ := List.append_inj h (by simp only [LittleEndian.toBytes_length])
  obtain ⟨hzqdm, h⟩ := List.append_inj h hlen
  obtain ⟨hcategory, h⟩ := List.append_inj h (by simp only [LittleEndian.toBytes_length])
  have hcount := List.append_cancel_left h
  unfold SameButStart
  rw [word_eq_of_toBytes_eq hmarket, CStr.eq_of_chars hzqdm, word_eq_of_toBytes_eq hcategory,
    word_eq_of_toBytes_eq hcount]

theorem requestBytes_eq_of_sameButStart {c₁ c₂ : BarsCall} (h : SameButStart c₁ c₂) :
    requestBytes c₁ = requestBytes c₂ := by
  rw [← show { c₁ with Start := c₂.Start } = c₂ from h]
  rfl

def SixByte : Set BarsCall := {call | call.Zqdm.strlen = 6}

/-- The requests of the calls in `S` determine the calls. -/
def Recoverable (build : Build) (S : Set BarsCall) : Prop :=
  ∃ decode : List Byte → Option BarsCall, ∀ call ∈ S, (sent build call).bind decode = some call

theorem sent_of_sixByte {build : Build} {call : BarsCall} (h : call ∈ SixByte) :
    sent build call = some (requestBytes call) := by
  have hsix : call.Zqdm.strlen = 6 := h
  apply sent_eq
  rw [hsix]
  cases build <;> decide

/-- The parameters can be told from the requests exactly as long as no two of the calls
differ in `Start` alone. -/
theorem recoverable_iff (build : Build) (S : Set BarsCall) (hS : S ⊆ SixByte) :
    Recoverable build S ↔ ∀ c₁ ∈ S, ∀ c₂ ∈ S, SameButStart c₁ c₂ → c₁ = c₂ := by
  constructor
  · intro ⟨decode, hdecode⟩ c₁ h₁ c₂ h₂ hsame
    have hd₁ := hdecode c₁ h₁
    have hd₂ := hdecode c₂ h₂
    rw [sent_of_sixByte (hS h₁), requestBytes_eq_of_sameButStart hsame] at hd₁
    rw [sent_of_sixByte (hS h₂), hd₁] at hd₂
    exact Option.some.inj hd₂
  · intro h
    -- the request map is injective on `S`, so a decoder exists
    have hinj : Set.InjOn requestBytes S := by
      intro c₁ h₁ c₂ h₂ heq
      have hlen : c₁.Zqdm.strlen = c₂.Zqdm.strlen := (hS h₁).trans (hS h₂).symm
      exact h c₁ h₁ c₂ h₂ (sameButStart_of_requestBytes_eq hlen heq)
    have : Nonempty BarsCall := ⟨⟨0, 0, ⟨[], by simp⟩, 0, 0⟩⟩
    refine ⟨fun bytes => some (Function.invFunOn requestBytes S bytes), fun call hcall => ?_⟩
    rw [sent_of_sixByte (hS hcall), Option.bind_some, hinj.leftInvOn_invFunOn hcall]

/-- A program that always asks from position 0 can be understood. -/
theorem recoverable_from_zero :
    Recoverable .release {call | call.Zqdm.strlen = 6 ∧ call.Start = 0} := by
  refine (recoverable_iff .release _ fun call h => h.1).mpr ?_
  intro c₁ h₁ c₂ h₂ hsame
  have hstart : c₂.Start = c₁.Start := h₂.2.trans h₁.2.symm
  rwa [SameButStart, hstart] at hsame

def askFrom (Start : Word) : BarsCall := ⟨9, 0, ⟨[48, 48, 48, 48, 48, 49], by decide⟩, Start, 1⟩

/-- Asking for the last bar and for the one before it is one and the same request. -/
theorem start_is_lost : ¬ Recoverable .release SixByte := by
  intro ⟨decode, hdecode⟩
  have h₀ := hdecode (askFrom 0) rfl
  have h₁ := hdecode (askFrom 1) rfl
  have hsix : ∀ Start, askFrom Start ∈ SixByte := fun _ => rfl
  have hsame : SameButStart (askFrom 0) (askFrom 1) := rfl
  rw [sent_of_sixByte (hsix 0), requestBytes_eq_of_sameButStart hsame] at h₀
  rw [sent_of_sixByte (hsix 1)] at h₁
  rw [h₁] at h₀
  have hstart : (1 : Word) = 0 := congrArg BarsCall.Start (Option.some.inj h₀)
  exact absurd hstart (by decide)

structure QuotesCall where
  Market : Word
  Zqdm : CStr
  deriving DecidableEq

def fillQuotes (build : Build) (call : QuotesCall) : BufferM Unit := do
  appendScalar build 2 0x10c
  appendScalar build 4 0x02006320
  appendScalar build 2 0x13
  appendScalar build 2 0x13
  -- the comment of the source has the four bytes 3E 05 05 00 here
  appendScalar build 2 0x5053e
  appendScalar build 4 0
  appendScalar build 2 0
  appendScalar build 2 1
  appendScalar build 1 call.Market
  append build call.Zqdm.chars call.Zqdm.strlen

inductive AnyCall
  | bars (call : BarsCall)
  | quotes (call : QuotesCall)
  deriving DecidableEq

namespace AnyCall

def Zqdm : AnyCall → CStr
  | bars call => call.Zqdm
  | quotes call => call.Zqdm

def fill (build : Build) : AnyCall → BufferM Unit
  | bars call => fillRequest build call
  | quotes call => fillQuotes build call

def sent (build : Build) (call : AnyCall) : Option (List Byte) :=
  match (do call.fill build; let bfSend ← get; readBlock bfSend.size : BufferM _) fresh with
  | .ok bytes _ => some bytes
  | .error _ _ => none

def fields : AnyCall → List (List Byte)
  | bars call => Request.fields call
  | quotes call =>
    [LittleEndian.toBytes 2 0x10c, LittleEndian.toBytes 4 0x02006320, LittleEndian.toBytes 2 0x13,
      LittleEndian.toBytes 2 0x13, LittleEndian.toBytes 2 0x5053e, LittleEndian.toBytes 4 0,
      LittleEndian.toBytes 2 0, LittleEndian.toBytes 2 1, LittleEndian.toBytes 1 call.Market,
      call.Zqdm.chars]

theorem fill_eq_appendAll (build : Build) (call : AnyCall) :
    call.fill build = appendAll build call.fields := by
  cases call with
  | bars call => exact fillRequest_eq_appendAll build call
  | quotes call =>
    simp only [fill, fillQuotes, fields, appendAll, appendScalar, LittleEndian.toBytes_length,
      CStr.strlen, bind_pure_unit]

/-- The bytes in front of the security code and behind it. -/
def fixed : AnyCall → ℕ
  | bars _ => 22
  | quotes _ => 21

theorem le_fixed (call : AnyCall) : 21 ≤ call.fixed := by
  cases call <;> simp [fixed]

theorem fixed_le (call : AnyCall) : call.fixed ≤ 22 := by
  cases call <;> simp [fixed]

theorem fields_length (call : AnyCall) :
    call.fields.flatten.length = call.fixed + call.Zqdm.strlen := by
  cases call with
  | bars call => rw [fields, fields_flatten, requestBytes_length, fixed, Zqdm]
  | quotes call =>
    simp only [fields, List.flatten_cons, List.flatten_nil, List.length_append,
      LittleEndian.toBytes_length, List.length_nil, fixed, Zqdm, CStr.strlen]
    omega

theorem sent_eq_fields {build : Build} {call : AnyCall}
    (hroom : call.fields.flatten.length ≤ limit build) :
    call.sent build = some call.fields.flatten := by
  have hfill : call.fill build fresh = .ok () (fresh.extend call.fields.flatten) := by
    rw [fill_eq_appendAll]
    exact appendAll_of_room _ rfl (roomAll_of_limit _ (by rwa [fresh_size, Nat.zero_add]))
  have hlen := call.fields_length
  have hfixed := call.le_fixed
  have hpos : 0 < call.fields.flatten.length := by omega
  have hspace : call.fields.flatten.length < addressSpace := by
    cases build <;> simp only [limit, addressSpace] at hroom ⊢ <;> omega
  have hsize : (fresh.extend call.fields.flatten).size = call.fields.flatten.length := rfl
  rw [sent, Reader.bind_of_ok hfill, Reader.get_bind, hsize, readBlock_fresh_extend hpos hspace]

end AnyCall

/-- The two length fields are the number of bytes behind them. -/
def Declares (bytes : List Byte) : Prop :=
  LittleEndian.value ((bytes.drop 6).take 2) = (bytes.drop 10).length ∧
    LittleEndian.value ((bytes.drop 8).take 2) = (bytes.drop 10).length

/-- Of the two requests, that for bars declares its length as it is. -/
theorem declares_iff (build : Build) (call : AnyCall) (hsix : call.Zqdm.strlen = 6) :
    (∃ bytes, call.sent build = some bytes ∧ Declares bytes) ↔ ∃ c, call = .bars c := by
  have hlen := call.fields_length
  rw [hsix] at hlen
  have hsent : call.sent build = some call.fields.flatten := by
    apply AnyCall.sent_eq_fields
    have hlimit : 28 ≤ limit build := by cases build <;> decide
    have hfixed := call.fixed_le
    omega
  have hbytes : (∃ bytes, call.sent build = some bytes ∧ Declares bytes) ↔
      Declares call.fields.flatten := by
    rw [hsent]
    simp
  rw [hbytes, Declares, List.length_drop, hlen]
  cases call with
  | bars c =>
    -- 0x12 twice, and 28 bytes in all
    have hfirst : ((AnyCall.bars c).fields.flatten.drop 6).take 2 = [0x12, 0] := rfl
    have hsecond : ((AnyCall.bars c).fields.flatten.drop 8).take 2 = [0x12, 0] := rfl
    rw [hfirst, hsecond]
    simp [AnyCall.fixed, LittleEndian.value]
  | quotes c =>
    -- 0x13 where 17 bytes follow
    have hfirst : ((AnyCall.quotes c).fields.flatten.drop 6).take 2 = [0x13, 0] := rfl
    rw [hfirst]
    simp [AnyCall.fixed, LittleEndian.value]

theorem declares_sample :
    ∃ bytes, (AnyCall.bars (askFrom 0)).sent .debug = some bytes ∧ Declares bytes :=
  (declares_iff .debug (.bars (askFrom 0)) rfl).mpr ⟨askFrom 0, rfl⟩

/-- The request for the quotes of `000001` announces 19 bytes and goes on with 17. -/
theorem quotes_announce_too_much :
    ∃ bytes, (AnyCall.quotes ⟨0, (askFrom 0).Zqdm⟩).sent .release = some bytes ∧
      LittleEndian.value ((bytes.drop 6).take 2) = 19 ∧ (bytes.drop 10).length = 17 :=
  ⟨_, rfl, rfl, rfl⟩

end TdxHq.Request
