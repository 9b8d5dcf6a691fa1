import TdxHq.Reception
import TdxHq.Rows

namespace TdxHq.Outcome

open CByteBuffer Request Bars SecurityBars Reception
open Connection (Code Handle connectNum)

/-- What the system returns to one call: to `send`, to the `recv` of the header, and to the
`recv` calls of the body, one after the other. -/
structure Answers where
  sendRet : ℤ
  head : Received
  body : List Received
  head_le : Possible 0x10 [head]
  body_le : Possible (zipedSize (head.getD [])) body

namespace Answers

def recvHead (a : Answers) : List Byte := a.head.getD []

def wZipedSize (a : Answers) : ℕ := zipedSize a.recvHead

theorem wZipedSize_le (a : Answers) : a.wZipedSize ≤ 65535 := zipedSize_le a.recvHead

def wUzipedSize (a : Answers) : ℕ := uzipedSize a.recvHead

def before (a : Answers) (outbox : List (List Byte)) (Count : ℕ) (szResult : List Char) :
    CallState :=
  facing ⟨⟨[], [], some a.sendRet⟩, outbox, Count, szResult⟩ (a.head :: a.body)

end Answers

/-- What becomes of a call before anything is parsed. -/
inductive Verdict
  | code (code : Code)
  | body (bs : List Byte)
  | fault
  | waiting
  deriving DecidableEq, Repr

def verdictOf : Ending → Verdict
  | .body bs _ => .body bs
  | .closed _ => .code .recv
  | .broken => .fault
  | .waiting => .waiting

section Verdict

variable {D : Type} (env : Env D) (skHQ : ℕ → Option Handle) (connectID : ℤ) (call : BarsCall)

structure Sent (a : Answers) : Prop where
  fits : Fits env.build call
  id : 0 ≤ connectID ∧ connectID < connectNum
  isOpen : skHQ connectID.toNat ≠ none
  whole : a.sendRet = (requestBytes call).length

/-- How far the call gets, by the answers alone. -/
def verdict (a : Answers) : Verdict :=
  if ¬ Fits env.build call ∨ ¬ (0 ≤ connectID ∧ connectID < connectNum) then .fault
  else if skHQ connectID.toNat = none then .code .cont
  else if a.sendRet ≠ (requestBytes call).length then .code .send
  else if a.recvHead.length ≠ 0x10 then .code .recv
  else verdictOf (gather env.build a.wZipedSize [] a.body)

/-- The outcome of a call that belongs to a verdict. -/
def Carries (a : Answers) (Count : ℕ) (szResult : List Char) :
    Verdict → EStateM.Result Stop CallState Code → Prop
  | .code code, r => code ≠ .ok ∧ ∃ t, r = .ok code t ∧ t.Count = Count ∧ t.szResult = szResult
  | .body bs, r => ∃ t, r = tabulate env call.Category (unzip env a.wZipedSize a.wUzipedSize bs) t ∧
      t.Count = Count ∧ t.szResult = szResult
  | .fault, r => ∃ f t, r = .error (.fault f) t
  | .waiting, r => ∃ t, r = .error .blocked t

theorem receiveBody_carries (a : Answers) (s : CallState) :
    Carries env call a s.Count s.szResult (verdictOf (gather env.build a.wZipedSize [] a.body))
      (receiveBody env call.Category a.wZipedSize a.wUzipedSize (facing s a.body)) := by
  have hends := @bodyLoop_follows env.build a.wZipedSize a.wZipedSize_le s a.body a.body_le
    ((incoming a.body).length + 1) [] (Nat.lt_succ_self _)
  rw [extend_nil rfl] at hends
  cases hgather : gather env.build a.wZipedSize [] a.body with
  | body bs rest =>
    rw [hgather] at hends
    obtain ⟨i, hi, hloop⟩ := hends
    obtain ⟨chunks, hbegins, hchunks, hbs, hlen⟩ := begins_of_gather hgather
    -- at least one chunk, and none empty: the body is not empty
    have hcount := length_le_flatten hbegins.ne
    have hpos := List.length_pos_iff.mpr hchunks
    have hne : bs ≠ [] := by
      rw [hbs, List.nil_append]
      exact List.length_pos_iff.mp (by omega)
    have hsize : bs.length < 65536 := hlen.trans_lt (Nat.lt_succ_of_le a.wZipedSize_le)
    rw [← hlen] at hloop
    refine ⟨facing s rest, ?_, rfl, rfl⟩
    rw [← hlen]
    exact receiveBody_of_body hi hne hsize hloop
  | closed rest =>
    rw [hgather] at hends
    obtain ⟨b, hloop⟩ := hends
    refine ⟨by decide, facing s rest, ?_, rfl, rfl⟩
    rw [receiveBody, Reader.get_bind]
    exact Reader.bind_of_ok hloop
  | broken =>
    rw [hgather] at hends
    obtain ⟨f, t, hloop⟩ := hends
    refine ⟨f, t, ?_⟩
    rw [receiveBody, Reader.get_bind]
    exact Reader.bind_of_error hloop
  | waiting =>
    rw [hgather] at hends
    obtain ⟨t, hloop⟩ := hends
    refine ⟨t, ?_⟩
    rw [receiveBody, Reader.get_bind]
    exact Reader.bind_of_error hloop

theorem receive_carries (a : Answers) (s : CallState) :
    Carries env call a s.Count s.szResult
      (if a.recvHead.length ≠ 0x10 then .code .recv
        else verdictOf (gather env.build a.wZipedSize [] a.body))
      (receive env call.Category (facing s (a.head :: a.body))) := by
  have hrecv := @recv_facing s 0x10 a.head a.body fun c hc => a.head_le c (by simp [hc])
  split_ifs with hhead
  · have hret : recvRet a.head ≠ 0x10 := by
      unfold Answers.recvHead at hhead
      cases ha : a.head with
      | none => decide
      | some c =>
        rw [ha, Option.getD_some] at hhead
        rw [recvRet]
        omega
    refine ⟨by decide, facing s a.body, ?_, rfl, rfl⟩
    rw [receive, Reader.bind_of_ok hrecv, if_neg hret, Reader.pure_apply]
  · rw [not_not] at hhead
    have hsome : a.head = some a.recvHead := by
      unfold Answers.recvHead at hhead ⊢
      cases ha : a.head with
      | none =>
        rw [ha] at hhead
        cases hhead
      | some c => rfl
    rw [hsome] at hrecv ⊢
    rw [receive_of_length hrecv hhead]
    exact receiveBody_carries env call a s

/-- The call does what the answers it gets say. -/
theorem getSecurityBars_carries (a : Answers) (outbox : List (List Byte)) (Count : ℕ)
    (szResult : List Char) :
    Carries env call a Count szResult (verdict env skHQ connectID call a)
      (getSecurityBars env skHQ connectID call (a.before outbox Count szResult)) := by
  unfold verdict
  by_cases hfits : Fits env.build call
  case neg =>
    obtain ⟨f, b, hfill⟩ := fillRequest_of_not_fits hfits
    -- `append` fails before anything is sent
    rw [if_pos (Or.inl hfits)]
    exact ⟨f, _, Reader.bind_of_error (fill_of_error hfill _)⟩
  have hfill : fill fresh (fillRequest env.build call) (a.before outbox Count szResult) =
      .ok (fresh.extend (requestBytes call)) (a.before outbox Count szResult) :=
    fill_of_ok (fillRequest_of_fits hfits) _
  by_cases hid : 0 ≤ connectID ∧ connectID < connectNum
  case neg =>
    rw [if_pos (Or.inr hid)]
    -- `skHQ` is indexed outside
    refine ⟨.invalidAccess, a.before outbox Count szResult, ?_⟩
    rw [getSecurityBars, Reader.bind_of_ok hfill, slot, if_neg hid]
    rfl
  rw [if_neg (by tauto)]
  by_cases hclosed : skHQ connectID.toNat = none
  · rw [if_pos hclosed]
    -- the slot holds `INVALID_SOCKET`
    refine ⟨by decide, a.before outbox Count szResult, ?_, rfl, rfl⟩
    rw [getSecurityBars, Reader.bind_of_ok hfill, slot, if_pos hid, hclosed]
    rfl
  · rw [if_neg hclosed, getSecurityBars_eq hfits hid hclosed]
    change Carries env call a Count szResult _
      (if a.sendRet ≠ (requestBytes call).length then _ else _)
    by_cases hsend : a.sendRet = (requestBytes call).length
    · rw [if_neg (not_not.mpr hsend), if_neg (not_not.mpr hsend)]
      exact receive_carries env call a
        ⟨⟨[], [], some a.sendRet⟩, outbox ++ [requestBytes call], Count, szResult⟩
    · rw [if_pos hsend, if_pos hsend]
      exact ⟨by decide, _, rfl, rfl, rfl⟩

def rounds (a : Answers) (outbox : List (List Byte)) (Count : ℕ) (szResult : List Char) :
    List (CByteBuffer × Received) :=
  bodyRounds env.build a.wZipedSize ((incoming a.body).length + 1) fresh
    (facing (a.before (outbox ++ [requestBytes call]) Count szResult) a.body)

variable {env skHQ connectID call}

theorem verdict_of_not_fits {a : Answers}
    (h : ¬ (Fits env.build call ∧ 0 ≤ connectID ∧ connectID < connectNum)) :
    verdict env skHQ connectID call a = .fault := by
  rw [verdict, if_pos (not_and_or.mp h)]

theorem verdict_of_not_sent {a : Answers} (hfits : Fits env.build call)
    (hid : 0 ≤ connectID ∧ connectID < connectNum) (h : ¬ Sent env skHQ connectID call a) :
    ∃ code, verdict env skHQ connectID call a = .code code := by
  rw [verdict, if_neg (not_or.mpr ⟨not_not.mpr hfits, not_not.mpr hid⟩)]
  split_ifs with hclosed hsend hhead
  · exact ⟨_, rfl⟩
  · exact ⟨_, rfl⟩
  · exact ⟨_, rfl⟩
  · exact absurd ⟨hfits, hid, hclosed, not_not.mp hsend⟩ h

theorem verdict_of_sent {a : Answers} (hsent : Sent env skHQ connectID call a) :
    verdict env skHQ connectID call a =
      if a.recvHead.length ≠ 0x10 then .code .recv
      else verdictOf (gather env.build a.wZipedSize [] a.body) := by
  rw [verdict, if_neg (not_or.mpr ⟨not_not.mpr hsent.fits, not_not.mpr hsent.id⟩),
    if_neg hsent.isOpen, if_neg (not_not.mpr hsent.whole)]

theorem verdict_of_head {a : Answers} (hsent : Sent env skHQ connectID call a)
    (hhead : a.recvHead.length = 0x10) :
    verdict env skHQ connectID call a = verdictOf (gather env.build a.wZipedSize [] a.body) := by
  rw [verdict_of_sent hsent, if_neg (not_not.mpr hhead)]

/-- A `SOCKET_ERROR` is told to the caller, and `append` adds what was received, exactly if there
is no `SOCKET_ERROR` and the buffer does not get full; else the call does not return. -/
theorem socketError_reported_iff {a : Answers} (hsent : Sent env skHQ connectID call a)
    (hhead : a.recvHead.length = 0x10) (hz : 0 < a.wZipedSize)
    (outbox : List (List Byte)) (Count : ℕ) (szResult : List Char) :
    (((∀ b, (b, none) ∈ rounds env call a outbox Count szResult →
          ∃ t, getSecurityBars env skHQ connectID call (a.before outbox Count szResult) =
            .ok .recv t ∧ t.Count = Count) ∧
        ∀ p ∈ rounds env call a outbox Count szResult, AddsReceived env.build p) ↔
      Unbroken env.build a.wZipedSize a.body) ∧
    (¬ Unbroken env.build a.wZipedSize a.body →
      ∃ f t, getSecurityBars env skHQ connectID call (a.before outbox Count szResult) =
        .error (.fault f) t) := by
  have hiff := @addsReceived_rounds_iff env.build a.wZipedSize hz a.wZipedSize_le
    (a.before (outbox ++ [requestBytes call]) Count szResult) a.body a.body_le
    ((incoming a.body).length + 1) [] (by decide) (Nat.lt_succ_self _)
  rw [extend_nil rfl, ← unbroken_iff] at hiff
  refine ⟨⟨fun h => hiff.mp h.2, ?_⟩, ?_⟩
  · intro h
    have hadds := hiff.mpr h
    refine ⟨?_, hadds⟩
    intro b hb
    -- a round with `SOCKET_ERROR` appends more than was received
    exact absurd (hadds _ hb) (not_addsReceived_none env.build b)
  · intro h
    have hbroken : gather env.build a.wZipedSize [] a.body = .broken := by
      by_contra hne
      exact h (unbroken_iff.mpr hne)
    have hcarries := getSecurityBars_carries env skHQ connectID call a outbox Count szResult
    rw [verdict_of_head hsent hhead, hbroken] at hcarries
    exact hcarries

/-- These bytes come as the body: a few results of `recv` make up the announced size. -/
def BodyIs (a : Answers) (bs : List Byte) : Prop :=
  ∃ chunks rest, Begins a.body chunks rest ∧ chunks ≠ [] ∧ chunks.flatten = bs ∧
    bs.length = a.wZipedSize

/-- If the body is packed, `uncompress` returns `Z_OK` and gives as many bytes as announced. -/
def Unpacks (env : Env D) (a : Answers) (bs : List Byte) : Prop :=
  a.wZipedSize ≠ a.wUzipedSize →
    (env.uncompress a.wUzipedSize bs).ret = 0 ∧
      (env.uncompress a.wUzipedSize bs).destLen = a.wUzipedSize

theorem gather_of_bodyIs (build : Build) {a : Answers} {bs : List Byte} (h : BodyIs a bs) :
    ∃ rest, gather build a.wZipedSize [] a.body = .body bs rest := by
  obtain ⟨chunks, rest, hbegins, hne, rfl, hlen⟩ := h
  refine ⟨rest, ?_⟩
  have hcount := length_le_flatten hbegins.ne
  have hpos := List.length_pos_iff.mpr hne
  exact gather_of_begins build a.wZipedSize_le hbegins (by rw [List.length_nil]; omega)
    (by rw [List.length_nil, Nat.zero_add, hlen])

theorem bodyIs_of_gather {build : Build} {a : Answers} {bs : List Byte} {rest : List Received}
    (h : gather build a.wZipedSize [] a.body = .body bs rest) : BodyIs a bs := by
  obtain ⟨chunks, hbegins, hne, hbs, hlen⟩ := begins_of_gather h
  exact ⟨chunks, rest, hbegins, hne, hbs.symm, hlen⟩

variable (env skHQ connectID call)

/-- The request has been sent, and a complete and intact response has come. -/
structure Intact (a : Answers) : Prop where
  sent : Sent env skHQ connectID call a
  head : a.recvHead.length = 0x10
  body : ∃ bs, BodyIs a bs ∧ Unpacks env a bs

/-- `TDXHQ_ERROR_OK` means a complete response, and in every other case the call returns an
error code and leaves `Count` alone, unless a `recv` does not return at all. -/
def Honest (a : Answers) (Count : ℕ) (r : EStateM.Result Stop CallState Code) : Prop :=
  (∀ t, r = .ok .ok t → Intact env skHQ connectID call a) ∧
    (¬ Intact env skHQ connectID call a →
      (∃ t, r = .error .blocked t) ∨ ∃ code t, r = .ok code t ∧ code ≠ .ok ∧ t.Count = Count)

variable {env skHQ connectID call}

theorem tabulate_cases (env : Env D) (Category : ℕ) (UzipedData : List Byte) (s : CallState) :
    (∃ f, tabulate env Category UzipedData s = .error (.fault f) s) ∨
      ∃ t, tabulate env Category UzipedData s = .ok .ok t := by
  unfold tabulate
  split
  · exact Or.inl ⟨_, rfl⟩
  · split_ifs
    · exact Or.inl ⟨_, rfl⟩
    · exact Or.inr ⟨_, rfl⟩

theorem honest_iff_of_carries {a : Answers} {Count : ℕ} {szResult : List Char} {v : Verdict}
    {r : EStateM.Result Stop CallState Code} (h : Carries env call a Count szResult v r) :
    Honest env skHQ connectID call a Count r ↔
      (v = .fault ∨ (∃ bs, v = .body bs) → Intact env skHQ connectID call a) := by
  constructor
  · intro hhonest hv
    by_contra hnot
    -- an intact response is missing, so there should be an error code
    obtain ⟨hok, herror⟩ := hhonest
    rcases hv with rfl | ⟨bs, rfl⟩
    · obtain ⟨f, t, rfl⟩ := h
      simpa using herror hnot
    · obtain ⟨s, rfl, -, -⟩ := h
      rcases tabulate_cases env call.Category (unzip env a.wZipedSize a.wUzipedSize bs) s with
        ⟨f, hf⟩ | ⟨t, ht⟩
      · rw [hf] at herror
        simpa using herror hnot
      · exact hnot (hok t ht)
  · intro hv
    by_cases hintact : Intact env skHQ connectID call a
    · exact ⟨fun _ _ => hintact, fun hnot => absurd hintact hnot⟩
    · cases v with
      | code code =>
        obtain ⟨hcode, t, rfl, hCount, -⟩ := h
        refine ⟨?_, fun _ => Or.inr ⟨code, t, rfl, hcode, hCount⟩⟩
        intro t' ht
        cases ht
        exact absurd rfl hcode
      | body bs => exact absurd (hv (Or.inr ⟨bs, rfl⟩)) hintact
      | fault => exact absurd (hv (Or.inl rfl)) hintact
      | waiting =>
        obtain ⟨t, rfl⟩ := h
        exact ⟨nofun, fun _ => Or.inl ⟨t, rfl⟩⟩

/-- What the call tells about the response is true exactly if the request can be built for a
connection there is, and, once the header has come, no `recv` fails or finds the buffer full
and `uncompress` does not fail on a body that has come. -/
theorem getSecurityBars_honest_iff (a : Answers) (outbox : List (List Byte)) (Count : ℕ)
    (szResult : List Char) :
    Honest env skHQ connectID call a Count
        (getSecurityBars env skHQ connectID call (a.before outbox Count szResult)) ↔
      Fits env.build call ∧ (0 ≤ connectID ∧ connectID < connectNum) ∧
        (Sent env skHQ connectID call a → a.recvHead.length = 0x10 →
          Unbroken env.build a.wZipedSize a.body ∧ ∀ bs, BodyIs a bs → Unpacks env a bs) := by
  rw [honest_iff_of_carries
    (getSecurityBars_carries env skHQ connectID call a outbox Count szResult)]
  by_cases hready : Fits env.build call ∧ 0 ≤ connectID ∧ connectID < connectNum
  case neg =>
    rw [verdict_of_not_fits hready]
    constructor
    · intro h
      have hsent := (h (Or.inl rfl)).sent
      exact absurd ⟨hsent.fits, hsent.id⟩ hready
    · intro h
      exact absurd ⟨h.1, h.2.1⟩ hready
  rw [← and_assoc, and_iff_right hready]
  by_cases hsent : Sent env skHQ connectID call a
  case neg =>
    obtain ⟨code, hcode⟩ := verdict_of_not_sent hready.1 hready.2 hsent
    rw [hcode]
    simp [hsent]
  by_cases hhead : a.recvHead.length = 0x10
  case neg =>
    rw [verdict_of_sent hsent, if_pos hhead]
    simp [hhead]
  rw [verdict_of_head hsent hhead]
  constructor
  · intro h _ _
    constructor
    · apply unbroken_iff.mpr
      intro hbroken
      -- the call would crash although a whole body has come
      obtain ⟨bs, hbody, -⟩ := (h (Or.inl (by rw [hbroken]; rfl))).body
      obtain ⟨rest, hgather⟩ := gather_of_bodyIs env.build hbody
      rw [hbroken] at hgather
      cases hgather
    · intro bs hbody
      obtain ⟨rest, hgather⟩ := gather_of_bodyIs env.build hbody
      obtain ⟨bs', hbody', hunpacks⟩ := (h (Or.inr ⟨bs, by rw [hgather]; rfl⟩)).body
      obtain ⟨rest', hgather'⟩ := gather_of_bodyIs env.build hbody'
      rw [hgather] at hgather'
      cases hgather'
      exact hunpacks
  · intro h hv
    obtain ⟨hunbroken, hunpacks⟩ := h hsent hhead
    have hne := unbroken_iff.mp hunbroken
    cases hgather : gather env.build a.wZipedSize [] a.body with
    | body bs rest =>
      have hbody := bodyIs_of_gather hgather
      exact ⟨hsent, hhead, bs, hbody, hunpacks bs hbody⟩
    | closed rest => simp [hgather, verdictOf] at hv
    | broken => exact absurd hgather hne
    | waiting => simp [hgather, verdictOf] at hv

theorem returns_of_parse {a : Answers} {bs : List Byte} {n : ℕ} {text : List Char}
    {c : Price.Cursor} {szResult : List Char} (outbox : List (List Byte)) (Count : ℕ)
    (hbody : verdict env skHQ connectID call a = .body bs)
    (hparse : parseBody env.ops call.Category (unzip env a.wZipedSize a.wUzipedSize bs) atStart =
      .ok (n, text) c)
    (hroom : text.length ≤ szResult.length) :
    ∃ t, getSecurityBars env skHQ connectID call (a.before outbox Count szResult) = .ok .ok t ∧
      t.Count = n := by
  have hcarries := getSecurityBars_carries env skHQ connectID call a outbox Count szResult
  rw [hbody] at hcarries
  obtain ⟨s, hrun, -, hszResult⟩ := hcarries
  rw [← hszResult] at hroom
  exact ⟨s.store n text, hrun.trans (tabulate_of_parse hparse hroom), rfl⟩

variable (env skHQ connectID call)

/-- The bars of the response, if the call gets as far as to read them. -/
def dueBars (a : Answers) : Option (List Bar) :=
  match verdict env skHQ connectID call a with
  | .body bs =>
    match readTable call.Category (unzip env a.wZipedSize a.wUzipedSize bs) atStart with
    | .ok bars _ => some bars
    | .error _ _ => none
  | _ => none

/-- The text that is documented: the table of these bars, or the empty string after an error. -/
def dueText (a : Answers) : List Char :=
  match dueBars env skHQ connectID call a with
  | some bars => tableText env.ops bars
  | none => []

/-- What the caller finds after the call: the documented string, and the number of its rows. -/
def Proper (a : Answers) (code : Code) (t : CallState) : Prop :=
  (code = .ok → ∃ bars, dueBars env skHQ connectID call a = some bars ∧ t.Count = bars.length ∧
      Text.IsCStr t.szResult (tableText env.ops bars)) ∧
    (code ≠ .ok → Text.IsCStr t.szResult [])

variable {env skHQ connectID call}

/-- A call that returns has copied the text, and nothing else, onto what was in the buffer. -/
theorem returns_cases {a : Answers} {outbox : List (List Byte)} {Count : ℕ}
    {szResult : List Char} {code : Code} {t : CallState}
    (h : getSecurityBars env skHQ connectID call (a.before outbox Count szResult) = .ok code t) :
    t.szResult = dueText env skHQ connectID call a ++
        szResult.drop (dueText env skHQ connectID call a).length ∧
      ((code = .ok ∧ ∃ bars, dueBars env skHQ connectID call a = some bars ∧
          t.Count = bars.length) ∨
        (code ≠ .ok ∧ dueBars env skHQ connectID call a = none ∧ t.Count = Count)) := by
  have hcarries := getSecurityBars_carries env skHQ connectID call a outbox Count szResult
  rw [h] at hcarries
  cases hv : verdict env skHQ connectID call a with
  | code c =>
    rw [hv] at hcarries
    obtain ⟨hcode, t', heq, hCount, hszResult⟩ := hcarries
    cases heq
    have hdue : dueBars env skHQ connectID call a = none := by rw [dueBars, hv]
    exact ⟨by simpa [dueText, hdue] using hszResult, Or.inr ⟨hcode, hdue, hCount⟩⟩
  | body bs =>
    rw [hv] at hcarries
    obtain ⟨s, htab, -, hszResult⟩ := hcarries
    -- only the parser can still stop the call
    unfold tabulate at htab
    split at htab
    · cases htab
    · next resCount csResult c hparse =>
      split_ifs at htab
      cases htab
      obtain ⟨bars, hbars, rfl, rfl⟩ := parseBody_eq_ok hparse
      have hdue : dueBars env skHQ connectID call a = some bars := by
        simp only [dueBars, hv, hbars]
      refine ⟨?_, Or.inl ⟨rfl, bars, hdue, rfl⟩⟩
      simp only [dueText, hdue]
      rw [← hszResult]
      rfl
  | fault =>
    rw [hv] at hcarries
    obtain ⟨f, t', heq⟩ := hcarries
    cases heq
  | waiting =>
    rw [hv] at hcarries
    obtain ⟨t', heq⟩ := hcarries
    cases heq

theorem nul_notMem_dueText (hprint : ∀ x, Text.NUL ∉ env.ops.format3 x) (a : Answers) :
    Text.NUL ∉ dueText env skHQ connectID call a := by
  unfold dueText
  cases dueBars env skHQ connectID call a with
  | none => simp
  | some bars =>
    simp only [tableText, List.mem_append, List.mem_flatMap, not_or, not_exists, not_and]
    refine ⟨by decide, ?_⟩
    intro bar _ hmem
    rw [csLine_eq_row, List.mem_append] at hmem
    rcases hmem with hrow | hnewline
    · exact notMem_row (by decide) (by decide) hprint bar hrow
    · exact absurd hnewline (by decide)

theorem isCStr_dueText_iff (hprint : ∀ x, Text.NUL ∉ env.ops.format3 x) {a : Answers}
    {outbox : List (List Byte)} {Count : ℕ} {szResult : List Char} {code : Code} {t : CallState}
    (h : getSecurityBars env skHQ connectID call (a.before outbox Count szResult) = .ok code t) :
    Text.IsCStr t.szResult (dueText env skHQ connectID call a) ↔
      szResult[(dueText env skHQ connectID call a).length]? = some Text.NUL := by
  rw [(returns_cases h).1]
  exact Text.isCStr_copy_iff (nul_notMem_dueText hprint a) szResult

theorem proper_iff_isCStr {a : Answers} {outbox : List (List Byte)} {Count : ℕ}
    {szResult : List Char} {code : Code} {t : CallState}
    (h : getSecurityBars env skHQ connectID call (a.before outbox Count szResult) = .ok code t) :
    Proper env skHQ connectID call a code t ↔
      Text.IsCStr t.szResult (dueText env skHQ connectID call a) := by
  unfold Proper dueText
  rcases (returns_cases h).2 with ⟨rfl, bars, hdue, hCount⟩ | ⟨hcode, hdue, -⟩
  · simp [hdue, hCount]
  · simp [hdue, hcode]

/-- The caller finds the documented string exactly if the buffer had a NUL where it ends, and
then it does not depend on what else was in the buffer. -/
theorem szResult_proper_iff (hprint : ∀ x, Text.NUL ∉ env.ops.format3 x) {a : Answers}
    {outbox : List (List Byte)} {Count : ℕ} {szResult : List Char} {code : Code} {t : CallState}
    (h : getSecurityBars env skHQ connectID call (a.before outbox Count szResult) = .ok code t) :
    (Proper env skHQ connectID call a code t ↔
      szResult[(dueText env skHQ connectID call a).length]? = some Text.NUL) ∧
    ∀ szResult' code' t',
      getSecurityBars env skHQ connectID call (a.before outbox Count szResult') = .ok code' t' →
      szResult[(dueText env skHQ connectID call a).length]? = some Text.NUL →
      szResult'[(dueText env skHQ connectID call a).length]? = some Text.NUL →
      ∃ text, Text.IsCStr t.szResult text ∧ Text.IsCStr t'.szResult text := by
  constructor
  · rw [proper_iff_isCStr h]
    exact isCStr_dueText_iff hprint h
  · intro szResult' code' t' h' hnul hnul'
    exact ⟨dueText env skHQ connectID call a, (isCStr_dueText_iff hprint h).mpr hnul,
      (isCStr_dueText_iff hprint h').mpr hnul'⟩

end Verdict

def answering (body : List Received) (hbody : Possible sampleStream.length body) : Answers where
  sendRet := 28
  head := some sampleFrame.head
  body := body
  head_le := by decide
  body_le := hbody

theorem sent_answering {body : List Received} (hbody : Possible sampleStream.length body) :
    Sent sampleEnv (fun _ => some 7) 0 (askFrom 0) (answering body hbody) where
  fits := by decide
  id := by decide
  isOpen := by simp
  whole := rfl

/-- A body in two pieces. -/
theorem socketError_reported_sample :
    Unbroken .release 50 [some (sampleStream.take 20), some (sampleStream.drop 20)] ∧
      ∀ p ∈ rounds sampleEnv (askFrom 0)
        (answering [some (sampleStream.take 20), some (sampleStream.drop 20)] (by decide)) [] 1 [],
        AddsReceived .release p := by
  have hunbroken : Unbroken .release 50
      [some (sampleStream.take 20), some (sampleStream.drop 20)] := by
    apply unbroken_iff.mpr
    decide
  refine ⟨hunbroken, ?_⟩
  exact ((socketError_reported_iff (sent_answering (by decide)) (by decide) (by decide)
    [] 1 []).1.mpr hunbroken).2

/-- The connection is lost before the body or in the middle of it: the buffer is to take four
gigabytes. -/
theorem socketError_not_reported :
    (∃ f t, getSecurityBars sampleEnv (fun _ => some 7) 0 (askFrom 0)
        ((answering [none] (by decide)).before [] 1 []) = .error (.fault f) t) ∧
    ∃ f t, getSecurityBars sampleEnv (fun _ => some 7) 0 (askFrom 0)
        ((answering [some (sampleStream.take 20), none] (by decide)).before [] 1 []) =
      .error (.fault f) t := by
  have hcarries : ∀ a, Carries sampleEnv (askFrom 0) a 1 [] _ _ := fun a =>
    getSecurityBars_carries sampleEnv (fun _ => some 7) 0 (askFrom 0) a [] 1 []
  have hfirst := hcarries (answering [none] (by decide))
  have hlater := hcarries (answering [some (sampleStream.take 20), none] (by decide))
  rw [show verdict sampleEnv _ 0 (askFrom 0) (answering _ _) = .fault by decide] at hfirst hlater
  exact ⟨hfirst, hlater⟩

def corruptEnv : Env ℚ := ⟨.release, Volume.exact, fun _ _ => ⟨-3, [], 0⟩⟩

/-- A body that cannot be unpacked is reported as a table without rows, and `Count` is set
to 0. -/
theorem corrupt_body_returns_ok :
    (corruptEnv.uncompress 39 sampleStream).ret ≠ 0 ∧
      ∃ t, getSecurityBars corruptEnv (fun _ => some 7) 0 (askFrom 0)
          ((answering [some sampleStream] (by decide)).before [] 1 (List.replicate 64 ' ')) =
        .ok .ok t ∧ t.Count = 0 := by
  have hzeros : parseBody Volume.exact 9 (List.replicate 39 0) atStart =
      .ok (0, heading) ⟨2, []⟩ := rfl
  have hbody : verdict corruptEnv (fun _ => some 7) 0 (askFrom 0)
      (answering [some sampleStream] (by decide)) = .body sampleStream := by decide
  exact ⟨by decide, returns_of_parse [] 1 hbody hzeros (by decide)⟩

def zeroed : List Char := List.replicate (256 * 800) Text.NUL

theorem zeroed_getElem? {k : ℕ} (hk : k < 256 * 800) : zeroed[k]? = some Text.NUL := by
  rw [zeroed, List.getElem?_replicate, if_pos hk]

theorem sample_returns :
    ∃ t, getSecurityBars sampleEnv (fun _ => some 7) 0 (askFrom 0)
        ((answering [some sampleStream] (by decide)).before [] 1 zeroed) =
      .ok .ok t ∧ t.Count = 2 := by
  obtain ⟨c, hparse⟩ := @parseBody_encodeBody ℚ Volume.exact 9 sampleBars (by decide) (by decide)
  have hbody : verdict sampleEnv (fun _ => some 7) 0 (askFrom 0)
      (answering [some sampleStream] (by decide)) = .body sampleStream := by decide
  have hroom : (rows Volume.exact 9 sampleBars).length ≤ zeroed.length := by
    rw [zeroed, List.length_replicate]
    decide +kernel
  exact returns_of_parse [] 1 hbody hparse hroom

theorem szResult_proper_sample :
    ∃ t, getSecurityBars sampleEnv (fun _ => some 7) 0 (askFrom 0)
        ((answering [some sampleStream] (by decide)).before [] 1 zeroed) = .ok .ok t ∧
      Proper sampleEnv (fun _ => some 7) 0 (askFrom 0)
        (answering [some sampleStream] (by decide)) .ok t ∧ t.Count = 2 := by
  obtain ⟨t, hrun, hCount⟩ := sample_returns
  have hshort : (dueText sampleEnv (fun _ => some 7) 0 (askFrom 0)
      (answering [some sampleStream] (by decide))).length < 256 * 800 := by decide +kernel
  have hprint : ∀ q, Text.NUL ∉ Volume.exact.format3 q :=
    Volume.notMem_formatExact (by decide) (by decide)
  exact ⟨t, hrun, (szResult_proper_iff hprint hrun).1.mpr (zeroed_getElem? hshort), hCount⟩

/-- A call that fails leaves the old text in the buffer. -/
theorem failed_call_keeps_text :
    ∃ t, getSecurityBars sampleEnv (fun _ => none) 0 (askFrom 0)
        ((answering [] (by decide)).before [] 1 ['x', Text.NUL]) = .ok .cont t ∧
      Text.IsCStr t.szResult ['x'] ∧ ¬ Text.IsCStr t.szResult [] := by
  refine ⟨_, rfl, ⟨by decide, [], rfl⟩, ?_⟩
  rintro ⟨-, rest, h⟩
  exact absurd (List.cons.inj h).1 (by decide)

end TdxHq.Outcome
