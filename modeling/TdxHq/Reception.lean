import TdxHq.SecurityBars

namespace TdxHq.Reception

open CByteBuffer SecurityBars

/-- What `recv` returns: bytes, no byte where the server has closed the connection, or
`SOCKET_ERROR`. -/
abbrev Received := Option (List Byte)

def moveOf : Received → Move
  | none => .fail
  | some [] => .close
  | some (_ :: bs) => .deliver (bs.length + 1)

def incoming (results : List Received) : List Byte := results.flatMap fun r => r.getD []

def facing (s : CallState) (results : List Received) : CallState :=
  s.left (incoming results) (results.map moveOf)

theorem recv_facing {s : CallState} {len : ℕ} {r : Received} {rs : List Received}
    (hr : ∀ c, r = some c → c.length ≤ len) :
    recv len (facing s (r :: rs)) = .ok r (facing s rs) := by
  cases r with
  | none => rfl
  | some c =>
    cases c with
    | nil => rfl
    | cons b bs => exact recv_chunk (by simp) (hr _ rfl) rfl rfl

theorem recv_facing_nil {s : CallState} {len : ℕ} (hlen : 0 < len) :
    recv len (facing s []) = .error .blocked (facing s []) := by
  have hne : len ≠ 0 := by omega
  change hand len len [] (facing s []) = _
  simp only [hand, if_neg hne]
  rfl

inductive Ending
  | body (bs : List Byte) (rest : List Received)
  | closed (rest : List Received)
  /-- `append` has failed: it was given -1 as a count, or the buffer is full. -/
  | broken
  | waiting
  deriving DecidableEq, Repr

/-- The body loop over the results of its `recv` calls, with the bytes collected so far.  Where
no byte is announced, none is waited for. -/
def gather (build : Build) (wZipedSize : ℕ) : List Byte → List Received → Ending
  | _, [] => if wZipedSize = 0 then .closed [] else .waiting
  | _, none :: _ => .broken
  | got, some c :: rs =>
    if c = [] then .closed rs
    else if Room build got.length c.length then
      if got.length + c.length = wZipedSize then .body (got ++ c) rs
      else gather build wZipedSize (got ++ c) rs
    else .broken

/-- -1 as a count is more than any pointer can be read for. -/
theorem bodyLoop_lost (build : Build) {wZipedSize fuel : ℕ} (b : CByteBuffer) {s s' : CallState}
    (hrecv : recv wZipedSize s = .ok none s') :
    ∃ f, bodyLoop build wZipedSize (fuel + 1) b s = .error (.fault f) s' := by
  have hcnt : ([] : List Byte).length < toSizeT (recvRet none) := by decide
  obtain ⟨f, hf⟩ := append_of_short build b hcnt
  refine ⟨f, ?_⟩
  rw [bodyLoop, Reader.bind_of_ok hrecv]
  exact Reader.bind_of_error (fill_of_error hf s')

theorem bodyLoop_closed (build : Build) {wZipedSize fuel : ℕ} (b : CByteBuffer)
    {s s' : CallState} (hrecv : recv wZipedSize s = .ok (some []) s') :
    bodyLoop build wZipedSize (fuel + 1) b s = .ok (0, b) s' := by
  have happend : append build [] (toSizeT (recvRet (some []))) b = .ok () b := rfl
  rw [bodyLoop, Reader.bind_of_ok hrecv]
  exact Reader.bind_of_ok (fill_of_ok happend s')

theorem bodyLoop_full (build : Build) {wZipedSize fuel : ℕ} {got chunk : List Byte}
    {s s' : CallState} (hrecv : recv wZipedSize s = .ok (some chunk) s')
    (hlen : chunk.length < addressSpace) (hroom : ¬ Room build got.length chunk.length) :
    ∃ f, bodyLoop build wZipedSize (fuel + 1) (fresh.extend got) s = .error (.fault f) s' := by
  have hcnt : toSizeT (recvRet (some chunk)) = chunk.length :=
    toSizeT_natCast (by simp only [sizeTRange, addressSpace] at *; omega)
  obtain ⟨f, hf⟩ := append_of_not_room (extend_mWritePos fresh got)
    (by rwa [extend_size, fresh_size, Nat.zero_add])
  refine ⟨f, ?_⟩
  rw [bodyLoop, Reader.bind_of_ok hrecv, hcnt]
  exact Reader.bind_of_error (fill_of_error hf s')

def EndsAs (s : CallState) :
    Ending → EStateM.Result Stop CallState (ℤ × CByteBuffer) → Prop
  | .body bs rest, r => ∃ i, i ≠ 0 ∧ r = .ok (i, fresh.extend bs) (facing s rest)
  | .closed rest, r => ∃ b, r = .ok (0, b) (facing s rest)
  | .broken, r => ∃ f t, r = .error (.fault f) t
  | .waiting, r => ∃ t, r = .error .blocked t

/-- The results are such as `recv` can return where it is asked for `len` bytes. -/
def Possible (len : ℕ) (results : List Received) : Prop :=
  ∀ c, some c ∈ results → c.length ≤ len

instance possibleDecidable (len : ℕ) (results : List Received) :
    Decidable (Possible len results) :=
  decidable_of_iff (∀ r ∈ results, (r.getD []).length ≤ len) (by
    constructor
    · intro h c hc
      exact h (some c) hc
    · intro h r hr
      cases r with
      | none => exact Nat.zero_le len
      | some c => exact h c hr)

theorem bodyLoop_follows (build : Build) {wZipedSize : ℕ} (hz : wZipedSize ≤ 65535)
    {s : CallState} {rs : List Received}
    (hrs : Possible wZipedSize rs) {fuel : ℕ} {got : List Byte}
    (hfuel : (incoming rs).length < fuel) :
    EndsAs s (gather build wZipedSize got rs)
      (bodyLoop build wZipedSize fuel (fresh.extend got) (facing s rs)) := by
  induction rs generalizing fuel got with
  | nil =>
    obtain ⟨fuel, rfl⟩ := Nat.exists_eq_add_of_lt hfuel
    rw [gather]
    split_ifs with hzero
    · subst hzero
      exact ⟨_, bodyLoop_closed build (fresh.extend got) rfl⟩
    · exact ⟨_, Reader.bind_of_error (recv_facing_nil (Nat.pos_of_ne_zero hzero))⟩
  | cons r rs ih =>
    obtain ⟨fuel, rfl⟩ := Nat.exists_eq_add_of_lt (Nat.zero_lt_of_lt hfuel)
    have hrecv := @recv_facing s wZipedSize r rs fun c hc => hrs c (by simp [hc])
    cases r with
    | none =>
      obtain ⟨f, hf⟩ := bodyLoop_lost build (fresh.extend got) hrecv
      exact ⟨f, _, hf⟩
    | some c =>
      have hc : c.length ≤ wZipedSize := hrs c (by simp)
      rw [gather]
      split_ifs with hnil hroom hfull
      · subst hnil
        exact ⟨_, bodyLoop_closed build (fresh.extend got) hrecv⟩
      · -- the announced size is reached
        have hpos := List.length_pos_iff.mpr hnil
        refine ⟨c.length, by omega, ?_⟩
        rw [bodyLoop_succ hrecv hnil hroom, if_neg (by simpa using hfull)]
      · rw [bodyLoop_succ hrecv hnil hroom, if_pos hfull]
        apply ih (fun d hd => hrs d (by simp [hd]))
        have hpos := List.length_pos_iff.mpr hnil
        simp only [incoming, List.flatMap_cons, Option.getD_some, List.length_append] at hfuel ⊢
        omega
      · obtain ⟨f, hf⟩ := bodyLoop_full build hrecv (by rw [addressSpace]; omega) hroom
        exact ⟨f, _, hf⟩

/-- The results begin with these chunks, none of them empty. -/
structure Begins (results : List Received) (chunks : List (List Byte)) (rest : List Received) :
    Prop where
  eq : results = chunks.map some ++ rest
  ne : ∀ c ∈ chunks, c ≠ []

theorem Begins.cons {results rest : List Received} {chunks : List (List Byte)} {c : List Byte}
    (hc : c ≠ []) (h : Begins results chunks rest) :
    Begins (some c :: results) (c :: chunks) rest where
  eq := by rw [h.eq, List.map_cons, List.cons_append]
  ne := by
    intro d hd
    rcases List.mem_cons.mp hd with rfl | hd
    · exact hc
    · exact h.ne d hd

theorem gather_of_begins (build : Build) {wZipedSize : ℕ} (hz : wZipedSize ≤ 65535)
    {results rest : List Received} {chunks : List (List Byte)} {got : List Byte}
    (h : Begins results chunks rest) (hgot : got.length ≠ wZipedSize)
    (hsum : got.length + chunks.flatten.length = wZipedSize) :
    gather build wZipedSize got results = .body (got ++ chunks.flatten) rest := by
  induction chunks generalizing results got with
  | nil => exact absurd hsum hgot
  | cons c chunks ih =>
    obtain ⟨rfl, hne⟩ := h
    have hc : c ≠ [] := hne c (by simp)
    rw [List.flatten_cons, List.length_append] at hsum
    rw [List.map_cons, List.cons_append, gather, if_neg hc,
      if_pos (room_of_le build (by omega)), List.flatten_cons, ← List.append_assoc]
    split_ifs with hfull
    · -- all of the body has come, so the other chunks would be empty
      have hrest : chunks = [] := by
        by_contra hchunks
        have hpos := length_le_flatten fun d hd => hne d (List.mem_cons_of_mem c hd)
        have := List.length_pos_iff.mpr hchunks
        omega
      subst hrest
      simp
    · exact ih ⟨rfl, fun d hd => hne d (List.mem_cons_of_mem c hd)⟩
        (by rwa [List.length_append]) (by rw [List.length_append]; omega)

theorem begins_of_gather {build : Build} {wZipedSize : ℕ} {results rest : List Received}
    {got bs : List Byte} (h : gather build wZipedSize got results = .body bs rest) :
    ∃ chunks, Begins results chunks rest ∧ chunks ≠ [] ∧ bs = got ++ chunks.flatten ∧
      bs.length = wZipedSize := by
  induction results generalizing got with
  | nil =>
    rw [gather] at h
    split_ifs at h
  | cons r results ih =>
    cases r with
    | none => cases h
    | some c =>
      rw [gather] at h
      split_ifs at h with hnil hroom hfull
      · cases h
        refine ⟨[c], ⟨rfl, by simpa using hnil⟩, by simp, by simp, ?_⟩
        rw [List.length_append, hfull]
      · obtain ⟨chunks, hbegins, -, rfl, hlen⟩ := ih h
        exact ⟨c :: chunks, hbegins.cons hnil, by simp, by simp, hlen⟩

/-- As long as the results are chunks, and no first few of them make up the body with the
`had` bytes that were there, the next one is not `SOCKET_ERROR` and finds room in the buffer. -/
def UnbrokenFrom (build : Build) (wZipedSize had : ℕ) (results : List Received) : Prop :=
  ∀ chunks r rest, Begins results chunks (r :: rest) →
    (∀ pre, pre <+: chunks → pre ≠ [] → had + pre.flatten.length ≠ wZipedSize) →
    ∃ c, r = some c ∧ Room build (had + chunks.flatten.length) c.length

/-- No `recv` of the body loop fails, and none finds the buffer full. -/
def Unbroken (build : Build) (wZipedSize : ℕ) (results : List Received) : Prop :=
  UnbrokenFrom build wZipedSize 0 results

theorem unbrokenFrom_cons {build : Build} {wZipedSize had : ℕ} {c : List Byte}
    {results : List Received} (hc : c ≠ []) (hroom : Room build had c.length) :
    UnbrokenFrom build wZipedSize had (some c :: results) ↔
      (had + c.length ≠ wZipedSize → UnbrokenFrom build wZipedSize (had + c.length) results) := by
  constructor
  -- read `c` as one more chunk in front
  · intro h hmore chunks r rest hbegins hpre
    have h' := h (c :: chunks) r rest (hbegins.cons hc) (by
      intro pre hp hpre_ne
      rcases List.prefix_cons_iff.mp hp with rfl | ⟨pre', rfl, hp'⟩
      · exact absurd rfl hpre_ne
      · rw [List.flatten_cons, List.length_append, ← Nat.add_assoc]
        by_cases hnil : pre' = []
        · simpa [hnil] using hmore
        · exact hpre pre' hp' hnil)
    rwa [List.flatten_cons, List.length_append, ← Nat.add_assoc] at h'
  · intro h chunks r rest hbegins hpre
    cases chunks with
    | nil =>
      obtain ⟨rfl, -⟩ := List.cons.inj hbegins.eq
      exact ⟨c, rfl, by simpa using hroom⟩
    | cons d chunks =>
      obtain ⟨hd, hresults⟩ := List.cons.inj hbegins.eq
      obtain rfl := Option.some.inj hd
      have hmore : had + c.length ≠ wZipedSize := by
        simpa using hpre [c] (List.prefix_append [c] chunks) (by simp)
      have h' := h hmore chunks r rest
        ⟨hresults, fun e he => hbegins.ne e (List.mem_cons_of_mem c he)⟩ (by
        intro pre hp _
        have := hpre (c :: pre) ((List.prefix_cons_inj c).mpr hp) (by simp)
        rwa [List.flatten_cons, List.length_append, ← Nat.add_assoc] at this)
      rwa [List.flatten_cons, List.length_append, ← Nat.add_assoc]

theorem UnbrokenFrom.head {build : Build} {wZipedSize had : ℕ} {r : Received}
    {results : List Received} (h : UnbrokenFrom build wZipedSize had (r :: results)) :
    ∃ c, r = some c ∧ Room build had c.length := by
  have hfirst := h [] r results ⟨rfl, by simp⟩ (by simp)
  simpa using hfirst

theorem unbrokenFrom_closed (build : Build) (wZipedSize had : ℕ) (results : List Received) :
    UnbrokenFrom build wZipedSize had (some [] :: results) := by
  intro chunks r rest hbegins _
  cases chunks with
  | nil =>
    obtain ⟨rfl, -⟩ := List.cons.inj hbegins.eq
    exact ⟨[], rfl, Or.inl rfl⟩
  | cons d chunks =>
    obtain ⟨hd, -⟩ := List.cons.inj hbegins.eq
    obtain rfl := Option.some.inj hd
    exact absurd rfl (hbegins.ne [] (by simp))

theorem gather_ne_broken_iff (build : Build) {wZipedSize : ℕ} {results : List Received}
    {got : List Byte} :
    gather build wZipedSize got results ≠ .broken ↔
      UnbrokenFrom build wZipedSize got.length results := by
  induction results generalizing got with
  | nil =>
    constructor
    · intro _ chunks r rest hbegins
      have hlen := congrArg List.length hbegins.eq
      simp at hlen
    · intro _ h
      rw [gather] at h
      split_ifs at h
  | cons r results ih =>
    cases r with
    | none =>
      -- the first result is the error
      constructor
      · intro h
        exact absurd rfl h
      · intro h
        obtain ⟨c, hc, -⟩ := h.head
        cases hc
    | some c =>
      rw [gather]
      split_ifs with hnil hroom hfull
      · subst hnil
        simp only [ne_eq, reduceCtorEq, not_false_eq_true, true_iff]
        apply unbrokenFrom_closed
      · rw [unbrokenFrom_cons hnil hroom]
        simp [hfull]
      · rw [unbrokenFrom_cons hnil hroom, ih, List.length_append]
        simp [hfull]
      · -- the first chunk finds the buffer full
        constructor
        · intro h
          exact absurd rfl h
        · intro h
          obtain ⟨d, hd, hroom'⟩ := h.head
          obtain rfl := Option.some.inj hd
          exact absurd hroom' hroom

theorem unbroken_iff {build : Build} {wZipedSize : ℕ} {results : List Received} :
    Unbroken build wZipedSize results ↔ gather build wZipedSize [] results ≠ .broken :=
  (@gather_ne_broken_iff build wZipedSize results []).symm

theorem empty_mem_of_gather_closed {build : Build} {wZipedSize : ℕ} (hz : 0 < wZipedSize)
    {results rest : List Received} {got : List Byte}
    (h : gather build wZipedSize got results = .closed rest) : some [] ∈ results := by
  induction results generalizing got with
  | nil =>
    rw [gather, if_neg hz.ne'] at h
    cases h
  | cons r results ih =>
    cases r with
    | none => cases h
    | some c =>
      rw [gather] at h
      split_ifs at h with hnil hroom hfull
      · rw [hnil]
        exact List.mem_cons_self
      · exact List.mem_cons_of_mem _ (ih h)

theorem incoming_map_some (chunks : List (List Byte)) :
    incoming (chunks.map some) = chunks.flatten := by
  simp [incoming, List.flatMap_map]

theorem moveOf_some {c : List Byte} (hc : c ≠ []) : moveOf (some c) = .deliver c.length := by
  cases c with
  | nil => exact absurd rfl hc
  | cons b bs => rfl

theorem map_moveOf {chunks : List (List Byte)} (hne : ∀ c ∈ chunks, c ≠ []) :
    (chunks.map some).map moveOf = chunks.map fun c => .deliver c.length := by
  rw [List.map_map]
  apply List.map_congr_left
  intro c hc
  exact moveOf_some (hne c hc)

theorem Begins.eq_take {chunks pre : List (List Byte)} {rest : List Received}
    (h : Begins (chunks.map some) pre rest) : pre = chunks.take pre.length := by
  have htake := congrArg (List.take pre.length) h.eq
  rw [List.take_left' (List.length_map _), ← List.map_take] at htake
  exact (List.map_injective_iff.mpr (Option.some_injective _) htake).symm

/-- Whatever the cut, the loop takes the announced number of bytes off the stream, in no more
rounds than there are bytes, and leaves what follows on the socket, exactly if one of the
`recv` results ends where the body does. -/
theorem bodyLoop_stops_iff (build : Build) {wZipedSize : ℕ} (hz : 0 < wZipedSize)
    (hz' : wZipedSize ≤ 65535) (s : CallState) (chunks : List (List Byte))
    (hne : ∀ c ∈ chunks, c ≠ []) (hle : ∀ c ∈ chunks, c.length ≤ wZipedSize)
    (hlen : wZipedSize ≤ chunks.flatten.length) :
    (∀ fuel, wZipedSize ≤ fuel → ∃ i t,
      bodyLoop build wZipedSize fuel fresh (facing s (chunks.map some)) =
        .ok (i, fresh.extend (chunks.flatten.take wZipedSize)) t ∧
      t.socket.inbox = chunks.flatten.drop wZipedSize) ↔
    ∃ k, (chunks.take k).flatten.length = wZipedSize := by
  constructor
  · intro h
    obtain ⟨i, t, hloop, -⟩ := h (chunks.flatten.length + 1) (by omega)
    have hpossible : Possible wZipedSize (chunks.map some) := by
      intro c hc
      exact hle c (by simpa using hc)
    have hends := @bodyLoop_follows build wZipedSize hz' s (chunks.map some) hpossible
      (chunks.flatten.length + 1) [] (by rw [incoming_map_some]; omega)
    rw [extend_nil rfl, hloop] at hends
    -- the loop returns, so the results make it end with a body
    cases hgather : gather build wZipedSize [] (chunks.map some) with
    | body bs rest =>
      obtain ⟨pre, hbegins, -, rfl, hbs⟩ := begins_of_gather hgather
      exact ⟨pre.length, by rw [← hbegins.eq_take]; simpa using hbs⟩
    | closed rest =>
      have hmem := empty_mem_of_gather_closed hz hgather
      exact absurd rfl (hne [] (by simpa using hmem))
    | broken =>
      rw [hgather] at hends
      obtain ⟨f, t', h'⟩ := hends
      cases h'
    | waiting =>
      rw [hgather] at hends
      obtain ⟨t', h'⟩ := hends
      cases h'
  · rintro ⟨k, hk⟩ fuel hfuel
    have hne' : ∀ c ∈ chunks.take k, c ≠ [] := fun c hc => hne c (List.mem_of_mem_take hc)
    have hsplit : chunks.flatten = (chunks.take k).flatten ++ (chunks.drop k).flatten := by
      rw [← List.flatten_append, List.take_append_drop]
    have hmoves : (chunks.map some).map moveOf = ((chunks.take k).map fun c => .deliver c.length) ++
        (chunks.drop k).map fun c => .deliver c.length := by
      rw [map_moveOf hne, ← List.map_append, List.take_append_drop]
    have hcount := length_le_flatten hne'
    have hsome : chunks.take k ≠ [] := by
      intro h0
      rw [h0] at hk
      exact absurd hk hz.ne
    obtain ⟨i, -, hloop⟩ := bodyLoop_chunks build hz' (chunks.drop k).flatten
      ((chunks.drop k).map fun c : List Byte => .deliver c.length) (chunks.take k) fuel []
      (facing s (chunks.map some)) hne' hsome ((incoming_map_some chunks).trans hsplit) hmoves
      (by rw [List.length_nil, hk, Nat.zero_add]) (by omega)
    rw [extend_nil rfl, List.nil_append] at hloop
    have htake : chunks.flatten.take wZipedSize = (chunks.take k).flatten := by
      rw [hsplit, List.take_left' hk]
    have hdrop : chunks.flatten.drop wZipedSize = (chunks.drop k).flatten := by
      rw [hsplit, List.drop_left' hk]
    rw [htake, hdrop]
    exact ⟨i, _, hloop, rfl⟩

def idle : CallState := ⟨⟨[], [], none⟩, [], 0, []⟩

theorem bodyLoop_stops_sample :
    ∃ i t, bodyLoop .debug 3 3 fresh (facing idle [some [1, 2], some [3], some [4, 5]]) =
        .ok (i, fresh.extend [1, 2, 3]) t ∧ t.socket.inbox = [4, 5] :=
  (bodyLoop_stops_iff .debug (show 0 < 3 by decide) (by decide) idle [[1, 2], [3], [4, 5]]
    (by decide) (by decide) (by decide)).mpr ⟨2, rfl⟩ 3 le_rfl

/-- A body of three bytes and the first byte of the next frame, in two pieces of two: the
second piece takes the byte that belongs to the next frame, and the loop goes on waiting. -/
theorem overshoot_never_stops :
    ∃ t, bodyLoop .release 3 5 fresh (facing idle [some [1, 2], some [3, 4]]) =
        .error .blocked t ∧ t.socket.inbox = [] :=
  ⟨_, rfl, rfl⟩

/-- The rounds of the body loop: the buffer before each of them, and what its `recv`
returned. -/
def bodyRounds (build : Build) (wZipedSize : ℕ) :
    ℕ → CByteBuffer → CallState → List (CByteBuffer × Received)
  | 0, _, _ => []
  | fuel + 1, bfRecvedBody, s =>
    match recv wZipedSize s with
    | .error _ _ => []
    | .ok chunk s' =>
      (bfRecvedBody, chunk) ::
        match append build (chunk.getD []) (toSizeT (recvRet chunk)) bfRecvedBody with
        | .error _ _ => []
        | .ok _ b =>
          if recvRet chunk ≠ 0 ∧ b.size ≠ wZipedSize then bodyRounds build wZipedSize fuel b s'
          else []

/-- `append` adds exactly the bytes that were received, and its sum does not wrap. -/
def AddsReceived (build : Build) (p : CByteBuffer × Received) : Prop :=
  append build (p.2.getD []) (toSizeT (recvRet p.2)) p.1 = .ok () (p.1.extend (p.2.getD [])) ∧
    p.1.mWritePos + toSizeT (recvRet p.2) < sizeTRange

theorem not_addsReceived_none (build : Build) (b : CByteBuffer) :
    ¬ AddsReceived build (b, none) := by
  rintro ⟨h, -⟩
  obtain ⟨f, hf⟩ := append_of_short build b
    (show ([] : List Byte).length < toSizeT (recvRet none) by decide)
  exact absurd (hf.symm.trans h) (by simp)

theorem addsReceived_iff_room (build : Build) (got : List Byte) {c : List Byte}
    (hgot : got.length < addressSpace) (hc : c.length ≤ 65535) :
    AddsReceived build (fresh.extend got, some c) ↔ Room build got.length c.length := by
  have hcnt : toSizeT (recvRet (some c)) = c.length :=
    toSizeT_natCast (by simp only [sizeTRange]; omega)
  have hsize : (fresh.extend got).size = got.length := by
    rw [extend_size, fresh_size, Nat.zero_add]
  simp only [AddsReceived, hcnt, Option.getD_some]
  constructor
  · rintro ⟨h, -⟩
    by_contra hroom
    obtain ⟨f, hf⟩ := append_of_not_room (extend_mWritePos fresh got) (by rwa [hsize])
    exact absurd (hf.symm.trans h) (by simp)
  · intro hroom
    refine ⟨append_of_room (extend_mWritePos fresh got) (by rwa [hsize]), ?_⟩
    rw [extend_mWritePos, hsize]
    simp only [sizeTRange, addressSpace] at *
    omega

theorem bodyRounds_succ {build : Build} {wZipedSize fuel : ℕ} {got chunk : List Byte}
    {s s' : CallState} (hrecv : recv wZipedSize s = .ok (some chunk) s') (hne : chunk ≠ [])
    (hroom : Room build got.length chunk.length) :
    bodyRounds build wZipedSize (fuel + 1) (fresh.extend got) s =
      (fresh.extend got, some chunk) ::
        if got.length + chunk.length ≠ wZipedSize then
          bodyRounds build wZipedSize fuel (fresh.extend (got ++ chunk)) s'
        else [] := by
  simp only [bodyRounds, hrecv, Option.getD_some, append_chunk hroom, extend_size, fresh_size,
    Nat.zero_add, List.length_append, ne_eq, recvRet_ne_zero hne, not_false_eq_true, true_and]

theorem bodyRounds_closed {build : Build} {wZipedSize fuel : ℕ} {b : CByteBuffer}
    {s s' : CallState} (hrecv : recv wZipedSize s = .ok (some []) s') :
    bodyRounds build wZipedSize (fuel + 1) b s = [(b, some [])] := by
  have happend : append build [] (toSizeT (recvRet (some []))) b = .ok () b := rfl
  simp only [bodyRounds, hrecv, Option.getD_some, happend]
  rfl

theorem addsReceived_rounds_iff (build : Build) {wZipedSize : ℕ} (hz : 0 < wZipedSize)
    (hz' : wZipedSize ≤ 65535) {s : CallState} {rs : List Received}
    (hrs : Possible wZipedSize rs) {fuel : ℕ} {got : List Byte}
    (hgot : got.length < addressSpace) (hfuel : (incoming rs).length < fuel) :
    (∀ p ∈ bodyRounds build wZipedSize fuel (fresh.extend got) (facing s rs),
      AddsReceived build p) ↔ gather build wZipedSize got rs ≠ .broken := by
  induction rs generalizing fuel got with
  | nil =>
    obtain ⟨fuel, rfl⟩ := Nat.exists_eq_add_of_lt hfuel
    simp [bodyRounds, recv_facing_nil hz, gather, hz.ne']
  | cons r rs ih =>
    obtain ⟨fuel, rfl⟩ := Nat.exists_eq_add_of_lt (Nat.zero_lt_of_lt hfuel)
    have hrecv := @recv_facing s wZipedSize r rs fun c hc => hrs c (by simp [hc])
    cases r with
    | none =>
      -- this round appends -1 bytes, and `gather` ends as broken
      have hnone := not_addsReceived_none build (fresh.extend got)
      constructor
      · intro h
        refine absurd (h (fresh.extend got, none) ?_) hnone
        simp [bodyRounds, hrecv]
      · intro h
        exact absurd rfl h
    | some c =>
      have hc : c.length ≤ wZipedSize := hrs c (by simp)
      have hiff := addsReceived_iff_room build got hgot (hc.trans hz')
      rw [gather]
      split_ifs with hnil hroom hfull
      · subst hnil
        rw [bodyRounds_closed hrecv]
        simpa using hiff.mpr (Or.inl rfl)
      · rw [bodyRounds_succ hrecv hnil hroom, if_neg (by simpa using hfull)]
        simpa using hiff.mpr hroom
      · rw [bodyRounds_succ hrecv hnil hroom, if_pos hfull, List.forall_mem_cons]
        have hpos := List.length_pos_iff.mpr hnil
        have hspace := (hroom.resolve_left hpos.ne').2
        have hrest := @ih (fun d hd => hrs d (by simp [hd])) (0 + fuel) (got ++ c)
          (by rwa [List.length_append]) (by
            simp only [incoming, List.flatMap_cons, Option.getD_some, List.length_append] at hfuel ⊢
            omega)
        rw [hrest]
        exact and_iff_right (hiff.mpr hroom)
      · constructor
        · intro h
          refine absurd (hiff.mp (h (fresh.extend got, some c) ?_)) hroom
          simp [bodyRounds, hrecv]
        · intro h
          exact absurd rfl h

end TdxHq.Reception
