import TdxHq.SecurityBars

namespace TdxHq.Session

open CByteBuffer Request Bars SecurityBars
open Connection (Code Handle connectNum)

/-- One call: the request, the server's answer, how TCP cuts it, and the caller's buffer. -/
structure Exchange where
  call : BarsCall
  frame : Frame
  moves : List Move
  szResult : List Char

inductive Outcome
  | returned (code : Code) (Count : ℕ) (szResult : List Char) (unread : List Byte)
  | stopped (why : Stop)
  deriving DecidableEq

section Run

variable {D : Type} (env : Env D) (skHQ : ℕ → Option Handle) (connectID : ℕ)

/-- The call with `unread` left on the socket by the calls before it. -/
def exchange (unread : List Byte) (e : Exchange) : Outcome :=
  let socket : Socket := ⟨unread ++ e.frame.bytes, e.moves, none⟩
  match getSecurityBars env skHQ connectID e.call ⟨socket, [], e.call.Count, e.szResult⟩ with
  | .ok code s => .returned code s.Count s.szResult s.socket.inbox
  | .error why _ => .stopped why

/-- The outcomes of the calls one after the other; a call that does not return is the last. -/
def session : List Byte → List Exchange → List Outcome
  | _, [] => []
  | unread, e :: es =>
    let o := exchange env skHQ connectID unread e
    match o with
    | .returned _ _ _ unread => o :: session unread es
    | .stopped _ => [o]

/-- The outcome that is due: the table of the call's own frame, and nothing left over. -/
def answer (e : Exchange) : Outcome :=
  match e.frame.table env e.call.Category with
  | some (n, text) => .returned .ok n (text ++ e.szResult.drop text.length) []
  | none => .stopped .blocked

/-- The server does its part: the frame holds a table the caller has room for, and is
delivered in pieces of some size. -/
structure Answered (e : Exchange) : Prop where
  request : 22 + e.call.Zqdm.strlen ≤ limit env.build
  delivers : Delivers e.moves
  table : ∃ n text, e.frame.table env e.call.Category = some (n, text) ∧
    text.length ≤ e.szResult.length

/-- TCP does not cut the header: the first `recv` may return its 16 bytes. -/
def HeadWhole : List Move → Prop
  | .deliver k :: _ => 0x10 ≤ k
  | _ => True

theorem headWhole_deliver {k : ℕ} {moves : List Move} :
    HeadWhole (.deliver k :: moves) ↔ 0x10 ≤ k := Iff.rfl

theorem pick_head_of_whole {moves : List Move} (hd : Delivers moves) (h : HeadWhole moves) :
    pick moves 0x10 = 0x10 := by
  cases moves with
  | nil => rfl
  | cons m moves =>
    obtain ⟨k, rfl⟩ := hd m (by simp)
    rw [headWhole_deliver] at h
    rw [pick]
    omega

theorem pick_head_of_cut {moves : List Move} (hd : Delivers moves) (h : ¬ HeadWhole moves) :
    pick moves 0x10 < 0x10 := by
  cases moves with
  | nil => exact absurd trivial h
  | cons m moves =>
    obtain ⟨k, rfl⟩ := hd m (by simp)
    rw [headWhole_deliver] at h
    rw [pick]
    omega

variable {env skHQ connectID}

theorem session_cons_of_answer {e : Exchange} {es : List Exchange} (ha : Answered env e)
    (h : exchange env skHQ connectID [] e = answer env e) :
    session env skHQ connectID [] (e :: es) = answer env e :: session env skHQ connectID [] es := by
  obtain ⟨n, text, htable, -⟩ := ha.table
  simp only [session, h, answer, htable]

theorem exchange_of_session_eq {e : Exchange} {es : List Exchange} {o : Outcome}
    {os : List Outcome} (h : session env skHQ connectID [] (e :: es) = o :: os) :
    exchange env skHQ connectID [] e = o := by
  simp only [session] at h
  split at h
  · exact (List.cons.inj h).1
  · exact (List.cons.inj h).1

section Connected

variable (hid : connectID < connectNum) (hopen : skHQ connectID ≠ none)

include hid hopen

theorem exchange_of_headWhole {e : Exchange} (ha : Answered env e) (hhead : HeadWhole e.moves) :
    exchange env skHQ connectID [] e = answer env e := by
  obtain ⟨n, text, htable, hroom⟩ := ha.table
  let s : CallState :=
    ⟨⟨e.frame.bytes, e.moves, none⟩, [requestBytes e.call], e.call.Count, e.szResult⟩
  obtain ⟨moves, hreceive⟩ := receive_of_frame (s := s) htable ha.delivers rfl
    (pick_head_of_whole ha.delivers hhead) hroom
  have hcall : getSecurityBars env skHQ connectID e.call
      ⟨⟨e.frame.bytes, e.moves, none⟩, [], e.call.Count, e.szResult⟩ = _ :=
    (getSecurityBars_of_sent hid hopen rfl ha.request).trans hreceive
  simp only [exchange, List.nil_append, hcall, answer, htable]
  rfl

/-- A call whose header is cut gives up and leaves the rest of its frame to the next call. -/
theorem exchange_of_cut_head {e : Exchange} (ha : Answered env e) (hcut : ¬ HeadWhole e.moves) :
    exchange env skHQ connectID [] e = .returned .recv e.call.Count e.szResult
      (e.frame.bytes.drop (pick e.moves 0x10)) := by
  let s : CallState :=
    ⟨⟨e.frame.bytes, e.moves, none⟩, [requestBytes e.call], e.call.Count, e.szResult⟩
  have hreceive : receive env e.call.Category s = _ :=
    receive_of_cut_head ha.delivers e.frame.bytes_ne (pick_head_of_cut ha.delivers hcut)
  have hcall : getSecurityBars env skHQ connectID e.call
      ⟨⟨e.frame.bytes, e.moves, none⟩, [], e.call.Count, e.szResult⟩ = _ :=
    (getSecurityBars_of_sent hid hopen rfl ha.request).trans hreceive
  simp only [exchange, List.nil_append, hcall]
  rfl

theorem exchange_eq_answer_iff {e : Exchange} (ha : Answered env e) :
    exchange env skHQ connectID [] e = answer env e ↔ HeadWhole e.moves := by
  constructor
  · intro h
    by_contra hcut
    obtain ⟨n, text, htable, -⟩ := ha.table
    simp only [exchange_of_cut_head hid hopen ha hcut, answer, htable] at h
    cases h
  · exact exchange_of_headWhole hid hopen ha

/-- Every call of a session gets its own frame, whole and alone, exactly if TCP cuts none of
the headers; how it cuts the bodies does not matter. -/
theorem session_eq_answers_iff (es : List Exchange) (ha : ∀ e ∈ es, Answered env e) :
    session env skHQ connectID [] es = es.map (answer env) ↔ ∀ e ∈ es, HeadWhole e.moves := by
  induction es with
  | nil => simp [session]
  | cons e es ih =>
    have hae := ha e (by simp)
    have ihs := ih fun e' he' => ha e' (by simp [he'])
    have hiff := exchange_eq_answer_iff hid hopen hae
    rw [List.forall_mem_cons, List.map_cons]
    constructor
    · intro h
      -- the first call had its answer, so the second starts on an empty socket
      have hfirst := exchange_of_session_eq h
      rw [session_cons_of_answer hae hfirst] at h
      exact ⟨hiff.mp hfirst, ihs.mp (List.cons.inj h).2⟩
    · rintro ⟨hhead, hrest⟩
      rw [session_cons_of_answer hae (hiff.mpr hhead), ihs.mpr hrest]

end Connected

end Run

def sampleExchange (moves : List Move) : Exchange :=
  ⟨askFrom 0, sampleFrame, moves, List.replicate 300 ' '⟩

theorem sampleExchange_answered {moves : List Move} (hd : Delivers moves) :
    Answered sampleEnv (sampleExchange moves) where
  request := show 22 + (askFrom 0).Zqdm.strlen ≤ limit .release by decide
  delivers := hd
  table := by
    have htable : sampleFrame.table sampleEnv 9 = some (2, rows Volume.exact 9 sampleBars) := by
      decide +kernel
    have hroom : (rows Volume.exact 9 sampleBars).length ≤ 300 := by decide +kernel
    refine ⟨2, _, htable, hroom.trans ?_⟩
    rw [sampleExchange, List.length_replicate]

theorem delivers_sizes (sizes : List ℕ) : Delivers (sizes.map .deliver) := by
  intro m hm
  obtain ⟨k, -, rfl⟩ := List.mem_map.mp hm
  exact ⟨k, rfl⟩

/-- Two calls whose bodies come in different pieces. -/
theorem session_sample :
    session sampleEnv (fun _ => some 7) 0 []
        [sampleExchange ([16, 1, 20].map .deliver), sampleExchange ([40, 7].map .deliver)] =
      [sampleExchange ([16, 1, 20].map .deliver), sampleExchange ([40, 7].map .deliver)].map
        (answer sampleEnv) := by
  refine (session_eq_answers_iff (by decide) (by simp) _ ?_).mpr ?_
  · simp only [List.forall_mem_cons]
    exact ⟨sampleExchange_answered (delivers_sizes _), sampleExchange_answered (delivers_sizes _),
      by simp⟩
  · simp only [List.forall_mem_cons]
    exact ⟨show 0x10 ≤ 16 by decide, show 0x10 ≤ 40 by decide, by simp⟩

/-- A header that comes as eight bytes and eight more makes the call fail. -/
theorem cut_head_not_answered :
    ¬ ∀ es : List Exchange, (∀ e ∈ es, Answered sampleEnv e) →
      session sampleEnv (fun _ => some 7) 0 [] es = es.map (answer sampleEnv) := by
  intro h
  have ha := sampleExchange_answered (delivers_sizes [8, 8])
  have hfirst := exchange_of_session_eq
    (h [sampleExchange ([8, 8].map .deliver)] (by simpa using ha))
  have hwhole := (exchange_eq_answer_iff (by decide) (by simp) ha).mp hfirst
  exact absurd hwhole (show ¬ 0x10 ≤ 8 by decide)

end TdxHq.Session
