import TdxHq.Connection

namespace TdxHq.Connection
open Runs

/-- Id `i` was returned by a `TDXHQ_Connect` and not passed to `TDXHQ_DisConnect` since. -/
def Held (events : List Event) (i : ℕ) : Prop :=
  ∃ pre post, events = pre ++ .returned i :: post ∧ .released i ∉ post

theorem not_held_nil (i : ℕ) : ¬ Held [] i := by
  rintro ⟨pre, post, h, -⟩
  simp at h

theorem held_append_returned {events : List Event} {ret : ℤ} {i : ℕ} :
    Held (events ++ [.returned ret]) i ↔ Held events i ∨ ret = i := by
  constructor
  · rintro ⟨pre, post, h, hpost⟩
    rcases concat_eq_split h with ⟨-, -, hlast⟩ | ⟨post, rfl, hpre⟩
    · injection hlast with hret
      exact Or.inr hret
    · refine Or.inl ⟨pre, post, hpre, fun hmem => hpost ?_⟩
      simp [hmem]
  · rintro (⟨pre, post, rfl, hpost⟩ | rfl)
    · exact ⟨pre, post ++ [.returned ret], by simp, by simpa using hpost⟩
    · exact ⟨events, [], rfl, by simp⟩

theorem held_append_released {events : List Event} {j i : ℕ} :
    Held (events ++ [.released j]) i ↔ Held events i ∧ i ≠ j := by
  constructor
  · rintro ⟨pre, post, h, hpost⟩
    rcases concat_eq_split h with ⟨-, -, hlast⟩ | ⟨post, rfl, hpre⟩
    · cases hlast
    · simp only [List.mem_append, List.mem_singleton, not_or] at hpost
      exact ⟨⟨pre, post, hpre, hpost.1⟩, fun hij => hpost.2 (by rw [hij])⟩
  · rintro ⟨⟨pre, post, rfl, hpost⟩, hij⟩
    refine ⟨pre, post ++ [.released j], by simp, ?_⟩
    simpa using ⟨hpost, hij⟩

theorem firstFree_eq_some {skHQ : ℕ → Option Handle} {k i j : ℕ}
    (h : firstFree skHQ k i = some j) : skHQ j = none ∧ j < i + k := by
  induction k generalizing i with
  | zero => simp [firstFree] at h
  | succ k ih =>
    unfold firstFree at h
    split_ifs at h with hi
    · injection h with h
      subst h
      exact ⟨hi, by omega⟩
    · have hj := ih h
      exact ⟨hj.1, by omega⟩

theorem firstFree_eq_none {skHQ : ℕ → Option Handle} {k i : ℕ}
    (h : firstFree skHQ k i = none) {j : ℕ} (hij : i ≤ j) (hj : j < i + k) : skHQ j ≠ none := by
  induction k generalizing i with
  | zero => omega
  | succ k ih =>
    unfold firstFree at h
    split_ifs at h with hi
    by_cases hji : j = i
    · rwa [hji]
    · exact ih h (by omega) (by omega)

def HasFree (s : Shared) : Prop := ∃ i < connectNum, s.skHQ i = none

theorem chosen_of_hasFree {s : Shared} (h : HasFree s) :
    s.skHQ (chosen s) = none ∧ chosen s < connectNum := by
  unfold chosen
  cases hf : firstFree s.skHQ connectNum 0 with
  | none =>
    obtain ⟨i, hi, hnone⟩ := h
    exact absurd hnone (firstFree_eq_none hf (Nat.zero_le i) (by omega))
  | some j =>
    have hj := firstFree_eq_some hf
    exact ⟨hj.1, by simpa using hj.2⟩

/-- With the table full the call falls through with the id of an earlier call. -/
theorem chosen_of_full {s : Shared} (h : ¬ HasFree s) : chosen s = s.nConnectID := by
  unfold chosen
  cases hf : firstFree s.skHQ connectNum 0 with
  | none => rfl
  | some j =>
    have hj := firstFree_eq_some hf
    exact absurd ⟨j, by omega, hj.1⟩ h

def IdInTable (y : System) : Prop := y.shared.nConnectID < connectNum

theorem chosen_lt {s : Shared} (h : s.nConnectID < connectNum) : chosen s < connectNum := by
  by_cases hf : HasFree s
  · exact (chosen_of_hasFree hf).2
  · rwa [chosen_of_full hf]

theorem step_idInTable (y : System) (o : Op) (h : IdInTable y) : IdInTable (step y o) := by
  cases o with
  | connect socket ok => exact chosen_lt h
  | disConnect conID => simpa [IdInTable, step] using h

theorem withSocket_of_full {s : Shared} (hid : s.nConnectID < connectNum) (h : ¬ HasFree s)
    (socket : Option Handle) : withSocket s socket = s.skHQ := by
  refine if_neg fun hnone => h ⟨chosen s, chosen_lt hid, hnone⟩

theorem withSocket_of_hasFree {s : Shared} (h : HasFree s) (socket : Option Handle) :
    withSocket s socket = Function.update s.skHQ (chosen s) socket :=
  if_pos (chosen_of_hasFree h).1

/-- A slot is in use exactly when its id is held. -/
def SlotsHeld (y : System) : Prop :=
  ∀ i < connectNum, y.shared.skHQ i ≠ none ↔ Held y.events i

/-- A `TDXHQ_Connect` that fails leaves the table as it was. -/
def KeepsTable (y : System) (o : Op) : Prop :=
  ∀ socket, o = .connect socket false → (step y o).shared.skHQ = y.shared.skHQ

/-- Where a slot is free, `socket` and `connect` both succeed or both fail. -/
def Agrees (y : System) : Op → Prop
  | .connect socket connects => HasFree y.shared → (socket ≠ none ↔ connects = true)
  | .disConnect _ => True

/-- What `TDXHQ_Connect` returns is an id exactly when `connect` succeeds. -/
theorem connect_ret_eq (s : Shared) (socket : Option Handle) (ok : Bool) (i : ℕ) :
    (connect s socket ok).1 = i ↔ ok = true ∧ chosen s = i := by
  cases ok with
  | true => simp [connect]
  | false =>
    simp only [connect, Bool.false_eq_true, ↓reduceIte, Code.toInt, false_and, iff_false]
    omega

theorem step_connect_slotsHeld (y : System) (hid : IdInTable y) (h : SlotsHeld y)
    (socket : Option Handle) (ok : Bool) :
    SlotsHeld (step y (.connect socket ok)) ↔ Agrees y (.connect socket ok) := by
  have hnew : SlotsHeld (step y (.connect socket ok)) ↔ ∀ i < connectNum,
      withSocket y.shared socket i ≠ none ↔
        Held y.events i ∨ (ok = true ∧ chosen y.shared = i) := by
    simp only [SlotsHeld, step, held_append_returned, connect_ret_eq]
    rfl
  rw [hnew]
  by_cases hf : HasFree y.shared
  · -- the chosen slot was free; it is in use now if there is a socket, held if `connect` succeeded
    obtain ⟨hnone, hlt⟩ := chosen_of_hasFree hf
    have hfree : ¬ Held y.events (chosen y.shared) := fun hh => (h _ hlt).mpr hh hnone
    rw [withSocket_of_hasFree hf]
    constructor
    · intro hall _
      simpa [hfree] using hall _ hlt
    · intro hagree i hi
      by_cases hic : i = chosen y.shared
      · subst hic
        simpa [hfree] using hagree hf
      · rw [Function.update_of_ne hic, h i hi]
        simp [Ne.symm hic]
  · -- the table is full and stays as it is; an id that is returned again was held before
    rw [withSocket_of_full hid hf]
    constructor
    · intro _ hfree
      exact absurd hfree hf
    · intro _ i hi
      have hused : y.shared.skHQ i ≠ none := fun hnone => hf ⟨i, hi, hnone⟩
      exact iff_of_true hused (Or.inl ((h i hi).mp hused))

theorem step_disConnect_slotsHeld (y : System) (h : SlotsHeld y) (conID : Fin connectNum) :
    SlotsHeld (step y (.disConnect conID)) := by
  intro i hi
  simp only [step, disConnect_skHQ, held_append_released]
  by_cases hic : i = conID
  · subst hic
    simp
  · rw [Function.update_of_ne hic, h i hi]
    simp [hic]

theorem step_slotsHeld (y : System) (o : Op) (hid : IdInTable y) (h : SlotsHeld y) :
    SlotsHeld (step y o) ↔ Agrees y o := by
  cases o with
  | connect socket ok => exact step_connect_slotsHeld y hid h socket ok
  | disConnect conID => exact iff_of_true (step_disConnect_slotsHeld y h conID) trivial

theorem keepsTable_of_agrees (y : System) (o : Op) (hid : IdInTable y) (h : Agrees y o) :
    KeepsTable y o := by
  rintro socket rfl
  change withSocket y.shared socket = y.shared.skHQ
  by_cases hf : HasFree y.shared
  · have hsocket : socket = none := by simpa [Agrees, hf] using h
    rw [withSocket_of_hasFree hf, hsocket, ← (chosen_of_hasFree hf).1, Function.update_eq_self]
  · exact withSocket_of_full hid hf socket

/-- A failing `connect` leaves its new socket in the table, so the slots in use are the held
ids exactly in the runs in which no call with a free slot gets a socket and no connection. -/
theorem slotsHeld_iff (rt : AddressParsers) (lines : List (List Char)) (s₀ s : Shared)
    (hinit : init rt (some lines) s₀ = .ok (.ok, s)) (ops : List Op) :
    (Always step SlotsHeld (start s) ops ∧ Meets step KeepsTable (start s) ops) ↔
      Meets step Agrees (start s) ops := by
  obtain ⟨-, -, -, hid, hempty⟩ := init_ok hinit
  have hI : IdInTable (start s) := by
    change s.nConnectID < connectNum
    rw [hid]
    decide
  have h0 : SlotsHeld (start s) := fun i hi =>
    iff_of_false (fun hne => hne (hempty i hi)) (not_held_nil i)
  rw [always_iff_meets step_idInTable step_slotsHeld hI h0, and_iff_left_iff_imp]
  exact Meets.mono step_idInTable keepsTable_of_agrees hI

theorem slotsHeld_sample :
    Always step SlotsHeld (start (sampleShared 1)) [.connect (some 5) true, .disConnect 0] ∧
      Meets step KeepsTable (start (sampleShared 1)) [.connect (some 5) true, .disConnect 0] :=
  (slotsHeld_iff sampleParsers [sampleLine] zeroShared (sampleShared 1) rfl
    [.connect (some 5) true, .disConnect 0]).mpr ⟨fun _ => by simp, trivial, trivial⟩

/-- One refused connection: slot 0 keeps the socket although no id was returned. -/
theorem refused_connect_keeps_slot :
    init sampleParsers (some [sampleLine]) zeroShared = .ok (.ok, sampleShared 1) ∧
      (step (start (sampleShared 1)) (.connect (some 5) false)).events = [.returned (-4)] ∧
      ¬ Always step SlotsHeld (start (sampleShared 1)) [.connect (some 5) false] ∧
      ¬ Meets step KeepsTable (start (sampleShared 1)) [.connect (some 5) false] := by
  have hslot :
      (step (start (sampleShared 1)) (.connect (some 5) false)).shared.skHQ 0 = some 5 := by
    decide
  refine ⟨rfl, rfl, fun h => ?_, fun h => ?_⟩
  · have hheld := (h.2 0 (by decide)).mp (by rw [hslot]; decide)
    rcases held_append_returned.mp hheld with hnil | hret
    · exact not_held_nil 0 hnil
    · exact absurd hret (by decide)
  · have hkeep := congrFun (h.1 (some 5) rfl) 0
    rw [hslot] at hkeep
    exact absurd hkeep (by decide)

/-- Whenever an id is returned it lies in the table and nobody holds it. -/
def Exclusive (events : List Event) : Prop :=
  ∀ pre post (i : ℕ), events = pre ++ .returned i :: post → i < connectNum ∧ ¬ Held pre i

/-- What Winsock promises: `socket` gives a handle that is not open, and `connect` fails on
`INVALID_SOCKET` and on a socket that is already connected. -/
def Winsock (y : System) : Op → Prop
  | .connect socket connects =>
    (∀ h, socket = some h → ∀ i < connectNum, y.shared.skHQ i ≠ some h) ∧
    (connects = true →
      ∃ h, withSocket y.shared socket (chosen y.shared) = some h ∧ h ∉ y.connected)
  | .disConnect _ => True

/-- Held ids stand for connected sockets, and no socket is in two slots. -/
structure Owned (y : System) : Prop where
  id_lt : IdInTable y
  held_connected : ∀ i < connectNum, Held y.events i →
    ∃ h, y.shared.skHQ i = some h ∧ h ∈ y.connected
  distinct : ∀ i < connectNum, ∀ j < connectNum, ∀ h,
    y.shared.skHQ i = some h → y.shared.skHQ j = some h → i = j
  exclusive : Exclusive y.events

theorem withSocket_of_used {s : Shared} {i : ℕ} {h : Handle} (hi : s.skHQ i = some h)
    (socket : Option Handle) : withSocket s socket i = some h := by
  unfold withSocket
  split_ifs with hnone
  · have hne : i ≠ chosen s := by
      rintro rfl
      rw [hi] at hnone
      cases hnone
    rw [Function.update_of_ne hne, hi]
  · exact hi

theorem withSocket_eq_some {s : Shared} {socket : Option Handle} {i : ℕ} {h : Handle}
    (hi : withSocket s socket i = some h) :
    s.skHQ i = some h ∨ (i = chosen s ∧ socket = some h) := by
  unfold withSocket at hi
  split_ifs at hi
  · by_cases hic : i = chosen s
    · subst hic
      rw [Function.update_self] at hi
      exact Or.inr ⟨rfl, hi⟩
    · rw [Function.update_of_ne hic] at hi
      exact Or.inl hi
  · exact Or.inl hi

/-- An id that is held is not returned again: its socket is connected, and the call dials
that same socket, since the slot is not free. -/
theorem not_held_of_connects {y : System} (hy : Owned y) {socket : Option Handle}
    (hw : Winsock y (.connect socket true)) : ¬ Held y.events (chosen y.shared) := by
  intro hheld
  obtain ⟨h, hsk, hconn⟩ := hy.held_connected _ (chosen_lt hy.id_lt) hheld
  obtain ⟨h', hdial, hnot⟩ := hw.2 rfl
  rw [withSocket_of_used hsk] at hdial
  injection hdial with heq
  exact hnot (heq ▸ hconn)

theorem exclusive_append_returned {events : List Event} {ret : ℤ} (h : Exclusive events)
    (hret : ∀ i : ℕ, ret = i → i < connectNum ∧ ¬ Held events i) :
    Exclusive (events ++ [.returned ret]) := by
  intro pre post i heq
  rcases concat_eq_split heq with ⟨-, rfl, hlast⟩ | ⟨post, -, hpre⟩
  · injection hlast with hi
    exact hret i hi
  · exact h pre post i hpre

theorem exclusive_append_released {events : List Event} {j : ℕ} (h : Exclusive events) :
    Exclusive (events ++ [.released j]) := by
  intro pre post i heq
  rcases concat_eq_split heq with ⟨-, -, hlast⟩ | ⟨post, -, hpre⟩
  · cases hlast
  · exact h pre post i hpre

theorem step_connect_owned {y : System} (hy : Owned y) {socket : Option Handle} {ok : Bool}
    (hw : Winsock y (.connect socket ok)) : Owned (step y (.connect socket ok)) where
  id_lt := step_idInTable y _ hy.id_lt
  held_connected := by
    intro i hi hheld
    simp only [step, held_append_returned, connect_ret_eq] at hheld ⊢
    change ∃ h, withSocket y.shared socket i = some h ∧ _
    rcases hheld with hheld | ⟨rfl, rfl⟩
    · obtain ⟨h, hsk, hconn⟩ := hy.held_connected i hi hheld
      refine ⟨h, withSocket_of_used hsk socket, ?_⟩
      split_ifs
      · exact List.mem_append_right _ hconn
      · exact hconn
    · obtain ⟨h, hdial, -⟩ := hw.2 rfl
      exact ⟨h, hdial, by simp [hdial]⟩
  distinct := by
    intro i hi j hj h hih hjh
    -- a socket that was just created is in no other slot
    rcases withSocket_eq_some hih with hio | ⟨rfl, hsock⟩ <;>
      rcases withSocket_eq_some hjh with hjo | ⟨rfl, hsock'⟩
    · exact hy.distinct i hi j hj h hio hjo
    · exact absurd hio (hw.1 h hsock' i hi)
    · exact absurd hjo (hw.1 h hsock j hj)
    · rfl
  exclusive := by
    apply exclusive_append_returned hy.exclusive
    intro i hret
    obtain ⟨rfl, rfl⟩ := (connect_ret_eq _ _ _ _).mp hret
    exact ⟨chosen_lt hy.id_lt, not_held_of_connects hy hw⟩

theorem step_disConnect_owned {y : System} (hy : Owned y) (conID : Fin connectNum) :
    Owned (step y (.disConnect conID)) where
  id_lt := step_idInTable y _ hy.id_lt
  held_connected := by
    intro i hi hheld
    simp only [step, held_append_released, disConnect_skHQ] at hheld ⊢
    obtain ⟨h, hsk, hconn⟩ := hy.held_connected i hi hheld.1
    refine ⟨h, by rw [Function.update_of_ne hheld.2, hsk], ?_⟩
    have hother : y.shared.skHQ conID ≠ some h := fun hc =>
      hheld.2 (hy.distinct i hi conID conID.isLt h hsk hc)
    simpa using ⟨hconn, hother⟩
  distinct := by
    intro i hi j hj h hih hjh
    simp only [step, disConnect_skHQ, Function.update_apply] at hih hjh
    split_ifs at hih hjh
    exact hy.distinct i hi j hj h hih hjh
  exclusive := exclusive_append_released hy.exclusive

theorem step_owned (y : System) (o : Op) (hy : Owned y) (hw : Winsock y o) :
    Owned (step y o) := by
  cases o with
  | connect socket ok => exact step_connect_owned hy hw
  | disConnect conID => exact step_disConnect_owned hy conID

/-- In every run in which Winsock keeps its promises an id is only returned to one caller at a
time, runs with a full table and a stale `nConnectID` included. -/
theorem ids_exclusive (rt : AddressParsers) (lines : List (List Char)) (s₀ s : Shared)
    (hinit : init rt (some lines) s₀ = .ok (.ok, s)) (ops : List Op)
    (hw : Meets step Winsock (start s) ops) :
    Always step (fun y => Exclusive y.events) (start s) ops := by
  obtain ⟨-, -, -, hid, hempty⟩ := init_ok hinit
  have h0 : Owned (start s) :=
    { id_lt := by
        change s.nConnectID < connectNum
        rw [hid]
        decide
      held_connected := fun i _ hheld => absurd hheld (not_held_nil i)
      distinct := fun i hi _ _ h hih _ => by
        rw [start_shared, hempty i hi] at hih
        cases hih
      exclusive := fun pre post i heq => by simp at heq }
  exact (always_of_meets step_owned h0 hw).mono fun y hy => hy.exclusive

theorem winsock_connect {y : System} {h : Handle}
    (hfresh : ∀ i < connectNum, y.shared.skHQ i ≠ some h)
    (hfree : y.shared.skHQ (chosen y.shared) = none) (hnew : h ∉ y.connected) (connects : Bool) :
    Winsock y (.connect (some h) connects) := by
  constructor
  · intro h' hh'
    exact Option.some.inj hh' ▸ hfresh
  · intro _
    refine ⟨h, ?_, hnew⟩
    rw [withSocket, if_pos hfree, Function.update_self]

def sampleOps : List Op :=
  [.connect (some 5) true, .connect (some 6) true, .disConnect 0, .connect (some 7) true,
    .connect (some 8) false, .connect (some 9) true]

theorem ids_exclusive_sample :
    (run (start (sampleShared 1)) sampleOps).events =
        [.returned 0, .returned 1, .released 0, .returned 0, .returned (-4), .returned 3] ∧
      Always step (fun y => Exclusive y.events) (start (sampleShared 1)) sampleOps :=
  ⟨by decide +kernel, ids_exclusive sampleParsers [sampleLine] zeroShared (sampleShared 1) rfl
    sampleOps
    ⟨winsock_connect (by decide +kernel) (by decide +kernel) (by decide +kernel) true,
      winsock_connect (by decide +kernel) (by decide +kernel) (by decide +kernel) true, trivial,
      winsock_connect (by decide +kernel) (by decide +kernel) (by decide +kernel) true,
      winsock_connect (by decide +kernel) (by decide +kernel) (by decide +kernel) false,
      winsock_connect (by decide +kernel) (by decide +kernel) (by decide +kernel) true, trivial⟩⟩

end TdxHq.Connection
