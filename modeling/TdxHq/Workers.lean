import TdxHq.Cycle
import TdxHq.Slots

namespace TdxHq.Workers

open SecurityBars Refresh
open Connection (Handle Shared connectNum Held Owned)
open Dialog (CQuotation)

variable {n : ℕ}

/-- The shared segment with its record, the unread bytes on each socket, and the threads. -/
structure System (n : ℕ) where
  table : Connection.System
  inbox : Handle → List Byte
  thread : Fin n → Thread

def start (s : Shared) : System n :=
  ⟨Connection.start s, fun _ => [], fun _ => Thread.start⟩

structure Turn where
  quit : Bool
  socket : Option Handle
  connects : Bool
  net : Net

inductive Act (n : ℕ)
  | timer (i : Fin n)
  | work (i : Fin n) (turn : Turn)

namespace System

def conID (y : System n) (i : Fin n) : ℤ := (y.thread i).worker.conID

def socketOf (y : System n) (i : Fin n) : Option Handle :=
  if 0 ≤ y.conID i ∧ y.conID i < connectNum then y.table.shared.skHQ (y.conID i).toNat else none

def unread (y : System n) (i : Fin n) : List Byte := (y.socketOf i).elim [] y.inbox

/-- What a step meets with; the id is the one that `TDXHQ_Connect` would return now. -/
def input (y : System n) (turn : Turn) : Input :=
  ⟨turn.quit, (Connection.connect y.table.shared turn.socket turn.connects).1, turn.net⟩

def view (i : Fin n) (y : System n) : Alone := ⟨y.thread i, y.unread i⟩

theorem conID_of_socketOf {y : System n} {i : Fin n} {h : Handle} (hi : y.socketOf i = some h) :
    0 ≤ y.conID i ∧ y.table.shared.skHQ (y.conID i).toNat = some h := by
  unfold System.socketOf at hi
  split_ifs at hi with hid
  exact ⟨hid.1, hi⟩

theorem socketOf_of_neg {y : System n} {i : Fin n} (hi : y.conID i < 0) : y.socketOf i = none :=
  if_neg (by omega)

theorem socketOf_congr {y y' : System n} {i : Fin n} (hid : y'.conID i = y.conID i)
    (hsk : 0 ≤ y.conID i → y'.table.shared.skHQ (y.conID i).toNat =
      y.table.shared.skHQ (y.conID i).toNat) : y'.socketOf i = y.socketOf i := by
  unfold socketOf
  rw [hid]
  split_ifs with h
  · exact hsk h.1
  · rfl

end System

section Steps

variable {D : Type} (env : Env D) (m_csDataPath : List Char) (quo : Fin n → CQuotation)

def step (y : System n) : Act n → System n
  | .timer i => { y with thread := Function.update y.thread i (y.thread i).onTimer }
  | .work i turn =>
    let r := work env m_csDataPath (quo i) y.table.shared.skHQ (y.input turn) (y.thread i)
      (y.unread i)
    -- the step is a call of `TDXHQ_Connect`
    { table := if (y.thread i).dials then
          Connection.step y.table (.connect turn.socket turn.connects)
        else y.table
      inbox := (y.socketOf i).elim y.inbox fun h => Function.update y.inbox h r.2
      thread := Function.update y.thread i r.1 }

/-- Winsock keeps its promises. -/
def Allowed (y : System n) : Act n → Prop
  | .timer _ => True
  | .work i turn => (y.thread i).dials = true →
      Connection.Winsock y.table (.connect turn.socket turn.connects)

def Answered (y : System n) : Act n → Prop
  | .timer _ => True
  | .work i turn => Serves env turn.net (y.thread i).place

/-- The step of worker `i` by itself in a step of the system, if it is its turn. -/
def own (i : Fin n) (y : System n) : Act n → List Refresh.Action
  | .timer j => if j = i then [.timer] else []
  | .work j turn => if j = i then [.work (y.input turn)] else []

/-- Every worker has an id of its own, with a connected socket behind it, and a socket that no
worker has is empty. -/
structure Sound (y : System n) : Prop where
  owned : Owned y.table
  sane : ∀ i, (y.thread i).Sane (quo i)
  held : ∀ i, 0 ≤ y.conID i → y.conID i < connectNum ∧ Held y.table.events (y.conID i).toNat
  exclusive : ∀ i j, 0 ≤ y.conID i → y.conID i = y.conID j → i = j
  clean : ∀ h, (∀ i, y.socketOf i ≠ some h) → y.inbox h = []

variable {env m_csDataPath quo}

namespace Sound

variable {y : System n} (hy : Sound quo y)
include hy

theorem socketOf_connected {i : Fin n} (hi : 0 ≤ y.conID i) :
    ∃ h, y.table.shared.skHQ (y.conID i).toNat = some h ∧ h ∈ y.table.connected ∧
      y.socketOf i = some h := by
  obtain ⟨hlt, hheld⟩ := hy.held i hi
  obtain ⟨h, hsk, hconn⟩ := hy.owned.held_connected _ (by omega) hheld
  exact ⟨h, hsk, hconn, by rw [System.socketOf, if_pos ⟨hi, hlt⟩, hsk]⟩

theorem socketOf_inj {i j : Fin n} {h : Handle} (hi : y.socketOf i = some h)
    (hj : y.socketOf j = some h) : i = j := by
  obtain ⟨hi0, hisk⟩ := System.conID_of_socketOf hi
  obtain ⟨hj0, hjsk⟩ := System.conID_of_socketOf hj
  have hilt := (hy.held i hi0).1
  have hjlt := (hy.held j hj0).1
  have hslot := hy.owned.distinct _ (by omega) _ (by omega) h hisk hjsk
  exact hy.exclusive i j hi0 (by omega)

theorem of_same {y' : System n} (htable : y'.table = y.table)
    (hid : ∀ i, y'.conID i = y.conID i) (hsane : ∀ i, (y'.thread i).Sane (quo i))
    (hinbox : ∀ h, (∀ i, y.socketOf i ≠ some h) → y'.inbox h = y.inbox h) : Sound quo y' where
  owned := by
    rw [htable]
    exact hy.owned
  sane := hsane
  held := by
    intro i
    rw [hid, htable]
    exact hy.held i
  exclusive := by
    intro i j
    rw [hid, hid]
    exact hy.exclusive i j
  clean := by
    have hsocket : ∀ i, y'.socketOf i = y.socketOf i := fun i =>
      System.socketOf_congr (hid i) fun _ => by rw [htable]
    intro h hnone
    simp only [hsocket] at hnone
    rw [hinbox h hnone]
    exact hy.clean h hnone

end Sound

variable (env m_csDataPath quo) in
theorem conID_timer (y : System n) (i j : Fin n) :
    (step env m_csDataPath quo y (.timer i)).conID j = y.conID j := by
  unfold System.conID step
  by_cases hij : j = i
  · subst hij
    simp only [Function.update_self]
    rfl
  · simp only [Function.update_of_ne hij]

theorem sound_timer {y : System n} (hy : Sound quo y) (i : Fin n) :
    Sound quo (step env m_csDataPath quo y (.timer i)) := by
  refine hy.of_same rfl (conID_timer env m_csDataPath quo y i) ?_ (fun _ _ => rfl)
  intro j
  by_cases hij : j = i
  · subst hij
    simp only [step, Function.update_self]
    exact ⟨(hy.sane j).enters, (hy.sane j).connected⟩
  · simp only [step, Function.update_of_ne hij]
    exact hy.sane j

theorem view_timer (y : System n) (i j : Fin n) :
    System.view j (step env m_csDataPath quo y (.timer i)) =
      (own j y (.timer i)).foldl (aloneStep env m_csDataPath (quo j)) (y.view j) := by
  have hsocket : (step env m_csDataPath quo y (.timer i)).socketOf j = y.socketOf j :=
    System.socketOf_congr (conID_timer env m_csDataPath quo y i j) fun _ => rfl
  have hunread : (step env m_csDataPath quo y (.timer i)).unread j = y.unread j := by
    unfold System.unread
    rw [hsocket]
    rfl
  unfold System.view own
  rw [hunread]
  by_cases hij : j = i
  · subst hij
    simp only [step, Function.update_self, if_true]
    rfl
  · simp only [step, Function.update_of_ne hij, if_neg (Ne.symm hij)]
    rfl

section Work

variable {y : System n} {i j : Fin n} (turn : Turn)

variable (env m_csDataPath quo) in
theorem thread_work_other (hij : j ≠ i) :
    (step env m_csDataPath quo y (.work i turn)).thread j = y.thread j :=
  Function.update_of_ne hij _ _

variable (env m_csDataPath quo) in
theorem thread_work_self :
    (step env m_csDataPath quo y (.work i turn)).thread i =
      (work env m_csDataPath (quo i) y.table.shared.skHQ (y.input turn) (y.thread i)
        (y.unread i)).1 :=
  Function.update_self _ _ _

theorem own_work_self : own i y (.work i turn) = [.work (y.input turn)] := if_pos rfl

theorem own_work_other (hij : j ≠ i) : own j y (.work i turn) = [] := if_neg (Ne.symm hij)

variable (env m_csDataPath quo) in
theorem inbox_work_other {h : Handle} (hh : y.socketOf i ≠ some h) :
    (step env m_csDataPath quo y (.work i turn)).inbox h = y.inbox h := by
  simp only [step]
  cases hs : y.socketOf i with
  | none => rfl
  | some k =>
    have hne : h ≠ k := by
      rintro rfl
      exact hh hs
    exact Function.update_of_ne hne _ _

theorem chosen_of_ret (h : 0 ≤ (Connection.connect y.table.shared turn.socket turn.connects).1) :
    turn.connects = true ∧
      (Connection.connect y.table.shared turn.socket turn.connects).1 =
        (Connection.chosen y.table.shared : ℤ) := by
  obtain ⟨c, hc⟩ := Int.eq_ofNat_of_zero_le h
  obtain ⟨hok, hchosen⟩ := (Connection.connect_ret_eq _ _ _ c).mp hc
  exact ⟨hok, by rw [hc, hchosen]⟩

theorem conID_neg_of_dials (hd : (y.thread i).dials = true) :
    (y.thread i).place = .outside ∧ y.conID i < 0 := by
  by_cases hplace : (y.thread i).place = .outside
  · rw [dials_eq _ hplace, decide_eq_true_eq] at hd
    exact ⟨hplace, hd.2⟩
  · rw [dials_inside hplace] at hd
    cases hd

variable (env m_csDataPath quo) in
theorem table_dial (hd : (y.thread i).dials = true) :
    (step env m_csDataPath quo y (.work i turn)).table =
      Connection.step y.table (.connect turn.socket turn.connects) := by
  simp only [step, hd, if_true]

variable (hy : Sound quo y)
include hy

theorem sane_step (j : Fin n) :
    ((step env m_csDataPath quo y (.work i turn)).thread j).Sane (quo j) := by
  by_cases hij : j = i
  · subst hij
    rw [thread_work_self]
    exact sane_work _ _ _ (hy.sane j)
  · rw [thread_work_other env m_csDataPath quo turn hij]
    exact hy.sane j

variable (env m_csDataPath) in
theorem conID_step (j : Fin n) :
    (step env m_csDataPath quo y (.work i turn)).conID j =
      if j = i ∧ (y.thread i).dials = true then
        (Connection.connect y.table.shared turn.socket turn.connects).1 else y.conID j := by
  unfold System.conID
  by_cases hij : j = i
  · subst hij
    rw [thread_work_self, conID_work _ _ _ (hy.sane j)]
    simp only [true_and]
    rfl
  · rw [thread_work_other env m_csDataPath quo turn hij, if_neg (fun h => hij h.1)]

theorem conID_step_other (hij : j ≠ i) :
    (step env m_csDataPath quo y (.work i turn)).conID j = y.conID j := by
  rw [conID_step env m_csDataPath turn hy, if_neg (fun h => hij h.1)]

/-- What a worker does to itself is what it would do alone. -/
theorem view_self (hunread : (step env m_csDataPath quo y (.work i turn)).unread i =
      (work env m_csDataPath (quo i) y.table.shared.skHQ (y.input turn) (y.thread i)
        (y.unread i)).2) :
    System.view i (step env m_csDataPath quo y (.work i turn)) =
      (own i y (.work i turn)).foldl (aloneStep env m_csDataPath (quo i)) (y.view i) := by
  have halone : work env m_csDataPath (quo i) y.table.shared.skHQ (y.input turn) (y.thread i)
        (y.unread i) =
      work env m_csDataPath (quo i) (fun _ => some 0) (y.input turn) (y.thread i)
        (y.unread i) := by
    apply work_congr
    · intro hplace
      obtain ⟨h, hsk, -, -⟩ := hy.socketOf_connected ((hy.sane i).conID_nonneg hplace)
      rw [show (y.thread i).worker.conID = y.conID i from rfl, hsk]
      simp
    · intro _
      simp
  rw [own_work_self, System.view, hunread, thread_work_self, halone]
  rfl

theorem view_other (hij : j ≠ i)
    (hsocket : (step env m_csDataPath quo y (.work i turn)).socketOf j = y.socketOf j) :
    System.view j (step env m_csDataPath quo y (.work i turn)) =
      (own j y (.work i turn)).foldl (aloneStep env m_csDataPath (quo j)) (y.view j) := by
  have hunread : (step env m_csDataPath quo y (.work i turn)).unread j = y.unread j := by
    unfold System.unread
    rw [hsocket]
    cases hs : y.socketOf j with
    | none => rfl
    | some h =>
      exact inbox_work_other env m_csDataPath quo turn fun hi => hij (hy.socketOf_inj hs hi)
  rw [own_work_other turn hij, System.view, hunread,
    thread_work_other env m_csDataPath quo turn hij]
  rfl

/-- The id that is returned belongs to no other worker. -/
theorem ret_ne_conID (hw : Connection.Winsock y.table (.connect turn.socket turn.connects))
    (h : 0 ≤ (Connection.connect y.table.shared turn.socket turn.connects).1)
    (j : Fin n) :
    (Connection.connect y.table.shared turn.socket turn.connects).1 ≠ y.conID j := by
  intro heq
  obtain ⟨hok, hret⟩ := chosen_of_ret turn h
  have hheld := (hy.held j (heq ▸ h)).2
  rw [← heq, hret, Int.toNat_natCast] at hheld
  rw [hok] at hw
  exact Connection.not_held_of_connects hy.owned hw hheld

section Still

variable (hd : (y.thread i).dials = false)
include hd

theorem socketOf_still (j : Fin n) :
    (step env m_csDataPath quo y (.work i turn)).socketOf j = y.socketOf j := by
  apply System.socketOf_congr
  · rw [conID_step env m_csDataPath turn hy, if_neg (by simp [hd])]
  · intro _
    simp only [step, hd]
    rfl

theorem sound_still : Sound quo (step env m_csDataPath quo y (.work i turn)) := by
  refine hy.of_same ?_ ?_ (sane_step turn hy) ?_
  · simp only [step, hd]
    rfl
  · intro j
    rw [conID_step env m_csDataPath turn hy, if_neg (by simp [hd])]
  · intro h hnone
    exact inbox_work_other env m_csDataPath quo turn (hnone i)

theorem unread_still : (step env m_csDataPath quo y (.work i turn)).unread i =
    (work env m_csDataPath (quo i) y.table.shared.skHQ (y.input turn) (y.thread i)
      (y.unread i)).2 := by
  unfold System.unread
  rw [socketOf_still turn hy hd]
  cases hs : y.socketOf i with
  | none =>
    -- without a socket the worker is in no call
    have hplace : (y.thread i).place = .outside := by
      by_contra hplace
      obtain ⟨h, -, -, hsome⟩ := hy.socketOf_connected ((hy.sane i).conID_nonneg hplace)
      rw [hs] at hsome
      cases hsome
    exact (inbox_work _ _ _ hplace).symm
  | some h =>
    simp only [step, hs, Option.elim_some, Function.update_self, System.unread]

end Still

section Dial

variable (hd : (y.thread i).dials = true)
include hd

variable (env m_csDataPath) in
theorem conID_dial_self : (step env m_csDataPath quo y (.work i turn)).conID i =
    (Connection.connect y.table.shared turn.socket turn.connects).1 := by
  rw [conID_step env m_csDataPath turn hy, if_pos ⟨rfl, hd⟩]

theorem socketOf_dial_other (hij : j ≠ i) :
    (step env m_csDataPath quo y (.work i turn)).socketOf j = y.socketOf j := by
  apply System.socketOf_congr (conID_step_other turn hy hij)
  intro hj
  obtain ⟨h, hsk, -, -⟩ := hy.socketOf_connected hj
  rw [table_dial env m_csDataPath quo turn hd, hsk]
  exact Connection.withSocket_of_used hsk turn.socket

variable (hw : Connection.Winsock y.table (.connect turn.socket turn.connects))
include hw

theorem sound_dial : Sound quo (step env m_csDataPath quo y (.work i turn)) where
  owned := by
    rw [table_dial env m_csDataPath quo turn hd]
    exact Connection.step_connect_owned hy.owned hw
  sane := sane_step turn hy
  held := by
    intro j hj
    rw [table_dial env m_csDataPath quo turn hd]
    change _ ∧ Held (y.table.events ++ [.returned _]) _
    rw [Connection.held_append_returned]
    by_cases hij : j = i
    · subst hij
      -- the id the call has returned, if it is one
      rw [conID_dial_self env m_csDataPath turn hy hd] at hj ⊢
      obtain ⟨-, hret⟩ := chosen_of_ret turn hj
      have hlt := Connection.chosen_lt hy.owned.id_lt
      exact ⟨by omega, Or.inr (by omega)⟩
    · rw [conID_step_other turn hy hij] at hj ⊢
      exact ⟨(hy.held j hj).1, Or.inl (hy.held j hj).2⟩
  exclusive := by
    intro j k hj hjk
    by_cases hji : j = i
    · subst hji
      -- the new id is no one else's
      by_contra hne
      rw [conID_dial_self env m_csDataPath turn hy hd] at hj hjk
      rw [conID_step_other turn hy (Ne.symm hne)] at hjk
      exact ret_ne_conID turn hy hw hj k hjk
    · rw [conID_step_other turn hy hji] at hj hjk
      by_cases hki : k = i
      · subst hki
        rw [conID_dial_self env m_csDataPath turn hy hd] at hjk
        exact absurd hjk.symm (ret_ne_conID turn hy hw (hjk ▸ hj) j)
      · rw [conID_step_other turn hy hki] at hjk
        exact hy.exclusive j k hj hjk
  clean := by
    intro h hnone
    -- a socket no worker has now was no worker's before
    have hbefore : ∀ j, y.socketOf j ≠ some h := by
      intro j
      by_cases hij : j = i
      · subst hij
        rw [System.socketOf_of_neg (conID_neg_of_dials hd).2]
        simp
      · rw [← socketOf_dial_other turn hy hd hij]
        exact hnone j
    rw [inbox_work_other env m_csDataPath quo turn (hbefore i)]
    exact hy.clean h hbefore

theorem unread_dial : (step env m_csDataPath quo y (.work i turn)).unread i =
    (work env m_csDataPath (quo i) y.table.shared.skHQ (y.input turn) (y.thread i)
      (y.unread i)).2 := by
  obtain ⟨hplace, hneg⟩ := conID_neg_of_dials hd
  have hnone := System.socketOf_of_neg hneg
  rw [inbox_work _ _ _ hplace, System.unread, System.unread, hnone, Option.elim_none]
  cases hs : (step env m_csDataPath quo y (.work i turn)).socketOf i with
  | none => rfl
  | some h =>
    obtain ⟨hid, hsk⟩ := System.conID_of_socketOf hs
    rw [conID_dial_self env m_csDataPath turn hy hd] at hid hsk
    obtain ⟨hok, hret⟩ := chosen_of_ret turn hid
    rw [table_dial env m_csDataPath quo turn hd, hret, Int.toNat_natCast] at hsk
    -- the socket was not connected before, so it was no worker's
    obtain ⟨k, hdialed, hnot⟩ := hw.2 hok
    obtain rfl : h = k := Option.some.inj (hsk.symm.trans hdialed)
    rw [Option.elim_some, inbox_work_other env m_csDataPath quo turn (by rw [hnone]; simp)]
    apply hy.clean
    intro j hj
    obtain ⟨hj0, hjsk⟩ := System.conID_of_socketOf hj
    obtain ⟨h', hsk', hconn, -⟩ := hy.socketOf_connected hj0
    obtain rfl : h = h' := Option.some.inj (hjsk.symm.trans hsk')
    exact hnot hconn

end Dial

end Work

theorem sound_step (y : System n) (a : Act n) (hy : Sound quo y) (ha : Allowed y a) :
    Sound quo (step env m_csDataPath quo y a) := by
  cases a with
  | timer i => exact sound_timer hy i
  | work i turn =>
    cases hd : (y.thread i).dials with
    | false => exact sound_still turn hy hd
    | true => exact sound_dial turn hy hd (ha hd)

theorem view_step (j : Fin n) (y : System n) (a : Act n) (hy : Sound quo y) (ha : Allowed y a) :
    System.view j (step env m_csDataPath quo y a) =
      (own j y a).foldl (aloneStep env m_csDataPath (quo j)) (y.view j) := by
  cases a with
  | timer i => exact view_timer y i j
  | work i turn =>
    cases hd : (y.thread i).dials with
    | false =>
      by_cases hij : j = i
      · subst hij
        exact view_self turn hy (unread_still turn hy hd)
      · exact view_other turn hy hij (socketOf_still turn hy hd j)
    | true =>
      by_cases hij : j = i
      · subst hij
        exact view_self turn hy (unread_dial turn hy hd (ha hd))
      · exact view_other turn hy hij (socketOf_dial_other turn hy hd hij)

/-- No step takes a connection away. -/
theorem keeps_step {i : Fin n} {h : Handle} (y : System n) (a : Act n) (hy : Sound quo y)
    (ha : Allowed y a) (hi : y.socketOf i = some h) :
    (step env m_csDataPath quo y a).socketOf i = some h ∧
      (step env m_csDataPath quo y a).conID i = y.conID i := by
  cases a with
  | timer j =>
    have hid := conID_timer env m_csDataPath quo y j i
    exact ⟨(System.socketOf_congr hid fun _ => rfl).trans hi, hid⟩
  | work j turn =>
    cases hd : (y.thread j).dials with
    | false =>
      refine ⟨(socketOf_still turn hy hd i).trans hi, ?_⟩
      rw [conID_step env m_csDataPath turn hy, if_neg (by simp [hd])]
    | true =>
      have hij : i ≠ j := by
        rintro rfl
        have hneg := (conID_neg_of_dials hd).2
        have hnonneg := (System.conID_of_socketOf hi).1
        omega
      exact ⟨(socketOf_dial_other turn hy hd hij).trans hi, conID_step_other turn hy hij⟩

theorem sound_start {rt : Connection.AddressParsers} {lines : List (List Char)} {s₀ s : Shared}
    (hinit : Connection.init rt (some lines) s₀ = .ok (.ok, s)) :
    Sound quo (start s : System n) := by
  obtain ⟨-, -, -, hid, hempty⟩ := Connection.init_ok hinit
  refine ⟨⟨?_, ?_, ?_, ?_⟩, ?_, ?_, ?_, fun _ _ => rfl⟩
  · change s.nConnectID < connectNum
    rw [hid]
    decide
  · intro i _ hheld
    exact absurd hheld (Connection.not_held_nil i)
  · intro i hi _ _ h hih _
    rw [show (start s : System n).table.shared.skHQ i = s.skHQ i from rfl, hempty i hi] at hih
    cases hih
  · intro pre post i heq
    simp [start] at heq
  · intro i
    exact ⟨fun h => absurd rfl h, fun k hk => by cases hk⟩
  · intro i h
    exact absurd h (by simp [System.conID, start, Thread.start, Quotation.start])
  · intro i j h _
    exact absurd h (by simp [System.conID, start, Thread.start, Quotation.start])

theorem view_start (i : Fin n) (s : Shared) : (start s).view i = Alone.start := by
  simp only [System.view, start, System.unread, Alone.start]
  congr 1

theorem ret_lt {y : System n} (hy : Sound quo y) (turn : Turn) :
    (y.input turn).connectRet < connectNum := by
  have hlt := Connection.chosen_lt hy.owned.id_lt
  simp only [System.input, Connection.connect]
  split_ifs
  · exact_mod_cast hlt
  · decide

variable (env m_csDataPath quo) in
/-- Every worker has its own connection and has done what it should with the answers on it. -/
structure Correct (y : System n) : Prop where
  sound : Sound quo y
  settled : ∀ i, Settled env m_csDataPath (quo i) (y.view i)

theorem correct_step (hprint : Replace.PlainPrint env.ops) (hcodes : ∀ i, CodesFit (quo i))
    (y : System n) (a : Act n) (hy : Correct env m_csDataPath quo y)
    (ha : Allowed y a ∧ Answered env y a) :
    Correct env m_csDataPath quo (step env m_csDataPath quo y a) := by
  refine ⟨sound_step y a hy.sound ha.1, ?_⟩
  intro i
  rw [view_step i y a hy.sound ha.1]
  have hturn := settled_aloneStep m_csDataPath hprint (hcodes i) (y.view i)
  cases a with
  | timer j =>
    simp only [own]
    by_cases hij : j = i
    · rw [if_pos hij]
      exact hturn .timer (hy.settled i) trivial
    · rw [if_neg hij]
      exact hy.settled i
  | work j turn =>
    by_cases hij : j = i
    · subst hij
      rw [own_work_self]
      exact hturn (.work (y.input turn)) (hy.settled j) ⟨ret_lt hy.sound turn, ha.2⟩
    · rw [own_work_other turn (Ne.symm hij)]
      exact hy.settled i

/-- A worker that is answered is answered on its own connection. -/
theorem served_trace (hprint : Replace.PlainPrint env.ops) (hcodes : ∀ i, CodesFit (quo i))
    {y : System n} (hy : Correct env m_csDataPath quo y) {acts : List (Act n)}
    (hacts : Runs.Meets (step env m_csDataPath quo) (fun y a => Allowed y a ∧ Answered env y a) y
      acts) (i : Fin n) :
    Runs.Meets (aloneStep env m_csDataPath (quo i)) (Served env) (y.view i)
        (Runs.trace (step env m_csDataPath quo) (own i) y acts) ∧
      (acts.foldl (step env m_csDataPath quo) y).view i =
        (Runs.trace (step env m_csDataPath quo) (own i) y acts).foldl
          (aloneStep env m_csDataPath (quo i)) (y.view i) := by
  have hkeep : ∀ (y : System n) (a : Act n), Correct env m_csDataPath quo y →
      Allowed y a ∧ Answered env y a →
      Correct env m_csDataPath quo (step env m_csDataPath quo y a) :=
    correct_step hprint hcodes
  -- each step of the system shows as steps of worker `i`, or none
  have hview : ∀ (y : System n) (a : Act n), Correct env m_csDataPath quo y →
      Allowed y a ∧ Answered env y a → System.view i (step env m_csDataPath quo y a) =
        (own i y a).foldl (aloneStep env m_csDataPath (quo i)) (System.view i y) :=
    fun y a hy ha => view_step i y a hy.sound ha.1
  refine ⟨Runs.meets_trace hkeep hview ?_ hy hacts, Runs.view_foldl _ hkeep hview hy hacts⟩
  intro y a hy ha
  cases a with
  | timer j =>
    by_cases hij : j = i
    · rw [show own i y (.timer j) = [.timer] from if_pos hij]
      exact ⟨trivial, trivial⟩
    · rw [show own i y (.timer j) = [] from if_neg hij]
      trivial
  | work j turn =>
    by_cases hij : j = i
    · subst hij
      rw [own_work_self]
      exact ⟨⟨ret_lt hy.sound turn, ha.2⟩, trivial⟩
    · rw [own_work_other turn (Ne.symm hij)]
      trivial

theorem asked_run (y : System n) (acts : List (Act n)) (i : Fin n) (a : Asked)
    (ha : a ∈ ((acts.foldl (step env m_csDataPath quo) y).thread i).asked) :
    a ∈ (y.thread i).asked ∨ ∃ turn, .work i turn ∈ acts ∧ a.bytes = turn.net.bytes := by
  have hrecord := Runs.mem_record_foldl (f := fun y : System n => (y.thread i).asked)
    (Q := fun act r => ∃ turn, act = .work i turn ∧ r.bytes = turn.net.bytes) ?_ ha
  · refine hrecord.imp_right ?_
    rintro ⟨_, hmem, turn, rfl, hbytes⟩
    exact ⟨turn, hmem, hbytes⟩
  intro y act r hr
  cases act with
  | timer j =>
    by_cases hij : i = j
    · subst hij
      simp only [step, Function.update_self] at hr
      exact Or.inl hr
    · simp only [step, Function.update_of_ne hij] at hr
      exact Or.inl hr
  | work j turn =>
    by_cases hij : i = j
    · subst hij
      rw [thread_work_self] at hr
      exact (asked_work _ _ _ _ _ _ _ r hr).imp_right fun h => ⟨turn, rfl, h⟩
    · rw [thread_work_other env m_csDataPath quo turn hij] at hr
      exact Or.inl hr

theorem correct_start {rt : Connection.AddressParsers} {lines : List (List Char)} {s₀ s : Shared}
    (hinit : Connection.init rt (some lines) s₀ = .ok (.ok, s)) :
    Correct env m_csDataPath quo (start s : System n) := by
  refine ⟨sound_start hinit, fun i => ?_⟩
  rw [view_start]
  exact settled_start

section Program

variable (rt : Connection.AddressParsers) (lines : List (List Char)) (s₀ s : Shared)
  (hinit : Connection.init rt (some lines) s₀ = .ok (.ok, s))
include hinit

theorem sound_run {acts : List (Act n)}
    (hacts : Runs.Meets (step env m_csDataPath quo) Allowed (start s) acts) :
    Sound quo (acts.foldl (step env m_csDataPath quo) (start s)) :=
  (Runs.always_of_meets sound_step (sound_start hinit) hacts).last

theorem view_run {acts : List (Act n)}
    (hacts : Runs.Meets (step env m_csDataPath quo) Allowed (start s) acts) (i : Fin n) :
    (acts.foldl (step env m_csDataPath quo) (start s)).view i =
      (Runs.trace (step env m_csDataPath quo) (own i) (start s) acts).foldl
        (aloneStep env m_csDataPath (quo i)) Alone.start := by
  have hview := Runs.view_foldl (System.view i) sound_step (view_step i) (sound_start hinit) hacts
  rwa [view_start] at hview

theorem worker_run {acts : List (Act n)}
    (hacts : Runs.Meets (step env m_csDataPath quo) Allowed (start s) acts) (i : Fin n) :
    ((acts.foldl (step env m_csDataPath quo) (start s)).thread i).worker =
      (Runs.trace (aloneStep env m_csDataPath (quo i)) (coarse (quo i)) Alone.start
        (Runs.trace (step env m_csDataPath quo) (own i) (start s) acts)).foldl
          (Quotation.step (quo i).m_iStockNum) Quotation.start := by
  have hworker := worker_foldl env m_csDataPath (quo i) Alone.start
    (Runs.trace (step env m_csDataPath quo) (own i) (start s) acts)
  rw [← view_run rt lines s₀ s hinit hacts i] at hworker
  exact hworker

/-- Whatever the others do and in whatever order, a worker goes through the steps it would go
through with a connection to itself, and these are steps of `Quotation`. -/
theorem worker_isolated (acts : List (Act n))
    (hacts : Runs.Meets (step env m_csDataPath quo) Allowed (start s) acts) (i : Fin n) :
    (acts.foldl (step env m_csDataPath quo) (start s)).view i =
        (Runs.trace (step env m_csDataPath quo) (own i) (start s) acts).foldl
          (aloneStep env m_csDataPath (quo i)) Alone.start ∧
      ((acts.foldl (step env m_csDataPath quo) (start s)).thread i).worker =
        (Runs.trace (aloneStep env m_csDataPath (quo i)) (coarse (quo i)) Alone.start
          (Runs.trace (step env m_csDataPath quo) (own i) (start s) acts)).foldl
            (Quotation.step (quo i).m_iStockNum) Quotation.start :=
  ⟨view_run rt lines s₀ s hinit hacts i, worker_run rt lines s₀ s hinit hacts i⟩

/-- A worker that has a connection keeps it, and no other worker ever gets it. -/
theorem connection_kept (before after : List (Act n))
    (hacts : Runs.Meets (step env m_csDataPath quo) Allowed (start s) (before ++ after))
    (i : Fin n) (h : Handle)
    (hi : (before.foldl (step env m_csDataPath quo) (start s)).socketOf i = some h) :
    Runs.Always (step env m_csDataPath quo)
      (fun y => y.socketOf i = some h ∧ h ∈ y.table.connected ∧
        y.conID i = (before.foldl (step env m_csDataPath quo) (start s)).conID i ∧
        ∀ j, y.socketOf j = some h → j = i)
      (before.foldl (step env m_csDataPath quo) (start s)) after := by
  obtain ⟨hbefore, hafter⟩ := Runs.meets_append.mp hacts
  have hsound := sound_run rt lines s₀ s hinit hbefore
  have hkept := Runs.always_of_meets
    (P := fun y => Sound quo y ∧ y.socketOf i = some h ∧
      y.conID i = (before.foldl (step env m_csDataPath quo) (start s)).conID i)
    (fun y a hy ha => ⟨sound_step y a hy.1 ha,
      (keeps_step y a hy.1 ha hy.2.1).1, (keeps_step y a hy.1 ha hy.2.1).2.trans hy.2.2⟩)
    ⟨hsound, hi, rfl⟩ hafter
  apply hkept.mono
  rintro y ⟨hy, hsock, hid⟩
  obtain ⟨h', -, hconn, hsock'⟩ :=
    hy.socketOf_connected (System.conID_of_socketOf hsock).1
  obtain rfl : h = h' := Option.some.inj (hsock.symm.trans hsock')
  exact ⟨hsock, hconn, hid, fun j hj => hy.socketOf_inj hj hsock⟩

/-- As long as the servers answer, every bar that is sent to a worker is put into the database of
the stock that was asked for by one statement of its own, and nothing else is: in every order
of the workers' steps, after each stock. -/
theorem bars_stored (hprint : Replace.PlainPrint env.ops) (hcodes : ∀ i, CodesFit (quo i))
    (acts : List (Act n))
    (hacts : Runs.Meets (step env m_csDataPath quo)
      (fun y a => Allowed y a ∧ Answered env y a) (start s) acts) :
    Runs.Always (step env m_csDataPath quo)
      (fun y => ∀ i, (∀ why, (y.thread i).place ≠ .stopped why) ∧
        ((y.thread i).place = .outside →
          (y.thread i).executed = (y.thread i).asked.flatMap (·.due env m_csDataPath) ∧
          (y.thread i).asked.map Asked.key = rounds (quo i) (y.thread i).worker.log))
      (start s) acts := by
  have hrun := Runs.always_of_meets (correct_step hprint hcodes) (correct_start hinit) hacts
  apply hrun.mono
  intro y hy i
  have hacc := (hy.settled i).accounted
  refine ⟨?_, ?_⟩
  · intro why hplace
    rw [show (y.view i).thread.place = .stopped why from hplace] at hacc
    exact hacc
  · intro hplace
    rw [show (y.view i).thread.place = .outside from hplace] at hacc
    exact hacc.2

end Program

end Steps

def sampleTurn (h : Handle) : Turn := ⟨false, some h, true, sampleInput.net⟩

def connecting : List (Act 2) :=
  [.timer 0, .work 0 (sampleTurn 5), .timer 1, .work 1 (sampleTurn 6), .work 0 (sampleTurn 5),
    .work 1 (sampleTurn 6)]

def twoWorkers : System 2 → Act 2 → System 2 := step sampleEnv [] fun _ => oneStock

theorem connecting_allowed :
    Runs.Meets twoWorkers Allowed (start (Connection.sampleShared 1)) connecting := by
  refine ⟨trivial, ?_, trivial, ?_, ?_, ?_, trivial⟩
  · intro hd
    exact absurd hd (by decide)
  · intro hd
    exact absurd hd (by decide)
  · intro _
    refine ⟨?_, ?_⟩
    · intro h _ i hi
      change (Connection.sampleShared 1).skHQ i ≠ some h
      simp [Connection.sampleShared, hi]
    · intro _
      exact ⟨5, by decide, by decide⟩
  · intro _
    refine ⟨?_, ?_⟩
    · rintro h hh i hi hsk
      obtain rfl : 6 = h := Option.some.inj hh
      change Connection.withSocket (Connection.sampleShared 1) (some 5) i = some 6 at hsk
      rcases Connection.withSocket_eq_some hsk with hold | ⟨-, hnew⟩
      · simp [Connection.sampleShared, hi] at hold
      · cases hnew
    · intro _
      exact ⟨6, by decide, by decide⟩

theorem worker_isolated_two :
    (connecting.foldl twoWorkers (start (Connection.sampleShared 1))).view 1 =
      (Runs.trace twoWorkers (own 1) (start (Connection.sampleShared 1)) connecting).foldl
        (aloneStep sampleEnv [] oneStock) Alone.start :=
  (worker_isolated Connection.sampleParsers [Connection.sampleLine] Connection.zeroShared
    (Connection.sampleShared 1) rfl connecting connecting_allowed 1).1

def asking : List (Act 2) :=
  [.work 1 (sampleTurn 7), .work 0 (sampleTurn 7), .timer 1, .work 0 (sampleTurn 7),
    .work 0 (sampleTurn 7)]

theorem asking_allowed :
    Runs.Meets twoWorkers Allowed (connecting.foldl twoWorkers (start (Connection.sampleShared 1)))
      asking := by
  refine ⟨?_, ?_, trivial, ?_, ?_, trivial⟩ <;>
    exact fun hd => absurd hd (by decide)

theorem connection_kept_two :
    Runs.Always twoWorkers
      (fun y => y.socketOf 1 = some 6 ∧ 6 ∈ y.table.connected ∧ y.conID 1 = 1 ∧
        ∀ j, y.socketOf j = some 6 → j = 1)
      (connecting.foldl twoWorkers (start (Connection.sampleShared 1))) asking :=
  connection_kept Connection.sampleParsers [Connection.sampleLine] Connection.zeroShared
    (Connection.sampleShared 1) rfl connecting asking
    (Runs.meets_append.mpr ⟨connecting_allowed, asking_allowed⟩) 1 6 (by decide)

def cycles : List (Act 2) :=
  (List.replicate 8 [.work 0 (sampleTurn 7), .work 1 (sampleTurn 7)]).flatten

theorem serves_sample {q : CQuotation} {l : Alone} (hl : Settled sampleEnv [] q l) (h : Handle) :
    Serves sampleEnv (sampleTurn h).net l.thread.place :=
  (served_sample hl (.work sampleInput) (Or.inr rfl)).2

theorem connecting_answered :
    Runs.Meets twoWorkers (fun y a => Allowed y a ∧ Answered sampleEnv y a)
      (start (Connection.sampleShared 1)) connecting := by
  obtain ⟨h₁, h₂, h₃, h₄, h₅, h₆, -⟩ := connecting_allowed
  exact ⟨⟨h₁, trivial⟩, ⟨h₂, trivial⟩, ⟨h₃, trivial⟩, ⟨h₄, trivial⟩, ⟨h₅, trivial⟩, ⟨h₆, trivial⟩,
    trivial⟩

theorem works_answered {quo : Fin n → CQuotation} (hcodes : ∀ i, CodesFit (quo i)) {y : System n}
    (hy : Correct sampleEnv [] quo y) (connected : Fin n → Prop)
    (hid : ∀ i, connected i → 0 ≤ y.conID i) {acts : List (Act n)}
    (hacts : ∀ a ∈ acts, ∃ i h, connected i ∧ a = .work i (sampleTurn h)) :
    Runs.Meets (step sampleEnv [] quo) (fun y a => Allowed y a ∧ Answered sampleEnv y a) y
      acts := by
  refine Runs.meets_of_inv
    (I := fun y => Correct sampleEnv [] quo y ∧ ∀ i, connected i → 0 ≤ y.conID i) ?_ ?_ ⟨hy, hid⟩
  · rintro y ⟨hy, hid⟩ a ha
    obtain ⟨i, h, hi, rfl⟩ := hacts a ha
    refine ⟨fun hd => ?_, serves_sample (hy.settled i) h⟩
    have hneg := (conID_neg_of_dials hd).2
    exact absurd (hid i hi) (Int.not_le.mpr hneg)
  · rintro y a ⟨hy, hid⟩ ha
    refine ⟨correct_step Replace.exact_plainPrint hcodes y a hy ha, fun i hi => ?_⟩
    obtain ⟨h, -, -, hsocket⟩ := hy.sound.socketOf_connected (hid i hi)
    rw [(keeps_step y a hy.sound ha.1 hsocket).2]
    exact hid i hi

theorem correct_sample {quo : Fin n → CQuotation} (hcodes : ∀ i, CodesFit (quo i))
    {acts : List (Act n)}
    (hacts : Runs.Meets (step sampleEnv [] quo) (fun y a => Allowed y a ∧ Answered sampleEnv y a)
      (start (Connection.sampleShared 1)) acts) :
    Correct sampleEnv [] quo
      (acts.foldl (step sampleEnv [] quo) (start (Connection.sampleShared 1))) := by
  have hinit : Connection.init Connection.sampleParsers (some [Connection.sampleLine])
      Connection.zeroShared = .ok (.ok, Connection.sampleShared 1) := rfl
  exact (Runs.always_of_meets (correct_step Replace.exact_plainPrint hcodes) (correct_start hinit)
    hacts).last

theorem cycles_answered :
    Runs.Meets twoWorkers (fun y a => Allowed y a ∧ Answered sampleEnv y a)
      (connecting.foldl twoWorkers (start (Connection.sampleShared 1))) cycles := by
  have hcodes : ∀ _ : Fin 2, CodesFit oneStock := fun _ => codesFit_oneStock
  refine works_answered hcodes (correct_sample hcodes connecting_answered) (fun _ => True)
    (by decide) ?_
  intro a ha
  simp only [cycles, List.mem_flatten, List.mem_replicate] at ha
  obtain ⟨as, ⟨-, rfl⟩, ha⟩ := ha
  simp only [List.mem_cons, List.not_mem_nil, or_false] at ha
  rcases ha with rfl | rfl
  · exact ⟨0, 7, trivial, rfl⟩
  · exact ⟨1, 7, trivial, rfl⟩

theorem bars_stored_two :
    Runs.Always twoWorkers
      (fun y => ∀ i, (∀ why, (y.thread i).place ≠ .stopped why) ∧
        ((y.thread i).place = .outside →
          (y.thread i).executed = (y.thread i).asked.flatMap (·.due sampleEnv []) ∧
          (y.thread i).asked.map Asked.key = rounds oneStock (y.thread i).worker.log))
      (start (Connection.sampleShared 1)) (connecting ++ cycles) :=
  bars_stored Connection.sampleParsers [Connection.sampleLine] Connection.zeroShared
    (Connection.sampleShared 1) rfl Replace.exact_plainPrint (fun _ => codesFit_oneStock)
    (connecting ++ cycles) (Runs.meets_append.mpr ⟨connecting_answered, cycles_answered⟩)

end TdxHq.Workers
