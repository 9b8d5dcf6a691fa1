import TdxHq.Replace
import TdxHq.Quotation
import TdxHq.Dialog

namespace TdxHq.Refresh

open CByteBuffer Request Bars SecurityBars Reception Outcome Replace
open Connection (Code Handle connectNum)
open Dialog (StockCode CQuotation)

def zqdm (code : List Char) : CStr where
  chars := (code.map fun c => (Fin.ofNat 256 c.toNat : Byte)).takeWhile (· ≠ 0)
  nulFree := by
    intro h
    have hne := List.mem_takeWhile_imp h
    simp at hne

def market0 (stock : StockCode) : Char := stock.market.headD Text.NUL

def csDbPath (m_csDataPath : List Char) (stock : StockCode) : List Char :=
  if market0 stock = '0' then
    m_csDataPath ++ "\\SZ\\".toList ++ stock.code ++ ".db".toList
  else if market0 stock = '1' then
    m_csDataPath ++ "\\SH\\".toList ++ stock.code ++ ".db".toList
  else m_csDataPath

def callFor (q : Query) (stock : StockCode) : BarsCall :=
  q.call (market0 stock) (zqdm stock.code)

/-- The statements for a text; the text has fewer rows than characters. -/
def statements (q : Query) (szResult : List Char) : List (List Char) :=
  ((rowLoop q.insert szResult (szResult.length + 1) 1).map Prod.snd).getD []

section Halves

variable {D : Type} (env : Env D)

/-- `TDXHQ_GetSecurityBars` up to its `send`; `none` where it goes on to receive. -/
def request (skHQ : ℕ → Option Handle) (connectID : ℤ) (call : BarsCall) :
    CallM (Option Code) := do
  let bfSend ← fill fresh (fillRequest env.build call)
  match ← slot skHQ connectID with
  | none => return some .cont
  | some _ =>
    let datatosend ← consult bfSend (readBlock bfSend.size)
    let nSended ← send datatosend
    if nSended ≠ bfSend.size then return some .send else return none

def respond (call : BarsCall) : Option Code → CallM Code
  | some code => pure code
  | none => receive env call.Category

theorem getSecurityBars_eq_halves (skHQ : ℕ → Option Handle) (connectID : ℤ) (call : BarsCall) :
    getSecurityBars env skHQ connectID call =
      request env skHQ connectID call >>= respond env call := by
  simp only [getSecurityBars, request, bind_assoc]
  congr 1
  funext bfSend
  congr 1
  funext sk
  cases sk with
  | none => rfl
  | some h =>
    simp only [bind_assoc]
    congr 1
    funext datatosend
    congr 1
    funext nSended
    split_ifs <;> rfl

theorem request_eq {skHQ : ℕ → Option Handle} {connectID : ℤ} {call : BarsCall} {s : CallState}
    (hfits : Fits env.build call) (hid : 0 ≤ connectID ∧ connectID < connectNum)
    (hopen : skHQ connectID.toNat ≠ none) :
    request env skHQ connectID call s =
      .ok (if s.socket.sendRet.getD (requestBytes call).length ≠ (requestBytes call).length then
        some .send else none) { s with outbox := s.outbox ++ [requestBytes call] } := by
  have hslot : slot skHQ connectID s = .ok (skHQ connectID.toNat) s := by
    rw [slot, if_pos hid, Reader.pure_apply]
  obtain ⟨h, hh⟩ := Option.ne_none_iff_exists'.mp hopen
  have hsent : send (requestBytes call) s =
      .ok (s.socket.sendRet.getD (requestBytes call).length)
        { s with outbox := s.outbox ++ [requestBytes call] } := rfl
  have hsize : (fresh.extend (requestBytes call)).size = (requestBytes call).length := rfl
  rw [request, Reader.bind_of_ok (fill_of_ok (fillRequest_of_fits hfits) s),
    Reader.bind_of_ok hslot, hh]
  dsimp only
  rw [Reader.bind_of_ok (consult_of_ok (readBlock_request hfits) s), Reader.bind_of_ok hsent, hsize]
  split_ifs <;> rfl

/-- Of the table only the slot of the connection is read, and only whether it is in use. -/
theorem request_congr {skHQ skHQ' : ℕ → Option Handle} {connectID : ℤ}
    (h : skHQ connectID.toNat ≠ none) (h' : skHQ' connectID.toNat ≠ none) (call : BarsCall) :
    request env skHQ connectID call = request env skHQ' connectID call := by
  obtain ⟨k, hk⟩ := Option.ne_none_iff_exists'.mp h
  obtain ⟨k', hk'⟩ := Option.ne_none_iff_exists'.mp h'
  simp only [request, slot, hk, hk']
  congr 1
  funext bfSend
  by_cases hid : 0 ≤ connectID ∧ connectID < connectNum
  · rw [if_pos hid, if_pos hid, pure_bind, pure_bind]
  · rw [if_neg hid, if_neg hid]

end Halves

/-- Where the worker is in the body of the `for` loop. -/
inductive Place
  | outside
  | ask (todo : List Query)
  /-- The request for `q` is sent and its answer is not received. -/
  | await (q : Query) (todo : List Query)
  | stopped (why : Stop)

/-- A request that was sent, and what the server has sent for it. -/
structure Asked where
  stock : StockCode
  query : Query
  bytes : List Byte

structure Thread where
  worker : Quotation.Worker
  place : Place
  /-- The statements given to `sqlite3_exec`, each with the database file. -/
  executed : List (List Char × List Char)
  asked : List Asked

def Thread.start : Thread := ⟨Quotation.start, .outside, [], []⟩

/-- What the network does in a step: the result of `send`, the bytes that come in when the
request is out, and what the `recv` calls do. -/
structure Net where
  sendRet : Option ℤ
  bytes : List Byte
  moves : List Move

structure Input where
  quit : Bool
  connectRet : ℤ
  net : Net

section Work

variable {D : Type} (env : Env D) (m_csDataPath : List Char) (quo : CQuotation)

/-- The stock of the round, `m_stockcode[i]`. -/
def stockAt (t : Thread) : StockCode :=
  match t.worker.phase with
  | .stocks i => quo.m_stockcode.getD i Dialog.zeroed
  | _ => Dialog.zeroed

def Thread.Enters (t : Thread) : Prop := ∃ i < quo.m_iStockNum, t.worker.phase = .stocks i

instance entersDecidable (t : Thread) : Decidable (t.Enters quo) :=
  match h : t.worker.phase with
  | .stocks i =>
    if hi : i < quo.m_iStockNum then isTrue ⟨i, hi, h⟩
    else isFalse (by
      rintro ⟨j, hj, hphase⟩
      rw [h] at hphase
      cases hphase
      exact hi hj)
  | .poll | .connect | .exited => isFalse (by
      rintro ⟨j, -, hphase⟩
      rw [h] at hphase
      cases hphase)

def Thread.next (input : Input) (t : Thread) : Thread :=
  { t with
    worker := Quotation.runStep quo.m_iStockNum ⟨input.quit, input.connectRet⟩ t.worker
    place := .outside }

/-- The `do … while` loop over the rows, with the buffer as the call has left it. -/
def Thread.store (q : Query) (todo : List Query) (szResult : List Char) (t : Thread) : Thread :=
  match Text.cStr szResult with
  | none => { t with place := .stopped (.fault .invalidAccess) }
  | some szResult =>
    { t with
      place := .ask todo
      executed := t.executed ++
        (statements q szResult).map fun csSQL => (csDbPath m_csDataPath (stockAt quo t), csSQL) }

def before (q : Query) (inbox : List Byte) (net : Net) : CallState :=
  ⟨⟨inbox, net.moves, net.sendRet⟩, [], q.count, zeroed⟩

/-- One step of `Run`, with the unread bytes on the connection before and after it. -/
def work (skHQ : ℕ → Option Handle) (input : Input) (t : Thread) (inbox : List Byte) :
    Thread × List Byte :=
  match t.place with
  | .outside =>
    -- the body of the `for` loop; all else is a step of `Quotation`
    if t.Enters quo then ({ t with place := .ask [min30, min5] }, inbox)
    else (t.next quo input, inbox)
  | .ask [] => (t.next quo input, inbox)
  | .ask (q :: todo) =>
    match request env skHQ t.worker.conID (callFor q (stockAt quo t))
        (before q inbox input.net) with
    | .ok none _ =>
      ({ t with
        place := .await q todo
        asked := t.asked ++ [⟨stockAt quo t, q, input.net.bytes⟩] }, inbox ++ input.net.bytes)
    -- the call has returned an error, and the buffer is taken apart all the same
    | .ok (some _) s => (t.store m_csDataPath quo q todo s.szResult, inbox ++ input.net.bytes)
    | .error why _ => ({ t with place := .stopped why }, inbox)
  | .await q todo =>
    match receive env q.Category (before q inbox input.net) with
    | .ok _ s => (t.store m_csDataPath quo q todo s.szResult, s.socket.inbox)
    | .error why s => ({ t with place := .stopped why }, s.socket.inbox)
  | .stopped _ => (t, inbox)

/-- `OnTimer`, as far as this worker is concerned. -/
def Thread.onTimer (t : Thread) : Thread := { t with worker := Quotation.onTimer t.worker }

structure Alone where
  thread : Thread
  inbox : List Byte

def Alone.start : Alone := ⟨Thread.start, []⟩

inductive Action
  | timer
  | work (input : Input)

/-- A step of a worker that has a connection for itself, whatever id it was given. -/
def aloneStep (l : Alone) : Action → Alone
  | .timer => { l with thread := l.thread.onTimer }
  | .work input =>
    let r := work env m_csDataPath quo (fun _ => some 0) input l.thread l.inbox
    ⟨r.1, r.2⟩

/-- The step of `Quotation` in a step of the worker, if there is one. -/
def coarse (l : Alone) : Action → List Quotation.Action
  | .timer => [.timer]
  | .work input =>
    match l.thread.place with
    | .outside => if l.thread.Enters quo then [] else [.work ⟨input.quit, input.connectRet⟩]
    | .ask [] => [.work ⟨input.quit, input.connectRet⟩]
    | _ => []

variable {env m_csDataPath quo}

@[simp] theorem store_worker (q : Query) (todo : List Query) (szResult : List Char) (t : Thread) :
    (t.store m_csDataPath quo q todo szResult).worker = t.worker := by
  unfold Thread.store
  split <;> rfl

@[simp] theorem store_asked (q : Query) (todo : List Query) (szResult : List Char) (t : Thread) :
    (t.store m_csDataPath quo q todo szResult).asked = t.asked := by
  unfold Thread.store
  split <;> rfl

variable (env m_csDataPath quo) in
theorem asked_work (skHQ : ℕ → Option Handle) (input : Input) (t : Thread) (inbox : List Byte)
    (a : Asked) (ha : a ∈ (work env m_csDataPath quo skHQ input t inbox).1.asked) :
    a ∈ t.asked ∨ a.bytes = input.net.bytes := by
  unfold work at ha
  cases hplace : t.place with
  | outside =>
    simp only [hplace] at ha
    split_ifs at ha
    · exact Or.inl ha
    · exact Or.inl ha
  | ask todo =>
    cases todo with
    | nil =>
      simp only [hplace] at ha
      exact Or.inl ha
    | cons q todo =>
      simp only [hplace] at ha
      split at ha
      · rcases List.mem_append.mp ha with ha | ha
        · exact Or.inl ha
        · rw [List.mem_singleton.mp ha]
          exact Or.inr rfl
      · rw [store_asked] at ha
        exact Or.inl ha
      · exact Or.inl ha
  | await q todo =>
    simp only [hplace] at ha
    split at ha
    · rw [store_asked] at ha
      exact Or.inl ha
    · exact Or.inl ha
  | stopped why =>
    simp only [hplace] at ha
    exact Or.inl ha

/-- The steps for one stock are one step of `Quotation`, all others are its own. -/
theorem worker_aloneStep (l : Alone) (a : Action) :
    (aloneStep env m_csDataPath quo l a).thread.worker =
      (coarse quo l a).foldl (Quotation.step quo.m_iStockNum) l.thread.worker := by
  cases a with
  | timer => rfl
  | work input =>
    simp only [aloneStep, work, coarse]
    cases l.thread.place with
    | outside => split_ifs <;> rfl
    | ask todo =>
      cases todo with
      | nil => rfl
      | cons q todo =>
        dsimp only
        split
        · rfl
        · exact store_worker _ _ _ _
        · rfl
    | await q todo =>
      dsimp only
      split
      · exact store_worker _ _ _ _
      · rfl
    | stopped why => rfl

variable (env m_csDataPath quo) in
theorem worker_foldl (l : Alone) (actions : List Action) :
    (actions.foldl (aloneStep env m_csDataPath quo) l).thread.worker =
      (Runs.trace (aloneStep env m_csDataPath quo) (coarse quo) l actions).foldl
        (Quotation.step quo.m_iStockNum) l.thread.worker := by
  have hall : Runs.Meets (aloneStep env m_csDataPath quo) (fun _ _ => True) l actions :=
    Runs.meets_of_inv (I := fun _ => True) (by simp) (fun _ _ _ _ => trivial) trivial
  exact Runs.view_foldl (fun l : Alone => l.thread.worker) (I := fun _ => True)
    (fun _ _ _ _ => trivial) (fun l a _ _ => worker_aloneStep l a) trivial hall

def Thread.dials (t : Thread) : Bool :=
  match t.place, t.worker.phase with
  | .outside, .connect => t.worker.conID < 0
  | _, _ => false

/-- In the loop over the stocks the worker has an id, and calls are made only for a stock. -/
structure Thread.Sane (quo : CQuotation) (t : Thread) : Prop where
  enters : t.place ≠ .outside → t.Enters quo
  connected : ∀ i, t.worker.phase = .stocks i → 0 ≤ t.worker.conID

theorem Thread.Sane.conID_nonneg {t : Thread} (h : t.Sane quo) (hplace : t.place ≠ .outside) :
    0 ≤ t.worker.conID := by
  obtain ⟨i, -, hphase⟩ := h.enters hplace
  exact h.connected i hphase

/-- Out of the stocks, a step of `Run` ends the thread, begins or ends a cycle, takes over a new
id, enters the loop over the stocks with one, or does nothing. -/
theorem next_cases (input : Input) {t : Thread} (h : ¬ t.Enters quo) :
    (t.next quo input).worker = t.worker ∨
    (t.next quo input).worker = { t.worker with phase := .exited } ∨
    (t.next quo input).worker =
      { t.worker with phase := .connect, log := t.worker.log ++ [.began] } ∨
    (t.worker.phase = .connect ∧ t.worker.conID < 0 ∧
      (t.next quo input).worker = { t.worker with conID := input.connectRet }) ∨
    (0 ≤ t.worker.conID ∧ (t.next quo input).worker = { t.worker with phase := .stocks 0 }) ∨
    (t.next quo input).worker =
      { t.worker with
        g_bGetQuotation := false, phase := .poll, log := t.worker.log ++ [.ended] } := by
  simp only [Thread.next, Quotation.runStep]
  cases hphase : t.worker.phase with
  | poll =>
    dsimp only
    split_ifs
    · exact Or.inr (Or.inl rfl)
    · exact Or.inr (Or.inr (Or.inl rfl))
    · exact Or.inl rfl
  | connect =>
    dsimp only
    split_ifs with hneg
    · exact Or.inr (Or.inr (Or.inr (Or.inl ⟨rfl, hneg, rfl⟩)))
    · exact Or.inr (Or.inr (Or.inr (Or.inr (Or.inl ⟨Int.not_lt.mp hneg, rfl⟩))))
  | stocks i =>
    have hi : ¬ i < quo.m_iStockNum := fun hi => h ⟨i, hi, hphase⟩
    dsimp only
    rw [if_neg hi]
    exact Or.inr (Or.inr (Or.inr (Or.inr (Or.inr rfl))))
  | exited => exact Or.inl rfl

variable (env m_csDataPath quo) in
theorem work_inside (skHQ : ℕ → Option Handle) (input : Input) {t : Thread} (inbox : List Byte)
    (hplace : t.place ≠ .outside) (hask : t.place ≠ .ask []) :
    (work env m_csDataPath quo skHQ input t inbox).1.worker = t.worker := by
  unfold work
  cases h : t.place with
  | outside => exact absurd h hplace
  | ask todo =>
    cases todo with
    | nil => exact absurd h hask
    | cons q todo =>
      dsimp only
      split
      · rfl
      · exact store_worker _ _ _ _
      · rfl
  | await q todo =>
    dsimp only
    split
    · exact store_worker _ _ _ _
    · rfl
  | stopped why => rfl

theorem next_round (input : Input) {t : Thread} {i : ℕ} (hi : i < quo.m_iStockNum)
    (hphase : t.worker.phase = .stocks i) :
    (t.next quo input).worker =
      { t.worker with phase := .stocks (i + 1), log := t.worker.log ++ [.stock i] } := by
  simp only [Thread.next, Quotation.runStep, hphase, if_pos hi]

variable (quo) in
theorem conID_next (input : Input) (t : Thread) :
    (t.next quo input).worker.conID =
      if t.worker.phase = .connect ∧ t.worker.conID < 0 then input.connectRet
      else t.worker.conID := by
  simp only [Thread.next, Quotation.runStep]
  cases t.worker.phase with
  | poll =>
    simp only [reduceCtorEq, false_and, if_false]
    split_ifs <;> rfl
  | connect => split_ifs <;> simp_all
  | stocks i =>
    simp only [reduceCtorEq, false_and, if_false]
    split_ifs <;> rfl
  | exited => simp

theorem dials_eq (t : Thread) (hplace : t.place = .outside) :
    t.dials = decide (t.worker.phase = .connect ∧ t.worker.conID < 0) := by
  unfold Thread.dials
  rw [hplace]
  cases t.worker.phase <;> simp

theorem dials_inside {t : Thread} (hplace : t.place ≠ .outside) : t.dials = false := by
  unfold Thread.dials
  split
  · contradiction
  · rfl

theorem conID_work (skHQ : ℕ → Option Handle) (input : Input) {t : Thread} (inbox : List Byte)
    (ht : t.Sane quo) :
    (work env m_csDataPath quo skHQ input t inbox).1.worker.conID =
      if t.dials then input.connectRet else t.worker.conID := by
  by_cases hplace : t.place = .outside
  · have hnext := conID_next quo input t
    simp only [dials_eq t hplace, work, hplace, decide_eq_true_eq]
    split_ifs at hnext ⊢ with henters hdial hdial
    -- in the loop over the stocks the worker does not dial
    · obtain ⟨i, -, hphase⟩ := henters
      exact absurd (hphase.symm.trans hdial.1) (by simp)
    · rfl
    · exact hnext
    · exact hnext
  · rw [dials_inside hplace]
    by_cases hask : t.place = .ask []
    · obtain ⟨i, -, hphase⟩ := ht.enters hplace
      simp only [work, hask, conID_next, hphase]
      simp
    · rw [work_inside env m_csDataPath quo skHQ input inbox hplace hask]
      rfl

theorem sane_work (skHQ : ℕ → Option Handle) (input : Input) {t : Thread} (inbox : List Byte)
    (ht : t.Sane quo) : (work env m_csDataPath quo skHQ input t inbox).1.Sane quo := by
  by_cases hplace : t.place = .outside
  · simp only [work, hplace]
    split_ifs with henters
    · exact ⟨fun _ => henters, ht.connected⟩
    · refine ⟨fun h => absurd rfl h, ?_⟩
      intro k hk
      rcases next_cases input henters with h | h | h | ⟨hphase, -, h⟩ | ⟨hconn, h⟩ | h <;>
        rw [h] at hk ⊢
      · exact ht.connected k hk
      · cases hk
      · cases hk
      · exact absurd (hphase.symm.trans hk) (by simp)
      · exact hconn
      · cases hk
  · have hconn := ht.conID_nonneg hplace
    obtain ⟨i, hi, hphase⟩ := ht.enters hplace
    by_cases hask : t.place = .ask []
    · simp only [work, hask]
      refine ⟨fun h => absurd rfl h, ?_⟩
      intro k _
      rw [next_round input hi hphase]
      exact hconn
    · have hworker := work_inside env m_csDataPath quo skHQ input inbox hplace hask
      exact ⟨fun _ => ⟨i, hi, by rw [hworker]; exact hphase⟩, fun k hk => by
        rw [hworker] at hk ⊢
        exact ht.connected k hk⟩

theorem inbox_work (skHQ : ℕ → Option Handle) (input : Input) {t : Thread} (inbox : List Byte)
    (hplace : t.place = .outside) : (work env m_csDataPath quo skHQ input t inbox).2 = inbox := by
  simp only [work, hplace]
  split_ifs <;> rfl

/-- A worker sees no more of the table than that its slot is in use. -/
theorem work_congr {skHQ skHQ' : ℕ → Option Handle} (input : Input) {t : Thread}
    (inbox : List Byte) (h : t.place ≠ .outside → skHQ t.worker.conID.toNat ≠ none)
    (h' : t.place ≠ .outside → skHQ' t.worker.conID.toNat ≠ none) :
    work env m_csDataPath quo skHQ input t inbox =
      work env m_csDataPath quo skHQ' input t inbox := by
  unfold work
  cases hplace : t.place with
  | ask todo =>
    have hout : t.place ≠ .outside := by simp [hplace]
    cases todo with
    | nil => rfl
    | cons q todo =>
      dsimp only
      rw [request_congr env (h hout) (h' hout)]
  | outside => rfl
  | await q todo => rfl
  | stopped why => rfl

end Work

end TdxHq.Refresh
