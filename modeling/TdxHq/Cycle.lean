import TdxHq.Refresh
import TdxHq.Session

namespace TdxHq.Refresh

open CByteBuffer Request Bars SecurityBars Reception Outcome Replace
open Connection (Handle connectNum)
open Dialog (StockCode CQuotation)

section Stored

variable {D : Type} (env : Env D) (m_csDataPath : List Char) (quo : CQuotation)

/-- The bars in the frame that answers a request. -/
def Asked.bars (a : Asked) : List Bar :=
  let head := a.bytes.take 0x10
  match readTable a.query.Category
      (unzip env (zipedSize head) (uzipedSize head) (a.bytes.drop 0x10)) atStart with
  | .ok bars _ => bars
  | .error _ _ => []

def folder (market : Char) : Option String :=
  if market = '0' then some "SZ" else if market = '1' then some "SH" else none

def fileOf (stock : StockCode) : List Char :=
  match folder (market0 stock) with
  | some name => ['\\'].intercalate [m_csDataPath, name.toList, stock.code ++ ".db".toList]
  | none => m_csDataPath

/-- One statement for each bar, for the file of the stock that was asked for. -/
def Asked.due (a : Asked) : List (List Char × List Char) :=
  (a.bars env).map fun bar => (fileOf m_csDataPath a.stock,
    a.query.insert ++ [','].intercalate (columns env.ops bar) ++ [')'])

def Asked.key (a : Asked) : StockCode × Query := (a.stock, a.query)

/-- The requests of the rounds that are over. -/
def rounds (log : List Quotation.Event) : List (StockCode × Query) :=
  log.flatMap fun e =>
    match e with
    | .stock i => [min30, min5].map fun q => (quo.m_stockcode.getD i Dialog.zeroed, q)
    | _ => []

/-- The bytes are a frame with a table that `szResult` has room for. -/
def IsAnswer (q : Query) (bytes : List Byte) : Prop :=
  ∃ f : Frame, bytes = f.bytes ∧
    ∃ n text, f.table env q.Category = some (n, text) ∧ text.length < 256 * 800

/-- The server does its part, and TCP does not cut a header. -/
def Serves (net : Net) : Place → Prop
  | .ask (q :: _) => net.sendRet = none ∧ IsAnswer env q net.bytes
  | .await _ _ => Delivers net.moves ∧ Session.HeadWhole net.moves
  | _ => True

def Served (l : Alone) : Action → Prop
  | .timer => True
  | .work input => input.connectRet < connectNum ∧ Serves env input.net l.thread.place

/-- What has been asked and executed, by the place of the worker. -/
def Accounted (l : Alone) : Place → Prop
  | .outside => l.inbox = [] ∧ l.thread.executed = l.thread.asked.flatMap (·.due env m_csDataPath) ∧
      l.thread.asked.map Asked.key = rounds quo l.thread.worker.log
  | .ask todo => l.thread.Enters quo ∧ l.inbox = [] ∧
      l.thread.executed = l.thread.asked.flatMap (·.due env m_csDataPath) ∧
      ∃ made, made ++ todo = [min30, min5] ∧ l.thread.asked.map Asked.key =
        rounds quo l.thread.worker.log ++ made.map fun q => (stockAt quo l.thread, q)
  | .await q todo => l.thread.Enters quo ∧ IsAnswer env q l.inbox ∧
      ∃ made sofar, made ++ q :: todo = [min30, min5] ∧
        l.thread.asked = sofar ++ [⟨stockAt quo l.thread, q, l.inbox⟩] ∧
        l.thread.executed = sofar.flatMap (·.due env m_csDataPath) ∧
        sofar.map Asked.key =
          rounds quo l.thread.worker.log ++ made.map fun q => (stockAt quo l.thread, q)
  | .stopped _ => False

structure Settled (l : Alone) : Prop where
  conID_lt : l.thread.worker.conID < connectNum
  connected : ∀ i, l.thread.worker.phase = .stocks i → 0 ≤ l.thread.worker.conID
  accounted : Accounted env m_csDataPath quo l l.thread.place

variable {env m_csDataPath quo}

theorem nul_notMem_tableText {ops : Volume.DoubleOps D} (hprint : PlainPrint ops)
    (bars : List Bar) : Text.NUL ∉ tableText ops bars := by
  simp only [tableText, List.mem_append, List.mem_flatMap, not_or, not_exists, not_and]
  refine ⟨by decide, ?_⟩
  intro bar _ hmem
  rw [csLine_eq_row, List.mem_append] at hmem
  rcases hmem with hrow | hnewline
  · exact notMem_row (by decide) (by decide) hprint.nul bar hrow
  · exact absurd hnewline (by decide)

theorem length_le_tableText (ops : Volume.DoubleOps D) (bars : List Bar) :
    bars.length ≤ (tableText ops bars).length := by
  have hlines : bars.length ≤ (bars.flatMap (csLine ops)).length := by
    induction bars with
    | nil => exact Nat.zero_le _
    | cons bar bars ih =>
      rw [List.flatMap_cons, List.length_append, List.length_cons, csLine_eq_row,
        List.length_append, List.length_singleton]
      omega
  rw [tableText, List.length_append]
  omega

theorem statements_tableText {ops : Volume.DoubleOps D} (hprint : PlainPrint ops) (q : Query)
    (bars : List Bar) :
    statements q (tableText ops bars) =
      bars.map fun bar => q.insert ++ [','].intercalate (columns ops bar) ++ [')'] := by
  rw [statements, rowLoop_tableText hprint q.insert bars
    (Nat.lt_succ_of_le (length_le_tableText ops bars))]
  simp only [csSQL, row_eq_columns, Option.map_some, Option.getD_some]

theorem csDbPath_eq (stock : StockCode) :
    csDbPath m_csDataPath stock = fileOf m_csDataPath stock := by
  unfold csDbPath fileOf folder
  split_ifs
  · simp [List.intercalate]
  · simp [List.intercalate]
  · rfl

theorem bars_of_table {f : Frame} {q : Query} {n : ℕ} {text : List Char}
    (htable : f.table env q.Category = some (n, text)) (stock : StockCode) :
    text = tableText env.ops ((⟨stock, q, f.bytes⟩ : Asked).bars env) := by
  rw [Frame.table] at htable
  split at htable
  · next r c hparse =>
    injection htable with hr
    subst hr
    obtain ⟨bars, hread, -, htext⟩ := parseBody_eq_ok hparse
    have hbars : (⟨stock, q, f.bytes⟩ : Asked).bars env = bars := by
      simp only [Asked.bars, Frame.bytes, List.take_left' f.head_length,
        List.drop_left' f.head_length, zipedSize_head, uzipedSize_head, hread]
    rw [hbars, htext]
  · cases htable

/-- A served answer is received whole, and each of its bars goes into the database. -/
theorem work_await (hprint : PlainPrint env.ops) {skHQ : ℕ → Option Handle} {input : Input}
    {t : Thread} {q : Query} {todo : List Query} {inbox : List Byte}
    (hplace : t.place = .await q todo) (hanswer : IsAnswer env q inbox)
    (hd : Delivers input.net.moves) (hhead : Session.HeadWhole input.net.moves) :
    work env m_csDataPath quo skHQ input t inbox =
      ({ t with
        place := .ask todo
        executed := t.executed ++
          (⟨stockAt quo t, q, inbox⟩ : Asked).due env m_csDataPath }, []) := by
  obtain ⟨f, rfl, n, text, htable, hshort⟩ := hanswer
  have hroom : text.length ≤ zeroed.length := by
    rw [zeroed, List.length_replicate]
    omega
  obtain ⟨moves, hreceive⟩ := receive_of_frame (s := before q f.bytes input.net) htable hd rfl
    (Session.pick_head_of_whole hd hhead) hroom
  have htext := bars_of_table htable (stockAt quo t)
  have hcstr : Text.cStr (text ++ zeroed.drop text.length) = some text := by
    apply Text.cStr_of_isCStr
    rw [Text.isCStr_copy_iff (by rw [htext]; exact nul_notMem_tableText hprint _)]
    exact zeroed_getElem? hshort
  -- the zeros of `ZeroMemory` end the text
  have hstore : ((before q f.bytes input.net).left [] moves |>.store n text).szResult =
      text ++ zeroed.drop text.length := rfl
  simp only [work, hplace, hreceive, Thread.store, hstore, hcstr]
  rw [htext, statements_tableText hprint, List.map_map, csDbPath_eq]
  rfl

def CodesFit (quo : CQuotation) : Prop := ∀ stock ∈ quo.m_stockcode, stock.code.length ≤ 6

theorem stockAt_code (hcodes : CodesFit quo) (t : Thread) : (stockAt quo t).code.length ≤ 6 := by
  unfold stockAt
  split
  · next i _ =>
    rw [List.getD_eq_getElem?_getD]
    cases hget : quo.m_stockcode[i]? with
    | none => exact Nat.zero_le _
    | some stock => exact hcodes stock (List.mem_of_getElem? hget)
  · exact Nat.zero_le _

theorem fits_callFor (build : Build) (q : Query) {stock : StockCode} (h : stock.code.length ≤ 6) :
    Fits build (callFor q stock) := by
  have hlen : (zqdm stock.code).strlen ≤ stock.code.length := by
    rw [← List.length_map]
    exact (List.takeWhile_sublist _).length_le
  have hlimit := wordLimit_le build
  apply fits_of_limit
  change 22 + (zqdm stock.code).strlen ≤ limit build
  omega

theorem work_ask (hcodes : CodesFit quo) {skHQ : ℕ → Option Handle} {input : Input} {t : Thread}
    {q : Query} {todo : List Query} (inbox : List Byte) (hplace : t.place = .ask (q :: todo))
    (hid : 0 ≤ t.worker.conID ∧ t.worker.conID < connectNum)
    (hopen : skHQ t.worker.conID.toNat ≠ none) (hsend : input.net.sendRet = none) :
    work env m_csDataPath quo skHQ input t inbox =
      ({ t with
        place := .await q todo
        asked := t.asked ++ [⟨stockAt quo t, q, input.net.bytes⟩] }, inbox ++ input.net.bytes) := by
  have hrequest := request_eq env (s := before q inbox input.net)
    (fits_callFor env.build q (stockAt_code hcodes t)) hid hopen
  rw [show (before q inbox input.net).socket.sendRet = none from hsend, Option.getD_none,
    if_neg (by simp)] at hrequest
  simp only [work, hplace, hrequest]

theorem rounds_append (log : List Quotation.Event) (e : Quotation.Event) :
    rounds quo (log ++ [e]) = rounds quo log ++ rounds quo [e] := by
  rw [rounds, List.flatMap_append]
  rfl

theorem settled_next {l : Alone} {input : Input} (hl : Settled env m_csDataPath quo l)
    (hplace : l.thread.place = .outside) (henters : ¬ l.thread.Enters quo)
    (hret : input.connectRet < connectNum) :
    Settled env m_csDataPath quo ⟨l.thread.next quo input, l.inbox⟩ := by
  have hacc := hl.accounted
  rw [hplace] at hacc
  obtain ⟨hinbox, hexec, hasked⟩ := hacc
  have hsettled : ∀ w : Quotation.Worker, (l.thread.next quo input).worker = w →
      w.conID < connectNum → (∀ i, w.phase = .stocks i → 0 ≤ w.conID) →
      rounds quo w.log = rounds quo l.thread.worker.log →
      Settled env m_csDataPath quo ⟨l.thread.next quo input, l.inbox⟩ := by
    rintro w rfl hlt hconn hrounds
    exact ⟨hlt, hconn, hinbox, hexec, by rw [hrounds]; exact hasked⟩
  rcases next_cases input henters with h | h | h | ⟨hphase, -, h⟩ | ⟨hconn, h⟩ | h
  · exact hsettled _ h hl.conID_lt hl.connected rfl
  · exact hsettled _ h hl.conID_lt (by simp) rfl
  · exact hsettled _ h hl.conID_lt (by simp) (by simp [rounds])
  · refine hsettled _ h hret ?_ rfl
    intro i hi
    exact absurd (hphase.symm.trans hi) (by simp)
  · exact hsettled _ h hl.conID_lt (fun _ _ => hconn) rfl
  · exact hsettled _ h hl.conID_lt (by simp) (by simp [rounds])

theorem settled_round {l : Alone} {input : Input} (hl : Settled env m_csDataPath quo l)
    (hplace : l.thread.place = .ask []) :
    Settled env m_csDataPath quo ⟨l.thread.next quo input, l.inbox⟩ := by
  have hacc := hl.accounted
  rw [hplace] at hacc
  obtain ⟨⟨i, hi, hphase⟩, hinbox, hexec, made, hmade, hasked⟩ := hacc
  rw [List.append_nil] at hmade
  have hworker := next_round input hi hphase
  have hstock : stockAt quo l.thread = quo.m_stockcode.getD i Dialog.zeroed := by
    simp only [stockAt, hphase]
  refine ⟨?_, ?_, hinbox, hexec, ?_⟩
  · rw [hworker]
    exact hl.conID_lt
  · intro j _
    rw [hworker]
    exact hl.connected i hphase
  · dsimp only
    rw [hworker, rounds_append]
    change l.thread.asked.map Asked.key = _
    rw [hasked, hmade, hstock]
    rfl

variable (m_csDataPath) in
/-- As long as the server does its part, so does the worker. -/
theorem settled_aloneStep (hprint : PlainPrint env.ops) (hcodes : CodesFit quo) (l : Alone)
    (a : Action) (hl : Settled env m_csDataPath quo l) (hs : Served env l a) :
    Settled env m_csDataPath quo (aloneStep env m_csDataPath quo l a) := by
  have hacc := hl.accounted
  cases a with
  | timer =>
    refine ⟨hl.conID_lt, hl.connected, ?_⟩
    -- a tick is no round
    have hrounds : rounds quo (l.thread.worker.log ++ [.fired]) =
        rounds quo l.thread.worker.log := by
      rw [rounds_append]
      exact List.append_nil _
    change Accounted env m_csDataPath quo _ l.thread.place
    cases hplace : l.thread.place with
    | outside =>
      rw [hplace] at hacc
      exact ⟨hacc.1, hacc.2.1, hacc.2.2.trans hrounds.symm⟩
    | ask todo =>
      rw [hplace] at hacc
      obtain ⟨henters, hinbox, hexec, made, hmade, hasked⟩ := hacc
      refine ⟨henters, hinbox, hexec, made, hmade, hasked.trans ?_⟩
      exact congrArg (· ++ _) hrounds.symm
    | await q todo =>
      rw [hplace] at hacc
      obtain ⟨henters, hanswer, made, sofar, hmade, hasked, hexec, hkeys⟩ := hacc
      refine ⟨henters, hanswer, made, sofar, hmade, hasked, hexec, hkeys.trans ?_⟩
      exact congrArg (· ++ _) hrounds.symm
    | stopped why =>
      rw [hplace] at hacc
      exact hacc
  | work input =>
    obtain ⟨hret, hs⟩ := hs
    cases hplace : l.thread.place with
    | outside =>
      rw [hplace] at hacc
      simp only [aloneStep, work, hplace]
      split_ifs with henters
      -- both queries of the stock are still to be made
      · exact ⟨hl.conID_lt, hl.connected, henters, hacc.1, hacc.2.1, [], rfl, by
          rw [List.map_nil, List.append_nil]
          exact hacc.2.2⟩
      · exact settled_next hl hplace henters hret
    | ask todo =>
      cases todo with
      | nil =>
        simp only [aloneStep, work, hplace]
        exact settled_round hl hplace
      | cons q todo =>
        rw [hplace] at hs hacc
        obtain ⟨⟨i, hi, hphase⟩, hinbox, hexec, made, hmade, hasked⟩ := hacc
        simp only [aloneStep]
        rw [work_ask hcodes l.inbox hplace ⟨hl.connected i hphase, hl.conID_lt⟩ (by simp) hs.1,
          hinbox]
        -- the answer is on the socket, and nothing else is
        exact ⟨hl.conID_lt, hl.connected, ⟨i, hi, hphase⟩, hs.2, made, l.thread.asked, hmade,
          rfl, hexec, hasked⟩
    | await q todo =>
      rw [hplace] at hs hacc
      obtain ⟨henters, hanswer, made, sofar, hmade, hasked, hexec, hkeys⟩ := hacc
      simp only [aloneStep]
      rw [work_await hprint hplace hanswer hs.1 hs.2]
      -- the frame is received whole, so the socket is empty again
      refine ⟨hl.conID_lt, hl.connected, henters, rfl, ?_, made ++ [q], ?_, ?_⟩
      · dsimp only
        rw [hasked, hexec, List.flatMap_append]
        simp
      · rw [List.append_assoc]
        exact hmade
      · dsimp only
        rw [hasked, List.map_append, hkeys, List.map_append, List.append_assoc]
        rfl
    | stopped why =>
      rw [hplace] at hacc
      exact hacc.elim

theorem settled_start : Settled env m_csDataPath quo Alone.start :=
  ⟨by decide, by simp [Alone.start, Thread.start, Quotation.start], rfl, rfl, rfl⟩

def Place.after : Place → Place
  | .outside => .outside
  | .ask [] => .outside
  | .ask (q :: todo) => .await q todo
  | .await _ todo => .ask todo
  | .stopped why => .stopped why

theorem served_inside (hprint : PlainPrint env.ops) (hcodes : CodesFit quo) {l : Alone}
    {input : Input} (hl : Settled env m_csDataPath quo l) (hs : Served env l (.work input))
    (hplace : l.thread.place ≠ .outside) :
    (aloneStep env m_csDataPath quo l (.work input)).thread.place = l.thread.place.after ∧
      (l.thread.place ≠ .ask [] →
        (aloneStep env m_csDataPath quo l (.work input)).thread.worker = l.thread.worker) := by
  refine ⟨?_, fun hask => work_inside env m_csDataPath quo _ input l.inbox hplace hask⟩
  obtain ⟨-, hs⟩ := hs
  have hacc := hl.accounted
  cases h : l.thread.place with
  | outside => exact absurd h hplace
  | ask todo =>
    cases todo with
    | nil =>
      simp only [aloneStep, work, h]
      rfl
    | cons q todo =>
      rw [h] at hs hacc
      obtain ⟨i, -, hphase⟩ := hacc.1
      simp only [aloneStep]
      rw [work_ask hcodes l.inbox h ⟨hl.connected i hphase, hl.conID_lt⟩ (by simp) hs.1]
      rfl
  | await q todo =>
    rw [h] at hs hacc
    simp only [aloneStep]
    rw [work_await hprint h hacc.2.1 hs.1 hs.2]
    rfl
  | stopped why =>
    rw [h] at hacc
    exact hacc.elim

def Place.left : Place → ℕ
  | .outside => 0
  | .ask todo => 2 * todo.length + 1
  | .await _ todo => 2 * todo.length + 2
  | .stopped _ => 0

theorem left_after {p : Place} (hp : p ≠ .outside) (hstop : ∀ why, p ≠ .stopped why) :
    p.left = p.after.left + 1 := by
  cases p with
  | outside => exact absurd rfl hp
  | ask todo => cases todo <;> simp [Place.left, Place.after, Nat.mul_add]
  | await q todo => rfl
  | stopped why => exact absurd rfl (hstop why)

theorem after_ne_outside {p : Place} (hp : p ≠ .outside) (hask : p ≠ .ask []) :
    p.after ≠ .outside := by
  cases p with
  | outside => exact absurd rfl hp
  | ask todo =>
    cases todo with
    | nil => exact absurd rfl hask
    | cons q todo => simp [Place.after]
  | await q todo => simp [Place.after]
  | stopped why => simp [Place.after]

variable (quo) in
/-- The steps of the worker that are left of the cycle. -/
def stepsLeft (t : Thread) : ℕ :=
  match t.worker.phase, t.place with
  | .connect, _ => 6 * quo.m_iStockNum + 2
  | .stocks i, .outside => 6 * (quo.m_iStockNum - i) + 1
  | .stocks i, place => place.left + 6 * (quo.m_iStockNum - (i + 1)) + 1
  | _, _ => 0

variable (quo) in
def requestsFrom (i : ℕ) : List (StockCode × Query) :=
  rounds quo ((List.range' i (quo.m_iStockNum - i)).map .stock)

variable (quo) in
def toCome (t : Thread) : List (StockCode × Query) :=
  match t.worker.phase with
  | .connect => requestsFrom quo 0
  | .stocks i => requestsFrom quo i
  | _ => []

variable (quo) in
/-- The worker has its connection and is in a cycle, or has just ended it. -/
def InCycle (t : Thread) : Prop :=
  (t.worker.phase = .connect ∧ 0 ≤ t.worker.conID) ∨
    (∃ i ≤ quo.m_iStockNum, t.worker.phase = .stocks i) ∨ t.worker.phase = .poll

def Action.isWork : Action → Bool
  | .timer => false
  | .work _ => true

theorem requestsFrom_of_lt {i : ℕ} (hi : i < quo.m_iStockNum) :
    requestsFrom quo i = rounds quo [.stock i] ++ requestsFrom quo (i + 1) := by
  obtain ⟨k, hk⟩ := Nat.exists_eq_add_of_lt hi
  have h₁ : quo.m_iStockNum - i = k + 1 := by omega
  have h₂ : quo.m_iStockNum - (i + 1) = k := by omega
  rw [requestsFrom, requestsFrom, h₁, h₂, List.range'_succ]
  rfl

theorem requestsFrom_self : requestsFrom quo quo.m_iStockNum = [] := by
  simp [requestsFrom, rounds]

theorem stepsLeft_outside {t : Thread} {i : ℕ} (hphase : t.worker.phase = .stocks i)
    (hplace : t.place = .outside) : stepsLeft quo t = 6 * (quo.m_iStockNum - i) + 1 := by
  simp only [stepsLeft, hphase, hplace]

theorem stepsLeft_inside {t : Thread} {i : ℕ} (hphase : t.worker.phase = .stocks i)
    (hplace : t.place ≠ .outside) :
    stepsLeft quo t = t.place.left + 6 * (quo.m_iStockNum - (i + 1)) + 1 := by
  simp only [stepsLeft, hphase]

theorem Settled.outside {l : Alone} (hl : Settled env m_csDataPath quo l)
    (hphase : ∀ i, l.thread.worker.phase ≠ .stocks i) : l.thread.place = .outside := by
  have hacc := hl.accounted
  cases h : l.thread.place with
  | outside => rfl
  | ask todo =>
    rw [h] at hacc
    obtain ⟨i, -, hi⟩ := hacc.1
    exact absurd hi (hphase i)
  | await q todo =>
    rw [h] at hacc
    obtain ⟨i, -, hi⟩ := hacc.1
    exact absurd hi (hphase i)
  | stopped why =>
    rw [h] at hacc
    exact hacc.elim

theorem Settled.enters {l : Alone} (hl : Settled env m_csDataPath quo l)
    (hplace : l.thread.place ≠ .outside) :
    l.thread.Enters quo ∧ ∀ why, l.thread.place ≠ .stopped why := by
  have hacc := hl.accounted
  cases h : l.thread.place with
  | outside => exact absurd h hplace
  | ask todo =>
    rw [h] at hacc
    exact ⟨hacc.1, by simp⟩
  | await q todo =>
    rw [h] at hacc
    exact ⟨hacc.1, by simp⟩
  | stopped why =>
    rw [h] at hacc
    exact hacc.elim

/-- A step of the worker that brings the end of its cycle nearer by one; a round that it ends
is no longer to come. -/
structure Nearer (quo : CQuotation) (t t' : Thread) : Prop where
  inCycle : InCycle quo t'
  left : stepsLeft quo t' + 1 = stepsLeft quo t
  rounds_eq : rounds quo t'.worker.log ++ toCome quo t' = rounds quo t.worker.log ++ toCome quo t
  ended : t'.worker.phase = .poll → .ended ∈ t'.worker.log

theorem nearer_connect {t : Thread} {input : Input} (hphase : t.worker.phase = .connect)
    (hid : 0 ≤ t.worker.conID) : Nearer quo t (t.next quo input) := by
  have hworker : (t.next quo input).worker = { t.worker with phase := .stocks 0 } := by
    simp only [Thread.next, Quotation.runStep, hphase, if_neg (Int.not_lt.mpr hid)]
  refine ⟨Or.inr (Or.inl ⟨0, Nat.zero_le _, by rw [hworker]⟩), ?_, ?_, by simp [hworker]⟩
  · rw [stepsLeft_outside (i := 0) (by rw [hworker]) rfl]
    simp only [stepsLeft, hphase]
    omega
  · simp only [toCome, hworker, hphase]

theorem nearer_round {t : Thread} {input : Input} {i : ℕ} (hphase : t.worker.phase = .stocks i)
    (hi : i < quo.m_iStockNum) (hplace : t.place = .ask []) :
    Nearer quo t (t.next quo input) := by
  have hworker := next_round input hi hphase
  refine ⟨Or.inr (Or.inl ⟨i + 1, hi, by rw [hworker]⟩), ?_, ?_, by simp [hworker]⟩
  · rw [stepsLeft_outside (i := i + 1) (by rw [hworker]) rfl,
      stepsLeft_inside hphase (by simp [hplace]), hplace, Place.left, List.length_nil]
    omega
  · simp only [toCome, hworker, hphase]
    rw [rounds_append, requestsFrom_of_lt hi, List.append_assoc]

theorem nearer_end {t : Thread} {input : Input}
    (hphase : t.worker.phase = .stocks quo.m_iStockNum) (hplace : t.place = .outside) :
    Nearer quo t (t.next quo input) := by
  have hworker : (t.next quo input).worker = { t.worker with
      g_bGetQuotation := false, phase := .poll, log := t.worker.log ++ [.ended] } := by
    simp only [Thread.next, Quotation.runStep, hphase, if_neg (Nat.lt_irrefl _)]
  refine ⟨Or.inr (Or.inr (by rw [hworker])), ?_, ?_, fun _ => by simp [hworker]⟩
  · rw [stepsLeft_outside hphase hplace, Nat.sub_self]
    simp only [stepsLeft, hworker]
  · simp only [toCome, hworker, hphase]
    rw [rounds_append, requestsFrom_self]
    simp [rounds]

theorem nearer_inside {t t' : Thread} {i : ℕ} (hphase : t.worker.phase = .stocks i)
    (hi : i < quo.m_iStockNum) (hworker : t'.worker = t.worker) (hplace' : t'.place ≠ .outside)
    (hleft : stepsLeft quo t = t'.place.left + 1 + 6 * (quo.m_iStockNum - (i + 1)) + 1) :
    Nearer quo t t' := by
  refine ⟨Or.inr (Or.inl ⟨i, hi.le, by rw [hworker]; exact hphase⟩), ?_, ?_, by
    simp [hworker, hphase]⟩
  · rw [stepsLeft_inside (by rw [hworker]; exact hphase) hplace', hleft]
    omega
  · simp only [toCome, hworker]

theorem nearer_work (hprint : PlainPrint env.ops) (hcodes : CodesFit quo) {l : Alone}
    {input : Input} (hl : Settled env m_csDataPath quo l) (hs : Served env l (.work input))
    (hc : InCycle quo l.thread) (hleft : 0 < stepsLeft quo l.thread) :
    Nearer quo l.thread (aloneStep env m_csDataPath quo l (.work input)).thread := by
  rcases hc with ⟨hphase, hid⟩ | ⟨i, hi, hphase⟩ | hphase
  · have hplace := hl.outside (by simp [hphase])
    have henters : ¬ l.thread.Enters quo := by
      rintro ⟨i, -, hi⟩
      exact absurd (hphase.symm.trans hi) (by simp)
    simp only [aloneStep, work, hplace, if_neg henters]
    exact nearer_connect hphase hid
  · by_cases hplace : l.thread.place = .outside
    · by_cases hlt : i < quo.m_iStockNum
      · simp only [aloneStep, work, hplace]
        rw [if_pos ⟨i, hlt, hphase⟩]
        refine nearer_inside hphase hlt ?_ ?_ ?_
        · rfl
        · simp
        · rw [stepsLeft_outside hphase hplace]
          simp only [Place.left, List.length_cons, List.length_nil]
          omega
      -- behind the last stock
      · obtain rfl : i = quo.m_iStockNum := by omega
        have henters : ¬ l.thread.Enters quo := by
          rintro ⟨j, hj, hphase'⟩
          rw [hphase] at hphase'
          injection hphase' with hij
          omega
        simp only [aloneStep, work, hplace, if_neg henters]
        exact nearer_end hphase hplace
    · obtain ⟨⟨j, hj, hphase'⟩, hstop⟩ := hl.enters hplace
      obtain rfl : i = j := by
        rw [hphase] at hphase'
        injection hphase'
      obtain ⟨hafter, hworker⟩ := served_inside hprint hcodes hl hs hplace
      by_cases hask : l.thread.place = .ask []
      · simp only [aloneStep, work, hask]
        exact nearer_round hphase hj hask
      · apply nearer_inside hphase hj (hworker hask)
        · rw [hafter]
          exact after_ne_outside hplace hask
        · rw [stepsLeft_inside hphase hplace, left_after hplace hstop, hafter]
  · simp only [stepsLeft, hphase] at hleft
    exact absurd hleft (Nat.lt_irrefl 0)

theorem toCome_eq_nil {t : Thread} (hc : InCycle quo t) (hleft : stepsLeft quo t = 0) :
    t.worker.phase = .poll ∧ toCome quo t = [] := by
  rcases hc with ⟨hphase, -⟩ | ⟨i, -, hphase⟩ | hphase
  · simp only [stepsLeft, hphase] at hleft
    omega
  · by_cases hplace : t.place = .outside
    · rw [stepsLeft_outside hphase hplace] at hleft
      omega
    · rw [stepsLeft_inside hphase hplace] at hleft
      omega
  · exact ⟨hphase, by simp only [toCome, hphase]⟩

theorem run_cycle_alone (hprint : PlainPrint env.ops) (hcodes : CodesFit quo)
    (actions : List Action) {l : Alone} (hl : Settled env m_csDataPath quo l)
    (hs : Runs.Meets (aloneStep env m_csDataPath quo) (Served env) l actions)
    (hc : InCycle quo l.thread)
    (hended : l.thread.worker.phase = .poll → .ended ∈ l.thread.worker.log)
    (hcount : actions.countP Action.isWork = stepsLeft quo l.thread) :
    (actions.foldl (aloneStep env m_csDataPath quo) l).thread.worker.phase = .poll ∧
      .ended ∈ (actions.foldl (aloneStep env m_csDataPath quo) l).thread.worker.log ∧
      rounds quo (actions.foldl (aloneStep env m_csDataPath quo) l).thread.worker.log =
        rounds quo l.thread.worker.log ++ toCome quo l.thread := by
  induction actions generalizing l with
  | nil =>
    obtain ⟨hphase, hnil⟩ := toCome_eq_nil hc hcount.symm
    refine ⟨hphase, hended hphase, ?_⟩
    rw [hnil, List.append_nil]
    rfl
  | cons a actions ih =>
    have hnext := settled_aloneStep m_csDataPath hprint hcodes l a hl hs.1
    rw [List.foldl_cons]
    cases a with
    | timer =>
      -- a tick does not count as a step of the worker
      rw [List.countP_cons_of_neg (by decide)] at hcount
      obtain ⟨hphase, hend, hrounds⟩ := ih hnext hs.2 hc
        (fun h => List.mem_append_left _ (hended h)) hcount
      refine ⟨hphase, hend, hrounds.trans ?_⟩
      change rounds quo (l.thread.worker.log ++ [.fired]) ++ toCome quo l.thread = _
      rw [rounds_append, show rounds quo [.fired] = [] from rfl, List.append_nil]
    | work input =>
      rw [List.countP_cons_of_pos rfl] at hcount
      have hnear := nearer_work hprint hcodes hl hs.1 hc (by omega)
      have hleft := hnear.left
      obtain ⟨hphase, hend, hrounds⟩ := ih hnext hs.2 hnear.inCycle hnear.ended (by omega)
      exact ⟨hphase, hend, hrounds.trans hnear.rounds_eq⟩

variable (env m_csDataPath quo) in
theorem asked_foldl (l : Alone) (actions : List Action) (a : Asked)
    (ha : a ∈ (actions.foldl (aloneStep env m_csDataPath quo) l).thread.asked) :
    a ∈ l.thread.asked ∨ ∃ input, .work input ∈ actions ∧ a.bytes = input.net.bytes := by
  have hrecord := Runs.mem_record_foldl (f := fun l : Alone => l.thread.asked)
    (Q := fun action r => ∃ input, action = .work input ∧ r.bytes = input.net.bytes) ?_ ha
  · refine hrecord.imp_right ?_
    rintro ⟨_, hmem, input, rfl, hbytes⟩
    exact ⟨input, hmem, hbytes⟩
  intro l action r hr
  cases action with
  | timer => exact Or.inl hr
  | work input =>
    exact (asked_work env m_csDataPath quo _ _ _ _ r hr).imp_right fun h => ⟨input, rfl, h⟩

theorem requestsFrom_zero (hnum : quo.m_iStockNum ≤ quo.m_stockcode.length) :
    requestsFrom quo 0 = quo.stocks.flatMap fun stock => [(stock, min30), (stock, min5)] := by
  have hstocks : quo.stocks = (List.range' 0 quo.m_iStockNum).map
      fun i => quo.m_stockcode.getD i Dialog.zeroed := by
    apply List.ext_getElem
    · rw [CQuotation.stocks, List.length_take_of_le hnum, List.length_map, List.length_range']
    · intro k hk _
      rw [CQuotation.stocks, List.length_take_of_le hnum] at hk
      simp only [CQuotation.stocks, List.getElem_take, List.getElem_map, List.getElem_range',
        Nat.zero_add, Nat.one_mul]
      rw [List.getD_eq_getElem]
  rw [requestsFrom, rounds, hstocks, List.flatMap_map, List.flatMap_map, Nat.sub_zero]
  rfl

/-- In every served run, also one in which the timer fires again and again, a worker that has
its connection and begins a cycle ends it after six steps for each stock and two more.  By then
it has asked for both kinds of bars of each of its stocks, in order, and what it has executed
is one statement for each bar in what the server has sent. -/
theorem cycle_stored (hprint : PlainPrint env.ops) (hcodes : CodesFit quo)
    (hnum : quo.m_iStockNum ≤ quo.m_stockcode.length) (before cycle : List Action)
    (hs : Runs.Meets (aloneStep env m_csDataPath quo) (Served env) Alone.start (before ++ cycle))
    (l l' : Alone) (hl : before.foldl (aloneStep env m_csDataPath quo) Alone.start = l)
    (hl' : cycle.foldl (aloneStep env m_csDataPath quo) l = l')
    (hphase : l.thread.worker.phase = .connect) (hid : 0 ≤ l.thread.worker.conID)
    (hcount : cycle.countP Action.isWork = 6 * quo.m_iStockNum + 2) :
    l'.thread.place = .outside ∧ l'.thread.worker.phase = .poll ∧ l'.inbox = [] ∧
      l'.thread.asked.map Asked.key = l.thread.asked.map Asked.key ++
        quo.stocks.flatMap (fun stock => [(stock, min30), (stock, min5)]) ∧
      (∀ a ∈ l'.thread.asked, ∃ input, .work input ∈ before ++ cycle ∧
        a.bytes = input.net.bytes) ∧
      l'.thread.executed = l'.thread.asked.flatMap (·.due env m_csDataPath) := by
  -- what was asked before the cycle is from this run too
  have hbytes := asked_foldl env m_csDataPath quo Alone.start (before ++ cycle)
  rw [List.foldl_append, hl, hl'] at hbytes
  obtain ⟨hbefore, hcycle⟩ := Runs.meets_append.mp hs
  have hkeep := settled_aloneStep m_csDataPath hprint hcodes
  have hsettled := (Runs.always_of_meets hkeep settled_start hbefore).last
  rw [hl] at hcycle hsettled
  have hsettled' := (Runs.always_of_meets hkeep hsettled hcycle).last
  -- six steps a stock, one into the loop and one out of it
  have hleft : stepsLeft quo l.thread = 6 * quo.m_iStockNum + 2 := by
    simp only [stepsLeft, hphase]
  obtain ⟨hphase', -, hrounds⟩ := run_cycle_alone hprint hcodes cycle hsettled hcycle
    (Or.inl ⟨hphase, hid⟩) (by simp [hphase]) (hcount.trans hleft.symm)
  rw [hl'] at hphase' hrounds hsettled'
  have hplace := hsettled.outside (by simp [hphase])
  have hplace' := hsettled'.outside (by simp [hphase'])
  have hacc := hsettled.accounted
  have hacc' := hsettled'.accounted
  rw [hplace] at hacc
  rw [hplace'] at hacc'
  refine ⟨hplace', hphase', hacc'.1, ?_, ?_, hacc'.2.1⟩
  · rw [hacc'.2.2, hrounds, hacc.2.2, ← requestsFrom_zero hnum]
    simp only [toCome, hphase]
  · intro a ha
    exact (hbytes a ha).resolve_left (by simp [Alone.start, Thread.start])

theorem served_of_answers {l : Alone} {input : Input} (hl : Settled env m_csDataPath quo l)
    (hret : input.connectRet < connectNum) (hsend : input.net.sendRet = none)
    (hanswer : ∀ q ∈ [min30, min5], IsAnswer env q input.net.bytes)
    (hd : Delivers input.net.moves) (hhead : Session.HeadWhole input.net.moves) :
    Served env l (.work input) := by
  refine ⟨hret, ?_⟩
  have hacc := hl.accounted
  cases h : l.thread.place with
  | outside => trivial
  | ask todo =>
    rw [h] at hacc
    obtain ⟨-, -, -, made, hmade, -⟩ := hacc
    cases todo with
    | nil => trivial
    | cons q todo =>
      refine ⟨hsend, hanswer q ?_⟩
      rw [← hmade]
      simp
  | await q todo => exact ⟨hd, hhead⟩
  | stopped why => trivial

end Stored

def oneStock : CQuotation := ⟨0, 1, [⟨"000001".toList, "0".toList⟩], false⟩

def sampleInput : Input := ⟨false, 0, ⟨none, min30Frame.bytes, []⟩⟩

theorem min30Frame_answers : ∀ q ∈ [min30, min5], IsAnswer sampleEnv q min30Frame.bytes := by
  intro q hq
  have hq' : q.Category = 2 ∨ q.Category = 0 := by
    simp only [List.mem_cons, List.not_mem_nil, or_false] at hq
    rcases hq with rfl | rfl
    · exact Or.inl rfl
    · exact Or.inr rfl
  have htable : ∃ n text, min30Frame.table sampleEnv q.Category = some (n, text) ∧
      text.length < 256 * 800 := by
    rcases hq' with h | h <;> rw [h]
    · exact ⟨2, rows Volume.exact 2 min30Bars, by decide +kernel, by decide +kernel⟩
    · exact ⟨2, rows Volume.exact 0 min30Bars, by decide +kernel, by decide +kernel⟩
  exact ⟨min30Frame, rfl, htable⟩

theorem served_sample {quo : CQuotation} {l : Alone} (hl : Settled sampleEnv [] quo l) (a : Action)
    (ha : a = .timer ∨ a = .work sampleInput) : Served sampleEnv l a := by
  rcases ha with rfl | rfl
  · trivial
  · exact served_of_answers hl (by decide) rfl min30Frame_answers (by simp [sampleInput, Delivers])
      trivial

theorem codesFit_oneStock : CodesFit oneStock := by
  intro stock hstock
  rw [List.mem_singleton.mp hstock]
  decide

def sampleBefore : List Action := [.timer, .work sampleInput, .work sampleInput]

def sampleCycle : List Action := .timer :: List.replicate 8 (.work sampleInput)

def oneStockStatements (table : String) : List (List Char × List Char) :=
  [("\\SZ\\000001.db".toList, ("REPLACE INTO " ++ table ++
      " Values(\"2015-01-05 14:30:00\",15.990,16.020,16.280,15.600,2860436,265042288.000)").toList),
    ("\\SZ\\000001.db".toList, ("REPLACE INTO " ++ table ++
      " Values(\"2015-01-05 15:00:00\",15.850,15.780,16.390,15.550,1,15.780)").toList)]

theorem mem_sampleActions {a : Action} (ha : a ∈ sampleBefore ++ sampleCycle) :
    a = .timer ∨ a = .work sampleInput := by
  simp only [sampleBefore, sampleCycle, List.mem_append, List.mem_cons, List.not_mem_nil,
    List.mem_replicate] at ha
  tauto

theorem asked_of_keys {asked : List Asked} {keys : List (StockCode × Query)} {bytes : List Byte}
    (hkeys : asked.map Asked.key = keys) (hbytes : ∀ a ∈ asked, a.bytes = bytes) :
    asked = keys.map fun key => ⟨key.1, key.2, bytes⟩ := by
  subst hkeys
  rw [List.map_map, List.map_congr_left (g := id), List.map_id]
  intro a ha
  rw [Function.comp_apply, ← hbytes a ha]
  rfl

theorem due_min30 :
    (⟨⟨"000001".toList, "0".toList⟩, min30, min30Frame.bytes⟩ : Asked).due sampleEnv [] =
      oneStockStatements "Min30(DateTime,Open,Close,Hight,Low,Vol,amount)" := by
  decide +kernel

theorem due_min5 :
    (⟨⟨"000001".toList, "0".toList⟩, min5, min30Frame.bytes⟩ : Asked).due sampleEnv [] =
      oneStockStatements "Min5(DateTime,Open,Close,Hight,Low,Vol,TureOver)" := by
  decide +kernel

theorem cycle_stored_oneStock :
    ∃ l, sampleCycle.foldl (aloneStep sampleEnv [] oneStock)
        (sampleBefore.foldl (aloneStep sampleEnv [] oneStock) Alone.start) = l ∧
      l.thread.worker.phase = .poll ∧
      l.thread.executed =
        oneStockStatements "Min30(DateTime,Open,Close,Hight,Low,Vol,amount)" ++
          oneStockStatements "Min5(DateTime,Open,Close,Hight,Low,Vol,TureOver)" := by
  have hmeets : Runs.Meets (aloneStep sampleEnv [] oneStock) (Served sampleEnv) Alone.start
      (sampleBefore ++ sampleCycle) := by
    refine Runs.meets_of_inv ?_
      (settled_aloneStep [] exact_plainPrint codesFit_oneStock) settled_start
    intro l hl a ha
    exact served_sample hl a (mem_sampleActions ha)
  have hfirst : (sampleBefore.foldl (aloneStep sampleEnv [] oneStock) Alone.start).thread.asked =
      [] := rfl
  generalize hl' : sampleCycle.foldl (aloneStep sampleEnv [] oneStock)
    (sampleBefore.foldl (aloneStep sampleEnv [] oneStock) Alone.start) = l'
  obtain ⟨-, hphase, -, hasked, hbytes, hexecuted⟩ := cycle_stored exact_plainPrint
    codesFit_oneStock (by decide) sampleBefore sampleCycle hmeets _ l' rfl hl' (by decide)
    (by decide) (by decide)
  rw [hfirst] at hasked
  refine ⟨l', rfl, hphase, ?_⟩
  have hframe : ∀ a ∈ l'.thread.asked, a.bytes = min30Frame.bytes := by
    intro a ha
    obtain ⟨input, hinput, hnet⟩ := hbytes a ha
    rcases mem_sampleActions hinput with h | h
    · cases h
    · cases h
      exact hnet
  have hlist : l'.thread.asked =
      [⟨⟨"000001".toList, "0".toList⟩, min30, min30Frame.bytes⟩,
        ⟨⟨"000001".toList, "0".toList⟩, min5, min30Frame.bytes⟩] :=
    asked_of_keys hasked hframe
  rw [hexecuted, hlist, List.flatMap_cons, List.flatMap_singleton, due_min30, due_min5]

end TdxHq.Refresh
