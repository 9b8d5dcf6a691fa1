import TdxHq.ByteBuffer
import TdxHq.Library.Edges

namespace TdxHq.Dialog

def TREADNUM : ℕ := 20

structure SystemTime where
  wYear : ℕ
  wMonth : ℕ
  wDayOfWeek : Fin 7
  wDay : ℕ
  wHour : Fin 24
  wMinute : Fin 60
  wSecond : Fin 60
  deriving DecidableEq, Repr

def SystemTime.calendarMinute (st : SystemTime) : ℕ ×ₗ ℕ ×ₗ ℕ ×ₗ Fin 24 ×ₗ Fin 60 :=
  toLex (st.wYear, toLex (st.wMonth, toLex (st.wDay, toLex (st.wHour, st.wMinute))))

def Chronological (sts : List SystemTime) : Prop :=
  sts.Pairwise fun a b =>
    toLex (a.calendarMinute, a.wSecond) ≤ toLex (b.calendarMinute, b.wSecond)

instance chronologicalDecidable (sts : List SystemTime) : Decidable (Chronological sts) :=
  inferInstanceAs (Decidable (sts.Pairwise _))

/-- `CTime` values of one day compare as their times of day. -/
def timeOfDay (hour minute second : ℕ) : ℕ := (hour * 60 + minute) * 60 + second

def isTraderTime (st : SystemTime) : Bool :=
  let t_1_start := timeOfDay 9 25 1
  let t_1_end := timeOfDay 11 30 30
  let t_2_start := timeOfDay 13 0 1
  let t_2_end := timeOfDay 15 0 1
  let t_now := timeOfDay st.wHour st.wMinute st.wSecond
  if 1 ≤ st.wDayOfWeek.val ∧ st.wDayOfWeek.val ≤ 5 then
    decide ((t_1_start < t_now ∧ t_now < t_1_end) ∨ (t_2_start < t_now ∧ t_now < t_2_end))
  else false

/-- A row of `select * from watching`, with the columns that are read. -/
structure Row where
  code : List Char
  market : List Char
  deriving DecidableEq, Repr

structure StockCode where
  code : List Char
  market : List Char
  deriving DecidableEq, Repr

def zeroed : StockCode := ⟨[], []⟩

/-- The two `strncpy` calls for a row, onto a zeroed entry. -/
def stockOf (record : Row) : StockCode := ⟨record.code.take 6, record.market.take 1⟩

/-- The `mysql_fetch_row` loop over `stockcode[ 3000 ]`. -/
def fetchRows : List Row → ℕ → List StockCode → Except Fault (List StockCode × ℕ)
  | [], iRows, stockcode => .ok (stockcode, iRows)
  | record :: rows, iRows, stockcode =>
    if iRows < stockcode.length then
      fetchRows rows (iRows + 1) (stockcode.set iRows (stockOf record))
    else .error .invalidAccess

structure CQuotation where
  m_dwID : ℕ
  m_iStockNum : ℕ
  m_stockcode : List StockCode
  g_bGetQuotation : Bool
  deriving DecidableEq, Repr

/-- The constructor: `memcpy` of `iStockNum` entries into `m_stockcode[ 400 ]`. -/
def newCQuotation (dwID : ℕ) (pStockCode : List StockCode) (iStockNum : ℕ) :
    Except Fault CQuotation :=
  if iStockNum ≤ 400 ∧ iStockNum ≤ pStockCode.length then
    .ok ⟨dwID, iStockNum,
      pStockCode.take iStockNum ++ List.replicate (400 - iStockNum) zeroed, false⟩
  else .error .invalidAccess

def CQuotation.stocks (quo : CQuotation) : List StockCode := quo.m_stockcode.take quo.m_iStockNum

def create (stockcode : List StockCode) (i first num : ℕ) (pquo : List (Option CQuotation)) :
    Except Fault (List (Option CQuotation)) := do
  let quo ← newCQuotation i (stockcode.drop first) num
  return pquo.set i (some quo)

/-- The part of `OnInitDialog` that makes the workers; no entry of `pquo` is set before. -/
def createWorkers (stockcode : List StockCode) (m_istock : ℕ) :
    Except Fault (List (Option CQuotation)) := do
  let stockpertread := m_istock / TREADNUM
  let pquo ← (List.range (TREADNUM - 1)).foldlM
    (fun pquo i => create stockcode i (i * stockpertread) stockpertread pquo)
    (List.replicate TREADNUM none)
  let i := TREADNUM - 1
  -- the last worker gets what is left over
  if i * stockpertread < m_istock then
    create stockcode i (i * stockpertread) (m_istock - i * stockpertread) pquo
  else return pquo

structure CHQTESTDlg where
  m_istock : ℕ
  stockcode : List StockCode
  /-- `none` is a pointer that has not been set. -/
  pquo : List (Option CQuotation)
  preMin : Fin 60
  deriving DecidableEq, Repr

/-- `OnInitDialog` from the query on; `st` is the time at its end. -/
def onInitDialog (rows : List Row) (st : SystemTime) : Except Fault CHQTESTDlg := do
  let (stockcode, m_istock) ← fetchRows rows 0 (List.replicate 3000 zeroed)
  let pquo ← createWorkers stockcode m_istock
  return ⟨m_istock, stockcode, pquo, st.wMinute⟩

def setFlag : Option CQuotation → Except Fault (Option CQuotation)
  | some quo => .ok (some { quo with g_bGetQuotation := true })
  | none => .error .invalidAccess

/-- The two tests of `OnTimer`. -/
def newMinute (preMin : Fin 60) (st : SystemTime) : Bool :=
  isTraderTime st && preMin ≠ st.wMinute

def onTimer (st : SystemTime) (dlg : CHQTESTDlg) : Except Fault CHQTESTDlg :=
  if newMinute dlg.preMin st then do
    let pquo ← dlg.pquo.mapM setFlag
    -- outside of trading `preMin` is not kept up
    return { dlg with preMin := st.wMinute, pquo := pquo }
  else return dlg

/-- The ticks of a run at which `OnTimer` sets the flags. -/
def fired : Fin 60 → List SystemTime → List SystemTime
  | _, [] => []
  | preMin, st :: ticks =>
    if newMinute preMin st then st :: fired st.wMinute ticks else fired preMin ticks

theorem fetchRows_eq (rows : List Row) {done rest : List StockCode}
    (hroom : rows.length ≤ rest.length) :
    fetchRows rows done.length (done ++ rest) =
      .ok (done ++ rows.map stockOf ++ rest.drop rows.length, done.length + rows.length) := by
  induction rows generalizing done rest with
  | nil => simp [fetchRows]
  | cons record rows ih =>
    cases rest with
    | nil => simp at hroom
    | cons entry rest =>
      have hlt : done.length < (done ++ entry :: rest).length := by simp
      have hset : (done ++ entry :: rest).set done.length (stockOf record) =
          (done ++ [stockOf record]) ++ rest := by simp
      have hnext := @ih (done ++ [stockOf record]) rest (by simpa using hroom)
      rw [List.length_append, List.length_singleton] at hnext
      rw [fetchRows, if_pos hlt, hset, hnext]
      simp [Nat.add_assoc, Nat.add_comm 1]

theorem fetchRows_zeroed {rows : List Row} (hrows : rows.length ≤ 3000) :
    fetchRows rows 0 (List.replicate 3000 zeroed) =
      .ok (rows.map stockOf ++ List.replicate (3000 - rows.length) zeroed, rows.length) := by
  have h := @fetchRows_eq rows [] (List.replicate 3000 zeroed) (by rwa [List.length_replicate])
  rwa [List.nil_append, List.nil_append, List.drop_replicate, List.length_nil, Nat.zero_add] at h

def worker (stockcode : List StockCode) (i first num : ℕ) : CQuotation :=
  ⟨i, num, (stockcode.drop first).take num ++ List.replicate (400 - num) zeroed, false⟩

theorem worker_stocks {stockcode : List StockCode} {i first num : ℕ}
    (h : first + num ≤ stockcode.length) :
    (worker stockcode i first num).stocks = (stockcode.drop first).take num := by
  have hlen : ((stockcode.drop first).take num).length = num := by
    rw [List.length_take, List.length_drop]
    omega
  rw [CQuotation.stocks, worker, List.take_append_of_le_length hlen.ge,
    List.take_of_length_le hlen.le]

theorem create_eq {stockcode : List StockCode} {i first num : ℕ}
    (pquo : List (Option CQuotation)) (hnum : num ≤ 400)
    (h : first + num ≤ stockcode.length) :
    create stockcode i first num pquo =
      .ok (pquo.set i (some (worker stockcode i first num))) := by
  have hlen : num ≤ (stockcode.drop first).length := by
    rw [List.length_drop]
    omega
  rw [create, newCQuotation, if_pos ⟨hnum, hlen⟩]
  rfl

theorem createLoop_eq {stockcode : List StockCode} {num m : ℕ} (hnum : num ≤ 400) (k : ℕ)
    (hk : k ≤ m) (h : k * num ≤ stockcode.length) :
    (List.range k).foldlM (fun pquo i => create stockcode i (i * num) num pquo)
        (List.replicate m none) =
      Except.ok ((List.range k).map (fun i => some (worker stockcode i (i * num) num)) ++
        List.replicate (m - k) none) := by
  induction k with
  | zero => rfl
  | succ k ih =>
    rw [Nat.succ_mul] at h
    have hset : ((List.range k).map (fun i => some (worker stockcode i (i * num) num)) ++
          List.replicate (m - k) none).set k (some (worker stockcode k (k * num) num)) =
        (List.range (k + 1)).map (fun i => some (worker stockcode i (i * num) num)) ++
          List.replicate (m - (k + 1)) none := by
      have hrep : m - k = m - (k + 1) + 1 := by omega
      rw [hrep, List.replicate_succ, List.range_succ, List.map_append, List.set_append_right]
      · simp
      · simp
    rw [← hset, List.range_succ, List.foldlM_append, ih (by omega) (by omega)]
    simp only [List.foldlM_cons, List.foldlM_nil, bind_pure]
    exact create_eq _ hnum h

theorem flatMap_slices {α : Type} (xs : List α) (num k : ℕ) :
    (List.range k).flatMap (fun i => (xs.drop (i * num)).take num) = xs.take (k * num) := by
  induction k with
  | zero => simp
  | succ k ih =>
    rw [List.range_succ, List.flatMap_append, ih, Nat.succ_mul, List.take_add]
    simp

def workers (stockcode : List StockCode) (n : ℕ) : List CQuotation :=
  (List.range 19).map (fun i => worker stockcode i (i * (n / 20)) (n / 20)) ++
    [worker stockcode 19 (19 * (n / 20)) (n - 19 * (n / 20))]

theorem createWorkers_eq {stockcode : List StockCode} {n : ℕ} (hpos : 0 < n) (hn : n ≤ 3000)
    (hlen : n ≤ stockcode.length) :
    createWorkers stockcode n = .ok ((workers stockcode n).map some) := by
  have hloop := @createLoop_eq stockcode (n / 20) 20 (by omega) 19 (by omega) (by omega)
  have hlast : 19 * (n / 20) < n := by omega
  simp only [createWorkers, TREADNUM]
  rw [hloop]
  change (if 19 * (n / 20) < n then _ else _) = _
  rw [if_pos hlast, create_eq _ (by omega) (by omega), workers, List.map_append, List.map_map,
    List.set_append_right]
  · simp [Function.comp_def]
  · simp

/-- Without stocks the condition for the last worker fails. -/
theorem createWorkers_zero (stockcode : List StockCode) :
    createWorkers stockcode 0 =
      .ok ((List.range 19).map (fun i => some (worker stockcode i 0 0)) ++ [none]) := by
  have hloop := @createLoop_eq stockcode 0 20 (by omega) 19 (by omega) (by omega)
  simp only [createWorkers, TREADNUM]
  rw [hloop]
  rfl

theorem workers_stocks {stockcode : List StockCode} {n : ℕ} (hlen : n ≤ stockcode.length) :
    (workers stockcode n).flatMap CQuotation.stocks = stockcode.take n := by
  have hslice : ∀ i ∈ List.range 19,
      (worker stockcode i (i * (n / 20)) (n / 20)).stocks =
        (stockcode.drop (i * (n / 20))).take (n / 20) := by
    intro i hi
    have hi := List.mem_range.mp hi
    apply worker_stocks
    calc i * (n / 20) + n / 20 = (i + 1) * (n / 20) := by ring
      _ ≤ 19 * (n / 20) := Nat.mul_le_mul_right _ hi
      _ ≤ stockcode.length := by omega
  have hsum : n = 19 * (n / 20) + (n - 19 * (n / 20)) := by omega
  rw [workers, List.flatMap_append, List.flatMap_map, List.flatMap_congr hslice, flatMap_slices,
    List.flatMap_singleton, worker_stocks (by omega), ← List.take_add, ← hsum]

theorem workers_small {stockcode : List StockCode} {n : ℕ} (hn : n ≤ 3000) :
    ∀ quo ∈ workers stockcode n, quo.m_iStockNum ≤ 400 := by
  intro quo hquo
  simp only [workers, List.mem_append, List.mem_map, List.mem_singleton] at hquo
  rcases hquo with ⟨i, -, rfl⟩ | rfl
  · simp only [worker]
    omega
  · simp only [worker]
    omega

def tableOf (rows : List Row) : List StockCode :=
  rows.map stockOf ++ List.replicate (3000 - rows.length) zeroed

theorem le_tableOf_length (rows : List Row) : rows.length ≤ (tableOf rows).length := by
  simp only [tableOf, List.length_append, List.length_map]
  omega

theorem onInitDialog_eq {rows : List Row} {st : SystemTime} {pquo : List (Option CQuotation)}
    (hrows : rows.length ≤ 3000) (h : createWorkers (tableOf rows) rows.length = .ok pquo) :
    onInitDialog rows st = .ok ⟨rows.length, tableOf rows, pquo, st.wMinute⟩ := by
  simp only [onInitDialog]
  rw [fetchRows_zeroed hrows]
  change (createWorkers (tableOf rows) rows.length >>= fun pquo => _) = _
  rw [h]
  rfl

/-- Every pointer that `OnTimer` follows is set, the workers' stocks put together are the watch
list, and no worker has more than it has room for. -/
structure DealtOut (stocks : List StockCode) (pquo : List (Option CQuotation)) : Prop where
  created : ∀ i < TREADNUM, ∃ quo, pquo[i]? = some (some quo)
  stocks_eq : pquo.reduceOption.flatMap CQuotation.stocks = stocks
  fits : ∀ quo ∈ pquo.reduceOption, quo.m_iStockNum ≤ 400

theorem reduceOption_map_some {α : Type} (xs : List α) : (xs.map some).reduceOption = xs := by
  simp [List.reduceOption]

theorem workers_dealtOut {rows : List Row} (hrows : rows.length ≤ 3000) :
    DealtOut (rows.map stockOf) ((workers (tableOf rows) rows.length).map some) where
  created := by
    intro i hi
    have hlt : i < (workers (tableOf rows) rows.length).length := by
      simpa [workers, TREADNUM] using hi
    exact ⟨_, by rw [List.getElem?_map, List.getElem?_eq_getElem hlt, Option.map_some]⟩
  stocks_eq := by
    rw [reduceOption_map_some, workers_stocks (le_tableOf_length rows), tableOf]
    exact List.take_left' (List.length_map _)
  fits := by
    rw [reduceOption_map_some]
    exact workers_small hrows

/-- A watch list of up to 3000 rows is dealt out exactly if it is not empty. -/
theorem watchList_dealtOut_iff (rows : List Row) (st : SystemTime) (hrows : rows.length ≤ 3000) :
    (∃ dlg, onInitDialog rows st = .ok dlg ∧ DealtOut (rows.map stockOf) dlg.pquo) ↔
      0 < rows.length := by
  constructor
  · rintro ⟨dlg, hdlg, h⟩
    by_contra hempty
    have h0 : rows.length = 0 := by omega
    have hworkers := createWorkers_zero (tableOf rows)
    rw [← h0] at hworkers
    rw [onInitDialog_eq hrows hworkers] at hdlg
    -- the twentieth pointer is the one left out
    obtain ⟨quo, hquo⟩ := h.created 19 (by decide)
    cases hdlg
    simp at hquo
  · intro hpos
    exact ⟨_, onInitDialog_eq hrows (createWorkers_eq hpos hrows (le_tableOf_length rows)),
      workers_dealtOut hrows⟩

def monday (hour : Fin 24) (minute second : Fin 60) : SystemTime :=
  ⟨2017, 6, 1, 5, hour, minute, second⟩

def morning : SystemTime := monday 9 0 0

theorem watchList_dealtOut_sample :
    ∃ dlg, onInitDialog [⟨"600000".toList, "1".toList⟩, ⟨"000001".toList, "0".toList⟩]
        (monday 8 0 0) = .ok dlg ∧
      DealtOut [⟨"600000".toList, "1".toList⟩, ⟨"000001".toList, "0".toList⟩] dlg.pquo :=
  (watchList_dealtOut_iff [⟨"600000".toList, "1".toList⟩, ⟨"000001".toList, "0".toList⟩]
    (monday 8 0 0) (by decide)).mpr (by decide)

/-- With an empty watch list the last pointer stays unset, and the first tick of a trading
minute follows it. -/
theorem empty_watchList_faults :
    ∃ dlg, onInitDialog [] (monday 8 0 0) = .ok dlg ∧ dlg.pquo[19]? = some none ∧
      ¬ DealtOut [] dlg.pquo ∧ onTimer (monday 9 26 0) dlg = .error .invalidAccess := by
  refine ⟨_, onInitDialog_eq (Nat.zero_le _) (createWorkers_zero _), rfl, ?_, rfl⟩
  intro h
  obtain ⟨quo, hquo⟩ := h.created 19 (by decide)
  cases hquo

def CQuotation.asked (quo : CQuotation) : CQuotation := { quo with g_bGetQuotation := true }

theorem mapM_setFlag {pquo : List (Option CQuotation)} (hset : none ∉ pquo) :
    pquo.mapM setFlag = .ok (pquo.map (Option.map CQuotation.asked)) := by
  induction pquo with
  | nil => rfl
  | cons p pquo ih =>
    cases p with
    | none => exact absurd List.mem_cons_self hset
    | some quo =>
      rw [List.mapM_cons, ih (fun h => hset (List.mem_cons_of_mem _ h))]
      rfl

theorem onTimer_eq {dlg : CHQTESTDlg} (hset : none ∉ dlg.pquo) (st : SystemTime) :
    onTimer st dlg = .ok (if newMinute dlg.preMin st then
      { dlg with
        preMin := st.wMinute
        pquo := dlg.pquo.map (Option.map CQuotation.asked) } else dlg) := by
  rw [onTimer, mapM_setFlag hset]
  split_ifs <;> rfl

/-- The dialog as a tick finds it: the workers have changed their flags in the meantime. -/
def CHQTESTDlg.found (dlg : CHQTESTDlg) (flag : ℕ → Bool) : CHQTESTDlg :=
  { dlg with
    pquo := dlg.pquo.mapIdx fun i p => p.map fun quo => { quo with g_bGetQuotation := flag i } }

/-- A run of `OnTimer` and the ticks at which it sets `preMin` and all flags; at the others it
changes nothing. -/
inductive Fires : CHQTESTDlg → List ((ℕ → Bool) × SystemTime) → List SystemTime → Prop
  | nil (dlg : CHQTESTDlg) : Fires dlg [] []
  | set {dlg dlg' : CHQTESTDlg} {flag : ℕ → Bool} {st : SystemTime}
      {ticks : List ((ℕ → Bool) × SystemTime)} {sets : List SystemTime} :
      onTimer st (dlg.found flag) = .ok dlg' → dlg.preMin ≠ st.wMinute →
      dlg'.preMin = st.wMinute →
      (∀ p ∈ dlg'.pquo, ∃ quo : CQuotation, p = some quo ∧ quo.g_bGetQuotation = true) →
      Fires dlg' ticks sets → Fires dlg ((flag, st) :: ticks) (st :: sets)
  | pass {dlg : CHQTESTDlg} {flag : ℕ → Bool} {st : SystemTime}
      {ticks : List ((ℕ → Bool) × SystemTime)} {sets : List SystemTime} :
      onTimer st (dlg.found flag) = .ok (dlg.found flag) →
      Fires (dlg.found flag) ticks sets → Fires dlg ((flag, st) :: ticks) sets

theorem none_notMem_found {dlg : CHQTESTDlg} (hset : none ∉ dlg.pquo) (flag : ℕ → Bool) :
    none ∉ (dlg.found flag).pquo := by
  intro h
  obtain ⟨i, hi, hnone⟩ := List.mem_mapIdx.mp h
  have hp : dlg.pquo[i] = none := Option.map_eq_none_iff.mp hnone
  exact hset (hp ▸ List.getElem_mem hi)

theorem fires_fired {dlg : CHQTESTDlg} (hset : none ∉ dlg.pquo)
    (ticks : List ((ℕ → Bool) × SystemTime)) :
    Fires dlg ticks (fired dlg.preMin (ticks.map Prod.snd)) := by
  induction ticks generalizing dlg with
  | nil => exact .nil dlg
  | cons tick ticks ih =>
    obtain ⟨flag, st⟩ := tick
    have hfound := none_notMem_found hset flag
    have htimer := onTimer_eq hfound st
    change onTimer st (dlg.found flag) = .ok (if newMinute dlg.preMin st then _ else _) at htimer
    rw [List.map_cons, fired]
    split_ifs at htimer ⊢ with hnew
    · have hset' : none ∉ (dlg.found flag).pquo.map (Option.map CQuotation.asked) := by
        simpa using hfound
      simp only [newMinute, Bool.and_eq_true, decide_eq_true_eq] at hnew
      refine .set htimer hnew.2 rfl ?_ (ih hset')
      intro p hp
      obtain ⟨p, hmem, rfl⟩ := List.mem_map.mp hp
      cases p with
      | none => exact absurd hmem hfound
      | some quo => exact ⟨quo.asked, rfl, rfl⟩
    · exact .pass htimer (ih hfound)

theorem Fires.unique {dlg : CHQTESTDlg} {ticks : List ((ℕ → Bool) × SystemTime)}
    {sets sets' : List SystemTime} (h : Fires dlg ticks sets) (h' : Fires dlg ticks sets') :
    sets = sets' := by
  induction h generalizing sets' with
  | nil => cases h'; rfl
  | set htimer hne hmin _ _ ih =>
    cases h' with
    | set htimer' _ _ _ hrest =>
      obtain rfl := Except.ok.inj (htimer.symm.trans htimer')
      rw [ih hrest]
    | pass htimer' _ =>
      -- `preMin` has changed
      obtain rfl := Except.ok.inj (htimer.symm.trans htimer')
      exact absurd hmin hne
  | pass htimer _ ih =>
    cases h' with
    | set htimer' hne hmin _ _ =>
      obtain rfl := Except.ok.inj (htimer.symm.trans htimer')
      exact absurd hmin hne
    | pass _ hrest => exact ih hrest

/-- `fired` lists the ticks at which `OnTimer` sets `preMin` and all flags. -/
theorem fires_iff {dlg : CHQTESTDlg} (hset : none ∉ dlg.pquo)
    (ticks : List ((ℕ → Bool) × SystemTime)) (sets : List SystemTime) :
    Fires dlg ticks sets ↔ sets = fired dlg.preMin (ticks.map Prod.snd) := by
  constructor
  · intro h
    exact h.unique (fires_fired hset ticks)
  · rintro rfl
    exact fires_fired hset ticks

theorem fired_eq_edges (preMin : Fin 60) (ticks : List SystemTime) :
    fired preMin ticks =
      Edges.edges SystemTime.wMinute preMin (ticks.filter fun st => isTraderTime st) := by
  induction ticks generalizing preMin with
  | nil => rfl
  | cons st ticks ih =>
    by_cases htrade : isTraderTime st
    · by_cases hmin : preMin = st.wMinute
      · simp [fired, newMinute, htrade, hmin, Edges.edges, ih]
      · simp [fired, newMinute, htrade, hmin, Edges.edges, ih]
    · simp [fired, newMinute, htrade, ih]

theorem wMinute_of_calendarMinute {a b : SystemTime} (h : a.calendarMinute = b.calendarMinute) :
    a.wMinute = b.wMinute := by
  simp only [SystemTime.calendarMinute, EmbeddingLike.apply_eq_iff_eq, Prod.mk.injEq] at h
  exact h.2.2.2.2

theorem Chronological.inOrder {st : SystemTime} {ticks : List SystemTime}
    (h : Chronological (st :: ticks)) (p : SystemTime → Bool) :
    Edges.InOrder SystemTime.calendarMinute (st :: ticks.filter p) := by
  have hall : Edges.InOrder SystemTime.calendarMinute (st :: ticks) :=
    h.imp fun hle => Prod.Lex.monotone_fst _ _ hle
  exact hall.sublist (List.filter_sublist.cons_cons st)

/-- In every run of the timer the flags are set exactly once in every calendar minute with a tick
in trading time, that of the start apart, if and only if no trading tick has the minute of the hour
of the trading tick before it (of the start, for the first) but another date or hour. -/
theorem fired_once_iff (start : SystemTime) (ticks : List SystemTime)
    (hord : Chronological (start :: ticks)) :
    (∀ (dlg : CHQTESTDlg) (run : List ((ℕ → Bool) × SystemTime)) (sets : List SystemTime),
      dlg.preMin = start.wMinute → none ∉ dlg.pquo → run.map Prod.snd = ticks →
      (Fires dlg run sets ↔ sets = fired start.wMinute ticks)) ∧
    ((∀ m, m ≠ start.calendarMinute →
      (∃ st ∈ ticks, isTraderTime st ∧ st.calendarMinute = m) →
      (fired start.wMinute ticks).countP (fun st => st.calendarMinute = m) = 1) ↔
    (start :: ticks.filter fun st => isTraderTime st).IsChain fun a b =>
      a.wMinute = b.wMinute → a.calendarMinute = b.calendarMinute) := by
  constructor
  · rintro dlg run sets hmin hset rfl
    rw [← hmin]
    exact fires_iff hset run sets
  · rw [← Edges.once_iff (fun a b h => wMinute_of_calendarMinute h) (hord.inOrder _),
      fired_eq_edges, Edges.Once]
    simp only [List.mem_map, List.mem_filter, and_assoc]

def nineOClock : CHQTESTDlg :=
  ⟨1, [⟨"000001".toList, "0".toList⟩],
    [some ⟨0, 1, [⟨"000001".toList, "0".toList⟩], false⟩], morning.wMinute⟩

/-- Started at 9:00, with three ticks in the first two minutes of trading; the worker has cleared
its flag before the third. -/
theorem fired_once_sample :
    Fires nineOClock [(fun _ => false, monday 9 25 2), (fun _ => true, monday 9 25 3),
      (fun _ => false, monday 9 26 0)] [monday 9 25 2, monday 9 26 0] ∧
    (fired (monday 9 0 0).wMinute [monday 9 25 2, monday 9 25 3, monday 9 26 0]).countP
      (fun st => st.calendarMinute = (monday 9 25 0).calendarMinute) = 1 := by
  obtain ⟨hfires, honce⟩ := fired_once_iff (monday 9 0 0)
    [monday 9 25 2, monday 9 25 3, monday 9 26 0] (by decide)
  exact ⟨(hfires nineOClock _ _ rfl (by decide) rfl).mpr (by decide),
    honce.mpr (by decide) _ (by decide) ⟨monday 9 25 2, by decide⟩⟩

/-- Started at 8:25, the first minute of trading goes by without a request. -/
theorem start_minute_missed :
    Chronological [monday 8 25 0, monday 9 25 2, monday 9 25 3] ∧
      isTraderTime (monday 9 25 2) ∧
      (monday 9 25 2).calendarMinute ≠ (monday 8 25 0).calendarMinute ∧
      fired (monday 8 25 0).wMinute [monday 9 25 2, monday 9 25 3] = [] ∧
      ∀ dlg : CHQTESTDlg, dlg.preMin = (monday 8 25 0).wMinute →
        onTimer (monday 9 25 2) dlg = .ok dlg ∧ onTimer (monday 9 25 3) dlg = .ok dlg := by
  refine ⟨by decide, by decide, by decide, by decide, ?_⟩
  intro dlg hmin
  have hsame : ∀ st, newMinute (monday 8 25 0).wMinute st = false → onTimer st dlg = .ok dlg := by
    intro st hst
    rw [onTimer, hmin, hst]
    rfl
  exact ⟨hsame _ (by decide), hsame _ (by decide)⟩

end TdxHq.Dialog
