import TdxHq.Workers

namespace TdxHq.Program

open SecurityBars Refresh Workers
open Dialog (Row StockCode CQuotation CHQTESTDlg stockOf tableOf TREADNUM)
open Replace (min30 min5)
open Bars (columns)

/-- A stock is in the record only by its number in the list, and those before the one the worker
is at, or all where a cycle has ended, are in it. -/
structure Listed (m_iStockNum : ℕ) (w : Quotation.Worker) : Prop where
  stock_lt : ∀ k, .stock k ∈ w.log → k < m_iStockNum
  sofar : ∀ i, w.phase = .stocks i → ∀ k < i, .stock k ∈ w.log
  ended : .ended ∈ w.log → ∀ k < m_iStockNum, .stock k ∈ w.log

theorem Listed.add {m_iStockNum : ℕ} {w w' : Quotation.Worker} (hw : Listed m_iStockNum w)
    {e : Quotation.Event} (hlog : w'.log = w.log ++ [e]) (hstock : ∀ k, e ≠ .stock k)
    (hended : e ≠ .ended) (hphase : ∀ i, w'.phase = .stocks i → w.phase = .stocks i) :
    Listed m_iStockNum w' := by
  refine ⟨?_, ?_, ?_⟩ <;> rw [hlog]
  · intro k hk
    rcases List.mem_append.mp hk with hk | hk
    · exact hw.stock_lt k hk
    · exact absurd (List.mem_singleton.mp hk).symm (hstock k)
  · intro i hi k hk
    exact List.mem_append_left _ (hw.sofar i (hphase i hi) k hk)
  · intro hend k hk
    rcases List.mem_append.mp hend with hend | hend
    · exact List.mem_append_left _ (hw.ended hend k hk)
    · exact absurd (List.mem_singleton.mp hend).symm hended

theorem listed_step (m_iStockNum : ℕ) (w : Quotation.Worker) (a : Quotation.Action)
    (hw : Listed m_iStockNum w) : Listed m_iStockNum (Quotation.step m_iStockNum w a) := by
  cases a with
  | timer => exact hw.add rfl (by simp) (by simp) (fun _ hi => hi)
  | work input =>
    simp only [Quotation.step, Quotation.runStep]
    cases hphase : w.phase with
    | poll =>
      dsimp only
      split_ifs
      · exact ⟨hw.stock_lt, by simp, hw.ended⟩
      · exact hw.add rfl (by simp) (by simp) (by simp)
      · exact hw
    | connect =>
      dsimp only
      split_ifs
      · exact ⟨hw.stock_lt, by simp, hw.ended⟩
      · refine ⟨hw.stock_lt, ?_, hw.ended⟩
        rintro i hi k hk
        injection hi with hi
        omega
    | stocks i =>
      dsimp only
      split_ifs with hi
      · refine ⟨?_, ?_, ?_⟩
        · intro k hk
          rcases List.mem_append.mp hk with hk | hk
          · exact hw.stock_lt k hk
          · injection List.mem_singleton.mp hk with hk
            omega
        · intro j hj k hk
          injection hj with hj
          -- stock `i` is entered now, those before it were already
          rcases Nat.lt_or_ge k i with hlt | hge
          · exact List.mem_append_left _ (hw.sofar i hphase k hlt)
          · obtain rfl : k = i := by omega
            exact List.mem_append_right _ (List.mem_singleton_self _)
        · intro hend k hk
          rcases List.mem_append.mp hend with hend | hend
          · exact List.mem_append_left _ (hw.ended hend k hk)
          · cases List.mem_singleton.mp hend
      · -- the cycle ends behind the last stock
        refine ⟨?_, by simp, ?_⟩
        · intro k hk
          rcases List.mem_append.mp hk with hk | hk
          · exact hw.stock_lt k hk
          · cases List.mem_singleton.mp hk
        · intro _ k hk
          exact List.mem_append_left _ (hw.sofar i hphase k (by omega))
    | exited => exact hw

theorem listed_run (m_iStockNum : ℕ) (actions : List Quotation.Action) :
    Listed m_iStockNum (actions.foldl (Quotation.step m_iStockNum) Quotation.start) := by
  have hstart : Listed m_iStockNum Quotation.start := by
    refine ⟨?_, ?_, ?_⟩ <;> simp [Quotation.start]
  have hall : Runs.Meets (Quotation.step m_iStockNum) (fun _ _ => True) Quotation.start actions :=
    Runs.meets_of_inv (I := fun _ => True) (by simp) (fun _ _ _ _ => trivial) trivial
  exact (Runs.always_of_meets (fun w a hw _ => listed_step m_iStockNum w a hw) hstart hall).last

section Record

variable {D : Type} {env : Env D} {m_csDataPath : List Char} {quo : CQuotation} {l : Alone}

theorem key_mem {a : Asked} {stock : StockCode} {made todo queries : List Replace.Query}
    (hmade : made ++ todo = queries) (ha : a.key ∈ made.map fun q => (stock, q)) :
    a.stock = stock ∧ a.query ∈ queries := by
  obtain ⟨q, hq, hkey⟩ := List.mem_map.mp ha
  obtain ⟨hstock, hquery⟩ := Prod.mk.inj hkey
  rw [← hmade, ← hquery]
  exact ⟨hstock.symm, List.mem_append_left _ hq⟩

/-- All requests but the one that is out have been answered and stored. -/
theorem settled_record (hl : Settled env m_csDataPath quo l) :
    ∃ stored out, l.thread.asked = stored ++ out ∧
      l.thread.executed = stored.flatMap (Asked.due env m_csDataPath) ∧
      (∀ p ∈ rounds quo l.thread.worker.log, p ∈ stored.map Asked.key) ∧
      ∀ a ∈ l.thread.asked, a.key ∈ rounds quo l.thread.worker.log ∨
        (l.thread.Enters quo ∧ a.stock = stockAt quo l.thread ∧ a.query ∈ [min30, min5]) := by
  have hacc := hl.accounted
  cases h : l.thread.place with
  | outside =>
    rw [h] at hacc
    obtain ⟨-, hexec, hasked⟩ := hacc
    refine ⟨l.thread.asked, [], (List.append_nil _).symm, hexec, ?_, ?_⟩
    · intro p hp
      rwa [hasked]
    · intro a ha
      rw [← hasked]
      exact Or.inl (List.mem_map_of_mem ha)
  | ask todo =>
    rw [h] at hacc
    obtain ⟨henters, -, hexec, made, hmade, hasked⟩ := hacc
    refine ⟨l.thread.asked, [], (List.append_nil _).symm, hexec, ?_, ?_⟩
    · intro p hp
      rw [hasked]
      exact List.mem_append_left _ hp
    · intro a ha
      have hkey := List.mem_map_of_mem (f := Asked.key) ha
      rw [hasked, List.mem_append] at hkey
      exact hkey.imp_right fun h => ⟨henters, key_mem hmade h⟩
  | await q todo =>
    rw [h] at hacc
    -- the request that is out is the last one and is not stored
    obtain ⟨henters, -, made, stored, hmade, hasked, hexec, hkeys⟩ := hacc
    refine ⟨stored, _, hasked, hexec, ?_, ?_⟩
    · intro p hp
      rw [hkeys]
      exact List.mem_append_left _ hp
    · intro a ha
      rw [hasked, List.mem_append] at ha
      rcases ha with ha | ha
      · have hkey := List.mem_map_of_mem (f := Asked.key) ha
        rw [hkeys, List.mem_append] at hkey
        exact hkey.imp_right fun h => ⟨henters, key_mem hmade h⟩
      · rw [List.mem_singleton.mp ha, ← hmade]
        exact Or.inr ⟨henters, rfl, List.mem_append_right _ List.mem_cons_self⟩
  | stopped why =>
    rw [h] at hacc
    exact hacc.elim

theorem mem_rounds {log : List Quotation.Event} {p : StockCode × Replace.Query} :
    p ∈ rounds quo log ↔ ∃ k, .stock k ∈ log ∧ p.1 = quo.m_stockcode.getD k Dialog.zeroed ∧
      p.2 ∈ [min30, min5] := by
  rw [rounds, List.mem_flatMap]
  constructor
  · rintro ⟨e, he, hp⟩
    cases e with
    | stock k =>
      obtain ⟨q, hq, rfl⟩ := List.mem_map.mp hp
      exact ⟨k, he, rfl, hq⟩
    | fired => cases hp
    | began => cases hp
    | ended => cases hp
  · rintro ⟨k, hk, hstock, hq⟩
    refine ⟨.stock k, hk, List.mem_map.mpr ⟨p.2, hq, ?_⟩⟩
    rw [← hstock]

theorem stock_mem_stocks (hnum : quo.m_iStockNum ≤ quo.m_stockcode.length) {k : ℕ}
    (hk : k < quo.m_iStockNum) : quo.m_stockcode.getD k Dialog.zeroed ∈ quo.stocks := by
  rw [List.getD_eq_getElem _ _ (by omega), CQuotation.stocks]
  exact List.mem_take_iff_getElem.mpr ⟨k, by omega, rfl⟩

theorem asked_mem (hl : Settled env m_csDataPath quo l)
    (hlisted : Listed quo.m_iStockNum l.thread.worker)
    (hnum : quo.m_iStockNum ≤ quo.m_stockcode.length) {a : Asked} (ha : a ∈ l.thread.asked) :
    a.stock ∈ quo.stocks ∧ a.query ∈ [min30, min5] := by
  obtain ⟨-, -, -, -, -, hasked⟩ := settled_record hl
  rcases hasked a ha with hkey | ⟨⟨k, hk, hphase⟩, hstock, hquery⟩
  · obtain ⟨k, hk, hstock, hquery⟩ := mem_rounds.mp hkey
    refine ⟨?_, hquery⟩
    rw [show a.stock = a.key.1 from rfl, hstock]
    exact stock_mem_stocks hnum (hlisted.stock_lt k hk)
  · refine ⟨?_, hquery⟩
    rw [hstock, stockAt, hphase]
    exact stock_mem_stocks hnum hk

/-- After a cycle both kinds of bars of each stock have been asked for and stored. -/
theorem stored_of_ended (hl : Settled env m_csDataPath quo l)
    (hlisted : Listed quo.m_iStockNum l.thread.worker) (hended : .ended ∈ l.thread.worker.log)
    {stock : StockCode} (hstock : stock ∈ quo.stocks) {q : Replace.Query}
    (hq : q ∈ [min30, min5]) :
    ∃ a ∈ l.thread.asked, a.stock = stock ∧ a.query = q ∧
      ∀ e ∈ a.due env m_csDataPath, e ∈ l.thread.executed := by
  obtain ⟨stored, out, hasked, hexec, hrounds, -⟩ := settled_record hl
  obtain ⟨k, hk, rfl⟩ := List.mem_take_iff_getElem.mp hstock
  have hmem : (quo.m_stockcode[k], q) ∈ stored.map Asked.key := by
    apply hrounds
    refine mem_rounds.mpr ⟨k, hlisted.ended hended k (by omega), ?_, hq⟩
    rw [List.getD_eq_getElem]
  obtain ⟨a, ha, hkey⟩ := List.mem_map.mp hmem
  obtain ⟨hstock', hquery⟩ := Prod.mk.inj hkey
  refine ⟨a, by rw [hasked]; exact List.mem_append_left _ ha, hstock', hquery, ?_⟩
  intro e he
  rw [hexec]
  exact List.mem_flatMap_of_mem ha he

theorem executed_due (hl : Settled env m_csDataPath quo l) {e : List Char × List Char}
    (he : e ∈ l.thread.executed) : ∃ a ∈ l.thread.asked, e ∈ a.due env m_csDataPath := by
  obtain ⟨stored, out, hasked, hexec, -, -⟩ := settled_record hl
  rw [hexec, List.mem_flatMap] at he
  obtain ⟨a, ha, hdue⟩ := he
  exact ⟨a, by rw [hasked]; exact List.mem_append_left _ ha, hdue⟩

end Record

def pquo (dlg : CHQTESTDlg) (i : Fin TREADNUM) : CQuotation :=
  (dlg.pquo.getD i none).getD ⟨i, 0, [], false⟩

section Dealt

variable {rows : List Row}

theorem pquo_mem {st : Dialog.SystemTime} {dlg : CHQTESTDlg} (hpos : 0 < rows.length)
    (hrows : rows.length ≤ 3000) (hdlg : Dialog.onInitDialog rows st = .ok dlg) :
    (∀ i, pquo dlg i ∈ Dialog.workers (tableOf rows) rows.length) ∧
      ∀ quo ∈ Dialog.workers (tableOf rows) rows.length, ∃ i, pquo dlg i = quo := by
  have hlen : (Dialog.workers (tableOf rows) rows.length).length = TREADNUM := by
    simp [Dialog.workers, TREADNUM]
  rw [Dialog.onInitDialog_eq hrows
    (Dialog.createWorkers_eq hpos hrows (Dialog.le_tableOf_length rows))] at hdlg
  cases hdlg
  have hget : ∀ (i : Fin TREADNUM)
      (hi : i.val < (Dialog.workers (tableOf rows) rows.length).length),
      pquo ⟨rows.length, tableOf rows, (Dialog.workers (tableOf rows) rows.length).map some,
        st.wMinute⟩ i = (Dialog.workers (tableOf rows) rows.length)[i.val] := by
    intro i hi
    rw [pquo, List.getD_eq_getElem _ _ (by rwa [List.length_map]), List.getElem_map,
      Option.getD_some]
  constructor
  · intro i
    rw [hget i (by rw [hlen]; exact i.isLt)]
    exact List.getElem_mem _
  · intro quo hquo
    obtain ⟨k, hk, rfl⟩ := List.mem_iff_getElem.mp hquo
    exact ⟨⟨k, by rwa [← hlen]⟩, hget ⟨k, by rwa [← hlen]⟩ hk⟩

theorem tableOf_code {stock : StockCode} (h : stock ∈ tableOf rows) : stock.code.length ≤ 6 := by
  rcases List.mem_append.mp h with h | h
  · obtain ⟨record, -, rfl⟩ := List.mem_map.mp h
    exact List.length_take_le 6 _
  · rw [(List.mem_replicate.mp h).2]
    exact Nat.zero_le _

theorem worker_fits {quo : CQuotation}
    (hquo : quo ∈ Dialog.workers (tableOf rows) rows.length) :
    CodesFit quo ∧ quo.m_iStockNum ≤ quo.m_stockcode.length := by
  have hlen := Dialog.le_tableOf_length rows
  have hworker : ∀ i first num, first + num ≤ (tableOf rows).length →
      CodesFit (Dialog.worker (tableOf rows) i first num) ∧
        num ≤ (Dialog.worker (tableOf rows) i first num).m_stockcode.length := by
    intro i first num hfirst
    constructor
    · intro stock hstock
      rcases List.mem_append.mp hstock with h | h
      · exact tableOf_code (List.mem_of_mem_drop (List.mem_of_mem_take h))
      · rw [(List.mem_replicate.mp h).2]
        exact Nat.zero_le _
    · simp only [Dialog.worker, List.length_append, List.length_take, List.length_drop]
      omega
  rcases List.mem_append.mp hquo with h | h
  · obtain ⟨i, hi, rfl⟩ := List.mem_map.mp h
    rw [List.mem_range] at hi
    -- the slices of the first 19 workers lie in the table
    have hmul : i * (rows.length / 20) ≤ 18 * (rows.length / 20) :=
      Nat.mul_le_mul_right _ (by omega)
    exact hworker i _ _ (by omega)
  · rw [List.mem_singleton.mp h]
    exact hworker 19 _ _ (by omega)

theorem exists_row {stock : StockCode} :
    (∃ quo ∈ Dialog.workers (tableOf rows) rows.length, stock ∈ quo.stocks) ↔
      ∃ row ∈ rows, stockOf row = stock := by
  have hstocks := Dialog.workers_stocks (Dialog.le_tableOf_length rows)
  rw [tableOf, List.take_left' (List.length_map _)] at hstocks
  rw [← List.mem_map, ← hstocks, List.mem_flatMap]
  rfl

end Dealt

/-- The bytes for the request came in during a turn of worker `i`. -/
def Sent (acts : List (Act TREADNUM)) (i : Fin TREADNUM) (a : Asked) : Prop :=
  ∃ turn, .work i turn ∈ acts ∧ a.bytes = turn.net.bytes

/-- Each row of the watch list is dealt to a worker, and once that worker has ended a cycle both
kinds of bars of the row have been asked for and every bar in the answers has been put into
its database; and every statement that was executed is for a bar that a server has sent, in the
database of the row it was asked for.  The steps of the workers and of the timer come in any
order. -/
theorem watchList_stored {D : Type} {env : Env D} (hprint : Replace.PlainPrint env.ops)
    (m_csDataPath : List Char) (rows : List Row) (st : Dialog.SystemTime) (dlg : CHQTESTDlg)
    (hpos : 0 < rows.length) (hrows : rows.length ≤ 3000)
    (hdlg : Dialog.onInitDialog rows st = .ok dlg) (rt : Connection.AddressParsers)
    (lines : List (List Char)) (s₀ s : Connection.Shared)
    (hinit : Connection.init rt (some lines) s₀ = .ok (.ok, s)) (acts : List (Act TREADNUM))
    (hacts : Runs.Meets (step env m_csDataPath (pquo dlg))
      (fun y a => Allowed y a ∧ Answered env y a) (start s) acts)
    (y : System TREADNUM) (hy : acts.foldl (step env m_csDataPath (pquo dlg)) (start s) = y) :
    (∀ row ∈ rows, ∃ i, stockOf row ∈ (pquo dlg i).stocks ∧
      (.ended ∈ (y.thread i).worker.log → ∀ q ∈ [min30, min5], ∃ a ∈ (y.thread i).asked,
        a.stock = stockOf row ∧ a.query = q ∧ Sent acts i a ∧
        ∀ bar ∈ a.bars env, (fileOf m_csDataPath (stockOf row),
          q.insert ++ [','].intercalate (columns env.ops bar) ++ [')']) ∈
            (y.thread i).executed)) ∧
    ∀ i, ∀ e ∈ (y.thread i).executed, ∃ row ∈ rows, ∃ a ∈ (y.thread i).asked,
      a.stock = stockOf row ∧ a.query ∈ [min30, min5] ∧ Sent acts i a ∧ ∃ bar ∈ a.bars env,
        e = (fileOf m_csDataPath (stockOf row),
          a.query.insert ++ [','].intercalate (columns env.ops bar) ++ [')']) := by
  obtain ⟨hworker, hall⟩ := pquo_mem hpos hrows hdlg
  have hfits : ∀ i, CodesFit (pquo dlg i) ∧
      (pquo dlg i).m_iStockNum ≤ (pquo dlg i).m_stockcode.length := fun i =>
    worker_fits (hworker i)
  have hcorrect := (Runs.always_of_meets (correct_step hprint fun i => (hfits i).1)
    (correct_start hinit) hacts).last
  have hlisted : ∀ i, Listed (pquo dlg i).m_iStockNum (y.thread i).worker := by
    intro i
    have hallowed := Runs.Meets.mono (I := fun _ => True) (fun _ _ _ => trivial)
      (fun _ _ _ ha => ha.1) trivial hacts
    rw [← hy, worker_run rt lines s₀ s hinit hallowed i]
    exact listed_run _ _
  have hsent : ∀ i, ∀ a ∈ (y.thread i).asked, Sent acts i a := by
    intro i a ha
    rw [← hy] at ha
    exact (asked_run _ acts i a ha).resolve_left List.not_mem_nil
  rw [hy] at hcorrect
  constructor
  · intro row hrow
    obtain ⟨quo, hquo, hstock⟩ := exists_row.mpr ⟨row, hrow, rfl⟩
    -- the worker the row was dealt to
    obtain ⟨i, rfl⟩ := hall quo hquo
    refine ⟨i, hstock, fun hended q hq => ?_⟩
    obtain ⟨a, ha, hastock, haquery, hdue⟩ :=
      stored_of_ended (hcorrect.settled i) (hlisted i) hended hstock hq
    refine ⟨a, ha, hastock, haquery, hsent i a ha, ?_⟩
    intro bar hbar
    rw [← hastock, ← haquery]
    apply hdue
    exact List.mem_map_of_mem hbar
  · intro i e he
    obtain ⟨a, ha, hdue⟩ := executed_due (hcorrect.settled i) he
    obtain ⟨hstock, hquery⟩ := asked_mem (hcorrect.settled i) (hlisted i) (hfits i).2 ha
    -- a worker only asks for its own stocks, which are rows of the list
    obtain ⟨row, hrow, hrowstock⟩ := exists_row.mp ⟨_, hworker i, hstock⟩
    obtain ⟨bar, hbar, rfl⟩ := List.mem_map.mp hdue
    exact ⟨row, hrow, a, ha, hrowstock.symm, hquery, hsent i a ha, bar, hbar, by rw [hrowstock]⟩

def oneRow : List Row := [⟨"000001".toList, "0".toList⟩]

def oneRowDlg : CHQTESTDlg where
  m_istock := 1
  stockcode := tableOf oneRow
  pquo := (Dialog.workers (tableOf oneRow) 1).map some
  preMin := Dialog.morning.wMinute

def last : Fin TREADNUM := ⟨19, by decide⟩

def connects : List (Act TREADNUM) :=
  [.timer last, .work last (sampleTurn 5), .work last (sampleTurn 5)]

theorem onInitDialog_oneRow : Dialog.onInitDialog oneRow Dialog.morning = .ok oneRowDlg :=
  Dialog.onInitDialog_eq (by decide)
    (Dialog.createWorkers_eq (by decide) (by decide) (Dialog.le_tableOf_length oneRow))

def oneRowStep : System TREADNUM → Act TREADNUM → System TREADNUM :=
  step sampleEnv [] (pquo oneRowDlg)

theorem connects_answered :
    Runs.Meets oneRowStep (fun y a => Allowed y a ∧ Answered sampleEnv y a)
      (start (Connection.sampleShared 1)) connects := by
  refine ⟨⟨trivial, trivial⟩, ⟨?_, trivial⟩, ⟨?_, trivial⟩, trivial⟩
  · intro hd
    exact absurd hd (by decide)
  · intro _
    refine ⟨?_, ?_⟩
    · intro h _ i hi
      change (Connection.sampleShared 1).skHQ i ≠ some h
      simp [Connection.sampleShared, hi]
    · intro _
      exact ⟨5, by decide, by decide⟩

theorem row_dealt : ∀ i : Fin TREADNUM,
    (⟨"000001".toList, "0".toList⟩ : StockCode) ∈ (pquo oneRowDlg i).stocks → i = last := by
  decide +kernel

theorem codesFit_oneRow (i : Fin TREADNUM) : CodesFit (pquo oneRowDlg i) :=
  (worker_fits ((pquo_mem (by decide) (by decide) onInitDialog_oneRow).1 i)).1

def cycles : List (Act TREADNUM) := List.replicate 8 (.work last (sampleTurn 5))

theorem correct_connects :
    Correct sampleEnv [] (pquo oneRowDlg)
      (connects.foldl oneRowStep (start (Connection.sampleShared 1))) :=
  correct_sample codesFit_oneRow connects_answered

theorem cycles_answered :
    Runs.Meets oneRowStep (fun y a => Allowed y a ∧ Answered sampleEnv y a)
      (connects.foldl oneRowStep (start (Connection.sampleShared 1))) cycles := by
  refine works_answered codesFit_oneRow correct_connects (· = last) ?_ ?_
  · rintro i rfl
    decide
  · intro a ha
    exact ⟨last, 5, rfl, (List.mem_replicate.mp ha).2⟩

theorem ended_oneRow :
    .ended ∈ (((connects ++ cycles).foldl oneRowStep (start (Connection.sampleShared 1))).thread
      last).worker.log := by
  obtain ⟨hserved, hview⟩ := served_trace Replace.exact_plainPrint codesFit_oneRow
    correct_connects cycles_answered last
  have hrun := run_cycle_alone Replace.exact_plainPrint (codesFit_oneRow last) _
    (correct_connects.settled last) hserved (Or.inl ⟨by decide, by decide⟩) (by decide) (by decide)
  have hthread : ∀ y : System TREADNUM, (y.view last).thread = y.thread last := fun _ => rfl
  rw [← hview, hthread] at hrun
  obtain ⟨-, hend, -⟩ := hrun
  rw [List.foldl_append]
  unfold oneRowStep at hend ⊢
  exact hend

theorem sent_oneRow {i : Fin TREADNUM} {a : Asked} (ha : Sent (connects ++ cycles) i a) :
    a.bytes = Replace.min30Frame.bytes := by
  obtain ⟨turn, hturn, hbytes⟩ := ha
  rw [hbytes]
  simp only [connects, cycles, List.mem_append, List.mem_cons, List.mem_replicate,
    List.not_mem_nil, reduceCtorEq, Act.work.injEq, or_false, false_or, or_self] at hturn
  rcases hturn with ⟨-, rfl⟩ | ⟨-, -, rfl⟩ <;> rfl

theorem watchList_stored_oneRow :
    ∃ y, (connects ++ cycles).foldl oneRowStep (start (Connection.sampleShared 1)) = y ∧
      ∀ e, (∃ i, e ∈ (y.thread i).executed) ↔
        e ∈ oneStockStatements "Min30(DateTime,Open,Close,Hight,Low,Vol,amount)" ++
          oneStockStatements "Min5(DateTime,Open,Close,Hight,Low,Vol,TureOver)" := by
  have hended := ended_oneRow
  generalize hy : (connects ++ cycles).foldl oneRowStep (start (Connection.sampleShared 1)) = y
    at hended
  obtain ⟨hrow, hexecuted⟩ := watchList_stored Replace.exact_plainPrint [] oneRow
    Dialog.morning oneRowDlg (by decide) (by decide) onInitDialog_oneRow
    Connection.sampleParsers [Connection.sampleLine] Connection.zeroShared
    (Connection.sampleShared 1) rfl (connects ++ cycles)
    (Runs.meets_append.mpr ⟨connects_answered, cycles_answered⟩) y hy
  obtain ⟨i, hi, hstored⟩ := hrow _ (List.mem_singleton_self _)
  obtain rfl : i = last := row_dealt i hi
  refine ⟨y, rfl, fun e => ⟨?_, fun he => ⟨last, ?_⟩⟩⟩
  · rintro ⟨i, he⟩
    obtain ⟨row, hmem, ⟨stock, query, bytes⟩, -, hstock, hquery, hsent, bar, hbar, rfl⟩ :=
      hexecuted i e he
    obtain rfl := List.mem_singleton.mp hmem
    obtain rfl := sent_oneRow hsent
    obtain rfl := hstock
    rw [← due_min30, ← due_min5]
    simp only [List.mem_cons, List.not_mem_nil, or_false] at hquery
    rcases hquery with rfl | rfl
    · exact List.mem_append_left _ (List.mem_map_of_mem hbar)
    · exact List.mem_append_right _ (List.mem_map_of_mem hbar)
  · rw [← due_min30, ← due_min5] at he
    have hdue : ∀ q ∈ [min30, min5], ∀ e ∈ (⟨⟨"000001".toList, "0".toList⟩, q,
        Replace.min30Frame.bytes⟩ : Asked).due sampleEnv [], e ∈ (y.thread last).executed := by
      intro q hq e he
      obtain ⟨⟨stock, query, bytes⟩, -, hstock, hquery, hsent, hall⟩ := hstored hended q hq
      obtain rfl := sent_oneRow hsent
      obtain rfl := hquery
      obtain ⟨bar, hbar, rfl⟩ := List.mem_map.mp he
      exact hall bar hbar
    rcases List.mem_append.mp he with he | he
    · exact hdue min30 List.mem_cons_self e he
    · exact hdue min5 (List.mem_cons_of_mem _ List.mem_cons_self) e he

end TdxHq.Program
