import TdxHq.Outcome

namespace TdxHq.Replace

open Request Bars SecurityBars Reception Outcome
open Connection (Code Handle)

/-- One of the downloads in `Run`: what is asked for, and how its statements begin. -/
structure Query where
  Category : Word
  count : Word
  insert : List Char

def min30 : Query :=
  ⟨2, 2, "REPLACE INTO Min30(DateTime,Open,Close,Hight,Low,Vol,amount) Values(".toList⟩

def min5 : Query :=
  ⟨0, 3, "REPLACE INTO Min5(DateTime,Open,Close,Hight,Low,Vol,TureOver) Values(".toList⟩

/-- The market number of a stock, from the first character of its `market` field. -/
def marketOf (market : Char) : Word :=
  if market = '0' then 0 else if market = '1' then 1 else 0

def Query.call (q : Query) (market : Char) (code : CStr) : BarsCall :=
  ⟨q.Category, marketOf market, code, 0, q.count⟩

def csSQL (insert csLine : List Char) : List Char := insert ++ csLine ++ [')']

/-- The loop over the rows from `iRow` on: how often a row is extracted, and the statements that
are executed.  Whether `sqlite3_exec` fails makes no difference to the loop. -/
def rowLoop (insert szResult : List Char) : ℕ → ℕ → Option (ℕ × List (List Char))
  | 0, _ => none
  | fuel + 1, iRow =>
    let csLine := Text.afxExtractSubString szResult iRow '\n'
    -- `break`, with `iRow` already raised
    if csLine = [] then some (1, [])
    else (rowLoop insert szResult fuel (iRow + 1)).map fun (extractions, executed) =>
      (extractions + 1, csSQL insert csLine :: executed)

section Run

variable {D : Type} (env : Env D) (skHQ : ℕ → Option Handle) (conID : ℤ) (q : Query)
  (market : Char) (code : CStr)

/-- One download and its rows.  The code that `TDXHQ_GetSecurityBars` returns is not looked
at. -/
def download (fuel : ℕ) : CallM (Option (ℕ × List (List Char))) := do
  -- `ZeroMemory`
  modify fun s => { s with Count := q.count, szResult := zeroed }
  let _ ← getSecurityBars env skHQ conID (q.call market code)
  let s ← get
  match Text.cStr s.szResult with
  | none => throw (.fault .invalidAccess)
  | some szResult => return rowLoop q.insert szResult fuel 1

end Run

theorem rowLoop_of_rows (insert : List Char) {szResult : List Char} {rows : List (List Char)}
    (hrows : ∀ r ∈ rows, r ≠ []) {fuel iRow : ℕ} (hfuel : rows.length < fuel)
    (hextract : ∀ k, Text.afxExtractSubString szResult (iRow + k) '\n' = rows.getD k []) :
    rowLoop insert szResult fuel iRow = some (rows.length + 1, rows.map (csSQL insert)) := by
  induction rows generalizing fuel iRow with
  | nil =>
    obtain ⟨fuel, rfl⟩ := Nat.exists_eq_add_of_lt hfuel
    have hlast : Text.afxExtractSubString szResult iRow '\n' = [] := hextract 0
    simp only [rowLoop, hlast, if_true]
    rfl
  | cons r rows ih =>
    obtain ⟨fuel, rfl⟩ := Nat.exists_eq_add_of_lt (Nat.zero_lt_of_lt hfuel)
    have hfirst : Text.afxExtractSubString szResult iRow '\n' = r := hextract 0
    have hrest := @ih (fun r' hr' => hrows r' (List.mem_cons_of_mem r hr')) (0 + fuel) (iRow + 1)
      (by rw [List.length_cons] at hfuel; omega) (by
        intro k
        rw [Nat.add_assoc, Nat.add_comm 1 k]
        exact hextract (k + 1))
    simp only [rowLoop, hfirst, if_neg (hrows r (by simp)), hrest, Option.map_some,
      List.length_cons, List.map_cons]

/-- What `%.3f` prints has neither a NUL nor a newline in it. -/
structure PlainPrint {D : Type} (ops : Volume.DoubleOps D) : Prop where
  nul : ∀ x, Text.NUL ∉ ops.format3 x
  newline : ∀ x, '\n' ∉ ops.format3 x

section Table

variable {D : Type} {ops : Volume.DoubleOps D} (hprint : PlainPrint ops)
include hprint

theorem splitOn_tableText (bars : List Bar) :
    (tableText ops bars).splitOn '\n' = heading.dropLast :: (bars.map (row ops) ++ [[]]) := by
  have hheading : heading = heading.dropLast ++ '\n' :: [] := by decide
  have hlines : bars.flatMap (csLine ops) =
      (bars.map (row ops)).flatMap fun l => l ++ ['\n'] := by
    rw [List.flatMap_map, funext (csLine_eq_row ops)]
  have hrows : ∀ l ∈ bars.map (row ops), '\n' ∉ l := by
    intro l hl
    obtain ⟨bar, -, rfl⟩ := List.mem_map.mp hl
    exact notMem_row (by decide) (by decide) hprint.newline bar
  rw [tableText, hheading, hlines, List.append_assoc, List.cons_append, List.nil_append,
    List.splitOn_append_cons_self, Text.splitOn_lines hrows,
    List.splitOn_eq_singleton (by decide)]
  rfl

/-- Row `k + 1` of the text is the row of bar `k`, and empty past the last bar. -/
theorem extract_tableText (bars : List Bar) (k : ℕ) :
    Text.afxExtractSubString (tableText ops bars) (1 + k) '\n' =
      (bars.map (row ops)).getD k [] := by
  rw [Text.afxExtractSubString, splitOn_tableText hprint, Nat.add_comm, List.getD_cons_succ]
  rcases Nat.lt_or_ge k (bars.map (row ops)).length with hk | hk
  · exact List.getD_append _ _ _ _ hk
  · rw [List.getD_append_right _ _ _ _ hk, List.getD_eq_default _ _ hk]
    cases k - (bars.map (row ops)).length <;> rfl

theorem rowLoop_tableText (insert : List Char) (bars : List Bar) {fuel : ℕ}
    (hfuel : bars.length < fuel) :
    rowLoop insert (tableText ops bars) fuel 1 =
      some (bars.length + 1, bars.map fun bar => csSQL insert (row ops bar)) := by
  have hrows : ∀ r ∈ bars.map (row ops), r ≠ [] := by
    intro r hr
    obtain ⟨bar, -, rfl⟩ := List.mem_map.mp hr
    exact row_ne_nil ops bar
  have h := rowLoop_of_rows insert hrows (by rwa [List.length_map]) (extract_tableText hprint bars)
  rwa [List.length_map, List.map_map] at h

end Table

variable {D : Type} {env : Env D} {skHQ : ℕ → Option Handle} {conID : ℤ} {q : Query}
  {market : Char} {code : CStr}

theorem download_of_returns (hprint : PlainPrint env.ops) {a : Answers}
    {outbox : List (List Byte)} {Count : ℕ} {szResult : List Char} {ret : Code} {t : CallState}
    (hrun : getSecurityBars env skHQ conID (q.call market code) (a.before outbox q.count zeroed) =
      .ok ret t)
    (hshort : (dueText env skHQ conID (q.call market code) a).length < 256 * 800) (fuel : ℕ) :
    download env skHQ conID q market code fuel (a.before outbox Count szResult) =
      .ok (rowLoop q.insert (dueText env skHQ conID (q.call market code) a) fuel 1) t := by
  have hcstr := (isCStr_dueText_iff hprint.nul hrun).mpr (zeroed_getElem? hshort)
  have hzero : (modify fun s : CallState => { s with Count := q.count, szResult := zeroed } :
      CallM PUnit) (a.before outbox Count szResult) = .ok () (a.before outbox q.count zeroed) := rfl
  rw [download, Reader.bind_of_ok hzero, Reader.bind_of_ok hrun, Reader.get_bind,
    Text.cStr_of_isCStr hcstr]
  rfl

/-- As long as the text is shorter than the buffer, every bar of a response is put into the
database by one statement of its own, in order, and the loop ends at the row behind the last;
after an error nothing is executed. -/
theorem one_replace_per_bar (hprint : PlainPrint env.ops) {a : Answers}
    {outbox : List (List Byte)} {ret : Code} {t : CallState}
    (hrun : getSecurityBars env skHQ conID (q.call market code) (a.before outbox q.count zeroed) =
      .ok ret t) (Count : ℕ) (szResult : List Char) :
    (min30.insert =
        "REPLACE INTO Min30(DateTime,Open,Close,Hight,Low,Vol,amount) Values(".toList ∧
      min5.insert =
        "REPLACE INTO Min5(DateTime,Open,Close,Hight,Low,Vol,TureOver) Values(".toList) ∧
    (ret = .ok → ∃ bars, dueBars env skHQ conID (q.call market code) a = some bars ∧
      t.Count = bars.length ∧
      ((tableText env.ops bars).length < 256 * 800 → ∀ fuel, bars.length < fuel →
        download env skHQ conID q market code fuel (a.before outbox Count szResult) =
          .ok (some (bars.length + 1, bars.map fun bar =>
            q.insert ++ [','].intercalate (columns env.ops bar) ++ [')'])) t)) ∧
    (ret ≠ .ok → ∀ fuel, 0 < fuel →
      download env skHQ conID q market code fuel (a.before outbox Count szResult) =
        .ok (some (1, [])) t) := by
  rcases (returns_cases hrun).2 with ⟨rfl, bars, hdue, hCount⟩ | ⟨hret, hdue, -⟩
  · have htext : dueText env skHQ conID (q.call market code) a = tableText env.ops bars := by
      simp only [dueText, hdue]
    have hstatement : ∀ bar, csSQL q.insert (row env.ops bar) =
        q.insert ++ [','].intercalate (columns env.ops bar) ++ [')'] := by
      intro bar
      rw [csSQL, row_eq_columns]
    refine ⟨⟨rfl, rfl⟩, fun _ => ⟨bars, hdue, hCount, ?_⟩, fun h => absurd rfl h⟩
    intro hshort fuel hfuel
    rw [download_of_returns hprint hrun (by rwa [htext]), htext,
      rowLoop_tableText hprint q.insert bars hfuel, funext hstatement]
  · have htext : dueText env skHQ conID (q.call market code) a = [] := by
      simp only [dueText, hdue]
    refine ⟨⟨rfl, rfl⟩, fun h => absurd h hret, ?_⟩
    intro _ fuel hfuel
    have hempty : ∀ k, Text.afxExtractSubString [] (1 + k) '\n' =
        ([] : List (List Char)).getD k [] := by
      intro k
      rw [Nat.add_comm]
      rfl
    rw [download_of_returns hprint hrun (by rw [htext]; decide), htext,
      rowLoop_of_rows q.insert (by simp) hfuel hempty]
    rfl

def min30Bars : List Bar :=
  [⟨2015, 1, 5, 14, 30, 15990, 16020, 16280, 15600, 2860436, 0x4D7CC397⟩,
    ⟨2015, 1, 5, 15, 0, 15850, 15780, 16390, 15550, 0, 0⟩]

def min30Frame : Frame where
  ignored := sampleFrame.ignored
  wUzipedSize := 39
  body := encodeBody 2 min30Bars
  ignored_length := sampleFrame.ignored_length
  body_ne := by decide
  body_length := by decide

def min30Answers : Answers where
  sendRet := 28
  head := some min30Frame.head
  body := [some min30Frame.body]
  head_le := by decide
  body_le := by decide

theorem exact_plainPrint : PlainPrint Volume.exact where
  nul := Volume.notMem_formatExact (by decide) (by decide)
  newline := Volume.notMem_formatExact (by decide) (by decide)

theorem min30_returns :
    ∃ t, getSecurityBars sampleEnv (fun _ => some 7) 0 (min30.call '0' (askFrom 0).Zqdm)
      (min30Answers.before [] min30.count zeroed) = .ok .ok t ∧ t.Count = 2 := by
  obtain ⟨c, hparse⟩ := @parseBody_encodeBody ℚ Volume.exact 2 min30Bars (by decide) (by decide)
  have hbody : verdict sampleEnv (fun _ => some 7) 0 (min30.call '0' (askFrom 0).Zqdm)
      min30Answers = .body min30Frame.body := by decide
  have hroom : (rows Volume.exact 2 min30Bars).length ≤ zeroed.length := by
    rw [zeroed, List.length_replicate]
    decide +kernel
  exact returns_of_parse [] min30.count hbody hparse hroom

theorem dueBars_min30 :
    dueBars sampleEnv (fun _ => some 7) 0 (min30.call '0' (askFrom 0).Zqdm) min30Answers =
      some (min30Bars.map (printed 2)) := by decide +kernel

def min30Statements : List (List Char) :=
  [("REPLACE INTO Min30(DateTime,Open,Close,Hight,Low,Vol,amount) Values(" ++
      "\"2015-01-05 14:30:00\",15.990,16.020,16.280,15.600,2860436,265042288.000)").toList,
    ("REPLACE INTO Min30(DateTime,Open,Close,Hight,Low,Vol,amount) Values(" ++
      "\"2015-01-05 15:00:00\",15.850,15.780,16.390,15.550,1,15.780)").toList]

theorem one_replace_sample :
    ∃ t, download sampleEnv (fun _ => some 7) 0 min30 '0' (askFrom 0).Zqdm 3
        (min30Answers.before [] 0 []) = .ok (some (3, min30Statements)) t := by
  obtain ⟨t, hrun, -⟩ := min30_returns
  obtain ⟨bars, hdue, -, hdown⟩ := (one_replace_per_bar exact_plainPrint hrun 0 []).2.1 rfl
  have hbars : min30Bars.map (printed 2) = bars :=
    Option.some.inj (dueBars_min30.symm.trans hdue)
  subst hbars
  have hshort : (tableText Volume.exact (min30Bars.map (printed 2))).length < 256 * 800 := by
    decide +kernel
  have hstatements : ((min30Bars.map (printed 2)).map fun bar =>
      min30.insert ++ [','].intercalate (columns Volume.exact bar) ++ [')']) =
        min30Statements := by
    decide +kernel
  rw [← hstatements]
  exact ⟨t, hdown hshort 3 (by decide)⟩

end TdxHq.Replace
