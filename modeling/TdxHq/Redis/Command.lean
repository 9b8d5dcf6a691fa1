import TdxHq.Redis.Reply

namespace TdxHq.Redis

structure Makecmd where
  lines : List Str
  keyName : Option Str
  deriving DecidableEq, Repr

def makecmd (cmd_name : String) : Makecmd where
  lines := [Ascii.text cmd_name]
  keyName := none

namespace Makecmd

def append (m : Makecmd) (param : Str) : Makecmd := { m with lines := m.lines ++ [param] }

/-- `operator<<(const key &)`; a command has at most one. -/
def addKey (m : Makecmd) (name : Str) : Except Exception Makecmd :=
  if m.keyName.isSome then .error (.runtimeError (Ascii.text "You could not add a second key"))
  else .ok { (m.append name) with keyName := some name }

def appendInt (m : Makecmd) (datum : ℤ) : Makecmd := m.append (Ascii.ofInt datum)

def appendAll (m : Makecmd) (data : List Str) : Makecmd := { m with lines := m.lines ++ data }

def getKeyName (m : Makecmd) : Except Exception Str :=
  match m.keyName with
  | some name => .ok name
  | none => .error (.runtimeError (Ascii.text "No key defined!"))

end Makecmd

def encodeParam (param : Str) : Str :=
  bulkLead :: Ascii.ofNat param.length ++ lbr ++ (param ++ lbr)

def Makecmd.toStr (m : Makecmd) : Str :=
  multiBulkLead :: Ascii.ofNat m.lines.length ++ lbr ++ m.lines.flatMap encodeParam

abbrev Parser := EStateM Unit Str

def takeLine : Parser Str := fun bs =>
  if bs.contains LF then
    .ok (rtrim (bs.takeWhile (· != LF)) lbr) (bs.drop ((bs.takeWhile (· != LF)).length + 1))
  else .error () bs

def takeNumber (lead : Byte) : Parser ℕ := do
  let line ← takeLine
  if line.headD 0 ≠ lead then throw ()
  else
    match Ascii.toNat? (line.drop 1) with
    | some n => return n
    | none => throw ()

def takeBlock (n : ℕ) : Parser Str := fun bs =>
  if bs.length < n then .error () bs else .ok (bs.take n) (bs.drop n)

def takeParam (params : List Str) : Parser (List Str) := do
  let n ← takeNumber bulkLead
  let param ← takeBlock n
  let _ ← takeBlock lbr.length
  return params ++ [param]

def takeRequest : Parser (List Str) := do
  let n ← takeNumber multiBulkLead
  Reader.iterate takeParam n []

/-- What a message means to the server at the other end: the commands that have arrived whole, and
what follows them. -/
def takeRequests : ℕ → Str → List (List Str) × Str
  | 0, bs => ([], bs)
  | fuel + 1, bs =>
    match takeRequest bs with
    | .ok cmd rest => (cmd :: (takeRequests fuel rest).1, (takeRequests fuel rest).2)
    | .error _ _ => ([], bs)

abbrev Takes {α : Type} (p : Parser α) (bs : Str) (a : α) : Prop :=
  Reader.Consumes (fun _ => True) id p bs (.ok a)

theorem takeLine_takes {line : Str} (h : Plain line) : Takes takeLine (line ++ lbr) line := by
  intro bs rest _ hbs
  have hlf : LF ∉ line ++ [CR] := by
    rw [List.mem_append, not_or]
    exact ⟨h.2, by decide⟩
  have hsplit : bs = (line ++ [CR]) ++ LF :: rest := by
    rw [show bs = line ++ lbr ++ rest from hbs, lbr]
    simp
  refine ⟨rest, ?_, trivial, rfl⟩
  rw [hsplit, takeLine, if_pos (by simp), takeWhile_line hlf, rtrim,
    List.rdropWhile_concat_pos _ _ _ (by decide), ← rtrim, rtrim_plain h,
    List.drop_length_add_append]
  rfl

theorem plain_ofNat (n : ℕ) : Plain (Ascii.ofNat n) := by
  have h := plain_ofInt n
  rwa [Ascii.ofInt, if_neg (by omega), Int.natAbs_natCast] at h

theorem takeNumber_takes (t : ReplyType) (n : ℕ) :
    Takes (takeNumber t.lead) (t.lead :: Ascii.ofNat n ++ lbr) n := by
  have hplain : Plain (t.lead :: Ascii.ofNat n) :=
    plain_cons t.lead_ne_CR t.lead_ne_LF (plain_ofNat n)
  apply (takeLine_takes hplain).andThen
  rw [List.headD_cons, if_neg (not_not.mpr rfl), List.drop_succ_cons, List.drop_zero,
    Ascii.toNat?_ofNat]
  exact Reader.Consumes.pure n

theorem takeBlock_takes (block : Str) : Takes (takeBlock block.length) block block := by
  intro bs rest _ hbs
  refine ⟨rest, ?_, trivial, rfl⟩
  rw [show bs = block ++ rest from hbs, takeBlock, if_neg (by simp), List.take_left,
    List.drop_left]
  rfl

theorem takeParam_takes (params : List Str) (param : Str) :
    Takes (takeParam params) (encodeParam param) (params ++ [param]) := by
  apply (takeNumber_takes .bulk param.length).bind
  apply (takeBlock_takes param).bind
  exact (takeBlock_takes lbr).map fun _ => params ++ [param]

theorem foldl_concat (params out : List Str) :
    params.foldl (fun out param => out ++ [param]) out = out ++ params := by
  induction params generalizing out with
  | nil => rw [List.append_nil]; rfl
  | cons param params ih => rw [List.foldl_cons, ih, List.append_assoc]; rfl

theorem takeRequest_takes (m : Makecmd) : Takes takeRequest m.toStr m.lines := by
  apply (takeNumber_takes .multiBulk m.lines.length).bind
  have hparams : Takes (Reader.iterate takeParam m.lines.length [])
      (m.lines.flatMap encodeParam) (m.lines.foldl (fun out param => out ++ [param]) []) :=
    Reader.Reads.iterate _ _ _ (fun param _ out => takeParam_takes out param) []
  rwa [foldl_concat, List.nil_append] at hparams

/-- The commands of a message are read back one by one, whatever bytes their parameters hold. -/
theorem takeRequests_toStr (ms : List Makecmd) {fuel : ℕ} (hfuel : ms.length < fuel) :
    takeRequests fuel (ms.flatMap Makecmd.toStr) = (ms.map Makecmd.lines, []) := by
  induction fuel generalizing ms with
  | zero => exact absurd hfuel (Nat.not_lt_zero _)
  | succ fuel ih =>
    cases ms with
    | nil => rfl
    | cons m ms =>
      obtain ⟨rest, htake, -, hrest⟩ :=
        takeRequest_takes m _ (ms.flatMap Makecmd.toStr) trivial rfl
      rw [id_eq] at hrest
      rw [List.flatMap_cons, takeRequests, htake, hrest]
      change (m.lines :: (takeRequests fuel _).1, (takeRequests fuel _).2) = _
      rw [ih ms (Nat.lt_of_succ_lt_succ hfuel)]
      rfl

/-- Messages are the same bytes exactly if they are the same commands: no parameter, whatever
bytes it holds, can pass for the end of its command or for another one. -/
theorem pipeline_eq_iff (ms ms' : List Makecmd) :
    ms.flatMap Makecmd.toStr = ms'.flatMap Makecmd.toStr ↔
      ms.map Makecmd.lines = ms'.map Makecmd.lines := by
  constructor
  · intro h
    have hread := @takeRequests_toStr ms (ms.length + ms'.length + 1) (by omega)
    have hread' := @takeRequests_toStr ms' (ms.length + ms'.length + 1) (by omega)
    rw [h, hread'] at hread
    exact (congrArg Prod.fst hread).symm
  · intro h
    -- the key name is not sent
    have hlines : ∀ ks : List Makecmd, ks.flatMap Makecmd.toStr =
        (ks.map Makecmd.lines).flatMap fun lines => Makecmd.toStr ⟨lines, none⟩ := by
      intro ks
      rw [List.flatMap_map]
      rfl
    rw [hlines, hlines, h]

end TdxHq.Redis
