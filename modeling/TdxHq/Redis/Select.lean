import TdxHq.Redis.Store

namespace TdxHq.Redis

variable {σ : Type} {srv : σ → List Str → σ × Reply}

def selectCmd (dbindex : ℤ) : Makecmd := (makecmd "SELECT").appendInt dbindex

def setDbindex (dbindex : ℤ) (con : ConnectionData) : ConnectionData :=
  { con with dbindex := dbindex }

theorem askAll_setConnections (c : Cluster σ) (cons : List ConnectionData)
    (msgs : List (ℤ × List Makecmd)) :
    ({ c with connections := cons } : Cluster σ).askAll srv msgs =
      { c.askAll srv msgs with connections := cons } := by
  induction msgs generalizing c with
  | nil => rfl
  | cons msg msgs ih => exact ih (c.ask srv msg.1 msg.2)

theorem getConnections_bind {β : Type} (f : List ConnectionData → Prog β) (c : Cluster σ) :
    (getConnections >>= f).direct srv c = (f c.connections).direct srv c := rfl

theorem setConnections_direct (c : Cluster σ) (cons : List ConnectionData) :
    (setConnections cons).direct srv c = .ok () { c with connections := cons } := rfl

theorem modify_length {α : Type} (pre : List α) (a : α) (rest : List α) (f : α → α) :
    (pre ++ a :: rest).modify pre.length f = pre ++ [f a] ++ rest := by
  induction pre with
  | nil => rfl
  | cons b pre ih => exact congrArg (b :: ·) ih

/-- The connections from the `i`-th on get their replies and are noted to have changed. -/
theorem selectLoop_direct (dbindex : ℤ) (rest pre : List ConnectionData) {c : Cluster σ}
    (hconn : c.connections = pre ++ rest)
    (hnodup : (rest.map ConnectionData.socket).Nodup)
    (hpeer : ∀ con ∈ rest, ∃ p, c.peer con.socket = some p ∧ p.owed = [] ∧
      (srv p.server (selectCmd dbindex).lines).2 = okReply) :
    ∃ c', (selectLoop dbindex pre.length rest).direct srv
        (c.askAll srv (rest.map fun con => (con.socket, [selectCmd dbindex]))) = .ok () c' ∧
      c'.connections = pre ++ rest.map (setDbindex dbindex) ∧
      (∀ con ∈ rest, ∀ p, c.peer con.socket = some p →
        c'.peer con.socket = some ⟨(srv p.server (selectCmd dbindex).lines).1, []⟩) ∧
      ∀ s, s ∉ rest.map ConnectionData.socket → c'.peer s = c.peer s := by
  induction rest generalizing pre c with
  | nil =>
    refine ⟨c, rfl, by rw [hconn]; rfl, ?_, fun s _ => rfl⟩
    exact fun con hcon => absurd hcon List.not_mem_nil
  | cons con rest ih =>
    rw [List.map_cons, List.nodup_cons] at hnodup
    obtain ⟨p, hp, howed, hreply⟩ := hpeer con List.mem_cons_self
    have hother : ∀ con' ∈ rest, con'.socket ≠ con.socket := by
      intro con' hcon' heq
      exact hnodup.1 (heq ▸ List.mem_map_of_mem hcon')
    have htake := takeReply_askAll srv hp howed (selectCmd dbindex) .ok
      (rest.map fun con => (con.socket, [selectCmd dbindex]))
    rw [hreply, as_okReply, ← recvReply_direct srv] at htake
    have hmodify : (pre ++ con :: rest).modify pre.length (setDbindex dbindex) =
        pre ++ [setDbindex dbindex con] ++ rest := modify_length pre con rest _
    -- the others have their replies still to come; this one is noted to have changed
    obtain ⟨c', hrun, hconn', hasked, hrest⟩ := ih (pre ++ [setDbindex dbindex con])
      (c := { c.put con.socket ⟨(srv p.server (selectCmd dbindex).lines).1, []⟩ with
        connections := pre ++ [setDbindex dbindex con] ++ rest }) rfl hnodup.2
      (fun con' hcon' => by
        obtain ⟨p', hp', hrest'⟩ := hpeer con' (List.mem_cons_of_mem _ hcon')
        exact ⟨p', (Cluster.put_of_ne _ (hother con' hcon') _).trans hp', hrest'⟩)
    refine ⟨c', ?_, ?_, ?_, ?_⟩
    · rw [List.map_cons, selectLoop, direct_bind_of_ok htake]
      change (selectLoop dbindex (pre.length + 1) rest).direct srv
        { Cluster.askAll srv _ _ with
          connections := (Cluster.askAll srv _ _).connections.modify pre.length _ } = _
      rw [Cluster.askAll_connections, Cluster.put_connections, hconn]
      change (selectLoop dbindex (pre.length + 1) rest).direct srv
        { Cluster.askAll srv _ _ with
          connections := (pre ++ con :: rest).modify pre.length (setDbindex dbindex) } = _
      rw [hmodify, ← askAll_setConnections]
      rw [List.length_append, List.length_singleton] at hrun
      exact hrun
    · rw [hconn', List.map_cons, List.append_assoc]
      rfl
    · intro con' hcon' p' hp'
      rcases List.mem_cons.mp hcon' with rfl | hcon'
      · rw [hp, Option.some.injEq] at hp'
        rw [hrest con'.socket hnodup.1, ← hp']
        exact Cluster.put_self _ _ _
      · apply hasked con' hcon'
        rw [← hp']
        exact Cluster.put_of_ne _ (hother con' hcon') _
    · intro s hs
      rw [List.map_cons, List.mem_cons, not_or] at hs
      rw [hrest s hs.2]
      exact Cluster.put_of_ne _ hs.1 _

theorem select_direct (dbindex : ℤ) {c : Cluster σ} (h : c.Ready)
    (hnodup : (c.connections.map ConnectionData.socket).Nodup)
    (hok : ∀ s, (srv s (selectCmd dbindex).lines).2 = okReply) :
    ∃ c', (select dbindex).direct srv c = .ok () c' ∧
      c'.connections = c.connections.map (setDbindex dbindex) ∧
      ∀ con ∈ c.connections, ∀ p, c.peer con.socket = some p →
        c'.peer con.socket = some ⟨(srv p.server (selectCmd dbindex).lines).1, []⟩ := by
  have hpeer : ∀ con ∈ c.connections, ∃ p, c.peer con.socket = some p ∧ p.owed = [] ∧
      (srv p.server (selectCmd dbindex).lines).2 = okReply := by
    intro con hcon
    obtain ⟨p, hp, howed⟩ := h.peer con hcon
    exact ⟨p, hp, howed, hok p.server⟩
  have hsend : ∀ con ∈ c.connections, (c.peer con.socket).isSome := by
    intro con hcon
    obtain ⟨p, hp, -⟩ := h.peer con hcon
    rw [hp]
    rfl
  obtain ⟨c', hrun, hconn, hasked, -⟩ :=
    selectLoop_direct dbindex c.connections [] rfl hnodup hpeer
  refine ⟨c', ?_, hconn, hasked⟩
  change ((c.connections.forM fun con => sendCmds con.socket [selectCmd dbindex]) >>= fun _ =>
    selectLoop dbindex 0 c.connections).direct srv c = _
  rw [direct_bind_of_ok (sendLoop_direct _ _ c.connections hsend)]
  exact hrun

/-- Servers that select what they are told to, where `db` is what is selected. -/
structure Selects (srv : σ → List Str → σ × Reply) (db : σ → ℤ) : Prop where
  reply : ∀ s dbindex, (srv s (selectCmd dbindex).lines).2 = okReply
  select : ∀ s dbindex, db (srv s (selectCmd dbindex).lines).1 = dbindex
  keep : ∀ s cmd, cmd.head? ≠ some (Ascii.text "SELECT") → db (srv s cmd).1 = db s

/-- For every connection the database is noted that its server has selected. -/
structure Cluster.Tracked (db : σ → ℤ) (c : Cluster σ) : Prop where
  ready : c.Ready
  nodup : (c.connections.map ConnectionData.socket).Nodup
  noted : ∀ con ∈ c.connections, ∀ p, c.peer con.socket = some p → db p.server = con.dbindex

variable {db : σ → ℤ} {c : Cluster σ}

theorem select_tracked (hsel : Selects srv db) (h : c.Tracked db) (dbindex : ℤ) :
    ∃ c', (select dbindex).direct srv c = .ok () c' ∧
      c'.connections = c.connections.map (setDbindex dbindex) ∧ c'.Tracked db := by
  obtain ⟨c', hrun, hconn, hasked⟩ :=
    select_direct dbindex h.ready h.nodup fun s => hsel.reply s dbindex
  have hpeer : ∀ con ∈ c'.connections, con.dbindex = dbindex ∧ ∃ p : Peer σ, c'.peer con.socket =
      some ⟨(srv p.server (selectCmd dbindex).lines).1, []⟩ := by
    intro con hcon
    rw [hconn] at hcon
    obtain ⟨con', hcon', rfl⟩ := List.mem_map.mp hcon
    obtain ⟨p, hp, -⟩ := h.ready.peer con' hcon'
    exact ⟨rfl, p, hasked con' hcon' p hp⟩
  refine ⟨c', hrun, hconn, ⟨?_, ?_⟩, ?_, ?_⟩
  · rw [hconn, ne_eq, List.map_eq_nil_iff]
    exact h.ready.nonempty
  · intro con hcon
    obtain ⟨-, p, hp⟩ := hpeer con hcon
    exact ⟨_, hp, rfl⟩
  · rw [hconn, List.map_map]
    exact h.nodup
  · intro con hcon p hp
    obtain ⟨hdb, p', hp'⟩ := hpeer con hcon
    rw [hp', Option.some.injEq] at hp
    rw [← hp, hdb]
    exact hsel.select p'.server dbindex

theorem callKey_tracked (hash : Str → ℕ) (hsel : Selects srv db) (h : c.Tracked db) (key : Str)
    (cmd : Makecmd) (hcmd : cmd.lines.head? ≠ some (Ascii.text "SELECT")) (k : Kind) :
    ∃ r c', (callKey hash key cmd k).direct srv c = Reader.result r c' ∧
      c'.connections = c.connections ∧ c'.Tracked db := by
  obtain ⟨p, hp, -⟩ := h.ready.home hash key
  refine ⟨_, _, callKey_direct h.ready hp cmd k, rfl, ready_put h.ready _ _, h.nodup, ?_⟩
  intro con hcon q hq
  by_cases hs : con.socket = home hash c.connections key
  · rw [hs, Cluster.put_self, Option.some.injEq] at hq
    rw [← hq, hsel.keep p.server cmd.lines hcmd]
    exact h.noted con hcon p (hs ▸ hp)
  · rw [Cluster.put_of_ne _ hs] at hq
    exact h.noted con hcon q hq

abbrev KeyCmd := {cmd : Makecmd // cmd.lines.head? ≠ some (Ascii.text "SELECT")}

inductive Act
  | select (dbindex : ℤ)
  | call (key : Str) (cmd : KeyCmd) (k : Kind)

def Act.prog (hash : Str → ℕ) : Act → Prog Unit
  | select dbindex => Redis.select dbindex
  | call key cmd k => do
    let _ ← callKey hash key cmd.1 k
    return ()

def Act.progs (hash : Str → ℕ) : List Act → Prog Unit
  | [] => return ()
  | act :: acts => do
    act.prog hash
    progs hash acts

/-- What is noted when a command has gone through. -/
def Act.noted : List ConnectionData → Act → List ConnectionData
  | cons, .select dbindex => cons.map (setDbindex dbindex)
  | cons, .call _ _ _ => cons

/-- The commands that have gone through: all of them, or those before one that has thrown. -/
def Act.Done (acts done : List Act) : Except Exception Unit → Prop
  | .ok _ => done = acts
  | .error _ => ∃ key cmd k rest, acts = done ++ .call key cmd k :: rest

variable (hash : Str → ℕ)

theorem prog_tracked (hsel : Selects srv db) (h : c.Tracked db) (act : Act) :
    ∃ r c' done, (act.prog hash).direct srv c = Reader.result r c' ∧ Act.Done [act] done r ∧
      c'.connections = done.foldl Act.noted c.connections ∧ c'.Tracked db := by
  cases act with
  | select dbindex =>
    obtain ⟨c', hrun, hconn, htracked⟩ := select_tracked hsel h dbindex
    exact ⟨.ok (), c', [.select dbindex], hrun, rfl, hconn, htracked⟩
  | call key cmd k =>
    obtain ⟨r, c', hrun, hconn, htracked⟩ := callKey_tracked hash hsel h key cmd.1 cmd.2 k
    cases r with
    | ok v => exact ⟨.ok (), c', [.call key cmd k], direct_bind_of_ok hrun, rfl, hconn, htracked⟩
    | error e =>
      exact ⟨.error e, c', [], direct_bind_of_error hrun, ⟨key, cmd, k, [], rfl⟩, hconn, htracked⟩

theorem progs_tracked (hsel : Selects srv db) (acts : List Act) (h : c.Tracked db) :
    ∃ r c' done, (Act.progs hash acts).direct srv c = Reader.result r c' ∧ Act.Done acts done r ∧
      c'.connections = done.foldl Act.noted c.connections ∧ c'.Tracked db := by
  induction acts generalizing c with
  | nil => exact ⟨.ok (), c, [], rfl, rfl, rfl, h⟩
  | cons act acts ih =>
    obtain ⟨r, c₁, done₁, hrun₁, hdone₁, hconn₁, htracked₁⟩ := prog_tracked hash hsel h act
    cases r with
    | error e =>
      obtain ⟨key, cmd, k, rest, hacts⟩ := hdone₁
      refine ⟨.error e, c₁, done₁, direct_bind_of_error hrun₁, ?_, hconn₁, htracked₁⟩
      refine ⟨key, cmd, k, rest ++ acts, ?_⟩
      rw [← List.singleton_append, hacts, List.append_assoc, List.cons_append]
    | ok u =>
      obtain ⟨r, c₂, done₂, hrun₂, hdone₂, hconn₂, htracked₂⟩ := ih htracked₁
      have hconn : c₂.connections = (act :: done₂).foldl Act.noted c.connections := by
        rw [hconn₂, hconn₁, show done₁ = [act] from hdone₁]
        rfl
      refine ⟨r, c₂, act :: done₂, (direct_bind_of_ok hrun₁).trans hrun₂, ?_, hconn, htracked₂⟩
      cases r with
      | ok u => exact congrArg (act :: ·) hdone₂
      | error e =>
        obtain ⟨key, cmd, k, rest, hacts⟩ := hdone₂
        exact ⟨key, cmd, k, rest, congrArg (act :: ·) hacts⟩

/-- Whatever a client selects and sends, and whether it returns or throws, for every connection it
has noted what it selected last, and that is the database that is selected there. -/
theorem noted_of_run (hsel : Selects srv db) (h : c.Tracked db) {w w' : World σ}
    (hw : w.Holds c) (acts : List Act) {r : Except Exception Unit}
    (hrun : (Act.progs hash acts).run srv w = Reader.result r w') :
    ∃ done, Act.Done acts done r ∧ w'.connections = done.foldl Act.noted w.connections ∧
      ∀ con ∈ w'.connections,
        ∃ n, w'.node con.socket = some n ∧ db n.server = con.dbindex := by
  obtain ⟨r', c', done, hdirect, hdone, hconn, htracked⟩ := progs_tracked hash hsel acts h
  have hsame : r = r' ∧ w'.Agrees c' := by
    cases r' with
    | ok u =>
      obtain ⟨w'', hrun', hw''⟩ := run_of_direct srv hw hdirect
      rw [hrun] at hrun'
      cases r with
      | ok u' => cases hrun'; exact ⟨rfl, hw''.agrees⟩
      | error e => cases hrun'
    | error e =>
      obtain ⟨w'', hrun', hw''⟩ := run_of_direct_error srv hw hdirect
      rw [hrun] at hrun'
      cases r with
      | ok u' => cases hrun'
      | error e' => cases hrun'; exact ⟨rfl, hw''⟩
  obtain ⟨rfl, hagrees⟩ := hsame
  refine ⟨done, hdone, ?_, ?_⟩
  · rw [hagrees.connections, hconn, hw.connections]
  · intro con hcon
    rw [hagrees.connections] at hcon
    obtain ⟨p, hp, -⟩ := htracked.ready.peer con hcon
    have hserver := hagrees.server con.socket
    rw [hp, Option.map_some] at hserver
    obtain ⟨n, hn, hnp⟩ := Option.map_eq_some_iff.mp hserver
    refine ⟨n, hn, ?_⟩
    rw [hnp]
    exact htracked.noted con hcon p hp

def dbServer (selected : ℤ) (cmd : List Str) : ℤ × Reply :=
  if cmd.head? = some (Ascii.text "SELECT") then
    ((Ascii.toInt? (cmd.getD 1 [])).getD selected, okReply)
  else (selected, okReply)

theorem dbServer_selects : Selects dbServer id where
  reply s dbindex := by
    rw [dbServer]
    split_ifs <;> rfl
  select s dbindex := by
    change (Ascii.toInt? (Ascii.ofInt dbindex)).getD s = dbindex
    rw [Ascii.toInt?_ofInt]
    rfl
  keep s cmd hcmd := by
    rw [dbServer, if_neg hcmd]

theorem twoServers_tracked : (twoServers (0 : ℤ)).Tracked id where
  ready := twoServers_ready 0
  nodup := by decide
  noted := by
    intro con hcon p hp
    have hdb : con.dbindex = 0 := by
      rcases List.mem_cons.mp hcon with rfl | hcon
      · rfl
      · rw [List.mem_singleton.mp hcon]
    have hserver : p.server = 0 := by
      change (if con.socket = 5 ∨ con.socket = 7 then _ else _) = some p at hp
      split_ifs at hp
      exact congrArg Peer.server (Option.some.inj hp).symm
    rw [hserver, hdb]
    rfl

def pingBetween : List Act :=
  [.select 1, .call [] ⟨makecmd "PING", by decide +kernel⟩ .int, .select 2]

-- the status reply to PING is no integer, so the client throws before the second SELECT
theorem noted_of_run_ping :
    ∃ e w', (Act.progs List.length pingBetween).run dbServer
        ((twoServers 0).wire [.arrive 1] [.accept 2]) = .error e w' ∧
      (w'.connections.map fun con => (con.socket, con.dbindex)) = [(5, 1), (7, 1)] ∧
      (w'.node 5).map Node.server = some 1 ∧ (w'.node 7).map Node.server = some 1 := by
  have hw : ((twoServers 0).wire [.arrive 1] [.accept 2]).Holds (twoServers (0 : ℤ)) :=
    Cluster.wire_holds _ (by simp [NoFail]) (by simp [Flows])
  have hthrows : ((Act.progs List.length pingBetween).run dbServer).run'
      ((twoServers 0).wire [.arrive 1] [.accept 2]) = none := by decide +kernel
  cases hr : (Act.progs List.length pingBetween).run dbServer
      ((twoServers 0).wire [.arrive 1] [.accept 2]) with
  | ok u w' =>
    rw [EStateM.run', EStateM.run, hr] at hthrows
    cases hthrows
  | error e w' =>
    obtain ⟨done, ⟨key, cmd, k, rest, hacts⟩, hconn, hnoted⟩ :=
      noted_of_run List.length dbServer_selects twoServers_tracked hw pingBetween
        (r := .error e) hr
    have hdone : done = [.select 1] := by
      have hbehind : ∀ act ∈ pingBetween.drop 2, act = .select 2 := by
        intro act hact
        exact List.mem_singleton.mp hact
      rcases done with _ | ⟨act, _ | ⟨act', done⟩⟩
      · cases hacts
      · rw [(List.cons.inj hacts).1]
      · rw [hacts] at hbehind
        cases hbehind _ (List.mem_append_right done List.mem_cons_self)
    have hcons : w'.connections = [⟨Ascii.text "a", 6379, 1, 5⟩, ⟨Ascii.text "b", 6379, 1, 7⟩] := by
      rw [hconn, hdone]
      rfl
    rw [hcons] at hnoted
    obtain ⟨n, hn, hdb⟩ := hnoted _ List.mem_cons_self
    obtain ⟨n', hn', hdb'⟩ := hnoted _ (List.mem_cons_of_mem _ List.mem_cons_self)
    refine ⟨e, w', rfl, ?_, Option.map_eq_some_iff.mpr ⟨n, hn, hdb⟩,
      Option.map_eq_some_iff.mpr ⟨n', hn', hdb'⟩⟩
    rw [hcons]
    rfl

/-- What the constructor of `CQuotation` connects to. -/
def workerCon (socket : ℤ) : ConnectionData where
  host := Ascii.text "14.25.93.208"
  port := 6379
  dbindex := 0
  socket := socket

def workerPassword : Str := Ascii.text "myPassword"

/-- What `CQuotation::Run` publishes for a stock. -/
def publishStock : Prog Unit := do
  select 0
  let _ ← publish hash (Ascii.text "data") (Ascii.text "message")
  select 1
  let _ ← publish hash (Ascii.text "kline5") (Ascii.text "message9")
  return ()

def publishStocks : ℕ → Prog Unit
  | 0 => return ()
  | n + 1 => do
    publishStock hash
    publishStocks n

def publishCmd (channel message : Str) : Makecmd :=
  ((makecmd "PUBLISH").append channel).append message

/-- The commands for a stock. -/
def stockCmds : List (List Str) :=
  [["SELECT", "0"], ["PUBLISH", "data", "message"], ["SELECT", "1"],
    ["PUBLISH", "kline5", "message9"]].map fun cmd => cmd.map Ascii.text

theorem stockCmds_eq : stockCmds =
    [(selectCmd 0).lines, (publishCmd (Ascii.text "data") (Ascii.text "message")).lines,
      (selectCmd 1).lines, (publishCmd (Ascii.text "kline5") (Ascii.text "message9")).lines] := by
  decide +kernel

/-- A server that accepts the password, selects and publishes. -/
structure Broker (srv : σ → List Str → σ × Reply) : Prop where
  auth : ∀ s, (srv s ((makecmd "AUTH").append workerPassword).lines).2 = okReply
  select : ∀ s dbindex, (srv s (selectCmd dbindex).lines).2 = okReply
  publish : ∀ s channel message, ∃ z, (srv s (publishCmd channel message).lines).2 = .int z

/-- The client has one connection, to a server in state `s` that owes nothing. -/
structure Cluster.One (c : Cluster σ) (con : ConnectionData) (s : σ) : Prop where
  connections : c.connections = [con]
  peer : c.peer con.socket = some ⟨s, []⟩

variable {con : ConnectionData} {s : σ}

theorem Cluster.One.ready (h : c.One con s) : c.Ready where
  nonempty := by
    rw [h.connections]
    exact List.cons_ne_nil _ _
  peer := by
    intro con' hcon'
    rw [h.connections, List.mem_singleton] at hcon'
    rw [hcon']
    exact ⟨_, h.peer, rfl⟩

theorem select_one (hsrv : Broker srv) (h : c.One con s) (dbindex : ℤ) :
    ∃ c', (select dbindex).direct srv c = .ok () c' ∧
      c'.One (setDbindex dbindex con) (srv s (selectCmd dbindex).lines).1 := by
  have hnodup : (c.connections.map ConnectionData.socket).Nodup := by
    rw [h.connections]
    exact List.nodup_singleton _
  obtain ⟨c', hrun, hconn, hasked⟩ :=
    select_direct dbindex h.ready hnodup fun s => hsrv.select s dbindex
  refine ⟨c', hrun, ?_, hasked con ?_ _ h.peer⟩
  · rw [hconn, h.connections]
    rfl
  · rw [h.connections]
    exact List.mem_singleton_self _

theorem publish_one (hsrv : Broker srv) (h : c.One con s) (channel message : Str) :
    ∃ z c', (publish hash channel message).direct srv c = .ok z c' ∧
      c'.One con (srv s (publishCmd channel message).lines).1 := by
  obtain ⟨z, hz⟩ := hsrv.publish s channel message
  have hhome : home hash c.connections channel = con.socket := by
    rw [h.connections]
    rfl
  have hpeer : c.peer (home hash c.connections channel) = some ⟨s, []⟩ := by
    rw [hhome, h.peer]
  have hcall : (publish hash channel message).direct srv c = _ :=
    callKey_direct h.ready hpeer (publishCmd channel message) .int
  rw [hz, hhome] at hcall
  refine ⟨z, _, hcall, ?_, Cluster.put_self _ _ _⟩
  exact h.connections

theorem publishStock_one (hsrv : Broker srv) (h : c.One con s) :
    ∃ c' con', (publishStock hash).direct srv c = .ok () c' ∧ con'.socket = con.socket ∧
      c'.One con' (answers srv s stockCmds).1 := by
  rw [stockCmds_eq]
  obtain ⟨c₁, hrun₁, h₁⟩ := select_one hsrv h 0
  obtain ⟨z₂, c₂, hrun₂, h₂⟩ := publish_one hash hsrv h₁ (Ascii.text "data") (Ascii.text "message")
  obtain ⟨c₃, hrun₃, h₃⟩ := select_one hsrv h₂ 1
  obtain ⟨z₄, c₄, hrun₄, h₄⟩ :=
    publish_one hash hsrv h₃ (Ascii.text "kline5") (Ascii.text "message9")
  refine ⟨c₄, setDbindex 1 (setDbindex 0 con), ?_, rfl, h₄⟩
  rw [publishStock, direct_bind_of_ok hrun₁, direct_bind_of_ok hrun₂, direct_bind_of_ok hrun₃,
    direct_bind_of_ok hrun₄]
  rfl

theorem publishStocks_one (hsrv : Broker srv) (n : ℕ) (h : c.One con s) :
    ∃ c' con', (publishStocks hash n).direct srv c = .ok () c' ∧ con'.socket = con.socket ∧
      c'.One con' (answers srv s (List.replicate n stockCmds).flatten).1 := by
  induction n generalizing c con s with
  | zero => exact ⟨c, con, rfl, rfl, h⟩
  | succ n ih =>
    obtain ⟨c₁, con₁, hrun₁, hsocket₁, h₁⟩ := publishStock_one hash hsrv h
    obtain ⟨c₂, con₂, hrun₂, hsocket₂, h₂⟩ := ih h₁
    refine ⟨c₂, con₂, ?_, hsocket₂.trans hsocket₁, ?_⟩
    · rw [publishStocks, direct_bind_of_ok hrun₁, hrun₂]
    · rw [List.replicate_succ, List.flatten_cons, answers_append]
      exact h₂

/-- The commands the constructor sends. -/
def openCmds : List (List Str) :=
  [["AUTH", "myPassword"], ["SELECT", "0"]].map fun cmd => cmd.map Ascii.text

theorem openCmds_eq :
    openCmds = [((makecmd "AUTH").append workerPassword).lines, (selectCmd 0).lines] := by
  decide +kernel

theorem call_okReply {socket : ℤ} {cmd : Makecmd} (hpeer : c.peer socket = some ⟨s, []⟩)
    (hreply : (srv s cmd.lines).2 = okReply) :
    (call socket cmd .ok).direct srv c = .ok () (c.put socket ⟨(srv s cmd.lines).1, []⟩) := by
  rw [call_direct hpeer rfl, hreply, as_okReply]
  rfl

theorem selectOn_first (con : ConnectionData) (hsrv : Broker srv) (hconn : c.connections = [])
    (hpeer : c.peer con.socket = some ⟨s, []⟩) (dbindex : ℤ) :
    ∃ c', (selectOn dbindex con).direct srv c = .ok () c' ∧ c'.connections = [] ∧
      c'.peer con.socket = some ⟨(srv s (selectCmd dbindex).lines).1, []⟩ := by
  have hcall : (call con.socket ((makecmd "SELECT").appendInt dbindex) .ok).direct srv c = _ :=
    call_okReply hpeer (hsrv.select s dbindex)
  refine ⟨{ c.put con.socket ⟨(srv s (selectCmd dbindex).lines).1, []⟩ with connections := [] },
    ?_, rfl, Cluster.put_self _ _ _⟩
  rw [selectOn, direct_bind_of_ok hcall]
  rw [getConnections_bind, setConnections_direct, Cluster.put_connections, hconn]
  rfl

theorem newClient_one (hsrv : Broker srv) {socket : ℤ} (hconn : c.connections = [])
    (hpeer : c.peer socket = some ⟨s, []⟩) :
    ∃ c', (newClient (workerCon socket) workerPassword).direct srv c = .ok () c' ∧
      c'.One (workerCon socket) (answers srv s openCmds).1 := by
  rw [openCmds_eq]
  have hauth : (auth workerPassword (workerCon socket)).direct srv c = _ :=
    call_okReply hpeer (hsrv.auth s)
  obtain ⟨c₂, hselect, hconn₂, hpeer₂⟩ := selectOn_first (workerCon socket) hsrv
    (c := c.put socket ⟨(srv s ((makecmd "AUTH").append workerPassword).lines).1, []⟩) hconn
    (Cluster.put_self _ _ _) 0
  have hinit : (initCon (workerCon socket) workerPassword).direct srv c = .ok () c₂ := by
    rw [initCon, if_pos (by decide +kernel), direct_bind_of_ok hauth]
    exact hselect
  refine ⟨{ c₂ with connections := [workerCon socket] }, ?_, rfl, hpeer₂⟩
  rw [newClient, direct_bind_of_ok hinit]
  rw [getConnections_bind, setConnections_direct, hconn₂]
  rfl

/-- A worker that has opened its client and gone through `n` stocks has had exactly its commands
executed, in their order and once each, and no reply is left over, however the bytes travel. -/
theorem worker_dialogue (hsrv : Broker srv) {socket : ℤ} (hconn : c.connections = [])
    (hpeer : c.peer socket = some ⟨s, []⟩) {w : World σ} (hw : w.Holds c) (n : ℕ) :
    ∃ w' node, (newClient (workerCon socket) workerPassword >>= fun _ =>
        publishStocks hash n).run srv w = .ok () w' ∧
      w'.node socket = some node ∧
      node.server =
        (answers srv s (openCmds ++ (List.replicate n stockCmds).flatten)).1 ∧
      node.pending = [] ∧ node.channel.inbox = [] := by
  obtain ⟨c₁, hrun₁, h₁⟩ := newClient_one hsrv hconn hpeer
  obtain ⟨c₂, con₂, hrun₂, hsocket, h₂⟩ := publishStocks_one hash hsrv n h₁
  have hdirect : (newClient (workerCon socket) workerPassword >>= fun _ =>
      publishStocks hash n).direct srv c = .ok () c₂ := by
    rw [direct_bind_of_ok hrun₁, hrun₂]
  obtain ⟨w', hrun, hw'⟩ := run_of_direct srv hw hdirect
  have hpeer₂ := h₂.peer
  rw [hsocket] at hpeer₂
  rcases hw'.at socket with ⟨-, hc⟩ | ⟨node, p, hnode, hc, hholds⟩
  · rw [show c₂.peer socket = some _ from hpeer₂] at hc
    cases hc
  · rw [show c₂.peer socket = some _ from hpeer₂, Option.some.injEq] at hc
    refine ⟨w', node, hrun, hnode, ?_, hholds.pending, ?_⟩
    · rw [hholds.server, ← hc, answers_append]
    · rw [hholds.inbox, ← hc]
      rfl

def logServer (log : List (List Str)) (cmd : List Str) : List (List Str) × Reply :=
  (log ++ [cmd],
    if cmd.head? = some (Ascii.text "PUBLISH") then .int ⟨0, by decide⟩ else okReply)

theorem answers_logServer (log cmds : List (List Str)) :
    (answers logServer log cmds).1 = log ++ cmds := by
  induction cmds generalizing log with
  | nil => exact (List.append_nil log).symm
  | cons cmd cmds ih =>
    change (answers logServer (log ++ [cmd]) cmds).1 = _
    rw [ih, List.append_assoc]
    rfl

theorem logServer_broker : Broker logServer where
  auth log := by
    rw [logServer, if_neg (by decide +kernel)]
  select log dbindex := by
    have hne : (selectCmd dbindex).lines.head? ≠ some (Ascii.text "PUBLISH") := by
      change some (Ascii.text "SELECT") ≠ _
      decide +kernel
    rw [logServer, if_neg hne]
  publish log channel message := by
    have heq : (publishCmd channel message).lines.head? = some (Ascii.text "PUBLISH") := rfl
    rw [logServer, if_pos heq]
    exact ⟨_, rfl⟩

def freshServer : Cluster (List (List Str)) where
  connections := []
  peer socket := if socket = 5 then some ⟨[], []⟩ else none
  noSocket := []

theorem worker_dialogue_two :
    ∃ w' node, (newClient (workerCon 5) workerPassword >>= fun _ =>
        publishStocks List.length 2).run logServer
        (freshServer.wire [.arrive 1, .interrupt] [.accept 3]) = .ok () w' ∧
      w'.node 5 = some node ∧
      node.server = openCmds ++ (List.replicate 2 stockCmds).flatten ∧
      node.pending = [] ∧ node.channel.inbox = [] := by
  have hw : (freshServer.wire [.arrive 1, .interrupt] [.accept 3]).Holds freshServer :=
    Cluster.wire_holds _ (by simp [NoFail]) (by simp [Flows])
  have hpeer : freshServer.peer 5 = some ⟨[], []⟩ := rfl
  have h := worker_dialogue List.length logServer_broker rfl hpeer hw 2
  rwa [answers_logServer] at h

end TdxHq.Redis
