import TdxHq.Library.Refines
import TdxHq.Redis.Command

namespace TdxHq.Redis

variable {σ α β γ : Type}

structure ConnectionData where
  host : Str
  port : ℕ
  dbindex : ℤ
  socket : ℤ
  deriving DecidableEq, Repr

def ConnectionData.same (con other : ConnectionData) : Bool :=
  con.host == other.host && con.port == other.port && con.dbindex == other.dbindex

/-- What a function of the client does with its sockets and with `connections_`. -/
inductive Prog (α : Type) where
  | ret (a : α)
  | raise (e : Exception)
  | connections (next : List ConnectionData → Prog α)
  | assign (cons : List ConnectionData) (next : Prog α)
  /-- `send_`; the message is the requests one after the other. -/
  | send (socket : ℤ) (cmds : List Makecmd) (next : Prog α)
  | recv (socket : ℤ) (k : Kind) (next : k.Result → Prog α)

namespace Prog

def bind : Prog α → (α → Prog β) → Prog β
  | ret a, f => f a
  | raise e, _ => raise e
  | connections next, f => connections fun cons => (next cons).bind f
  | assign cons next, f => assign cons (next.bind f)
  | send socket cmds next, f => send socket cmds (next.bind f)
  | recv socket k next, f => recv socket k fun v => (next v).bind f

instance : Monad Prog where
  pure := ret
  bind := bind

theorem bind_ret (p : Prog α) : p.bind ret = p := by
  induction p with
  | ret a => rfl
  | raise e => rfl
  | connections next ih => exact congrArg connections (funext ih)
  | assign cons next ih => exact congrArg (assign cons) ih
  | send socket cmds next ih => exact congrArg (send socket cmds) ih
  | recv socket k next ih => exact congrArg (recv socket k) (funext ih)

theorem bind_bind (p : Prog α) (f : α → Prog β) (g : β → Prog γ) :
    (p.bind f).bind g = p.bind fun a => (f a).bind g := by
  induction p with
  | ret a => rfl
  | raise e => rfl
  | connections next ih => exact congrArg connections (funext ih)
  | assign cons next ih => exact congrArg (assign cons) ih
  | send socket cmds next ih => exact congrArg (send socket cmds) ih
  | recv socket k next ih => exact congrArg (recv socket k) (funext ih)

instance : LawfulMonad Prog := LawfulMonad.mk' Prog bind_ret (fun _ _ => rfl) bind_bind

end Prog

def getConnections : Prog (List ConnectionData) := .connections .ret

def setConnections (cons : List ConnectionData) : Prog Unit := .assign cons (.ret ())

def sendCmds (socket : ℤ) (cmds : List Makecmd) : Prog Unit := .send socket cmds (.ret ())

def recvReply (socket : ℤ) (k : Kind) : Prog k.Result := .recv socket k .ret

inductive Sent
  /-- At most `k` bytes are taken, and at least one. -/
  | accept (k : ℕ)
  | nothing
  | fail (err : Str)
  deriving DecidableEq, Repr

/-- The loop of `anetWrite`: what it returns, with the error for -1, the bytes that have gone out
and what happens at the sends to come. -/
def anetWrite : List Sent → Str → ℕ → Except Str ℕ × Str × List Sent
  | sends, [], totlen => (.ok totlen, [], sends)
  | [], b :: buf, totlen => (.ok (totlen + (b :: buf).length), b :: buf, [])
  | .accept k :: sends, b :: buf, totlen =>
    let nwritten := min (b :: buf).length (max 1 k)
    let (ret, out, sends) := anetWrite sends ((b :: buf).drop nwritten) (totlen + nwritten)
    (ret, (b :: buf).take nwritten ++ out, sends)
  -- the caller only tells -1 from the rest, so the message is lost without a trace
  | .nothing :: sends, _ :: _, totlen => (.ok totlen, [], sends)
  | .fail err :: sends, _ :: _, _ => (.error err, [], sends)

/-- A server and the connection to it. -/
structure Node (σ : Type) where
  server : σ
  /-- What has reached the server and is not a whole command yet. -/
  pending : Str
  channel : Channel
  sends : List Sent

section Server

-- what a server makes of a command
variable (srv : σ → List Str → σ × Reply)

def answers : σ → List (List Str) → σ × List Reply
  | s, [] => (s, [])
  | s, cmd :: cmds =>
    ((answers (srv s cmd).1 cmds).1, (srv s cmd).2 :: (answers (srv s cmd).1 cmds).2)

/-- The server answers what it has got. -/
def Node.serve (n : Node σ) : Node σ :=
  let (cmds, rest) := takeRequests (n.pending.length + 1) n.pending
  let (server, replies) := answers srv n.server cmds
  { n with
    server := server
    pending := rest
    channel := { n.channel with inbox := n.channel.inbox ++ replies.flatMap Reply.encode } }

/-- The client's `connections_` and what is at the other end of its sockets. -/
structure World (σ : Type) where
  connections : List ConnectionData
  node : ℤ → Option (Node σ)
  /-- What `strerror` has to say where there is no socket. -/
  noSocket : Str

def World.put (w : World σ) (socket : ℤ) (n : Node σ) : World σ :=
  { w with node := Function.update w.node socket (some n) }

def sendBytes (socket : ℤ) (msg : Str) : EStateM Exception (World σ) Unit := fun w =>
  match w.node socket with
  | none => .error (.connectionError w.noSocket) w
  | some n =>
    let (ret, out, sends) := anetWrite n.sends msg 0
    let w := w.put socket (Node.serve srv { n with pending := n.pending ++ out, sends := sends })
    match ret with
    -- the count is not looked at
    | .ok _ => .ok () w
    | .error err => .error (.connectionError err) w

def recvBytes (socket : ℤ) (k : Kind) : EStateM Exception (World σ) k.Result := fun w =>
  match w.node socket with
  | none => .error (.connectionError (Ascii.text "recv error: " ++ w.noSocket)) w
  | some n =>
    match k.recv n.channel with
    | .ok v c => .ok v (w.put socket { n with channel := c })
    | .error e c => .error e (w.put socket { n with channel := c })

def Prog.run : Prog α → EStateM Exception (World σ) α
  | ret a => pure a
  | raise e => throw e
  | connections next => fun w => (next w.connections).run w
  | assign cons next => fun w => next.run { w with connections := cons }
  | send socket cmds next => do
    sendBytes srv socket (cmds.flatMap Makecmd.toStr)
    next.run
  | recv socket k next => do
    let v ← recvBytes socket k
    (next v).run

/-- A server and the replies it has given that the client has not taken. -/
structure Peer (σ : Type) where
  server : σ
  owed : List Reply

structure Cluster (σ : Type) where
  connections : List ConnectionData
  peer : ℤ → Option (Peer σ)
  noSocket : Str

def Cluster.put (c : Cluster σ) (socket : ℤ) (p : Peer σ) : Cluster σ :=
  { c with peer := Function.update c.peer socket (some p) }

@[simp] theorem Cluster.put_self (c : Cluster σ) (socket : ℤ) (p : Peer σ) :
    (c.put socket p).peer socket = some p := Function.update_self _ _ _

theorem Cluster.put_of_ne (c : Cluster σ) {socket s : ℤ} (h : s ≠ socket) (p : Peer σ) :
    (c.put socket p).peer s = c.peer s := Function.update_of_ne h _ _

@[simp] theorem Cluster.put_connections (c : Cluster σ) (socket : ℤ) (p : Peer σ) :
    (c.put socket p).connections = c.connections := rfl

@[simp] theorem Cluster.put_noSocket (c : Cluster σ) (socket : ℤ) (p : Peer σ) :
    (c.put socket p).noSocket = c.noSocket := rfl

def Peer.ask (p : Peer σ) (cmds : List Makecmd) : Peer σ where
  server := (answers srv p.server (cmds.map Makecmd.lines)).1
  owed := p.owed ++ (answers srv p.server (cmds.map Makecmd.lines)).2

def askPeer (socket : ℤ) (cmds : List Makecmd) : EStateM Exception (Cluster σ) Unit := fun c =>
  match c.peer socket with
  | none => .error (.connectionError c.noSocket) c
  | some p => .ok () (c.put socket (p.ask srv cmds))

/-- The next reply is taken; without one the client waits. -/
def takeReply (socket : ℤ) (k : Kind) : EStateM Exception (Cluster σ) k.Result := fun c =>
  match c.peer socket with
  | none => .error (.connectionError (Ascii.text "recv error: " ++ c.noSocket)) c
  | some p =>
    match p.owed with
    | [] => .error .blocked c
    | r :: owed => Reader.result (Reply.as k r) (c.put socket { p with owed := owed })

def Prog.direct : Prog α → EStateM Exception (Cluster σ) α
  | ret a => pure a
  | raise e => throw e
  | connections next => fun c => (next c.connections).direct c
  | assign cons next => fun c => next.direct { c with connections := cons }
  | send socket cmds next => do
    askPeer srv socket cmds
    next.direct
  | recv socket k next => do
    let v ← takeReply socket k
    (next v).direct

end Server

theorem recvOrThrow_blocks {c : Channel} (hlive : Live c) (hin : c.inbox = []) (peek : Bool)
    {n : ℕ} (hn : 0 < n) : recvOrThrow peek n c = .error .blocked c := by
  obtain ⟨queued, turns, -, -, hloop⟩ := recvLoop_eq_deliver peek n c c.turns hlive.noFail
  have hopen : ¬ (n = 0 ∨ (c.inbox = [] ∧ c.closed = true)) := by
    rw [hlive.up]
    simp only [Bool.false_eq_true, and_false, or_false]
    omega
  rw [recvOrThrow, hloop, deliver, if_neg hopen, if_pos hin]

theorem readLine_blocks {c : Channel} (hlive : Live c) (hin : c.inbox = []) :
    readLine c = .error .blocked c := by
  have hpeek := recvOrThrow_blocks hlive hin true bufferSize_pos
  have hloop : readLineLoop (c.inbox.length + 1) [] c = .error .blocked c := by
    rw [readLineLoop]
    exact Reader.bind_of_error hpeek
  rw [readLine, Reader.get_bind]
  exact Reader.bind_of_error hloop

theorem recv_blocks (k : Kind) {c : Channel} (hlive : Live c) (hin : c.inbox = []) :
    k.recv c = .error .blocked c := by
  have hline := readLine_blocks hlive hin
  cases k with
  | status => exact Reader.bind_of_error hline
  | ok => exact Reader.bind_of_error (Reader.bind_of_error hline)
  | int => exact Reader.bind_of_error hline
  | intOk => exact Reader.bind_of_error (Reader.bind_of_error hline)
  | bulk => exact Reader.bind_of_error (Reader.bind_of_error hline)
  | multiBulk => exact Reader.bind_of_error (Reader.bind_of_error hline)
  | generic =>
    have hpeek := recvOrThrow_blocks hlive hin true Nat.one_pos
    exact Reader.bind_of_error (Reader.bind_of_error hpeek)

def Flows (sends : List Sent) : Prop := ∀ t ∈ sends, ∃ k, t = .accept k

theorem anetWrite_flows (sends : List Sent) (hflows : Flows sends) (msg : Str) (totlen : ℕ) :
    ∃ sends', anetWrite sends msg totlen = (.ok (totlen + msg.length), msg, sends') ∧
      Flows sends' := by
  induction sends generalizing msg totlen with
  | nil => cases msg <;> exact ⟨[], rfl, hflows⟩
  | cons t sends ih =>
    obtain ⟨k, rfl⟩ := hflows _ List.mem_cons_self
    have htail : Flows sends := fun t ht => hflows t (List.mem_cons_of_mem _ ht)
    cases msg with
    | nil => exact ⟨_, rfl, hflows⟩
    | cons b msg =>
      obtain ⟨sends', hrest, hflows'⟩ :=
        ih htail ((b :: msg).drop (min (b :: msg).length (max 1 k)))
          (totlen + min (b :: msg).length (max 1 k))
      refine ⟨sends', ?_, hflows'⟩
      have hcount : totlen + min (b :: msg).length (max 1 k) +
          ((b :: msg).length - min (b :: msg).length (max 1 k)) = totlen + (b :: msg).length := by
        omega
      rw [anetWrite, hrest]
      dsimp only
      rw [List.take_append_drop, List.length_drop, hcount]

/-- The bytes on the way are those of the replies owed. -/
structure Node.Holds (n : Node σ) (p : Peer σ) : Prop where
  server : n.server = p.server
  pending : n.pending = []
  inbox : n.channel.inbox = p.owed.flatMap Reply.encode
  live : Live n.channel
  flows : Flows n.sends

structure World.Holds (w : World σ) (c : Cluster σ) : Prop where
  connections : w.connections = c.connections
  noSocket : w.noSocket = c.noSocket
  node : ∀ socket, Option.Rel Node.Holds (w.node socket) (c.peer socket)

def Cluster.wire (c : Cluster σ) (turns : List Turn) (sends : List Sent) : World σ where
  connections := c.connections
  node socket := (c.peer socket).map fun p =>
    { server := p.server
      pending := []
      channel :=
        { inbox := p.owed.flatMap Reply.encode, queued := 0, turns := turns, closed := false }
      sends := sends }
  noSocket := c.noSocket

theorem Cluster.wire_holds (c : Cluster σ) {turns : List Turn} {sends : List Sent}
    (hturns : NoFail turns) (hsends : Flows sends) : (c.wire turns sends).Holds c := by
  refine ⟨rfl, rfl, fun socket => ?_⟩
  change Option.Rel Node.Holds ((c.peer socket).map _) (c.peer socket)
  cases c.peer socket with
  | none => exact .none
  | some p => exact .some ⟨rfl, rfl, rfl, ⟨hturns, rfl⟩, hsends⟩

/-- What is left of it where the client has thrown. -/
structure World.Agrees (w : World σ) (c : Cluster σ) : Prop where
  connections : w.connections = c.connections
  server : ∀ socket, (w.node socket).map Node.server = (c.peer socket).map Peer.server

theorem World.Holds.at {w : World σ} {c : Cluster σ} (h : w.Holds c) (socket : ℤ) :
    (w.node socket = none ∧ c.peer socket = none) ∨
      ∃ n p, w.node socket = some n ∧ c.peer socket = some p ∧ n.Holds p := by
  have hrel := h.node socket
  generalize w.node socket = n, c.peer socket = p at hrel
  cases hrel with
  | none => exact Or.inl ⟨rfl, rfl⟩
  | some hn => exact Or.inr ⟨_, _, rfl, rfl, hn⟩

theorem World.Holds.agrees {w : World σ} {c : Cluster σ} (h : w.Holds c) : w.Agrees c := by
  refine ⟨h.connections, fun socket => ?_⟩
  rcases h.at socket with ⟨hw, hc⟩ | ⟨n, p, hw, hc, hn⟩
  · rw [hw, hc]
    rfl
  · rw [hw, hc]
    exact congrArg some hn.server

theorem World.Holds.put {w : World σ} {c : Cluster σ} (h : w.Holds c) (socket : ℤ) {n : Node σ}
    {p : Peer σ} (hn : n.Holds p) : (w.put socket n).Holds (c.put socket p) := by
  refine ⟨h.connections, h.noSocket, fun socket' => ?_⟩
  by_cases heq : socket' = socket
  · subst heq
    simp only [World.put, Cluster.put, Function.update_self]
    exact .some hn
  · simp only [World.put, Cluster.put, Function.update_of_ne heq]
    exact h.node socket'

theorem World.Agrees.put {w : World σ} {c : Cluster σ} (h : w.Agrees c) (socket : ℤ) {n : Node σ}
    {p : Peer σ} (hn : n.server = p.server) : (w.put socket n).Agrees (c.put socket p) := by
  refine ⟨h.connections, fun socket' => ?_⟩
  by_cases heq : socket' = socket
  · subst heq
    simp only [World.put, Cluster.put, Function.update_self]
    exact congrArg some hn
  · simp only [World.put, Cluster.put, Function.update_of_ne heq]
    exact h.server socket'

variable (srv : σ → List Str → σ × Reply)

theorem toStr_length_pos (m : Makecmd) : 0 < m.toStr.length :=
  List.length_pos_iff.mpr (List.cons_ne_nil _ _)

theorem serve_holds {n : Node σ} {p : Peer σ} (h : n.Holds p) (cmds : List Makecmd)
    {sends : List Sent} (hflows : Flows sends) :
    (Node.serve srv { n with
      pending := n.pending ++ cmds.flatMap Makecmd.toStr
      sends := sends }).Holds (p.ask srv cmds) := by
  have hfuel : cmds.length < (cmds.flatMap Makecmd.toStr).length + 1 :=
    Nat.lt_succ_of_le (Reader.length_le_flatMap _ _ fun m _ => toStr_length_pos m)
  rw [h.pending, List.nil_append, Node.serve, takeRequests_toStr cmds hfuel]
  dsimp only
  rw [h.server]
  refine ⟨rfl, rfl, ?_, ⟨h.live.noFail, h.live.up⟩, hflows⟩
  rw [h.inbox, Peer.ask, List.flatMap_append]

theorem sendBytes_refines (socket : ℤ) (cmds : List Makecmd) :
    Refines World.Holds World.Agrees (sendBytes srv socket (cmds.flatMap Makecmd.toStr))
      (askPeer srv socket cmds) := by
  intro w c h
  rw [sendBytes, askPeer]
  rcases h.at socket with ⟨hw, hc⟩ | ⟨n, p, hw, hc, hn⟩
  · rw [hw, hc, h.noSocket]
    exact .error h.agrees
  · obtain ⟨sends, hwrite, hflows⟩ :=
      anetWrite_flows n.sends hn.flows (cmds.flatMap Makecmd.toStr) 0
    rw [hw, hc]
    dsimp only
    rw [hwrite]
    exact .ok (h.put socket (serve_holds srv hn cmds hflows))

/-- A reply is taken off the wire as it was sent.  One that the client throws at may be left
there in part, and then the program has ended. -/
theorem recvBytes_refines (socket : ℤ) (k : Kind) :
    Refines World.Holds World.Agrees (recvBytes (σ := σ) socket k) (takeReply socket k) := by
  intro w c h
  rw [recvBytes, takeReply]
  rcases h.at socket with ⟨hw, hc⟩ | ⟨n, p, hw, hc, hn⟩
  · rw [hw, hc, h.noSocket]
    exact .error h.agrees
  rw [hw, hc]
  dsimp only
  cases howed : p.owed with
  | nil =>
    have hin : n.channel.inbox = [] := by
      rw [hn.inbox, howed]
      rfl
    have hput : w.put socket { n with channel := n.channel } = w := by
      rw [World.put, Function.update_eq_self_iff.mpr hw.symm]
    -- nothing is owed and nothing is on the way
    rw [recv_blocks k hn.live hin]
    dsimp only
    rw [hput]
    exact .error h.agrees
  | cons r owed =>
    dsimp only
    have hin : n.channel.inbox = r.encode ++ owed.flatMap Reply.encode := by
      rw [hn.inbox, howed]
      rfl
    cases has : Reply.as k r with
    | ok v =>
      obtain ⟨ch, hrecv, hlive, hrest⟩ :=
        Reply.recv_whole (Reply.covers_of_as_eq_ok has) n.channel _ hn.live hin
      rw [hrecv, has]
      exact .ok (h.put socket ⟨hn.server, hn.pending, hrest, hlive, hn.flows⟩)
    | error e =>
      -- what the throw leaves of the reply stays in front of the next one
      rw [← Reply.taken_append_left k r, List.append_assoc] at hin
      obtain ⟨ch, hrecv, -, -⟩ := Reply.recv_consumes k r n.channel _ hn.live hin
      rw [hrecv, has]
      exact .error (h.agrees.put socket hn.server)

theorem run_refines_direct (p : Prog α) :
    Refines World.Holds World.Agrees (p.run srv) (p.direct srv) := by
  induction p with
  | ret a => exact Refines.pure a
  | raise e => exact Refines.throw (fun w c h => h.agrees) e
  | connections next ih =>
    intro w c h
    change SameOutcome _ _ ((next w.connections).run srv w) ((next c.connections).direct srv c)
    rw [h.connections]
    exact ih c.connections w c h
  | assign cons next ih =>
    intro w c h
    exact ih { w with connections := cons } { c with connections := cons }
      ⟨rfl, h.noSocket, h.node⟩
  | send socket cmds next ih => exact (sendBytes_refines srv socket cmds).bind fun _ => ih
  | recv socket k next ih => exact (recvBytes_refines socket k).bind ih

/-- What a program of the client comes to does not depend on how its messages are cut into pieces
and when the replies arrive: on two wires that stand for the same messages it returns the same
value or throws the same, and the servers have got the same commands. -/
theorem run_same_on_wires (p : Prog α) {w w' : World σ} {c : Cluster σ} (hw : w.Holds c)
    (hw' : w'.Holds c) :
    SameOutcome (fun w w' => ∃ c' : Cluster σ, w.Holds c' ∧ w'.Holds c')
      (fun w w' => ∃ c' : Cluster σ, w.Agrees c' ∧ w'.Agrees c') (p.run srv w) (p.run srv w') :=
  (run_refines_direct srv p w c hw).meet (run_refines_direct srv p w' c hw')

def oneServer : Cluster ℕ where
  connections := []
  peer socket := if socket = 3 then some ⟨0, [.bulk none]⟩ else none
  noSocket := []

def pingProg : Prog ℤ := do
  sendCmds 3 [makecmd "PING"]
  let _ ← recvReply 3 .bulk
  recvReply 3 .int

def pingServer (n : ℕ) (_ : List Str) : ℕ × Reply := (n + 1, .int ⟨1, by decide⟩)

theorem run_same_on_wires_ping :
    ∃ w w', pingProg.run pingServer (oneServer.wire [.arrive 1, .interrupt] [.accept 2]) =
        .ok 1 w ∧
      pingProg.run pingServer (oneServer.wire [] []) = .ok 1 w' ∧
      ∃ c', w.Holds c' ∧ w'.Holds c' := by
  have hw : (oneServer.wire [.arrive 1, .interrupt] [.accept 2]).Holds oneServer :=
    oneServer.wire_holds (by simp [NoFail]) (by simp [Flows])
  have hw' : (oneServer.wire [] []).Holds oneServer :=
    oneServer.wire_holds (by simp [NoFail]) (by simp [Flows])
  obtain ⟨w, hrun⟩ := exists_ok_of_run' (by decide +kernel : (pingProg.run pingServer).run'
    (oneServer.wire [.arrive 1, .interrupt] [.accept 2]) = some 1)
  have hsame := run_same_on_wires pingServer pingProg hw hw'
  rw [hrun] at hsame
  obtain ⟨w', hrun', hholds⟩ := hsame.of_ok
  exact ⟨w, w', hrun, hrun', hholds⟩

/-- A program that returns on messages returns the same on the wire. -/
theorem run_of_direct {p : Prog α} {w : World σ} {c c' : Cluster σ} {a : α} (hw : w.Holds c)
    (h : p.direct srv c = .ok a c') : ∃ w', p.run srv w = .ok a w' ∧ w'.Holds c' := by
  have hrun := run_refines_direct srv p w c hw
  rw [h] at hrun
  exact hrun.to_ok

theorem run_of_direct_error {p : Prog α} {w : World σ} {c c' : Cluster σ} {e : Exception}
    (hw : w.Holds c) (h : p.direct srv c = .error e c') :
    ∃ w', p.run srv w = .error e w' ∧ w'.Agrees c' := by
  have hrun := run_refines_direct srv p w c hw
  rw [h] at hrun
  exact hrun.to_error

section Direct

variable {srv}

theorem direct_bind (p : Prog α) (f : α → Prog β) :
    (p >>= f).direct srv = p.direct srv >>= fun a => (f a).direct srv := by
  induction p with
  | ret a => exact (pure_bind a fun a => (f a).direct srv).symm
  | raise e => rfl
  | connections next ih =>
    funext c
    exact congrFun (ih c.connections) c
  | assign cons next ih =>
    funext c
    exact congrFun ih { c with connections := cons }
  | send socket cmds next ih =>
    change (askPeer srv socket cmds >>= fun _ => (next >>= f).direct srv) = _
    rw [ih]
    exact (bind_assoc _ _ _).symm
  | recv socket k next ih =>
    change (takeReply socket k >>= fun v => (next v >>= f).direct srv) = _
    rw [funext ih]
    exact (bind_assoc _ _ _).symm

theorem direct_bind_of_ok {p : Prog α} {f : α → Prog β} {c c' : Cluster σ} {a : α}
    (h : p.direct srv c = .ok a c') : (p >>= f).direct srv c = (f a).direct srv c' := by
  rw [direct_bind, Reader.bind_of_ok h]

theorem direct_bind_of_error {p : Prog α} {f : α → Prog β} {c c' : Cluster σ} {e : Exception}
    (h : p.direct srv c = .error e c') : (p >>= f).direct srv c = .error e c' := by
  rw [direct_bind, Reader.bind_of_error h]

end Direct

end TdxHq.Redis
