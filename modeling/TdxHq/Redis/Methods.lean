import TdxHq.Library.SortedMap
import TdxHq.Redis.Client

namespace TdxHq.Redis

variable {α : Type}

def Prog.ofExcept : Except Exception α → Prog α
  | .ok a => .ret a
  | .error e => .raise e

/-- `connections_[idx].socket`, where there is no check that there is such an element. -/
def Prog.element : Option ℤ → Prog ℤ
  | some socket => .ret socket
  | none => .raise .invalidAccess

-- `boost::hash<std::string>`
variable (hash : Str → ℕ)

def defaultHasher (key : Str) (connections : List ConnectionData) : ℕ :=
  hash key % connections.length

def socketOf : List ConnectionData → Str → Option ℤ
  | [con], _ => some con.socket
  | cons, key => (cons[defaultHasher hash key cons]?).map ConnectionData.socket

def getSocket (key : Str) : Prog ℤ := do
  let cons ← getConnections
  Prog.element (socketOf hash cons key)

/-- The loop of `get_socket(keys)` behind the first key. -/
def sameSocket (cons : List ConnectionData) (socket : ℤ) : List Str → Option ℤ
  | [] => some socket
  | key :: keys =>
    (socketOf hash cons key).bind fun cur_socket =>
      if socket ≠ cur_socket then some (-1) else sameSocket cons cur_socket keys

/-- The socket `get_socket(keys)` returns: -1 where the keys are on different servers. -/
def socketOfAll : List ConnectionData → List Str → Option ℤ
  | [con], _ => some con.socket
  | _, [] => some (-1)
  | cons, key :: keys =>
    (socketOf hash cons key).bind fun socket => sameSocket hash cons socket keys

def getSocketOfAll (keys : List Str) : Prog ℤ := do
  let cons ← getConnections
  Prog.element (socketOfAll hash cons keys)

def call (socket : ℤ) (cmd : Makecmd) (k : Kind) : Prog k.Result := do
  sendCmds socket [cmd]
  recvReply socket k

def callKey (key : Str) (cmd : Makecmd) (k : Kind) : Prog k.Result := do
  let socket ← getSocket hash key
  call socket cmd k

def auth (pass : Str) (con : ConnectionData) : Prog Unit :=
  call con.socket ((makecmd "AUTH").append pass) .ok

def set (key value : Str) : Prog Unit :=
  callKey hash key (((makecmd "SET").append key).append value) .ok

def get (key : Str) : Prog Str := callKey hash key ((makecmd "GET").append key) .bulk

def getset (key value : Str) : Prog Str :=
  callKey hash key (((makecmd "GETSET").append key).append value) .bulk

def setnx (key value : Str) : Prog Bool := do
  let z ← callKey hash key (((makecmd "SETNX").append key).append value) .int
  return z = 1

def exists_ (key : Str) : Prog Bool := do
  let z ← callKey hash key ((makecmd "EXISTS").append key) .int
  return z = 1

def del (key : Str) : Prog Bool := do
  let z ← callKey hash key ((makecmd "DEL").append key) .int
  return z ≠ 0

def publish (channel message : Str) : Prog ℤ :=
  callKey hash channel (((makecmd "PUBLISH").append channel).append message) .int

/-- `select(dbindex, con)`; every connection that equals `con` is taken to have changed. -/
def selectOn (dbindex : ℤ) (con : ConnectionData) : Prog Unit := do
  call con.socket ((makecmd "SELECT").appendInt dbindex) .ok
  let cons ← getConnections
  setConnections (cons.map fun cur_con =>
    if cur_con.same con then { cur_con with dbindex := dbindex } else cur_con)

/-- `init`, from the connected socket on. -/
def initCon (con : ConnectionData) (password : Str) : Prog Unit := do
  if password ≠ [] then auth password con
  selectOn con.dbindex con

/-- The constructor for one server, from the connected socket on. -/
def newClient (con : ConnectionData) (password : Str) : Prog Unit := do
  initCon con password
  let cons ← getConnections
  setConnections (cons ++ [con])

/-- The second loop of `select(dbindex)`, over the connections from the `i`-th on. -/
def selectLoop (dbindex : ℤ) : ℕ → List ConnectionData → Prog Unit
  | _, [] => return ()
  | i, con :: rest => do
    recvReply con.socket .ok
    let cons ← getConnections
    setConnections (cons.modify i fun con => { con with dbindex := dbindex })
    selectLoop dbindex (i + 1) rest

def select (dbindex : ℤ) : Prog Unit := do
  let cons ← getConnections
  cons.forM fun con => sendCmds con.socket [(makecmd "SELECT").appendInt dbindex]
  selectLoop dbindex 0 cons

structure Command where
  request : Makecmd
  hashKey : Str
  reply : Option ReplyData
  deriving DecidableEq, Repr

def Command.of (cmd_input : Makecmd) : Except Exception Command := do
  return { request := cmd_input, hashKey := ← cmd_input.getKeyName, reply := none }

def exec (cmd : Command) : Prog Command := do
  let socket ← getSocket hash cmd.hashKey
  let reply ← call socket cmd.request .generic
  return { cmd with reply := some reply }

/-- `socket_commands[get_socket(…)]` is looked up and changed for one item after the other. -/
def collectLoop {ν : Type} (key : α → Str) (push : Option ν → α → ν) (items : List α) :
    Prog (SortedMap ℤ ν) :=
  items.foldlM (fun m item => do
    let socket ← getSocket hash (key item)
    return m.upsert socket fun o => push o item) SortedMap.empty

def execAll (commands : List Command) : Prog (List Command) := do
  let socket_commands ← collectLoop hash Command.hashKey
    (fun (o : Option (List Makecmd)) cmd => o.getD [] ++ [cmd.request]) commands
  socket_commands.entries.forM fun sp => sendCmds sp.1 sp.2
  commands.foldlM (fun done cmd => do
    let socket ← getSocket hash cmd.hashKey
    let reply ← recvReply socket .generic
    return done ++ [{ cmd with reply := some reply }]) []

def mset (key_value_pairs : List (Str × Str)) : Prog Unit := do
  let socket_commands ← collectLoop hash Prod.fst
    (fun (o : Option Makecmd) kv => ((o.getD (makecmd "MSET")).append kv.1).append kv.2)
    key_value_pairs
  socket_commands.entries.forM fun sp => sendCmds sp.1 [sp.2]
  socket_commands.entries.forM fun sp => recvReply sp.1 .ok

/-- `mset(keys, values)`; each turn looks for a socket for all of the keys. -/
def msetVectors (keys values : List Str) : Prog Unit := do
  let socket_commands ← (keys.zip values).foldlM (fun (m : SortedMap ℤ Makecmd) kv => do
    let socket ← getSocketOfAll hash keys
    return m.upsert socket fun o => ((o.getD (makecmd "MSET")).append kv.1).append kv.2)
    SortedMap.empty
  socket_commands.entries.forM fun sp => sendCmds sp.1 [sp.2]
  socket_commands.entries.forM fun sp => recvReply sp.1 .ok

structure ConnectionKeys where
  cmd : Makecmd
  indices : List ℕ

/-- `out[con_keys.indices[i]] = cur_out[i]` for each of `cur_out`. -/
def scatter : List Str → List ℕ → List Str → Except Exception (List Str)
  | out, _, [] => .ok out
  | _, [], _ :: _ => .error .invalidAccess
  | out, i :: indices, v :: cur_out =>
    if i < out.length then scatter (out.set i v) indices cur_out else .error .invalidAccess

def mget (keys : List Str) : Prog (List Str) := do
  let socket_commands ← collectLoop hash Prod.fst
    (fun (o : Option ConnectionKeys) (item : Str × ℕ) =>
      { cmd := ((o.map ConnectionKeys.cmd).getD (makecmd "MGET")).append item.1
        indices := (o.map ConnectionKeys.indices).getD [] ++ [item.2] }) keys.zipIdx
  socket_commands.entries.forM fun sp => sendCmds sp.1 [sp.2.cmd]
  socket_commands.entries.foldlM (fun out sp => do
    let (_, cur_out) ← recvReply sp.1 .multiBulk
    Prog.ofExcept (scatter out sp.2.indices cur_out)) (List.replicate keys.length [])

end TdxHq.Redis
