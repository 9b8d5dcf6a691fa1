import TdxHq.Redis.Methods

namespace TdxHq.Redis

variable {σ α γ : Type}

attribute [ext] Cluster Peer

section Server

variable {srv : σ → List Str → σ × Reply}

theorem answers_append (s : σ) (cmds cmds' : List (List Str)) :
    answers srv s (cmds ++ cmds') =
      ((answers srv (answers srv s cmds).1 cmds').1,
        (answers srv s cmds).2 ++ (answers srv (answers srv s cmds).1 cmds').2) := by
  induction cmds generalizing s with
  | nil => rfl
  | cons cmd cmds ih =>
    rw [List.cons_append, answers, ih]
    rfl

theorem ask_append (p : Peer σ) (cmds cmds' : List Makecmd) :
    p.ask srv (cmds ++ cmds') = (p.ask srv cmds).ask srv cmds' := by
  ext1
  · simp only [Peer.ask, List.map_append, answers_append]
  · simp only [Peer.ask, List.map_append, answers_append, List.append_assoc]

theorem ask_nil (p : Peer σ) : p.ask srv [] = p := by
  ext1
  · rfl
  · exact List.append_nil p.owed

end Server

namespace Cluster

variable (srv : σ → List Str → σ × Reply)

def ask (c : Cluster σ) (socket : ℤ) (cmds : List Makecmd) : Cluster σ :=
  { c with peer := Function.update c.peer socket ((c.peer socket).map fun p => p.ask srv cmds) }

def askAll (c : Cluster σ) (msgs : List (ℤ × List Makecmd)) : Cluster σ :=
  msgs.foldl (fun c msg => c.ask srv msg.1 msg.2) c

variable {srv}

theorem askAll_connections (c : Cluster σ) (msgs : List (ℤ × List Makecmd)) :
    (c.askAll srv msgs).connections = c.connections := by
  induction msgs generalizing c with
  | nil => rfl
  | cons msg msgs ih => exact ih (c.ask srv msg.1 msg.2)

theorem askAll_noSocket (c : Cluster σ) (msgs : List (ℤ × List Makecmd)) :
    (c.askAll srv msgs).noSocket = c.noSocket := by
  induction msgs generalizing c with
  | nil => rfl
  | cons msg msgs ih => exact ih (c.ask srv msg.1 msg.2)

theorem ask_peer (c : Cluster σ) (socket s : ℤ) (cmds : List Makecmd) :
    (c.ask srv socket cmds).peer s =
      (c.peer s).map fun p => p.ask srv (if socket = s then cmds else []) := by
  by_cases h : socket = s
  · subst h
    rw [if_pos rfl]
    exact Function.update_self _ _ _
  · have hid : (fun p : Peer σ => p.ask srv []) = id := funext ask_nil
    rw [if_neg h, hid, Option.map_id]
    exact Function.update_of_ne (Ne.symm h) _ _

theorem askAll_peer (c : Cluster σ) (msgs : List (ℤ × List Makecmd)) (s : ℤ) :
    (c.askAll srv msgs).peer s = (c.peer s).map fun p =>
      p.ask srv ((msgs.filter fun msg => msg.1 = s).flatMap Prod.snd) := by
  induction msgs generalizing c with
  | nil =>
    have hid : (fun p : Peer σ => p.ask srv []) = id := funext ask_nil
    exact ((congrArg (Option.map · (c.peer s)) hid).trans (Option.map_id_apply)).symm
  | cons msg msgs ih =>
    have hcons : (c.ask srv msg.1 msg.2).askAll srv msgs = c.askAll srv (msg :: msgs) := rfl
    rw [← hcons, ih, ask_peer, Option.map_map]
    congr 1
    funext p
    by_cases h : msg.1 = s
    · rw [List.filter_cons_of_pos (by simpa using h), List.flatMap_cons, ask_append, if_pos h]
      rfl
    · rw [List.filter_cons_of_neg (by simpa using h), if_neg h, Function.comp_apply, ask_nil]

/-- What is sent does not depend on how the messages for one server are cut or in which order
the servers come. -/
theorem askAll_congr (c : Cluster σ) {msgs msgs' : List (ℤ × List Makecmd)}
    (h : ∀ s, (msgs.filter fun msg => msg.1 = s).flatMap Prod.snd =
      (msgs'.filter fun msg => msg.1 = s).flatMap Prod.snd) :
    c.askAll srv msgs = c.askAll srv msgs' := by
  ext1
  · rw [askAll_connections, askAll_connections]
  · funext s
    rw [askAll_peer, askAll_peer, h s]
  · rw [askAll_noSocket, askAll_noSocket]

end Cluster

section Loops

variable {srv : σ → List Str → σ × Reply}

theorem sendCmds_direct {c : Cluster σ} {socket : ℤ} (h : (c.peer socket).isSome)
    (cmds : List Makecmd) :
    (sendCmds socket cmds).direct srv c = .ok () (c.ask srv socket cmds) := by
  obtain ⟨p, hp⟩ := Option.isSome_iff_exists.mp h
  have hask : askPeer srv socket cmds c = .ok () (c.ask srv socket cmds) := by
    rw [askPeer, hp, Cluster.ask, hp]
    rfl
  exact Reader.bind_of_ok hask

theorem sendCmds_none {c : Cluster σ} {socket : ℤ} (h : c.peer socket = none)
    (cmds : List Makecmd) :
    (sendCmds socket cmds).direct srv c = .error (.connectionError c.noSocket) c := by
  have hask : askPeer srv socket cmds c = .error (.connectionError c.noSocket) c := by
    rw [askPeer, h]
  exact Reader.bind_of_error hask

theorem ask_isSome {c : Cluster σ} {s : ℤ} (h : (c.peer s).isSome) (socket : ℤ)
    (cmds : List Makecmd) : ((c.ask srv socket cmds).peer s).isSome := by
  rwa [Cluster.ask_peer, Option.isSome_map]

theorem sendLoop_direct (socket : α → ℤ) (cmds : α → List Makecmd) (items : List α)
    {c : Cluster σ} (h : ∀ item ∈ items, (c.peer (socket item)).isSome) :
    (items.forM fun item => sendCmds (socket item) (cmds item)).direct srv c =
      .ok () (c.askAll srv (items.map fun item => (socket item, cmds item))) := by
  induction items generalizing c with
  | nil => rfl
  | cons item items ih =>
    change (sendCmds (socket item) (cmds item) >>= fun _ =>
      items.forM fun item => sendCmds (socket item) (cmds item)).direct srv c = _
    rw [direct_bind_of_ok (sendCmds_direct (h item List.mem_cons_self) _)]
    exact ih fun item' hitem' => ask_isSome (h item' (List.mem_cons_of_mem _ hitem')) _ _

variable (srv) in
theorem recvReply_direct (socket : ℤ) (k : Kind) :
    (recvReply socket k).direct srv = takeReply (σ := σ) socket k := bind_pure _

theorem call_direct {c : Cluster σ} {socket : ℤ} {p : Peer σ} (hp : c.peer socket = some p)
    (howed : p.owed = []) (cmd : Makecmd) (k : Kind) :
    (call socket cmd k).direct srv c = Reader.result (Reply.as k (srv p.server cmd.lines).2)
      (c.put socket ⟨(srv p.server cmd.lines).1, []⟩) := by
  have hsome : (c.peer socket).isSome := by
    rw [hp]
    rfl
  have hpeer : (c.ask srv socket [cmd]).peer socket =
      some ⟨(srv p.server cmd.lines).1, [(srv p.server cmd.lines).2]⟩ := by
    rw [Cluster.ask_peer, hp, if_pos rfl, Option.map_some, Peer.ask, howed]
    rfl
  rw [call, direct_bind_of_ok (sendCmds_direct hsome _), recvReply_direct, takeReply, hpeer]
  dsimp only
  congr 1
  rw [Cluster.put, Cluster.put, Cluster.ask, Function.update_idem]

variable (srv) in
/-- Later commands do not come between a command and its reply. -/
theorem takeReply_askAll {c : Cluster σ} {socket : ℤ} {p : Peer σ} (hp : c.peer socket = some p)
    (howed : p.owed = []) (cmd : Makecmd) (k : Kind) (msgs : List (ℤ × List Makecmd)) :
    takeReply socket k (c.askAll srv ((socket, [cmd]) :: msgs)) =
      Reader.result (Reply.as k (srv p.server cmd.lines).2)
        ((c.put socket ⟨(srv p.server cmd.lines).1, []⟩).askAll srv msgs) := by
  -- `rest` is what this server is asked later on; its replies come behind this one
  set rest := (msgs.filter fun msg => msg.1 = socket).flatMap Prod.snd with hrest
  have hafter : ((c.put socket ⟨(srv p.server cmd.lines).1, []⟩).askAll srv msgs).peer socket =
      some (Peer.ask srv ⟨(srv p.server cmd.lines).1, []⟩ rest) := by
    rw [Cluster.askAll_peer, Cluster.put_self]
    rfl
  have hbefore : (c.askAll srv ((socket, [cmd]) :: msgs)).peer socket =
      some ⟨(Peer.ask srv ⟨(srv p.server cmd.lines).1, []⟩ rest).server,
        (srv p.server cmd.lines).2 ::
          (Peer.ask srv ⟨(srv p.server cmd.lines).1, []⟩ rest).owed⟩ := by
    rw [Cluster.askAll_peer, hp, List.filter_cons_of_pos (by simp), Option.map_some]
    congr 1
    ext1
    · rfl
    · simp only [Peer.ask, howed]
      rfl
  rw [takeReply, hbefore]
  dsimp only
  congr 1
  ext1
  · rw [Cluster.put_connections, Cluster.askAll_connections, Cluster.askAll_connections,
      Cluster.put_connections]
  · funext s
    by_cases hs : s = socket
    · subst hs
      rw [hafter, Cluster.put_self]
    · have hne : ¬ (socket = s) := Ne.symm hs
      rw [Cluster.put_of_ne _ hs, Cluster.askAll_peer, Cluster.askAll_peer,
        List.filter_cons_of_neg (by simpa using hne), Cluster.put_of_ne _ hs]
  · rw [Cluster.put_noSocket, Cluster.askAll_noSocket, Cluster.askAll_noSocket,
      Cluster.put_noSocket]

/-- Two programs come to the same, and to the same cluster where they return. -/
abbrev SameRun {β : Type} :
    EStateM.Result Exception (Cluster σ) β → EStateM.Result Exception (Cluster σ) β → Prop :=
  SameOutcome Eq fun _ _ => True

theorem body_direct {β δ : Type} {find : Prog ℤ} {x : ℤ → Prog β} {use : β → Except Exception γ}
    {rest : γ → Prog δ} {c c' : Cluster σ} {socket : ℤ} {r : Except Exception β}
    (hfind : find.direct srv c = .ok socket c)
    (hx : (x socket).direct srv c = Reader.result r c') :
    ((find >>= fun socket => x socket >>= fun v => Prog.ofExcept (use v)) >>= rest).direct srv c =
      match r.bind use with
      | .ok a => (rest a).direct srv c'
      | .error e => .error e c' := by
  have hbody : (find >>= fun socket => x socket >>= fun v => Prog.ofExcept (use v)).direct srv c =
      Reader.result (r.bind use) c' := by
    rw [direct_bind_of_ok hfind]
    cases r with
    | error e => exact direct_bind_of_error hx
    | ok v =>
      rw [direct_bind_of_ok hx, Except.bind]
      cases use v <;> rfl
  cases hr : r.bind use with
  | error e => exact direct_bind_of_error (by rw [hbody, hr]; rfl)
  | ok a => exact direct_bind_of_ok (by rw [hbody, hr]; rfl)

variable (find : α → Prog ℤ) (socket : α → ℤ) (cmd : α → Makecmd) (k : Kind)
  (step : γ → α → k.Result → Except Exception γ)

def recvEach (acc : γ) (items : List α) : Prog γ :=
  items.foldlM (fun acc item => do
    let socket ← find item
    let v ← recvReply socket k
    Prog.ofExcept (step acc item v)) acc

def callEach (acc : γ) (items : List α) : Prog γ :=
  items.foldlM (fun acc item => do
    let socket ← find item
    let v ← call socket (cmd item) k
    Prog.ofExcept (step acc item v)) acc

variable {find socket cmd k step}

theorem recvEach_cons (acc : γ) (item : α) (items : List α) :
    recvEach find k step acc (item :: items) =
      (find item >>= fun socket => recvReply socket k >>= fun v =>
        Prog.ofExcept (step acc item v)) >>= fun acc => recvEach find k step acc items := rfl

theorem callEach_cons (acc : γ) (item : α) (items : List α) :
    callEach find cmd k step acc (item :: items) =
      (find item >>= fun socket => call socket (cmd item) k >>= fun v =>
        Prog.ofExcept (step acc item v)) >>= fun acc => callEach find cmd k step acc items := rfl

/-- Each receive finds the reply of its own command. -/
theorem recvEach_askAll (items : List α) (acc : γ) {c : Cluster σ}
    (hfind : ∀ item c', c'.connections = c.connections →
      (find item).direct srv c' = .ok (socket item) c')
    (hpeer : ∀ item ∈ items, ∃ p, c.peer (socket item) = some p ∧ p.owed = []) :
    SameRun
      ((recvEach find k step acc items).direct srv
        (c.askAll srv (items.map fun item => (socket item, [cmd item]))))
      ((callEach find cmd k step acc items).direct srv c) := by
  induction items generalizing acc c with
  | nil => exact .ok rfl
  | cons item items ih =>
    -- the reply at the front of the server is that of this item, since nothing was owed before
    obtain ⟨p, hp, howed⟩ := hpeer item List.mem_cons_self
    have hrecv := takeReply_askAll srv hp howed (cmd item) k
      (items.map fun item => (socket item, [cmd item]))
    rw [← recvReply_direct srv] at hrecv
    rw [recvEach_cons, callEach_cons,
      body_direct (hfind item _ (Cluster.askAll_connections _ _)) hrecv,
      body_direct (hfind item c rfl) (call_direct hp howed (cmd item) k)]
    cases (Reply.as k (srv p.server (cmd item).lines).2).bind (step acc item) with
    | error e => exact .error trivial
    | ok acc =>
      apply ih
      · exact fun item' c' hc' => hfind item' c' hc'
      · intro item' hitem'
        by_cases hs : socket item' = socket item
        · rw [hs, Cluster.put_self]
          exact ⟨_, rfl, rfl⟩
        · rw [Cluster.put_of_ne _ hs]
          exact hpeer item' (List.mem_cons_of_mem _ hitem')

end Loops

section Ready

variable (hash : Str → ℕ)

def home (cons : List ConnectionData) (key : Str) : ℤ := (socketOf hash cons key).getD (-1)

/-- There are connections, and no reply is owed on any. -/
structure Cluster.Ready (c : Cluster σ) : Prop where
  nonempty : c.connections ≠ []
  peer : ∀ con ∈ c.connections, ∃ p, c.peer con.socket = some p ∧ p.owed = []

theorem socketOf_mem {cons : List ConnectionData} (h : cons ≠ []) (key : Str) :
    ∃ con ∈ cons, socketOf hash cons key = some con.socket := by
  unfold socketOf
  split
  · exact ⟨_, List.mem_singleton_self _, rfl⟩
  · have hlt : defaultHasher hash key cons < cons.length :=
      Nat.mod_lt _ (List.length_pos_iff.mpr h)
    refine ⟨cons[defaultHasher hash key cons], List.getElem_mem hlt, ?_⟩
    rw [List.getElem?_eq_getElem hlt]
    rfl

theorem socketOf_eq_home {cons : List ConnectionData} (h : cons ≠ []) (key : Str) :
    socketOf hash cons key = some (home hash cons key) := by
  obtain ⟨con, -, hsocket⟩ := socketOf_mem hash h key
  rw [home, hsocket]
  rfl

variable {srv : σ → List Str → σ × Reply} {c : Cluster σ}

theorem Cluster.Ready.home (h : c.Ready) (key : Str) :
    ∃ p, c.peer (home hash c.connections key) = some p ∧ p.owed = [] := by
  obtain ⟨con, hmem, hsocket⟩ := socketOf_mem hash h.nonempty key
  rw [Redis.home, hsocket]
  exact h.peer con hmem

theorem getSocket_direct (h : c.connections ≠ []) (key : Str) :
    (getSocket hash key).direct srv c = .ok (home hash c.connections key) c := by
  change (Prog.element (socketOf hash c.connections key)).direct srv c = _
  rw [socketOf_eq_home hash h]
  rfl

theorem upsertLoop_direct {ν : Type} {find : α → Prog ℤ} {socket : α → ℤ}
    (push : Option ν → α → ν) (items : List α)
    (hfind : ∀ item ∈ items, (find item).direct srv c = .ok (socket item) c) :
    (items.foldlM (fun (m : SortedMap ℤ ν) item => do
      let socket ← find item
      return m.upsert socket fun o => push o item) SortedMap.empty).direct srv c =
      .ok (SortedMap.collect socket push items) c := by
  suffices hloop : ∀ m : SortedMap ℤ ν,
      (items.foldlM (fun (m : SortedMap ℤ ν) item => do
        let socket ← find item
        return m.upsert socket fun o => push o item) m).direct srv c =
      .ok (items.foldl (fun m item => m.upsert (socket item) fun o => push o item) m) c from
    hloop SortedMap.empty
  induction items with
  | nil =>
    intro m
    rfl
  | cons item items ih =>
    intro m
    rw [List.foldlM_cons, List.foldl_cons,
      ← ih fun item' hitem' => hfind item' (List.mem_cons_of_mem _ hitem')]
    apply direct_bind_of_ok
    rw [direct_bind_of_ok (hfind item List.mem_cons_self)]
    rfl

theorem collectLoop_direct {ν : Type} (key : α → Str) (push : Option ν → α → ν)
    (items : List α) (h : c.connections ≠ []) :
    (collectLoop hash key push items).direct srv c =
      .ok (SortedMap.collect (fun item => home hash c.connections (key item)) push items) c :=
  upsertLoop_direct push items fun item _ => getSocket_direct hash h (key item)

theorem foldl_requests (cmds : List Command) (o : Option (List Makecmd)) :
    (cmds.foldl (fun o cmd => some (o.getD [] ++ [cmd.request])) o).getD [] =
      o.getD [] ++ cmds.map Command.request := by
  induction cmds generalizing o with
  | nil => rw [List.map_nil, List.append_nil]; rfl
  | cons cmd cmds ih =>
    rw [List.foldl_cons, ih, List.map_cons, Option.getD_some, List.append_assoc]
    rfl

/-- Execute the commands one by one. -/
def execEach (commands : List Command) : Prog (List Command) :=
  commands.foldlM (fun done cmd => do
    let cmd ← exec hash cmd
    return done ++ [cmd]) []

def pushReply (done : List Command) (cmd : Command) (reply : ReplyData) :
    Except Exception (List Command) := .ok (done ++ [{ cmd with reply := some reply }])

theorem execEach_eq (commands : List Command) :
    execEach hash commands = callEach (fun cmd => getSocket hash cmd.hashKey) Command.request
      .generic pushReply [] commands := by
  rw [execEach, callEach]
  congr 1
  funext done cmd
  rw [exec, bind_assoc]
  congr 1

theorem flatMap_toList {β : Type} (o : Option (List β)) : o.toList.flatMap id = o.getD [] := by
  cases o with
  | none => rfl
  | some l => exact List.append_nil l

/-- What each server is sent are its own commands in their order. -/
theorem collect_requests (c : Cluster σ) (commands : List Command) :
    c.askAll srv (SortedMap.collect (fun cmd => home hash c.connections cmd.hashKey)
        (fun (o : Option (List Makecmd)) cmd => o.getD [] ++ [cmd.request]) commands).entries =
      c.askAll srv (commands.map fun cmd =>
        (home hash c.connections cmd.hashKey, [cmd.request])) := by
  apply Cluster.askAll_congr
  intro s
  rw [SortedMap.filter_entries (SortedMap.sorted _)]
  change ((SortedMap.lookup _ s).toList.map fun v => (s, v)).flatMap Prod.snd = _
  rw [SortedMap.lookup_collect, List.flatMap_map, List.filter_map, List.flatMap_map]
  have hlook := foldl_requests
    (commands.filter fun cmd => home hash c.connections cmd.hashKey = s) none
  rw [Option.getD_none, List.nil_append] at hlook
  calc (Option.toList _).flatMap id
      = Option.getD _ [] := flatMap_toList _
    _ = _ := hlook
    _ = _ := List.map_eq_flatMap

theorem execAll_direct (h : c.Ready) (commands : List Command) :
    SameRun ((execAll hash commands).direct srv c) ((execEach hash commands).direct srv c) := by
  have hsend : ∀ sp ∈ (SortedMap.collect (fun cmd => home hash c.connections cmd.hashKey)
      (fun (o : Option (List Makecmd)) cmd => o.getD [] ++ [cmd.request]) commands).entries,
      (c.peer sp.1).isSome := by
    intro sp hsp
    obtain ⟨cmd, -, hcmd⟩ := SortedMap.exists_of_mem_collect hsp
    obtain ⟨p, hp, -⟩ := h.home hash cmd.hashKey
    rw [← hcmd, hp]
    rfl
  rw [execAll, direct_bind_of_ok (collectLoop_direct hash _ _ commands h.nonempty),
    direct_bind_of_ok (sendLoop_direct Prod.fst Prod.snd _ hsend), execEach_eq]
  have hentries : ∀ l : List (ℤ × List Makecmd), (l.map fun sp => (sp.1, sp.2)) = l :=
    List.map_id
  -- sent server by server, but each server sees its commands in their order
  rw [hentries, collect_requests]
  have hfind : ∀ (cmd : Command) (c' : Cluster σ), c'.connections = c.connections →
      (getSocket hash cmd.hashKey).direct srv c' =
        .ok (home hash c.connections cmd.hashKey) c' := by
    intro cmd c' hc'
    rw [← hc']
    apply getSocket_direct
    rw [hc']
    exact h.nonempty
  change SameRun ((recvEach (fun cmd => getSocket hash cmd.hashKey) .generic pushReply []
    commands).direct srv _) _
  exact recvEach_askAll commands [] hfind fun cmd _ => h.home hash cmd.hashKey

/-- On wires that need not behave alike, the commands that are sent together return what they
return one by one, or throw the first of what these throw. -/
theorem execAll_eq_execEach (h : c.Ready) {w w' : World σ} (hw : w.Holds c) (hw' : w'.Holds c)
    (commands : List Command) :
    SameOutcome (fun w w' => ∃ c', w.Holds c' ∧ w'.Holds c') (fun _ _ => True)
      ((execAll hash commands).run srv w) ((execEach hash commands).run srv w') :=
  (run_refines_direct srv (execAll hash commands) w c hw).join (execAll_direct hash h commands)
    (run_refines_direct srv (execEach hash commands) w' c hw')

def twoServers (s : σ) : Cluster σ where
  connections :=
    [{ host := Ascii.text "a", port := 6379, dbindex := 0, socket := 5 },
      { host := Ascii.text "b", port := 6379, dbindex := 0, socket := 7 }]
  peer socket := if socket = 5 ∨ socket = 7 then some { server := s, owed := [] } else none
  noSocket := []

theorem twoServers_ready (s : σ) : (twoServers s).Ready where
  nonempty := List.cons_ne_nil _ _
  peer := by
    intro con hcon
    have hsocket : con.socket = 5 ∨ con.socket = 7 := by
      rcases List.mem_cons.mp hcon with rfl | hcon
      · exact Or.inl rfl
      · rw [List.mem_singleton.mp hcon]
        exact Or.inr rfl
    exact ⟨_, if_pos hsocket, rfl⟩

def okReply : Reply := .status ⟨Ascii.text "OK", by decide +kernel⟩

def threeGets : Except Exception (List Command) :=
  ["k", "", "xyz"].mapM fun key => do
    Command.of (← (makecmd "GET").addKey (Ascii.text key))

/-- The first request is answered `OK`, those behind it with a missing value. -/
def okOnce (n : ℕ) (_ : List Str) : ℕ × Reply := (n + 1, if n = 0 then okReply else .bulk none)

-- "k" and "xyz" are on one server, so the last reply is the second of that server
theorem execAll_eq_execEach_threeGets :
    ∃ commands done w w', threeGets = .ok commands ∧
      (execAll List.length commands).run okOnce
        ((twoServers 0).wire [.arrive 1, .interrupt] [.accept 3]) = .ok done w ∧
      (execEach List.length commands).run okOnce ((twoServers 0).wire [] []) = .ok done w' ∧
      done.map Command.reply = [some (.statusCode (Ascii.text "OK")),
        some (.statusCode (Ascii.text "OK")), some (.bulk (Ascii.text "**nonexistent-key**"))] ∧
      ∃ c', w.Holds c' ∧ w'.Holds c' := by
  have hw : ((twoServers 0).wire [.arrive 1, .interrupt] [.accept 3]).Holds (twoServers 0) :=
    (twoServers 0).wire_holds (by simp [NoFail]) (by simp [Flows])
  have hw' : ((twoServers 0).wire [] []).Holds (twoServers 0) :=
    (twoServers 0).wire_holds (by simp [NoFail]) (by simp [Flows])
  have hreturns : ((execAll List.length (threeGets.toOption.getD [])).run okOnce).run'
      ((twoServers 0).wire [.arrive 1, .interrupt] [.accept 3]) = some
        [⟨⟨[Ascii.text "GET", Ascii.text "k"], some (Ascii.text "k")⟩, Ascii.text "k",
            some (.statusCode (Ascii.text "OK"))⟩,
          ⟨⟨[Ascii.text "GET", []], some []⟩, [], some (.statusCode (Ascii.text "OK"))⟩,
          ⟨⟨[Ascii.text "GET", Ascii.text "xyz"], some (Ascii.text "xyz")⟩, Ascii.text "xyz",
            some (.bulk (Ascii.text "**nonexistent-key**"))⟩] := by decide +kernel
  obtain ⟨w, hrun⟩ := exists_ok_of_run' hreturns
  have hsame : SameOutcome _ _ _ ((execEach List.length _).run okOnce _) :=
    execAll_eq_execEach List.length (twoServers_ready 0) hw hw' (threeGets.toOption.getD [])
  rw [hrun] at hsame
  obtain ⟨w', hrun', hholds⟩ := hsame.of_ok
  exact ⟨_, _, w, w', rfl, hrun, hrun', rfl, hholds⟩

end Ready

end TdxHq.Redis
