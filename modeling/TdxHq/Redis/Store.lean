import TdxHq.Redis.Pipeline

namespace TdxHq.Redis

variable {σ ν γ : Type} {srv : σ → List Str → σ × Reply}

section Calls

variable (cmd : ℤ × ν → Makecmd) (k : Kind) (step : γ → ℤ × ν → k.Result → Except Exception γ)
  (value : ℤ × ν → k.Result) (next : γ → ℤ × ν → γ) (inv : γ → Prop)

theorem callEach_direct (entries : List (ℤ × ν)) (hnodup : (entries.map Prod.fst).Nodup)
    (acc : γ) (hacc : inv acc) {c : Cluster σ}
    (hstep : ∀ e ∈ entries, ∀ acc, inv acc →
      step acc e (value e) = .ok (next acc e) ∧ inv (next acc e))
    (hpeer : ∀ e ∈ entries, ∃ p, c.peer e.1 = some p ∧ p.owed = [] ∧
      Reply.as k (srv p.server (cmd e).lines).2 = .ok (value e)) :
    ∃ c', (callEach (fun e => pure e.1) cmd k step acc entries).direct srv c =
        .ok (entries.foldl next acc) c' ∧
      c'.connections = c.connections ∧
      (∀ e ∈ entries, ∀ p, c.peer e.1 = some p →
        c'.peer e.1 = some ⟨(srv p.server (cmd e).lines).1, []⟩) ∧
      ∀ s, s ∉ entries.map Prod.fst → c'.peer s = c.peer s := by
  induction entries generalizing acc c with
  | nil => exact ⟨c, rfl, rfl, fun e he => (List.not_mem_nil he).elim, fun s _ => rfl⟩
  | cons e entries ih =>
    rw [List.map_cons, List.nodup_cons] at hnodup
    obtain ⟨p, hp, howed, has⟩ := hpeer e List.mem_cons_self
    obtain ⟨hnext, hinv⟩ := hstep e List.mem_cons_self acc hacc
    have hother : ∀ e' ∈ entries, e'.1 ≠ e.1 := by
      intro e' he' heq
      exact hnodup.1 (heq ▸ List.mem_map_of_mem he')
    -- no other entry is for this server
    obtain ⟨c', hrun, hconn, hasked, hrest⟩ := ih hnodup.2 (next acc e) hinv
      (c := c.put e.1 ⟨(srv p.server (cmd e).lines).1, []⟩)
      (fun e' he' => hstep e' (List.mem_cons_of_mem _ he'))
      (fun e' he' => by
        rw [Cluster.put_of_ne _ (hother e' he')]
        exact hpeer e' (List.mem_cons_of_mem _ he'))
    refine ⟨c', ?_, hconn, ?_, ?_⟩
    · rw [callEach_cons, body_direct rfl (call_direct hp howed (cmd e) k), has, Except.bind, hnext]
      exact hrun
    · intro e' he' p' hp'
      rcases List.mem_cons.mp he' with rfl | he'
      · rw [hrest e'.1 hnodup.1, Cluster.put_self]
        rw [hp, Option.some.injEq] at hp'
        rw [hp']
      · apply hasked e' he'
        rwa [Cluster.put_of_ne _ (hother e' he')]
    · intro s hs
      rw [List.map_cons, List.mem_cons, not_or] at hs
      rw [hrest s hs.2, Cluster.put_of_ne _ hs.1]

/-- All servers are asked before the first answer is taken. -/
theorem spread_direct (entries : List (ℤ × ν)) (hnodup : (entries.map Prod.fst).Nodup)
    (acc : γ) (hacc : inv acc) {c : Cluster σ}
    (hstep : ∀ e ∈ entries, ∀ acc, inv acc →
      step acc e (value e) = .ok (next acc e) ∧ inv (next acc e))
    (hpeer : ∀ e ∈ entries, ∃ p, c.peer e.1 = some p ∧ p.owed = [] ∧
      Reply.as k (srv p.server (cmd e).lines).2 = .ok (value e)) :
    ∃ c', ((entries.forM fun e => sendCmds e.1 [cmd e]) >>= fun _ =>
        recvEach (fun e => pure e.1) k step acc entries).direct srv c =
        .ok (entries.foldl next acc) c' ∧
      c'.connections = c.connections ∧
      (∀ e ∈ entries, ∀ p, c.peer e.1 = some p →
        c'.peer e.1 = some ⟨(srv p.server (cmd e).lines).1, []⟩) ∧
      ∀ s, s ∉ entries.map Prod.fst → c'.peer s = c.peer s := by
  obtain ⟨c', hrun, hrest⟩ :=
    callEach_direct cmd k step value next inv entries hnodup acc hacc hstep hpeer
  refine ⟨c', ?_, hrest⟩
  have hsend : ∀ e ∈ entries, (c.peer e.1).isSome := by
    intro e he
    obtain ⟨p, hp, -⟩ := hpeer e he
    rw [hp]
    rfl
  -- asked all at once the servers answer as if asked one by one
  have hsame : SameRun
      ((recvEach (fun e => pure e.1) k step acc entries).direct srv
        (c.askAll srv (entries.map fun e => (e.1, [cmd e]))))
      ((callEach (fun e => pure e.1) cmd k step acc entries).direct srv c) := by
    apply recvEach_askAll
    · exact fun e c' _ => rfl
    · intro e he
      obtain ⟨p, hp, howed, -⟩ := hpeer e he
      exact ⟨p, hp, howed⟩
  rw [direct_bind_of_ok (sendLoop_direct Prod.fst (fun e => [cmd e]) entries hsend)]
  rw [hrun] at hsame
  generalize (recvEach (fun e => pure e.1) k step acc entries).direct srv _ = r at hsame ⊢
  cases hsame with
  | ok heq => rw [heq]

end Calls

theorem forM_recvReply (entries : List (ℤ × ν)) :
    (entries.forM fun e => recvReply e.1 .ok) =
      recvEach (fun e => pure e.1) .ok (fun _ _ _ => .ok ()) () entries := by
  induction entries with
  | nil => rfl
  | cons e entries ih =>
    change (recvReply e.1 .ok >>= fun _ => entries.forM fun e => recvReply e.1 .ok) = _
    rw [ih]
    rfl

abbrev Contents := Str → Option Bulk

def storeAll (m : Contents) (kvs : List (Str × Bulk)) : Contents :=
  kvs.foldl (fun m kv => Function.update m kv.1 (some kv.2)) m

def flagReply (b : Bool) : Reply := .int ⟨if b then 1 else 0, by split_ifs <;> decide⟩

/-- A server that answers these commands as redis documents them; `store` is what it holds. -/
structure IsStore (srv : σ → List Str → σ × Reply) (store : σ → Contents) : Prop where
  set : ∀ s key value, (srv s [Ascii.text "SET", key, Bulk.bytes value]).2 = okReply ∧
    store (srv s [Ascii.text "SET", key, value.bytes]).1 =
      Function.update (store s) key (some value)
  get : ∀ s key, (srv s [Ascii.text "GET", key]).2 = .bulk (store s key) ∧
    store (srv s [Ascii.text "GET", key]).1 = store s
  getset : ∀ s key value,
    (srv s [Ascii.text "GETSET", key, Bulk.bytes value]).2 = .bulk (store s key) ∧
    store (srv s [Ascii.text "GETSET", key, value.bytes]).1 =
      Function.update (store s) key (some value)
  setnx : ∀ s key value,
    (srv s [Ascii.text "SETNX", key, Bulk.bytes value]).2 = flagReply (store s key).isNone ∧
    store (srv s [Ascii.text "SETNX", key, value.bytes]).1 =
      Function.update (store s) key (some ((store s key).getD value))
  exists_ : ∀ s key, (srv s [Ascii.text "EXISTS", key]).2 = flagReply (store s key).isSome ∧
    store (srv s [Ascii.text "EXISTS", key]).1 = store s
  del : ∀ s key, (srv s [Ascii.text "DEL", key]).2 = flagReply (store s key).isSome ∧
    store (srv s [Ascii.text "DEL", key]).1 = Function.update (store s) key none
  mset : ∀ s (kvs : List (Str × Bulk)), kvs ≠ [] →
    (srv s (Ascii.text "MSET" :: kvs.flatMap fun kv => [kv.1, kv.2.bytes])).2 = okReply ∧
    store (srv s (Ascii.text "MSET" :: kvs.flatMap fun kv => [kv.1, kv.2.bytes])).1 =
      storeAll (store s) kvs
  mget : ∀ s keys (h : keys.length < 2 ^ 31), keys ≠ [] →
    (srv s (Ascii.text "MGET" :: keys)).2 =
      .multiBulk (some ⟨keys.map (store s), by rwa [List.length_map]⟩) ∧
    store (srv s (Ascii.text "MGET" :: keys)).1 = store s

def bulkOf (bytes : Str) : Option Bulk :=
  if h : bytes.length + 2 < 2 ^ 31 then some ⟨bytes, h⟩ else none

def storePairs (m : Contents) : List Str → Contents
  | key :: value :: args => storePairs (Function.update m key (bulkOf value)) args
  | _ => m

def storeServer (m : Contents) : List Str → Contents × Reply
  | [] => (m, okReply)
  | cmd :: args =>
    let key := args.headD []
    if cmd = Ascii.text "GET" then (m, .bulk (m key))
    else if cmd = Ascii.text "MGET" then
      (m, .multiBulk (if h : args.length < 2 ^ 31 then
        some ⟨args.map m, by rwa [List.length_map]⟩ else none))
    else if cmd = Ascii.text "GETSET" then (storePairs m args, .bulk (m key))
    else if cmd = Ascii.text "SETNX" then
      (if (m key).isNone then storePairs m args else m, flagReply (m key).isNone)
    else if cmd = Ascii.text "EXISTS" then (m, flagReply (m key).isSome)
    else if cmd = Ascii.text "DEL" then (Function.update m key none, flagReply (m key).isSome)
    else (storePairs m args, okReply)

theorem bulkOf_bytes (value : Bulk) : bulkOf value.bytes = some value := dif_pos value.fits

theorem storePairs_eq (kvs : List (Str × Bulk)) (m : Contents) :
    storePairs m (kvs.flatMap fun kv => [kv.1, kv.2.bytes]) = storeAll m kvs := by
  induction kvs generalizing m with
  | nil => rfl
  | cons kv kvs ih =>
    rw [List.flatMap_cons, List.cons_append, List.cons_append, storePairs, bulkOf_bytes,
      List.nil_append, ih]
    rfl

theorem storeServer_isStore : IsStore storeServer id where
  set m key value := by
    have hpairs := storePairs_eq [(key, value)] m
    rw [storeServer, if_neg (by decide +kernel), if_neg (by decide +kernel),
      if_neg (by decide +kernel), if_neg (by decide +kernel), if_neg (by decide +kernel),
      if_neg (by decide +kernel)]
    exact ⟨rfl, hpairs⟩
  get m key := by
    rw [storeServer, if_pos rfl]
    exact ⟨rfl, rfl⟩
  getset m key value := by
    have hpairs := storePairs_eq [(key, value)] m
    rw [storeServer, if_neg (by decide +kernel), if_neg (by decide +kernel), if_pos rfl]
    exact ⟨rfl, hpairs⟩
  setnx m key value := by
    have hpairs := storePairs_eq [(key, value)] m
    rw [storeServer, if_neg (by decide +kernel), if_neg (by decide +kernel),
      if_neg (by decide +kernel), if_pos rfl]
    refine ⟨rfl, ?_⟩
    change (if (m key).isNone then storePairs m [key, value.bytes] else m) =
      Function.update m key (some ((m key).getD value))
    cases hkey : m key with
    | none => exact hpairs
    | some old => exact (Function.update_eq_self_iff.mpr hkey.symm).symm
  exists_ m key := by
    rw [storeServer, if_neg (by decide +kernel), if_neg (by decide +kernel),
      if_neg (by decide +kernel), if_neg (by decide +kernel), if_pos rfl]
    exact ⟨rfl, rfl⟩
  del m key := by
    rw [storeServer, if_neg (by decide +kernel), if_neg (by decide +kernel),
      if_neg (by decide +kernel), if_neg (by decide +kernel), if_neg (by decide +kernel),
      if_pos rfl]
    exact ⟨rfl, rfl⟩
  mset m kvs _ := by
    rw [storeServer, if_neg (by decide +kernel), if_neg (by decide +kernel),
      if_neg (by decide +kernel), if_neg (by decide +kernel), if_neg (by decide +kernel),
      if_neg (by decide +kernel)]
    exact ⟨rfl, storePairs_eq kvs m⟩
  mget m keys h _ := by
    rw [storeServer, if_neg (by decide +kernel), if_pos rfl, dif_pos h]
    exact ⟨rfl, rfl⟩

def emptyStore : Contents := fun _ => none

section Store

variable (hash : Str → ℕ) (store : σ → Contents)

/-- What the cluster holds for a key is what the key's server does. -/
def Cluster.view (c : Cluster σ) (key : Str) : Option Bulk :=
  (c.peer (home hash c.connections key)).bind fun p => store p.server key

variable {hash store} {c : Cluster σ}

theorem storeAll_filter (kvs : List (Str × Bulk)) (p : Str × Bulk → Bool) {m m' : Contents}
    {key : Str} (hm : m key = m' key) (hp : ∀ kv ∈ kvs, kv.1 = key → p kv = true) :
    storeAll m (kvs.filter p) key = storeAll m' kvs key := by
  induction kvs generalizing m m' with
  | nil => exact hm
  | cons kv kvs ih =>
    have htail : ∀ kv' ∈ kvs, kv'.1 = key → p kv' = true :=
      fun kv' hkv' => hp kv' (List.mem_cons_of_mem _ hkv')
    by_cases hkv : p kv = true
    · rw [List.filter_cons_of_pos hkv]
      apply ih _ htail
      simp only [Function.update_apply, hm]
    · have hkey : kv.1 ≠ key := fun heq => hkv (hp kv List.mem_cons_self heq)
      rw [List.filter_cons_of_neg hkv]
      apply ih _ htail
      simp only [Function.update_apply, if_neg (Ne.symm hkey), hm]

theorem foldl_mset (kvs : List (Str × Bulk)) (cmd : Makecmd) :
    (kvs.map fun kv => (kv.1, kv.2.bytes)).foldl (fun (o : Option Makecmd) kv =>
      some (((o.getD (makecmd "MSET")).append kv.1).append kv.2)) (some cmd) =
      some { cmd with lines := cmd.lines ++ kvs.flatMap fun kv => [kv.1, kv.2.bytes] } := by
  induction kvs generalizing cmd with
  | nil => simp
  | cons kv kvs ih =>
    rw [List.map_cons, List.foldl_cons, Option.getD_some, ih]
    simp [Makecmd.append]

theorem ready_of_asked {entries : List (ℤ × ν)} {cmd : ℤ × ν → Makecmd} {c' : Cluster σ}
    (h : c.Ready) (hconn : c'.connections = c.connections)
    (hasked : ∀ e ∈ entries, ∀ p, c.peer e.1 = some p →
      c'.peer e.1 = some ⟨(srv p.server (cmd e).lines).1, []⟩)
    (hrest : ∀ s, s ∉ entries.map Prod.fst → c'.peer s = c.peer s) : c'.Ready := by
  refine ⟨hconn ▸ h.nonempty, fun con hcon => ?_⟩
  rw [hconn] at hcon
  obtain ⟨p, hp, howed⟩ := h.peer con hcon
  by_cases hmem : con.socket ∈ entries.map Prod.fst
  · obtain ⟨e, he, heq⟩ := List.mem_map.mp hmem
    rw [← heq] at hp ⊢
    exact ⟨_, hasked e he p hp, rfl⟩
  · exact ⟨p, (hrest con.socket hmem).trans hp, howed⟩

theorem as_okReply : Reply.as .ok okReply = .ok () := by decide +kernel

def pairsOf (hash : Str → ℕ) (cons : List ConnectionData) (kvs : List (Str × Bulk)) (s : ℤ) :
    List (Str × Bulk) := kvs.filter fun kv => home hash cons kv.1 = s

/-- What `mset` collects. -/
def msetMap (hash : Str → ℕ) (cons : List ConnectionData) (kvs : List (Str × Bulk)) :
    SortedMap ℤ Makecmd :=
  SortedMap.collect (fun kv : Str × Str => home hash cons kv.1)
    (fun o kv => ((o.getD (makecmd "MSET")).append kv.1).append kv.2)
    (kvs.map fun kv => (kv.1, kv.2.bytes))

theorem lookup_msetMap (cons : List ConnectionData) (kvs : List (Str × Bulk)) {s : ℤ}
    (hne : pairsOf hash cons kvs s ≠ []) :
    (msetMap hash cons kvs).lookup s = some
      { lines := Ascii.text "MSET" ::
          (pairsOf hash cons kvs s).flatMap fun kv => [kv.1, kv.2.bytes]
        keyName := none } := by
  rw [msetMap, SortedMap.lookup_collect, List.filter_map]
  change ((pairsOf hash cons kvs s).map _).foldl _ _ = _
  cases hpairs : pairsOf hash cons kvs s with
  | nil => exact absurd hpairs hne
  | cons kv rest =>
    rw [List.map_cons, List.foldl_cons, foldl_mset]
    rfl

theorem pairsOf_ne_nil_of_mem {cons : List ConnectionData} {kvs : List (Str × Bulk)}
    {e : ℤ × Makecmd} (he : e ∈ (msetMap hash cons kvs).entries) :
    pairsOf hash cons kvs e.1 ≠ [] := by
  obtain ⟨kv, hkv, hhome⟩ := SortedMap.exists_of_mem_collect he
  obtain ⟨kv, hmem, rfl⟩ := List.mem_map.mp hkv
  apply List.ne_nil_of_mem
  exact List.mem_filter.mpr ⟨hmem, decide_eq_true hhome⟩

theorem mset_direct (hstore : IsStore srv store) (h : c.Ready) (kvs : List (Str × Bulk)) :
    ∃ c', (mset hash (kvs.map fun kv => (kv.1, kv.2.bytes))).direct srv c = .ok () c' ∧
      c'.Ready ∧ c'.connections = c.connections ∧
      c'.view hash store = storeAll (c.view hash store) kvs := by
  have hcmd : ∀ e ∈ (msetMap hash c.connections kvs).entries, e.2.lines =
      Ascii.text "MSET" ::
        (pairsOf hash c.connections kvs e.1).flatMap fun kv => [kv.1, kv.2.bytes] := by
    intro e he
    have hlook := lookup_msetMap c.connections kvs (pairsOf_ne_nil_of_mem he)
    rw [SortedMap.lookup_of_mem _ he, Option.some.injEq] at hlook
    rw [hlook]
  have hpeer : ∀ e ∈ (msetMap hash c.connections kvs).entries, ∃ p, c.peer e.1 = some p ∧
      p.owed = [] ∧ Reply.as .ok (srv p.server e.2.lines).2 = .ok () := by
    intro e he
    obtain ⟨kv, -, hhome⟩ := SortedMap.exists_of_mem_collect he
    obtain ⟨p, hp, howed⟩ := h.home hash kv.1
    refine ⟨p, hhome ▸ hp, howed, ?_⟩
    rw [hcmd e he, (hstore.mset p.server _ (pairsOf_ne_nil_of_mem he)).1]
    exact as_okReply
  obtain ⟨c', hrun, hconn, hasked, hrest⟩ := spread_direct Prod.snd .ok (fun _ _ _ => .ok ())
    (fun _ => ()) (fun _ _ => ()) (fun _ => True) (msetMap hash c.connections kvs).entries
    (SortedMap.nodup_keys _) () trivial (fun _ _ _ _ => ⟨rfl, trivial⟩) hpeer
  refine ⟨c', ?_, ready_of_asked h hconn hasked hrest, hconn, ?_⟩
  · rw [mset, direct_bind_of_ok (collectLoop_direct hash _ _ _ h.nonempty)]
    rw [← forM_recvReply] at hrun
    exact hrun
  · funext key
    obtain ⟨p, hp, -⟩ := h.home hash key
    have hview : c.view hash store key = store p.server key := by
      rw [Cluster.view, hp]
      rfl
    -- the pairs for `key` are all on its server, in their order
    have hhome : ∀ kv ∈ kvs, kv.1 = key →
        decide (home hash c.connections kv.1 = home hash c.connections key) = true := by
      intro kv _ hkv
      rw [hkv]
      exact decide_eq_true rfl
    have hfilter := storeAll_filter kvs _ hview.symm hhome
    change storeAll _ (pairsOf hash c.connections kvs _) key = _ at hfilter
    rw [← hfilter, Cluster.view, hconn]
    -- a server without pairs is not asked at all
    by_cases hne : pairsOf hash c.connections kvs (home hash c.connections key) = []
    · have hnot : home hash c.connections key ∉
          (msetMap hash c.connections kvs).entries.map Prod.fst := by
        intro hmem
        obtain ⟨e, he, heq⟩ := List.mem_map.mp hmem
        exact pairsOf_ne_nil_of_mem he (heq ▸ hne)
      rw [hrest _ hnot, hp, hne]
      rfl
    · have hmem := SortedMap.mem_of_lookup _ (lookup_msetMap c.connections kvs hne)
      rw [hasked _ hmem p hp, Option.bind_some, (hstore.mset p.server _ hne).2]

/-- All of these keys are on one server. -/
def Together (hash : Str → ℕ) (cons : List ConnectionData) (keys : List Str) : Prop :=
  ∀ key ∈ keys, ∀ key' ∈ keys, home hash cons key = home hash cons key'

instance (cons : List ConnectionData) (keys : List Str) : Decidable (Together hash cons keys) :=
  inferInstanceAs (Decidable (∀ key ∈ keys, ∀ key' ∈ keys,
    home hash cons key = home hash cons key'))

theorem sameSocket_eq {cons : List ConnectionData} (h : cons ≠ []) (keys : List Str)
    (socket : ℤ) (hall : ∀ key ∈ keys, home hash cons key = socket) :
    sameSocket hash cons socket keys = some socket := by
  induction keys with
  | nil => rfl
  | cons key keys ih =>
    have hkey := hall key List.mem_cons_self
    rw [sameSocket, socketOf_eq_home hash h, Option.bind_some, hkey, if_neg (not_not.mpr rfl)]
    exact ih fun key' hkey' => hall key' (List.mem_cons_of_mem _ hkey')

theorem sameSocket_ne {cons : List ConnectionData} (h : cons ≠ []) (keys : List Str)
    (socket : ℤ) (hsome : ∃ key ∈ keys, home hash cons key ≠ socket) :
    sameSocket hash cons socket keys = some (-1) := by
  induction keys with
  | nil =>
    obtain ⟨key, hkey, -⟩ := hsome
    exact absurd hkey List.not_mem_nil
  | cons key keys ih =>
    rw [sameSocket, socketOf_eq_home hash h, Option.bind_some]
    by_cases heq : socket = home hash cons key
    · rw [if_neg (not_not.mpr heq), ← heq]
      apply ih
      obtain ⟨key', hkey', hne⟩ := hsome
      rcases List.mem_cons.mp hkey' with rfl | hkey'
      · exact absurd heq.symm hne
      · exact ⟨key', hkey', hne⟩
    · rw [if_pos heq]

theorem socketOfAll_together {cons : List ConnectionData} (h : cons ≠ []) {key : Str}
    {keys : List Str} (htogether : Together hash cons (key :: keys)) :
    socketOfAll hash cons (key :: keys) = some (home hash cons key) := by
  have hloop : sameSocket hash cons (home hash cons key) keys = some (home hash cons key) := by
    apply sameSocket_eq h
    intro key' hkey'
    exact htogether key' (List.mem_cons_of_mem _ hkey') key List.mem_cons_self
  rcases cons with _ | ⟨con, _ | ⟨con', cons⟩⟩
  · exact absurd rfl h
  · rfl
  · rw [socketOfAll, socketOf_eq_home hash h, Option.bind_some, hloop]
    simp

theorem socketOfAll_apart {cons : List ConnectionData} (h : cons ≠ []) {key : Str}
    {keys : List Str} (hapart : ¬ Together hash cons (key :: keys)) :
    socketOfAll hash cons (key :: keys) = some (-1) := by
  have hloop : sameSocket hash cons (home hash cons key) keys = some (-1) := by
    apply sameSocket_ne h
    by_contra hall
    simp only [not_exists, not_and, not_not] at hall
    have hsame : ∀ key' ∈ key :: keys, home hash cons key' = home hash cons key := by
      intro key' hkey'
      rcases List.mem_cons.mp hkey' with rfl | hkey'
      · rfl
      · exact hall key' hkey'
    exact hapart fun key₁ h₁ key₂ h₂ => (hsame key₁ h₁).trans (hsame key₂ h₂).symm
  rcases cons with _ | ⟨con, _ | ⟨con', cons⟩⟩
  · exact absurd rfl h
  · exact absurd (fun _ _ _ _ => rfl) hapart
  · rw [socketOfAll, socketOf_eq_home hash h, Option.bind_some, hloop]
    simp

theorem getSocketOfAll_direct {keys : List Str} {socket : ℤ}
    (h : socketOfAll hash c.connections keys = some socket) :
    (getSocketOfAll hash keys).direct srv c = .ok socket c := by
  change (Prog.element (socketOfAll hash c.connections keys)).direct srv c = _
  rw [h]
  rfl

theorem msetVectors_together (h : c.Ready) (kvs : List (Str × Bulk))
    (htogether : Together hash c.connections (kvs.map Prod.fst)) :
    (msetVectors hash (kvs.map Prod.fst) (kvs.map fun kv => kv.2.bytes)).direct srv c =
      (mset hash (kvs.map fun kv => (kv.1, kv.2.bytes))).direct srv c := by
  have hzip : (kvs.map Prod.fst).zip (kvs.map fun kv => kv.2.bytes) =
      kvs.map fun kv => (kv.1, kv.2.bytes) := List.zip_map'
  have hfind : ∀ kv ∈ kvs.map fun kv => (kv.1, kv.2.bytes),
      (getSocketOfAll hash (kvs.map Prod.fst)).direct srv c =
        .ok (home hash c.connections kv.1) c := by
    intro kv hkv
    obtain ⟨kv', hmem, rfl⟩ := List.mem_map.mp hkv
    apply getSocketOfAll_direct
    cases kvs with
    | nil => exact absurd hmem List.not_mem_nil
    | cons kv₀ kvs =>
      rw [List.map_cons] at htogether ⊢
      rw [socketOfAll_together h.nonempty htogether]
      congr 1
      exact htogether _ List.mem_cons_self _ (List.mem_map_of_mem hmem)
  rw [msetVectors, mset, hzip, direct_bind_of_ok (upsertLoop_direct _ _ hfind),
    direct_bind_of_ok (collectLoop_direct hash _ _ _ h.nonempty)]

theorem msetVectors_apart (h : c.Ready) (hnone : c.peer (-1) = none) (kvs : List (Str × Bulk))
    (hapart : ¬ Together hash c.connections (kvs.map Prod.fst)) :
    (msetVectors hash (kvs.map Prod.fst) (kvs.map fun kv => kv.2.bytes)).direct srv c =
      .error (.connectionError c.noSocket) c := by
  have hzip : (kvs.map Prod.fst).zip (kvs.map fun kv => kv.2.bytes) =
      kvs.map fun kv => (kv.1, kv.2.bytes) := List.zip_map'
  cases kvs with
  | nil => exact absurd (fun _ hkey => absurd hkey List.not_mem_nil) hapart
  | cons kv kvs =>
    have hfind : ∀ kv' ∈ (kv :: kvs).map fun kv => (kv.1, kv.2.bytes),
        (getSocketOfAll hash ((kv :: kvs).map Prod.fst)).direct srv c = .ok (-1) c :=
      fun _ _ => getSocketOfAll_direct (socketOfAll_apart h.nonempty hapart)
    rw [msetVectors, hzip, direct_bind_of_ok (upsertLoop_direct _ _ hfind)]
    apply direct_bind_of_error
    -- every pair is collected under -1, for which there is no server
    have hne := SortedMap.collect_ne_nil (fun _ => -1)
      (fun (o : Option Makecmd) kv => ((o.getD (makecmd "MSET")).append kv.1).append kv.2)
      (List.cons_ne_nil (kv.1, kv.2.bytes) (kvs.map fun kv => (kv.1, kv.2.bytes)))
    obtain ⟨e, rest, hentries⟩ := List.exists_cons_of_ne_nil hne
    have hsocket : -1 = e.1 := by
      obtain ⟨-, -, hsocket⟩ := SortedMap.exists_of_mem_collect (hentries ▸ List.mem_cons_self)
      exact hsocket
    rw [List.map_cons, hentries]
    apply direct_bind_of_error
    exact sendCmds_none (hsocket ▸ hnone) _

/-- `mset` with two vectors stores the pairs if all keys are on one server.  If they are not it
throws, and no server has changed. -/
theorem msetVectors_run (hstore : IsStore srv store) (h : c.Ready) (hnone : c.peer (-1) = none)
    {w : World σ} (hw : w.Holds c) (kvs : List (Str × Bulk)) :
    (Together hash c.connections (kvs.map Prod.fst) →
      ∃ w' c', (msetVectors hash (kvs.map Prod.fst) (kvs.map fun kv => kv.2.bytes)).run srv w =
          .ok () w' ∧
        w'.Holds c' ∧ c'.view hash store = storeAll (c.view hash store) kvs) ∧
    (¬ Together hash c.connections (kvs.map Prod.fst) →
      ∃ w', (msetVectors hash (kvs.map Prod.fst) (kvs.map fun kv => kv.2.bytes)).run srv w =
          .error (.connectionError c.noSocket) w' ∧
        w'.Agrees c) := by
  refine ⟨fun htogether => ?_, fun hapart => ?_⟩
  · obtain ⟨c', hdirect, -, -, hview⟩ := mset_direct hstore h kvs
    rw [← msetVectors_together h kvs htogether] at hdirect
    obtain ⟨w', hrun, hw'⟩ := run_of_direct srv hw hdirect
    exact ⟨w', c', hrun, hw', hview⟩
  · exact run_of_direct_error srv hw (msetVectors_apart h hnone kvs hapart)

/-- Two keys on one server, and two keys on two servers. -/
theorem msetVectors_run_twoKeys :
    (∃ w' c', (msetVectors List.length [Ascii.text "k", Ascii.text "xyz"]
        [Ascii.text "v", Ascii.text "w"]).run storeServer
        ((twoServers emptyStore).wire [.arrive 2] [.accept 1]) = .ok () w' ∧
      w'.Holds c' ∧ c'.view List.length id (Ascii.text "k") = some ⟨Ascii.text "v", by decide⟩ ∧
      c'.view List.length id (Ascii.text "xyz") = some ⟨Ascii.text "w", by decide⟩) ∧
    ∃ w', (msetVectors List.length [Ascii.text "k", Ascii.text ""]
        [Ascii.text "v", Ascii.text "w"]).run storeServer
        ((twoServers emptyStore).wire [.arrive 2] [.accept 1]) = .error (.connectionError []) w' ∧
      w'.Agrees (twoServers emptyStore) := by
  have hw : ((twoServers emptyStore).wire [.arrive 2] [.accept 1]).Holds
      (twoServers emptyStore) := Cluster.wire_holds _ (by simp [NoFail]) (by simp [Flows])
  have htogether : Together List.length (twoServers emptyStore).connections
      [Ascii.text "k", Ascii.text "xyz"] := by decide +kernel
  constructor
  · obtain ⟨w', c', hrun, hw', hview⟩ :=
      (msetVectors_run storeServer_isStore (twoServers_ready emptyStore) rfl hw
        [(Ascii.text "k", ⟨Ascii.text "v", by decide⟩),
          (Ascii.text "xyz", ⟨Ascii.text "w", by decide⟩)]).1 htogether
    refine ⟨w', c', hrun, hw', ?_, ?_⟩
    · rw [hview]
      rfl
    · rw [hview]
      rfl
  · apply (msetVectors_run storeServer_isStore (twoServers_ready emptyStore) rfl hw
      [(Ascii.text "k", ⟨Ascii.text "v", by decide⟩),
        (Ascii.text "", ⟨Ascii.text "w", by decide⟩)]).2
    decide +kernel

def setAll (out : List Str) (ivs : List (ℕ × Str)) : List Str :=
  ivs.foldl (fun out iv => out.set iv.1 iv.2) out

theorem setAll_length (out : List Str) (ivs : List (ℕ × Str)) :
    (setAll out ivs).length = out.length := by
  induction ivs generalizing out with
  | nil => rfl
  | cons iv ivs ih => exact (ih _).trans List.length_set

theorem scatter_eq_setAll (ivs : List (ℕ × Str)) (out : List Str)
    (h : ∀ iv ∈ ivs, iv.1 < out.length) :
    scatter out (ivs.map Prod.fst) (ivs.map Prod.snd) = .ok (setAll out ivs) := by
  induction ivs generalizing out with
  | nil => rfl
  | cons iv ivs ih =>
    rw [List.map_cons, List.map_cons, scatter, if_pos (h iv List.mem_cons_self)]
    apply ih
    intro iv' hiv'
    rw [List.length_set]
    exact h iv' (List.mem_cons_of_mem _ hiv')

theorem getElem?_setAll {ivs : List (ℕ × Str)} {out : List Str} {i : ℕ} {v : Str}
    (hi : i < out.length) (hall : ∀ iv ∈ ivs, iv.1 = i → iv.2 = v)
    (hsome : out[i]? = some v ∨ ∃ iv ∈ ivs, iv.1 = i) : (setAll out ivs)[i]? = some v := by
  induction ivs generalizing out with
  | nil =>
    rcases hsome with hsome | ⟨iv, hiv, -⟩
    · exact hsome
    · exact absurd hiv List.not_mem_nil
  | cons iv ivs ih =>
    apply ih
    · rwa [List.length_set]
    · exact fun iv' hiv' => hall iv' (List.mem_cons_of_mem _ hiv')
    dsimp only
    by_cases heq : iv.1 = i
    · left
      rw [heq, List.getElem?_set_self hi, hall iv List.mem_cons_self heq]
    · rw [List.getElem?_set_ne heq]
      rcases hsome with hsome | ⟨iv', hiv', hi'⟩
      · exact Or.inl hsome
      · rcases List.mem_cons.mp hiv' with rfl | hiv'
        · exact absurd hi' heq
        · exact Or.inr ⟨iv', hiv', hi'⟩

def itemsOf (hash : Str → ℕ) (cons : List ConnectionData) (keys : List Str) (s : ℤ) :
    List (Str × ℕ) := keys.zipIdx.filter fun item => home hash cons item.1 = s

/-- What `mget` collects. -/
def mgetMap (hash : Str → ℕ) (cons : List ConnectionData) (keys : List Str) :
    SortedMap ℤ ConnectionKeys :=
  SortedMap.collect (fun item : Str × ℕ => home hash cons item.1)
    (fun o item =>
      { cmd := ((o.map ConnectionKeys.cmd).getD (makecmd "MGET")).append item.1
        indices := (o.map ConnectionKeys.indices).getD [] ++ [item.2] }) keys.zipIdx

theorem foldl_mget (items : List (Str × ℕ)) (ck : ConnectionKeys) :
    items.foldl (fun (o : Option ConnectionKeys) item => some
      { cmd := ((o.map ConnectionKeys.cmd).getD (makecmd "MGET")).append item.1
        indices := (o.map ConnectionKeys.indices).getD [] ++ [item.2] }) (some ck) =
      some
        { cmd := ck.cmd.appendAll (items.map Prod.fst)
          indices := ck.indices ++ items.map Prod.snd } := by
  induction items generalizing ck with
  | nil => simp [Makecmd.appendAll]
  | cons item items ih =>
    rw [List.foldl_cons, ih]
    simp [Makecmd.append, Makecmd.appendAll]

theorem lookup_mgetMap (cons : List ConnectionData) (keys : List Str) {s : ℤ}
    (hne : itemsOf hash cons keys s ≠ []) :
    (mgetMap hash cons keys).lookup s = some
      { cmd :=
          { lines := Ascii.text "MGET" :: (itemsOf hash cons keys s).map Prod.fst
            keyName := none }
        indices := (itemsOf hash cons keys s).map Prod.snd } := by
  rw [mgetMap, SortedMap.lookup_collect]
  change (itemsOf hash cons keys s).foldl _ _ = _
  cases hitems : itemsOf hash cons keys s with
  | nil => exact absurd hitems hne
  | cons item rest =>
    rw [List.foldl_cons, foldl_mget]
    rfl

theorem itemsOf_ne_nil_of_mem {cons : List ConnectionData} {keys : List Str}
    {e : ℤ × ConnectionKeys} (he : e ∈ (mgetMap hash cons keys).entries) :
    itemsOf hash cons keys e.1 ≠ [] := by
  obtain ⟨item, hitem, hhome⟩ := SortedMap.exists_of_mem_collect he
  apply List.ne_nil_of_mem
  exact List.mem_filter.mpr ⟨hitem, decide_eq_true hhome⟩

/-- What is put where for the keys on one server. -/
def placed (m : Contents) (items : List (Str × ℕ)) : List (ℕ × Str) :=
  items.map fun item => (item.2, received (m item.1))

theorem mem_itemsOf {cons : List ConnectionData} {keys : List Str} {s : ℤ} {item : Str × ℕ} :
    item ∈ itemsOf hash cons keys s ↔
      keys[item.2]? = some item.1 ∧ home hash cons item.1 = s := by
  rw [itemsOf, List.mem_filter, List.mem_zipIdx_iff_getElem?, decide_eq_true_eq]

theorem mem_placed {m : Contents} {items : List (Str × ℕ)} {iv : ℕ × Str} :
    iv ∈ placed m items ↔ ∃ item ∈ items, item.2 = iv.1 ∧ received (m item.1) = iv.2 := by
  rw [placed, List.mem_map]
  simp only [Prod.ext_iff]

theorem setAll_placed (m : Contents) (cons : List ConnectionData) (keys : List Str) :
    (mgetMap hash cons keys).entries.foldl
        (fun out e => setAll out (placed m (itemsOf hash cons keys e.1)))
        (List.replicate keys.length []) =
      keys.map fun key => received (m key) := by
  have hflat : (mgetMap hash cons keys).entries.foldl
      (fun out e => setAll out (placed m (itemsOf hash cons keys e.1)))
      (List.replicate keys.length []) = setAll (List.replicate keys.length [])
        ((mgetMap hash cons keys).entries.flatMap fun e =>
          placed m (itemsOf hash cons keys e.1)) := by
    rw [setAll, List.foldl_flatMap]
    rfl
  rw [hflat]
  apply List.ext_getElem?
  intro i
  -- whatever order the servers come in, place `i` is only ever given the value of key `i`
  rcases Nat.lt_or_ge i keys.length with hi | hi
  · rw [List.getElem?_map, List.getElem?_eq_getElem hi, Option.map_some]
    apply getElem?_setAll
    · rwa [List.length_replicate]
    · intro iv hiv heq
      obtain ⟨e, -, hiv⟩ := List.mem_flatMap.mp hiv
      obtain ⟨item, hitem, hplace, hvalue⟩ := mem_placed.mp hiv
      have hkey := (mem_itemsOf.mp hitem).1
      rw [hplace, heq, List.getElem?_eq_getElem hi, Option.some.injEq] at hkey
      rw [← hvalue, hkey]
    · right
      have hitem : (keys[i], i) ∈ itemsOf hash cons keys (home hash cons keys[i]) :=
        mem_itemsOf.mpr ⟨List.getElem?_eq_getElem hi, rfl⟩
      have hentry := SortedMap.mem_of_lookup _
        (lookup_mgetMap cons keys (List.ne_nil_of_mem hitem))
      refine ⟨(i, received (m keys[i])), List.mem_flatMap.mpr ⟨_, hentry, ?_⟩, rfl⟩
      exact mem_placed.mpr ⟨_, hitem, rfl, rfl⟩
  · rw [List.getElem?_eq_none, List.getElem?_eq_none]
    · rwa [List.length_map]
    · rwa [setAll_length, List.length_replicate]

theorem mget_fits {cons : List ConnectionData} {keys : List Str} {s : ℤ}
    (hkeys : keys.length < 2 ^ 31) :
    ((itemsOf hash cons keys s).map Prod.fst).length < 2 ^ 31 := by
  rw [List.length_map]
  have hle := List.length_filter_le (fun item => home hash cons item.1 = s) keys.zipIdx
  rw [List.length_zipIdx] at hle
  exact hle.trans_lt hkeys

theorem mget_direct (hstore : IsStore srv store) (h : c.Ready) (keys : List Str)
    (hkeys : keys.length < 2 ^ 31) :
    ∃ c', (mget hash keys).direct srv c =
        .ok (keys.map fun key => received (c.view hash store key)) c' ∧
      c'.Ready ∧ c'.connections = c.connections ∧ c'.view hash store = c.view hash store := by
  have hcmd : ∀ e ∈ (mgetMap hash c.connections keys).entries, e.2 =
      { cmd :=
          { lines := Ascii.text "MGET" :: (itemsOf hash c.connections keys e.1).map Prod.fst
            keyName := none }
        indices := (itemsOf hash c.connections keys e.1).map Prod.snd } := by
    intro e he
    have hlook := lookup_mgetMap c.connections keys (itemsOf_ne_nil_of_mem he)
    rwa [SortedMap.lookup_of_mem _ he, Option.some.injEq] at hlook
  have hpeer : ∀ e ∈ (mgetMap hash c.connections keys).entries, ∃ p, c.peer e.1 = some p ∧
      p.owed = [] ∧ Reply.as .multiBulk (srv p.server e.2.cmd.lines).2 =
        .ok (((itemsOf hash c.connections keys e.1).length : ℤ),
          (placed (c.view hash store) (itemsOf hash c.connections keys e.1)).map Prod.snd) := by
    intro e he
    obtain ⟨item, -, hhome⟩ := SortedMap.exists_of_mem_collect he
    obtain ⟨p, hp, howed⟩ := h.home hash item.1
    rw [hhome] at hp
    refine ⟨p, hp, howed, ?_⟩
    have hne : (itemsOf hash c.connections keys e.1).map Prod.fst ≠ [] := by
      rw [ne_eq, List.map_eq_nil_iff]
      exact itemsOf_ne_nil_of_mem he
    have hvalues : (((itemsOf hash c.connections keys e.1).map Prod.fst).map
        (store p.server)).map received =
        (placed (c.view hash store) (itemsOf hash c.connections keys e.1)).map Prod.snd := by
      rw [placed, List.map_map, List.map_map, List.map_map]
      apply List.map_congr_left
      intro item hitem
      have hview : c.view hash store item.1 = store p.server item.1 := by
        rw [Cluster.view, (mem_itemsOf.mp hitem).2, hp]
        rfl
      exact congrArg received hview.symm
    rw [hcmd e he, (hstore.mget p.server _ (mget_fits hkeys) hne).1]
    change Except.ok (_, _) = _
    rw [hvalues]
    simp
  have hstep : ∀ e ∈ (mgetMap hash c.connections keys).entries, ∀ out : List Str,
      out.length = keys.length →
      scatter out e.2.indices
        ((placed (c.view hash store) (itemsOf hash c.connections keys e.1)).map Prod.snd) =
        .ok (setAll out (placed (c.view hash store) (itemsOf hash c.connections keys e.1))) ∧
      (setAll out (placed (c.view hash store) (itemsOf hash c.connections keys e.1))).length =
        keys.length := by
    intro e he out hout
    refine ⟨?_, (setAll_length _ _).trans hout⟩
    have hindices : e.2.indices =
        (placed (c.view hash store) (itemsOf hash c.connections keys e.1)).map Prod.fst := by
      rw [hcmd e he, placed, List.map_map]
      rfl
    rw [hindices]
    apply scatter_eq_setAll
    intro iv hiv
    obtain ⟨item, hitem, hplace, -⟩ := mem_placed.mp hiv
    obtain ⟨hlt, -⟩ := List.getElem?_eq_some_iff.mp (mem_itemsOf.mp hitem).1
    rw [← hplace, hout]
    exact hlt
  obtain ⟨c', hrun, hconn, hasked, hrest⟩ := spread_direct (fun e => e.2.cmd) .multiBulk
    (fun out e v => scatter out e.2.indices v.2) _ _ (fun out => out.length = keys.length)
    (mgetMap hash c.connections keys).entries (SortedMap.nodup_keys _)
    (List.replicate keys.length []) List.length_replicate hstep hpeer
  rw [setAll_placed] at hrun
  refine ⟨c', ?_, ready_of_asked h hconn hasked hrest, hconn, ?_⟩
  · rw [mget, direct_bind_of_ok (collectLoop_direct hash _ _ _ h.nonempty)]
    exact hrun
  · funext key
    obtain ⟨p, hp, -⟩ := h.home hash key
    rw [Cluster.view, Cluster.view, hconn]
    by_cases hmem : home hash c.connections key ∈
        (mgetMap hash c.connections keys).entries.map Prod.fst
    · obtain ⟨e, he, heq⟩ := List.mem_map.mp hmem
      have hne : (itemsOf hash c.connections keys e.1).map Prod.fst ≠ [] := by
        rw [ne_eq, List.map_eq_nil_iff]
        exact itemsOf_ne_nil_of_mem he
      rw [← heq] at hp ⊢
      rw [hasked e he p hp, hp, Option.bind_some, Option.bind_some, hcmd e he,
        (hstore.mget p.server _ (mget_fits hkeys) hne).2]
    · rw [hrest _ hmem]

theorem callKey_direct (h : c.Ready) {key : Str} {p : Peer σ}
    (hp : c.peer (home hash c.connections key) = some p) (cmd : Makecmd) (k : Kind) :
    (callKey hash key cmd k).direct srv c = Reader.result (Reply.as k (srv p.server cmd.lines).2)
      (c.put (home hash c.connections key) ⟨(srv p.server cmd.lines).1, []⟩) := by
  obtain ⟨p', hp', howed⟩ := h.home hash key
  rw [hp, Option.some.injEq] at hp'
  rw [callKey, direct_bind_of_ok (getSocket_direct hash h.nonempty key)]
  exact call_direct hp (hp' ▸ howed) cmd k

theorem ready_put (h : c.Ready) (socket : ℤ) (s : σ) : (c.put socket ⟨s, []⟩).Ready := by
  refine ⟨h.nonempty, fun con hcon => ?_⟩
  by_cases hs : con.socket = socket
  · rw [hs, Cluster.put_self]
    exact ⟨_, rfl, rfl⟩
  · rw [Cluster.put_of_ne _ hs]
    exact h.peer con hcon

theorem view_put (socket : ℤ) (s : σ) (key : Str) :
    (c.put socket ⟨s, []⟩).view hash store key =
      if home hash c.connections key = socket then store s key else c.view hash store key := by
  rw [Cluster.view, Cluster.put_connections]
  split_ifs with hs
  · rw [hs, Cluster.put_self]
    rfl
  · rw [Cluster.put_of_ne _ hs]
    rfl

/-- A command that changes at most its own key. -/
theorem callKey_store (h : c.Ready) {key : Str} {cmd : Makecmd} {k : Kind} {v : k.Result}
    {entry : Option Bulk}
    (hcmd : ∀ s, store s key = c.view hash store key →
      Reply.as k (srv s cmd.lines).2 = .ok v ∧
        store (srv s cmd.lines).1 = Function.update (store s) key entry) :
    ∃ c', (callKey hash key cmd k).direct srv c = .ok v c' ∧ c'.Ready ∧
      c'.view hash store = Function.update (c.view hash store) key entry := by
  obtain ⟨p, hp, -⟩ := h.home hash key
  have hview : c.view hash store key = store p.server key := by
    rw [Cluster.view, hp]
    rfl
  obtain ⟨hreply, hafter⟩ := hcmd p.server hview.symm
  refine ⟨_, ?_, ready_put h (home hash c.connections key) (srv p.server cmd.lines).1, ?_⟩
  · rw [callKey_direct h hp, hreply]
    rfl
  · funext key'
    rw [view_put]
    split_ifs with hs
    -- another key of the same server
    · have hview' : c.view hash store key' = store p.server key' := by
        rw [Cluster.view, hs, hp]
        rfl
      rw [hafter, Function.update_apply, Function.update_apply, hview']
    · have hne : key' ≠ key := fun heq => hs (heq ▸ rfl)
      rw [Function.update_of_ne hne]

theorem callKey_view (h : c.Ready) {key : Str} {cmd : Makecmd} {k : Kind} {v : k.Result}
    (hcmd : ∀ s, store s key = c.view hash store key →
      Reply.as k (srv s cmd.lines).2 = .ok v ∧ store (srv s cmd.lines).1 = store s) :
    ∃ c', (callKey hash key cmd k).direct srv c = .ok v c' ∧ c'.Ready ∧
      c'.view hash store = c.view hash store := by
  have hcmd' : ∀ s, store s key = c.view hash store key →
      Reply.as k (srv s cmd.lines).2 = .ok v ∧
        store (srv s cmd.lines).1 = Function.update (store s) key (c.view hash store key) := by
    intro s hs
    rw [← hs, Function.update_eq_self]
    exact hcmd s hs
  obtain ⟨c', hrun, hready, hview⟩ := callKey_store h hcmd'
  rw [Function.update_eq_self] at hview
  exact ⟨c', hrun, hready, hview⟩

theorem flag_eq_one (b : Bool) : decide ((if b then (1 : ℤ) else 0) = 1) = b := by
  cases b <;> rfl

theorem flag_ne_zero (b : Bool) : decide ((if b then (1 : ℤ) else 0) ≠ 0) = b := by
  cases b <;> rfl

inductive Op
  | set (key : Str) (value : Bulk)
  | get (key : Str)
  | getset (key : Str) (value : Bulk)
  | setnx (key : Str) (value : Bulk)
  | exists_ (key : Str)
  | del (key : Str)
  | mset (kvs : List (Str × Bulk))
  | mget (keys : List Str)

inductive Out
  | done
  | flag (b : Bool)
  | value (str : Str)
  | values (strs : List Str)
  deriving DecidableEq, Repr

namespace Op

/-- The client's function. -/
def prog (hash : Str → ℕ) : Op → Prog Out
  | set key value => do
    Redis.set hash key value.bytes
    return .done
  | get key => do return .value (← Redis.get hash key)
  | getset key value => do return .value (← Redis.getset hash key value.bytes)
  | setnx key value => do return .flag (← Redis.setnx hash key value.bytes)
  | exists_ key => do return .flag (← Redis.exists_ hash key)
  | del key => do return .flag (← Redis.del hash key)
  | mset kvs => do
    Redis.mset hash (kvs.map fun kv => (kv.1, kv.2.bytes))
    return .done
  | mget keys => do return .values (← Redis.mget hash keys)

def progs (hash : Str → ℕ) : List Op → Prog (List Out)
  | [] => return []
  | op :: ops => do
    let out ← op.prog hash
    let outs ← progs hash ops
    return out :: outs

/-- What a single map returns. -/
def answer (m : Contents) : Op → Out
  | set _ _ => .done
  | get key => .value (received (m key))
  | getset key _ => .value (received (m key))
  | setnx key _ => .flag (m key).isNone
  | exists_ key => .flag (m key).isSome
  | del key => .flag (m key).isSome
  | mset _ => .done
  | mget keys => .values (keys.map fun key => received (m key))

/-- What becomes of it. -/
def after (m : Contents) : Op → Contents
  | set key value => Function.update m key (some value)
  | get _ => m
  | getset key value => Function.update m key (some value)
  | setnx key value => Function.update m key (some ((m key).getD value))
  | exists_ _ => m
  | del key => Function.update m key none
  | mset kvs => storeAll m kvs
  | mget _ => m

def answersOf (m : Contents) : List Op → List Out
  | [] => []
  | op :: ops => op.answer m :: answersOf (op.after m) ops

def Fits : Op → Prop
  | mget keys => keys.length < 2 ^ 31
  | _ => True

theorem prog_direct (hstore : IsStore srv store) (h : c.Ready) (op : Op) (hfits : op.Fits) :
    ∃ c', (op.prog hash).direct srv c = .ok (op.answer (c.view hash store)) c' ∧ c'.Ready ∧
      c'.view hash store = op.after (c.view hash store) := by
  cases op with
  | set key value =>
    obtain ⟨c', hrun, hrest⟩ := @callKey_store _ srv hash store c h key
      (((makecmd "SET").append key).append value.bytes) .ok () (some value) fun s _ =>
        ⟨by rw [← as_okReply, ← (hstore.set s key value).1]; rfl, (hstore.set s key value).2⟩
    exact ⟨c', direct_bind_of_ok hrun, hrest⟩
  | get key =>
    obtain ⟨c', hrun, hrest⟩ := @callKey_view _ srv hash store c h key
      ((makecmd "GET").append key) .bulk (received (c.view hash store key)) fun s hs =>
        ⟨by rw [← hs]; exact congrArg (Reply.as .bulk) (hstore.get s key).1,
          (hstore.get s key).2⟩
    exact ⟨c', direct_bind_of_ok hrun, hrest⟩
  | getset key value =>
    obtain ⟨c', hrun, hrest⟩ := @callKey_store _ srv hash store c h key
      (((makecmd "GETSET").append key).append value.bytes) .bulk
      (received (c.view hash store key)) (some value) fun s hs =>
        ⟨by rw [← hs]; exact congrArg (Reply.as .bulk) (hstore.getset s key value).1,
          (hstore.getset s key value).2⟩
    exact ⟨c', direct_bind_of_ok hrun, hrest⟩
  | setnx key value =>
    obtain ⟨c', hrun, hrest⟩ := @callKey_store _ srv hash store c h key
      (((makecmd "SETNX").append key).append value.bytes) .int
      (if (c.view hash store key).isNone then 1 else 0)
      (some ((c.view hash store key).getD value)) fun s hs =>
        ⟨by rw [← hs]; exact congrArg (Reply.as .int) (hstore.setnx s key value).1,
          by rw [← hs]; exact (hstore.setnx s key value).2⟩
    refine ⟨c', (direct_bind_of_ok (direct_bind_of_ok hrun)).trans ?_, hrest⟩
    exact congrArg (fun b => EStateM.Result.ok (Out.flag b) c') (flag_eq_one _)
  | exists_ key =>
    obtain ⟨c', hrun, hrest⟩ := @callKey_view _ srv hash store c h key
      ((makecmd "EXISTS").append key) .int (if (c.view hash store key).isSome then 1 else 0)
      fun s hs => ⟨by rw [← hs]; exact congrArg (Reply.as .int) (hstore.exists_ s key).1,
        (hstore.exists_ s key).2⟩
    refine ⟨c', (direct_bind_of_ok (direct_bind_of_ok hrun)).trans ?_, hrest⟩
    exact congrArg (fun b => EStateM.Result.ok (Out.flag b) c') (flag_eq_one _)
  | del key =>
    obtain ⟨c', hrun, hrest⟩ := @callKey_store _ srv hash store c h key
      ((makecmd "DEL").append key) .int (if (c.view hash store key).isSome then 1 else 0)
      none fun s hs => ⟨by rw [← hs]; exact congrArg (Reply.as .int) (hstore.del s key).1,
        (hstore.del s key).2⟩
    refine ⟨c', (direct_bind_of_ok (direct_bind_of_ok hrun)).trans ?_, hrest⟩
    exact congrArg (fun b => EStateM.Result.ok (Out.flag b) c') (flag_ne_zero _)
  | mset kvs =>
    obtain ⟨c', hrun, hready, -, hview⟩ := mset_direct hstore h kvs
    exact ⟨c', direct_bind_of_ok hrun, hready, hview⟩
  | mget keys =>
    obtain ⟨c', hrun, hready, -, hview⟩ := mget_direct hstore h keys hfits
    exact ⟨c', direct_bind_of_ok hrun, hready, hview⟩

variable (hash) in
theorem progs_direct (hstore : IsStore srv store) (ops : List Op) (h : c.Ready)
    (hfits : ∀ op ∈ ops, op.Fits) :
    ∃ c', (progs hash ops).direct srv c = .ok (answersOf (c.view hash store) ops) c' ∧ c'.Ready ∧
      c'.view hash store = ops.foldl after (c.view hash store) := by
  induction ops generalizing c with
  | nil => exact ⟨c, rfl, h, rfl⟩
  | cons op ops ih =>
    obtain ⟨c₁, hrun₁, hready₁, hview₁⟩ := prog_direct hstore h op (hfits op List.mem_cons_self)
    obtain ⟨c₂, hrun₂, hready₂, hview₂⟩ :=
      ih hready₁ fun op' hop' => hfits op' (List.mem_cons_of_mem _ hop')
    refine ⟨c₂, ?_, hready₂, ?_⟩
    · rw [progs, direct_bind_of_ok hrun₁, direct_bind_of_ok hrun₂, hview₁]
      rfl
    · rw [hview₂, hview₁, List.foldl_cons]

/-- The servers together are one map: however the keys are spread over them and however the bytes
travel, every sequence of operations returns what it returns on the map and leaves what it leaves
there. -/
theorem progs_run_eq_map (hstore : IsStore srv store) (h : c.Ready) {w : World σ}
    (hw : w.Holds c) (ops : List Op) (hfits : ∀ op ∈ ops, op.Fits) :
    ∃ w' c', (progs hash ops).run srv w = .ok (answersOf (c.view hash store) ops) w' ∧
      w'.Holds c' ∧ c'.Ready ∧ c'.view hash store = ops.foldl after (c.view hash store) := by
  obtain ⟨c', hdirect, hready, hview⟩ := progs_direct hash hstore ops h hfits
  obtain ⟨w', hrun, hw'⟩ := run_of_direct srv hw hdirect
  exact ⟨w', c', hrun, hw', hready, hview⟩

def twoPairs : List Op :=
  [.mset [(Ascii.text "k", ⟨Ascii.text "v", by decide⟩),
      (Ascii.text "", ⟨Ascii.text "w", by decide⟩)],
    .setnx (Ascii.text "k") ⟨Ascii.text "x", by decide⟩, .del (Ascii.text "none"),
    .mget [Ascii.text "", Ascii.text "none", Ascii.text "k"]]

/-- Two values are stored on two servers and stay there; a key that is on neither is reported as
missing. -/
theorem progs_run_eq_map_twoPairs :
    ∃ w' c', (progs List.length twoPairs).run storeServer
        ((twoServers emptyStore).wire [.arrive 2, .interrupt] [.accept 1]) =
        .ok [.done, .flag false, .flag false,
          .values [Ascii.text "w", Ascii.text "**nonexistent-key**", Ascii.text "v"]] w' ∧
      w'.Holds c' ∧ c'.Ready ∧ c'.view List.length id =
        twoPairs.foldl after ((twoServers emptyStore).view List.length id) := by
  have hw : ((twoServers emptyStore).wire [.arrive 2, .interrupt] [.accept 1]).Holds
      (twoServers emptyStore) := Cluster.wire_holds _ (by simp [NoFail]) (by simp [Flows])
  exact progs_run_eq_map storeServer_isStore (twoServers_ready emptyStore) hw twoPairs
    (by simp [twoPairs, Fits])

end Op

end Store

end TdxHq.Redis
