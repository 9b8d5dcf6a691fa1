import TdxHq.ByteBuffer
import TdxHq.Text
import TdxHq.Library.Runs

namespace TdxHq.Connection

def connectNum : ℕ := 1000

instance : NeZero connectNum := ⟨by decide⟩

def ipsSize : ℕ := 100

abbrev Handle := ℕ

inductive Code
  | ok | send | recv | cont | cofg
  deriving DecidableEq, Repr

def Code.toInt : Code → ℤ
  | ok => -1
  | send => -2
  | recv => -3
  | cont => -4
  | cofg => -5

structure SockaddrIn where
  sinFamily : ℕ
  sinPort : ℕ
  sAddr : ℕ
  deriving DecidableEq, Repr

/-- The shared data segment. -/
structure Shared where
  nIP : ℕ
  nCurentIP : ℕ
  nConnectID : ℕ
  skHQ : ℕ → Option Handle
  ips : ℕ → SockaddrIn

/-- The address parsers of the C runtime and of Winsock. -/
structure AddressParsers where
  atoi : List Char → ℤ
  inetAddr : List Char → ℕ

def htons (port : ℕ) : ℕ := port % 256 * 256 + port / 256

def afInet : ℕ := 2

def parseLine (rt : AddressParsers) (csIPline : List Char) : SockaddrIn where
  sinFamily := afInet
  sinPort := htons (rt.atoi (Text.afxExtractSubString csIPline 1 ':') % 65536).toNat
  sAddr := rt.inetAddr (Text.afxExtractSubString csIPline 0 ':')

/-- `TDXHQ_Init`; `none` is a configuration file that cannot be opened.  More lines than
`IPS` has entries are written behind the array. -/
def init (rt : AddressParsers) (cfgFile : Option (List (List Char))) (s : Shared) :
    Except Fault (Code × Shared) :=
  match cfgFile with
  | none => .ok (.cofg, s)
  | some lines =>
    -- `IPS[nIP++]` is not checked
    if ipsSize < lines.length then .error .invalidAccess
    else .ok (.ok,
      { nIP := lines.length
        nCurentIP := 0
        nConnectID := 0
        -- `INVALID_SOCKET` in every slot of the table
        skHQ := fun c => if c < connectNum then none else s.skHQ c
        ips := fun i => (lines[i]?.map (parseLine rt)).getD (s.ips i) })

/-- The scan for a slot that holds `INVALID_SOCKET`: `k` slots from `i` on. -/
def firstFree (skHQ : ℕ → Option Handle) : ℕ → ℕ → Option ℕ
  | 0, _ => none
  | k + 1, i => if skHQ i = none then some i else firstFree skHQ k (i + 1)

/-- The slot `TDXHQ_Connect` works on: the first free one, else the one of the last call. -/
def chosen (s : Shared) : ℕ := (firstFree s.skHQ connectNum 0).getD s.nConnectID

def withSocket (s : Shared) (socket : Option Handle) : ℕ → Option Handle :=
  if s.skHQ (chosen s) = none then Function.update s.skHQ (chosen s) socket else s.skHQ

def dialed (s : Shared) : ℕ := if 0 < s.nIP then s.nCurentIP % s.nIP + 1 else s.nCurentIP

/-- `TDXHQ_Connect`, with the results of `socket` and of `connect`. -/
def connect (s : Shared) (socket : Option Handle) (connects : Bool) : ℤ × Shared :=
  (if connects then (chosen s : ℤ) else Code.cont.toInt,
    { s with nConnectID := chosen s, skHQ := withSocket s socket, nCurentIP := dialed s })

def disConnect (s : Shared) (conID : ℕ) : Code × Shared :=
  if s.skHQ conID = none then (.ok, s)
  else (.ok, { s with skHQ := Function.update s.skHQ conID none })

/-- Each call runs under the mutex, so a run of the program is a list of whole calls. -/
inductive Op
  | connect (socket : Option Handle) (connects : Bool)
  | disConnect (conID : Fin connectNum)
  deriving DecidableEq, Repr

inductive Event
  | returned (ret : ℤ)
  | released (conID : ℕ)
  deriving DecidableEq, Repr

/-- The shared segment, the sockets with an established connection, and the record of the
run so far: the calls and the entries of `IPS` that were dialed. -/
structure System where
  shared : Shared
  connected : List Handle
  events : List Event
  dials : List ℕ

def start (s : Shared) : System := ⟨s, [], [], []⟩

@[simp] theorem start_shared (s : Shared) : (start s).shared = s := rfl

@[simp] theorem start_events (s : Shared) : (start s).events = [] := rfl

@[simp] theorem start_dials (s : Shared) : (start s).dials = [] := rfl

def step (y : System) : Op → System
  | .connect socket connects =>
    let r := connect y.shared socket connects
    { shared := r.2
      connected := if connects then
        (withSocket y.shared socket (chosen y.shared)).toList ++ y.connected else y.connected
      events := y.events ++ [.returned r.1]
      dials := y.dials ++ [dialed y.shared] }
  | .disConnect conID =>
    { y with
      shared := (disConnect y.shared conID).2
      connected := y.connected.filter fun h => y.shared.skHQ conID ≠ some h
      events := y.events ++ [.released conID] }

def run (y : System) (ops : List Op) : System := ops.foldl step y

@[simp] theorem disConnect_nIP (s : Shared) (conID : ℕ) : (disConnect s conID).2.nIP = s.nIP := by
  unfold disConnect
  split_ifs <;> rfl

@[simp] theorem disConnect_nCurentIP (s : Shared) (conID : ℕ) :
    (disConnect s conID).2.nCurentIP = s.nCurentIP := by
  unfold disConnect
  split_ifs <;> rfl

@[simp] theorem disConnect_nConnectID (s : Shared) (conID : ℕ) :
    (disConnect s conID).2.nConnectID = s.nConnectID := by
  unfold disConnect
  split_ifs <;> rfl

theorem disConnect_skHQ (s : Shared) (conID : ℕ) :
    (disConnect s conID).2.skHQ = Function.update s.skHQ conID none := by
  unfold disConnect
  split_ifs with h
  · rw [← h, Function.update_eq_self]
  · rfl

def Op.isConnect : Op → Bool
  | .connect _ _ => true
  | .disConnect _ => false

def connects (ops : List Op) : ℕ := ops.countP Op.isConnect

/-- Only configured entries are dialed, and any `n` dials in a row take each of them once. -/
def Rotates (n : ℕ) (dials : List ℕ) : Prop :=
  (∀ j ∈ dials, j < n) ∧
    ∀ pre window post, dials = pre ++ window ++ post → window.length = n →
      ∀ j < n, window.count j = 1

/-- The cursor is reduced before it is raised and used after: with the cursor at zero, dial
`k` goes to entry `k % nIP + 1`. -/
theorem run_dials (ops : List Op) (y : System) (hn : 0 < y.shared.nIP) :
    (run y ops).dials = y.dials ++ (List.range (connects ops)).map
      fun k => (y.shared.nCurentIP + k) % y.shared.nIP + 1 := by
  induction ops generalizing y with
  | nil => simp [run, connects]
  | cons o ops ih =>
    rw [run, List.foldl_cons]
    cases o with
    | connect socket ok =>
      have hdial : dialed y.shared = y.shared.nCurentIP % y.shared.nIP + 1 := if_pos hn
      have hcount : connects (.connect socket ok :: ops) = connects ops + 1 :=
        List.countP_cons_of_pos rfl
      have hnext := ih (step y (.connect socket ok)) hn
      rw [run] at hnext
      rw [hnext, hcount, List.range_succ_eq_map]
      simp only [step, connect, hdial, List.append_assoc, List.cons_append, List.nil_append,
        List.map_cons, List.map_map, Nat.add_zero]
      -- the cursor was raised by one: dial `k` of the rest is dial `k + 1` of the whole
      congr 2
      apply List.map_congr_left
      intro k _
      simp only [Function.comp_apply, Nat.succ_eq_add_one]
      rw [Nat.add_assoc, Nat.mod_add_mod, Nat.add_comm 1 k]
    | disConnect conID =>
      have hcount : connects (.disConnect conID :: ops) = connects ops :=
        List.countP_cons_of_neg Bool.false_ne_true
      have hnext := ih (step y (.disConnect conID)) (by simpa [step] using hn)
      rw [run] at hnext
      rw [hnext, hcount]
      simp only [step, disConnect_nIP, disConnect_nCurentIP]

theorem init_ok {rt : AddressParsers} {lines : List (List Char)} {s₀ s : Shared} {code : Code}
    (h : init rt (some lines) s₀ = .ok (code, s)) :
    lines.length ≤ ipsSize ∧ s.nIP = lines.length ∧ s.nCurentIP = 0 ∧ s.nConnectID = 0 ∧
      ∀ i < connectNum, s.skHQ i = none := by
  unfold init at h
  dsimp only at h
  split_ifs at h with hlen
  injection h with h
  obtain ⟨-, rfl⟩ := Prod.mk.inj h
  exact ⟨by omega, rfl, rfl, rfl, fun i hi => if_pos hi⟩

/-- `IPS[0]` is never dialed and `IPS[nIP]`, which no line of the file filled, is dialed by
every `nIP`-th call: servers rotate as they should only in runs of fewer calls than that. -/
theorem rotates_iff (rt : AddressParsers) (lines : List (List Char)) (s₀ s : Shared)
    (hn : 1 ≤ lines.length) (hinit : init rt (some lines) s₀ = .ok (.ok, s)) (ops : List Op) :
    Rotates lines.length (run (start s) ops).dials ↔ connects ops < lines.length := by
  obtain ⟨-, hIP, hcur, -, -⟩ := init_ok hinit
  have hdials := run_dials ops (start s) (by rw [start_shared]; omega)
  simp only [start_shared, start_dials, hcur, hIP, List.nil_append, Nat.zero_add] at hdials
  rw [hdials]
  constructor
  · rintro ⟨hmem, -⟩
    by_contra hge
    -- call number `nIP - 1` dials entry `nIP`
    have hlast : lines.length - 1 ∈ List.range (connects ops) := by
      rw [List.mem_range]
      omega
    have h := hmem _ (List.mem_map_of_mem hlast)
    rw [Nat.mod_eq_of_lt (by omega)] at h
    omega
  · intro hlt
    refine ⟨?_, ?_⟩
    · intro j hj
      obtain ⟨k, hk, rfl⟩ := List.mem_map.mp hj
      rw [List.mem_range] at hk
      rw [Nat.mod_eq_of_lt (by omega)]
      omega
    · -- a window of `nIP` dials does not fit into the run
      intro pre window post heq hwindow
      have hlen := congrArg List.length heq
      simp only [List.length_map, List.length_range, List.length_append] at hlen
      omega

def sampleParsers : AddressParsers := ⟨fun _ => 7709, fun _ => 1⟩

def sampleLine : List Char := "1.0.0.0:7709".toList

def zeroShared : Shared := ⟨0, 0, 0, fun _ => some 0, fun _ => ⟨0, 0, 0⟩⟩

def sampleShared (n : ℕ) : Shared :=
  { nIP := n
    nCurentIP := 0
    nConnectID := 0
    skHQ := fun c => if c < connectNum then none else some 0
    ips := fun i => (((List.replicate n sampleLine)[i]?).map (parseLine sampleParsers)).getD
      ⟨0, 0, 0⟩ }

/-- Three servers and two calls, of which the second fails. -/
theorem rotates_before_last :
    (run (start (sampleShared 3)) [.connect (some 5) true, .connect (some 6) false]).dials =
        [1, 2] ∧
      Rotates 3
        (run (start (sampleShared 3)) [.connect (some 5) true, .connect (some 6) false]).dials :=
  ⟨by decide +kernel, (rotates_iff sampleParsers [sampleLine, sampleLine, sampleLine] zeroShared
    (sampleShared 3) (by decide) rfl [.connect (some 5) true, .connect (some 6) false]).mpr
    (by decide)⟩

/-- With one line in the file the first call already dials the entry behind it. -/
theorem single_server_not_dialed :
    init sampleParsers (some [sampleLine]) zeroShared = .ok (.ok, sampleShared 1) ∧
      (run (start (sampleShared 1)) [.connect (some 5) true]).dials = [1] ∧
      ¬ Rotates 1 (run (start (sampleShared 1)) [.connect (some 5) true]).dials := by
  refine ⟨rfl, rfl, fun h => ?_⟩
  have hlt := h.1 1 (by decide)
  omega

end TdxHq.Connection
