import BeamModular.Core.Term
import BeamModular.Lib.CString
import BeamModular.Lib.Directory
import BeamModular.Lib.Run

/-!
# The node table

`src/global/dist_node.c`: the connected nodes by their names, in a table of 64 entries.  A call for
a name that is found refreshes its entry, any other call adds one.  A stored name is cut to 63
bytes and a searched name is not, so a longer name is never found: `connectEffective_iff` says that
this is all that can go wrong, and `count_of_long` that such a name takes an entry with each call.
-/

namespace BeamModular

/-- `MAX_DIST_NODES`. -/
abbrev maxDistNodes : Nat := 64

/-- `dist_node_entry_t`; the name has 64 bytes. -/
structure DistNodeEntry where
  name : CharField 63
  port : BitVec 16
  connected : Bool
  deriving DecidableEq, Repr

/-- The string that `strcmp` sees. -/
def DistNodeEntry.key (e : DistNodeEntry) : List Byte := e.name.string

/-- An entry whose node is connected again. -/
def DistNodeEntry.refresh (port : BitVec 16) (e : DistNodeEntry) : DistNodeEntry :=
  { e with connected := true, port := port }

/-- `struct beam_node_table`; `count` is the number of entries. -/
abbrev NodeTable := Directory DistNodeEntry maxDistNodes

/-- `beam_node_table_create`; `alloc` is the answer to the request for the table. -/
def beamNodeTableCreate (alloc : Bool) : Option NodeTable :=
  if alloc then some .empty else none

/-- `beam_node_table_connect_port`. -/
def beamNodeTableConnectPort (nt : NodeTable) (nodeName : List Byte) (port : BitVec 16) :
    NodeTable × Result :=
  if (nt.find DistNodeEntry.key (cString nodeName)).isSome then
    (nt.modify DistNodeEntry.key (cString nodeName) (.refresh port), .ok)
  else if h : nt.entries.length ≥ maxDistNodes then (nt, .errNoMemory)
  else (nt.push ⟨.ofString nodeName 63, port, true⟩ (Nat.lt_of_not_ge h), .ok)

/-- `beam_node_table_connect`. -/
def beamNodeTableConnect (nt : NodeTable) (nodeName : List Byte) : NodeTable × Result :=
  beamNodeTableConnectPort nt nodeName 4369#16

/-- `beam_node_table_is_connected`. -/
def beamNodeTableIsConnected (nt : NodeTable) (nodeName : List Byte) : Bool :=
  match nt.find DistNodeEntry.key (cString nodeName) with
  | some e => e.connected
  | none => false

/-- `beam_node_table_count`. -/
def beamNodeTableCount (nt : NodeTable) : Nat := nt.entries.length

/-- After a call for the name that returns `BEAM_OK` with any port, the node is connected, a further
call with any port returns `BEAM_OK` and adds no entry, and the other names are as they were. -/
def ConnectEffective (nt : NodeTable) (name : List Byte) : Prop :=
  ∀ port nt', beamNodeTableConnectPort nt name port = (nt', .ok) →
    beamNodeTableIsConnected nt' name = true ∧
    (∀ port', ∃ nt'', beamNodeTableConnectPort nt' name port' = (nt'', .ok) ∧
      beamNodeTableCount nt'' = beamNodeTableCount nt') ∧
    ∀ other, cString other ≠ cString name →
      beamNodeTableIsConnected nt' other = beamNodeTableIsConnected nt other

section Connect

variable {nt nt' : NodeTable} {name other : List Byte} {port : BitVec 16}

theorem key_refresh (port : BitVec 16) (e : DistNodeEntry) : (e.refresh port).key = e.key := rfl

/-- **What a call does**: it refreshes an entry, it is refused, or it adds an entry. -/
theorem connectPort_cases (nt : NodeTable) (name : List Byte) (port : BitVec 16) :
    (∃ e, nt.find DistNodeEntry.key (cString name) = some e ∧
      beamNodeTableConnectPort nt name port =
        (nt.modify DistNodeEntry.key (cString name) (.refresh port), .ok)) ∨
    (nt.find DistNodeEntry.key (cString name) = none ∧ maxDistNodes ≤ nt.entries.length ∧
      beamNodeTableConnectPort nt name port = (nt, .errNoMemory)) ∨
    ∃ hroom : nt.entries.length < maxDistNodes,
      nt.find DistNodeEntry.key (cString name) = none ∧
      beamNodeTableConnectPort nt name port =
        (nt.push ⟨.ofString name 63, port, true⟩ hroom, .ok) := by
  rw [beamNodeTableConnectPort]
  cases hf : nt.find DistNodeEntry.key (cString name) with
  | some e =>
    left
    exact ⟨e, rfl, if_pos rfl⟩
  | none =>
    right
    rw [if_neg (by simp)]
    by_cases hfull : nt.entries.length ≥ maxDistNodes
    · left
      exact ⟨rfl, hfull, dif_pos hfull⟩
    · right
      exact ⟨Nat.lt_of_not_ge hfull, rfl, dif_neg hfull⟩

theorem find_eq_none_of_long (nt : NodeTable) (hlong : 63 < (cString name).length) :
    nt.find DistNodeEntry.key (cString name) = none := by
  cases hf : nt.find DistNodeEntry.key (cString name) with
  | none => rfl
  | some e =>
    have hle : e.key.length ≤ 63 := e.name.length_string_le
    rw [Directory.find_key hf] at hle
    omega

theorem connectPort_long (hlong : 63 < (cString name).length) (nt : NodeTable) (port : BitVec 16) :
    (maxDistNodes ≤ nt.entries.length ∧
      beamNodeTableConnectPort nt name port = (nt, .errNoMemory)) ∨
    ∃ nt', nt.entries.length < maxDistNodes ∧
      beamNodeTableConnectPort nt name port = (nt', .ok) ∧
      nt'.entries.length = nt.entries.length + 1 := by
  obtain ⟨e, hf, _⟩ | ⟨_, hfull, hr⟩ | ⟨hroom, _, hr⟩ := connectPort_cases nt name port
  · rw [find_eq_none_of_long nt hlong] at hf
    cases hf
  · exact Or.inl ⟨hfull, hr⟩
  · exact Or.inr ⟨_, hroom, hr, Directory.length_push⟩

theorem isConnected_long (nt : NodeTable) (hlong : 63 < (cString name).length) :
    beamNodeTableIsConnected nt name = false := by
  rw [beamNodeTableIsConnected, find_eq_none_of_long nt hlong]

theorem nodeKey_ofString (hshort : (cString name).length ≤ 63) :
    (⟨.ofString name 63, port, true⟩ : DistNodeEntry).key = cString name :=
  CharField.string_ofString_eq_iff.mpr hshort

theorem find_of_connectPort (hshort : (cString name).length ≤ 63)
    (h : beamNodeTableConnectPort nt name port = (nt', .ok)) :
    ∃ e, nt'.find DistNodeEntry.key (cString name) = some e ∧ e.connected = true := by
  obtain ⟨e, hf, hr⟩ | ⟨_, _, hr⟩ | ⟨hroom, hf, hr⟩ := connectPort_cases nt name port
  · rw [hr] at h
    cases h
    rw [Directory.find_modify_self (key_refresh port), hf]
    exact ⟨_, rfl, rfl⟩
  · rw [hr] at h
    cases h
  · rw [hr] at h
    cases h
    exact ⟨_, Directory.find_push_self hf (nodeKey_ofString hshort), rfl⟩

theorem isConnected_of_ne (hshort : (cString name).length ≤ 63)
    (h : beamNodeTableConnectPort nt name port = (nt', .ok))
    (hne : cString other ≠ cString name) :
    beamNodeTableIsConnected nt' other = beamNodeTableIsConnected nt other := by
  obtain ⟨e, hf, hr⟩ | ⟨_, _, hr⟩ | ⟨hroom, hf, hr⟩ := connectPort_cases nt name port
  · rw [hr] at h
    cases h
    rw [beamNodeTableIsConnected, Directory.find_modify_of_ne (key_refresh port) hne,
      beamNodeTableIsConnected]
  · rw [hr] at h
    cases h
  · rw [hr] at h
    cases h
    rw [beamNodeTableIsConnected, Directory.find_push_of_ne, beamNodeTableIsConnected]
    rw [nodeKey_ofString hshort]
    exact hne.symm

theorem connectPort_found {e : DistNodeEntry}
    (hf : nt.find DistNodeEntry.key (cString name) = some e) (port : BitVec 16) :
    ∃ nt', beamNodeTableConnectPort nt name port = (nt', .ok) ∧
      beamNodeTableCount nt' = beamNodeTableCount nt := by
  refine ⟨nt.modify DistNodeEntry.key (cString name) (.refresh port), ?_, Directory.length_modify⟩
  rw [beamNodeTableConnectPort, hf]
  exact if_pos rfl

theorem connectEffective_of_short (hshort : (cString name).length ≤ 63) :
    ConnectEffective nt name := by
  intro port nt' h
  obtain ⟨e, hf, hc⟩ := find_of_connectPort hshort h
  refine ⟨?_, fun port' => connectPort_found hf port', fun other hne =>
    isConnected_of_ne hshort h hne⟩
  rw [beamNodeTableIsConnected, hf]
  exact hc

end Connect

/-- **Connecting a node is effective and idempotent** exactly when its name has at most 63 bytes or
the table is full: for every table and every name. -/
theorem connectEffective_iff (nt : NodeTable) (name : List Byte) :
    ConnectEffective nt name ↔
      (cString name).length ≤ 63 ∨ maxDistNodes ≤ beamNodeTableCount nt := by
  constructor
  · intro h
    by_contra hbad
    rw [not_or, Nat.not_le, Nat.not_le] at hbad
    obtain ⟨hlong, hroom⟩ := hbad
    obtain ⟨hfull, _⟩ | ⟨nt', _, hr, _⟩ := connectPort_long hlong nt 0#16
    · exact absurd hroom (Nat.not_lt.mpr hfull)
    · have hon := (h 0#16 nt' hr).1
      rw [isConnected_long nt' hlong] at hon
      cases hon
  · rintro (hshort | hfull)
    · exact connectEffective_of_short hshort
    · by_cases hshort : (cString name).length ≤ 63
      · exact connectEffective_of_short hshort
      · -- a full table answers a long name with an error
        intro port nt' h
        obtain ⟨_, hr⟩ | ⟨_, hroom, _⟩ := connectPort_long (Nat.lt_of_not_ge hshort) nt port
        · rw [hr] at h
          cases h
        · exact absurd hroom (Nat.not_lt.mpr hfull)

/-- A name of 64 bytes is not connected after a call that returned `BEAM_OK`. -/
theorem connect_long_name_lost : ∃ nt nt', beamNodeTableCreate true = some nt ∧
    beamNodeTableConnect nt (List.replicate 64 97#8) = (nt', .ok) ∧
    beamNodeTableIsConnected nt' (List.replicate 64 97#8) = false ∧
    ¬ ConnectEffective nt (List.replicate 64 97#8) := by
  refine ⟨_, _, rfl, rfl, by decide, fun h => ?_⟩
  have hon := (h 4369#16 _ rfl).1
  exact absurd hon (by decide)

/-! ### Every sequence of calls -/

/-- One call with a name and a port. -/
def NodeTable.step (nt : NodeTable) (call : List Byte × BitVec 16) : Option NodeTable :=
  some (beamNodeTableConnectPort nt call.1 call.2).1

theorem count_step_long {call : List Byte × BitVec 16} {nt nt' : NodeTable}
    (hlong : 63 < (cString call.1).length) (hs : nt.step call = some nt') :
    beamNodeTableCount nt' = min (beamNodeTableCount nt + 1) maxDistNodes := by
  cases hs
  obtain ⟨hfull, hr⟩ | ⟨nt₁, hroom, hr, hlen⟩ := connectPort_long hlong nt call.2
  · rw [hr]
    exact (Nat.le_antisymm nt.bounded hfull).trans (Nat.min_eq_right (Nat.le_succ_of_le hfull)).symm
  · rw [hr]
    exact hlen.trans (Nat.min_eq_left hroom).symm

/-- **A long name fills the table**: every call for it takes an entry, as long as there is one. -/
theorem count_of_long {calls : List (List Byte × BitVec 16)}
    (hlong : ∀ call ∈ calls, 63 < (cString call.1).length) : ∀ {nt nt' : NodeTable},
    run NodeTable.step nt calls = some nt' →
      beamNodeTableCount nt' = min (beamNodeTableCount nt + calls.length) maxDistNodes := by
  induction calls with
  | nil =>
    intro nt nt' hr
    cases hr
    exact (Nat.min_eq_left nt.bounded).symm
  | cons call calls ih =>
    intro nt nt' hr
    obtain ⟨nt₁, hs, hr'⟩ := run_cons_eq_some hr
    rw [ih (fun c hc => hlong c (List.mem_cons_of_mem call hc)) hr',
      count_step_long (hlong call List.mem_cons_self) hs, List.length_cons]
    omega

end BeamModular
