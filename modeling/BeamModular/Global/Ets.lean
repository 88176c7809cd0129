import BeamModular.Core.Term
import BeamModular.Lib.Buckets
import BeamModular.Lib.Run
import Mathlib.Data.Finmap

/-!
# Term storage

`src/global/ets.c`: a table of entries in 64 linked buckets.  The four types of
tables differ in what an insertion looks for first; a set and an ordered set replace
the value of a key they have, a bag ignores a pair it has, a duplicate bag takes
everything.

`EtsMap` is what a set is for: a finite map.  `Represents` says that the buckets
hold the map's entries, each key once and each entry in the bucket of its key, and
that the counter is the size of the map; `etsStep_refines` is one operation and
`refines_finmap` every sequence of them.
-/

namespace BeamModular

/-! ### The table -/

/-- `beam_ets_type_t`. -/
inductive EtsType
  | set
  | orderedSet
  | bag
  | duplicateBag
  deriving DecidableEq, Repr

/-- `ets_entry_t`, without its link. -/
structure EtsEntry where
  key : Eterm
  value : Eterm
  deriving DecidableEq, Repr

/-- `struct beam_ets_table`; `alloc` is what the injected allocator will answer to the next
requests. -/
structure EtsTable where
  type : EtsType
  nodes : Nodes EtsEntry
  buckets : Nat → Option Nat
  bucketCount : Nat
  itemCount : Nat
  alloc : Nat → Bool

/-- `ETS_DEFAULT_BUCKETS`. -/
abbrev etsDefaultBuckets : Nat := 64

/-- `hash_eterm`. -/
def hashEterm (key : Eterm) : BitVec 32 :=
  let x := key.setWidth 32
  let x := (x >>> 16 ^^^ x) * 0x45d9f3b#32
  let x := (x >>> 16 ^^^ x) * 0x45d9f3b#32
  x >>> 16 ^^^ x

/-- `beam_ets_table_create_typed`: the table and its buckets are asked for in this order. -/
def beamEtsTableCreateTyped (type : EtsType) (alloc : Nat → Bool) : Option EtsTable :=
  if alloc 0 && alloc 1 then
    some {
      type := type
      nodes := []
      buckets := fun _ => none
      bucketCount := etsDefaultBuckets
      itemCount := 0
      alloc := fun n => alloc (n + 2) }
  else none

namespace EtsTable

/-- The bucket of a key. -/
def idx (t : EtsTable) (key : Eterm) : Nat := (hashEterm key).toNat % t.bucketCount

/-- The loop over the bucket of a key. -/
def search (t : EtsTable) (key : Eterm) (p : EtsEntry → Bool) : Option (Option (Nat × EtsEntry)) :=
  t.nodes.search p t.nodes.length (t.buckets (t.idx key))

/-- Put a new entry in front of its bucket. -/
def addEntry (t : EtsTable) (key value : Eterm) : EtsTable × Result :=
  let granted := t.alloc 0
  let t := { t with alloc := fun n => t.alloc (n + 1) }
  if granted then
    ({ t with
        nodes := t.nodes.alloc ⟨⟨key, value⟩, t.buckets (t.idx key)⟩
        buckets := Function.update t.buckets (t.idx key) (some t.nodes.length)
        itemCount := t.itemCount + 1 }, .ok)
  else (t, .errNoMemory)

/-- Store a value in an entry. -/
def setValue (t : EtsTable) (i : Nat) (e : EtsEntry) (value : Eterm) : Option EtsTable :=
  (t.nodes.setVal i { e with value := value }).map fun nodes => { t with nodes := nodes }

end EtsTable

/-- `beam_ets_insert`. -/
def beamEtsInsert (t : EtsTable) (key value : Eterm) : Option (EtsTable × Result) :=
  match t.type with
  | .set | .orderedSet =>
    (t.search key fun e => e.key == key).bind fun
      | some (i, e) => (t.setValue i e value).map fun t => (t, .ok)
      | none => some (t.addEntry key value)
  | .bag =>
    (t.search key fun e => e.key == key && e.value == value).map fun
      | some _ => (t, .ok)
      | none => t.addEntry key value
  | .duplicateBag => some (t.addEntry key value)

/-- `beam_ets_lookup`: the result and what is stored through the pointer. -/
def beamEtsLookup (t : EtsTable) (key : Eterm) : Option (Result × Option Eterm) :=
  (t.search key fun e => e.key == key).map fun
    | some (_, e) => (.ok, some e.value)
    | none => (.errNotFound, none)

/-- `beam_ets_delete`. -/
def beamEtsDelete (t : EtsTable) (key : Eterm) : Option (EtsTable × Result) :=
  let head := t.buckets (t.idx key)
  (t.nodes.searchLink (fun e => e.key == key) t.nodes.length none head).bind fun
    | none => some (t, .errNotFound)
    | some (prev, c) =>
      (t.nodes.unlinkAt head prev c).map fun (nodes, head) =>
        ({ t with
            nodes := nodes
            buckets := Function.update t.buckets (t.idx key) head
            itemCount := t.itemCount - 1 }, .ok)

/-- `beam_ets_count`. -/
def beamEtsCount (t : EtsTable) : Nat := t.itemCount

/-- `beam_ets_update_counter`. -/
def beamEtsUpdateCounter (t : EtsTable) (key : Eterm) (increment : Word) :
    Option (EtsTable × Result × Option Eterm) :=
  (t.search key fun e => e.key == key).bind fun
    | some (i, e) =>
      let value := makeSmallInt (etermToSmallInt e.value + increment)
      (t.setValue i e value).map fun t => (t, .ok, some value)
    | none => some (t, .errNotFound, none)

/-! ### A finite map -/

/-- An operation on the table. -/
inductive EtsOp
  | insert (key value : Eterm)
  | lookup (key : Eterm)
  | delete (key : Eterm)
  | updateCounter (key : Eterm) (increment : Word)
  deriving DecidableEq, Repr

/-- The map, and what its allocator will answer. -/
structure EtsMap where
  map : Finmap fun _ : Eterm => Eterm
  alloc : Nat → Bool

namespace EtsMap

/-- Only a new key needs memory. -/
def insert (m : EtsMap) (key value : Eterm) : EtsMap × Result :=
  if key ∈ m.map then (⟨m.map.insert key value, m.alloc⟩, .ok)
  else if m.alloc 0 then (⟨m.map.insert key value, fun n => m.alloc (n + 1)⟩, .ok)
  else (⟨m.map, fun n => m.alloc (n + 1)⟩, .errNoMemory)

def step (m : EtsMap) : EtsOp → EtsMap × Result × Option Eterm
  | .insert key value => ((m.insert key value).1, (m.insert key value).2, none)
  | .lookup key =>
    match m.map.lookup key with
    | some value => (m, .ok, some value)
    | none => (m, .errNotFound, none)
  | .delete key =>
    if key ∈ m.map then (⟨m.map.erase key, m.alloc⟩, .ok, none) else (m, .errNotFound, none)
  | .updateCounter key increment =>
    match m.map.lookup key with
    | some value =>
      let value := makeSmallInt (etermToSmallInt value + increment)
      (⟨m.map.insert key value, m.alloc⟩, .ok, some value)
    | none => (m, .errNotFound, none)

end EtsMap

/-- The same operation on the table. -/
def etsStep (t : EtsTable) : EtsOp → Option (EtsTable × Result × Option Eterm)
  | .insert key value => (beamEtsInsert t key value).map fun r => (r.1, r.2, none)
  | .lookup key => (beamEtsLookup t key).map fun r => (t, r)
  | .delete key => (beamEtsDelete t key).map fun r => (r.1, r.2, none)
  | .updateCounter key increment => beamEtsUpdateCounter t key increment

/-! ### What the buckets hold -/

def keyBucket (key : Eterm) : Nat := (hashEterm key).toNat % etsDefaultBuckets

def EtsEntry.home (e : EtsEntry) : Nat := keyBucket e.key

/-- The value that a search for the key finds. -/
def valueAt (L : Nat → List (Nat × EtsEntry)) (key : Eterm) : Option Eterm :=
  ((L (keyBucket key)).find? fun x => x.2.key == key).map fun x => x.2.value

/-- The buckets are linked, each entry in the bucket of its key. -/
structure EtsTable.Linked (t : EtsTable) (L : Nat → List (Nat × EtsEntry)) : Prop where
  bucketed : Bucketed EtsEntry.home t.nodes t.buckets L
  size : t.bucketCount = etsDefaultBuckets

/-- **The buckets hold the map**, each key once. -/
structure EtsTable.Represents (t : EtsTable) (m : Finmap fun _ : Eterm => Eterm)
    (L : Nat → List (Nat × EtsEntry)) : Prop extends t.Linked L where
  distinct : ∀ b, ((L b).map fun x => x.2.key).Nodup
  lookup : ∀ key, m.lookup key = valueAt L key
  count : t.itemCount = m.keys.card

section Lists

variable {K R : List (Nat × EtsEntry)} {i : Nat} {e : EtsEntry} {key key' : Eterm}

theorem find_self (hK : ∀ y ∈ K, y.2.key ≠ e.key) :
    (K ++ (i, e) :: R).find? (fun x => x.2.key == e.key) = some (i, e) := by
  rw [List.find?_append, List.find?_eq_none.mpr (by simpa using hK), Option.none_or,
    List.find?_cons_of_pos (by simp)]

theorem find_other (hne : key' ≠ e.key) :
    (K ++ (i, e) :: R).find? (fun x => x.2.key == key') =
      (K ++ R).find? (fun x => x.2.key == key') := by
  rw [List.find?_append, List.find?_append, List.find?_cons_of_neg (by simpa using hne.symm)]

theorem find_gone (hK : ∀ y ∈ K, y.2.key ≠ key) (hR : ∀ y ∈ R, y.2.key ≠ key) :
    (K ++ R).find? (fun x => x.2.key == key) = none := by
  rw [List.find?_eq_none]
  intro x hx
  rcases List.mem_append.mp hx with hm | hm
  · simpa using hK x hm
  · simpa using hR x hm

end Lists

theorem valueAt_update (L : Nat → List (Nat × EtsEntry)) (b : Nat) (M : List (Nat × EtsEntry))
    (key : Eterm) :
    valueAt (Function.update L b M) key =
      if keyBucket key = b then (M.find? fun x => x.2.key == key).map fun x => x.2.value
      else valueAt L key := by
  unfold valueAt
  rw [Function.update_apply]
  split <;> rfl

theorem keys_insert (m : Finmap fun _ : Eterm => Eterm) (key value : Eterm) :
    (m.insert key value).keys = insert key m.keys := by
  ext a
  rw [Finset.mem_insert, Finmap.mem_keys, Finmap.mem_keys, Finmap.mem_insert]

theorem EtsTable.addEntry_refused {t : EtsTable} (h : t.alloc 0 ≠ true) (key value : Eterm) :
    t.addEntry key value = ({ t with alloc := fun n => t.alloc (n + 1) }, .errNoMemory) := by
  rw [EtsTable.addEntry, Bool.eq_false_iff.mpr h]
  rfl

/-! ### What the operations do to the buckets -/

namespace EtsTable.Linked

variable {t : EtsTable} {L : Nat → List (Nat × EtsEntry)} {key old : Eterm} {i : Nat}
  {K R : List (Nat × EtsEntry)}

theorem idx (h : t.Linked L) (key : Eterm) : t.idx key = keyBucket key := by
  rw [EtsTable.idx, h.size, keyBucket]

theorem search (h : t.Linked L) (key : Eterm) :
    ((∀ x ∈ L (keyBucket key), x.2.key ≠ key) ∧
      t.search key (fun e => e.key == key) = some none) ∨
    ∃ K i value R, L (keyBucket key) = K ++ (i, ⟨key, value⟩) :: R ∧ (∀ y ∈ K, y.2.key ≠ key) ∧
      t.search key (fun e => e.key == key) = some (some (i, ⟨key, value⟩)) := by
  rw [EtsTable.search, h.idx, h.bucketed.search]
  cases hf : (L (keyBucket key)).find? fun x => x.2.key == key with
  | none => exact Or.inl ⟨by simpa using List.find?_eq_none.mp hf, rfl⟩
  | some x =>
    obtain ⟨hx, K, R, hL, hK⟩ := List.find?_eq_some_iff_append.mp hf
    obtain ⟨i, k, value⟩ := x
    obtain rfl : k = key := by simpa using hx
    exact Or.inr ⟨K, i, value, R, hL, by simpa using hK, rfl⟩

theorem addEntry (h : t.Linked L) (hgrant : t.alloc 0 = true) (key value : Eterm) :
    ∃ t', t.addEntry key value = (t', .ok) ∧
      t'.Linked (Function.update L (keyBucket key)
        ((t.nodes.length, ⟨key, value⟩) :: L (keyBucket key))) ∧
      t'.type = t.type ∧ t'.itemCount = t.itemCount + 1 ∧ t'.alloc = fun n => t.alloc (n + 1) := by
  refine ⟨{ t with
      nodes := t.nodes.alloc ⟨⟨key, value⟩, t.buckets (keyBucket key)⟩
      buckets := Function.update t.buckets (keyBucket key) (some t.nodes.length)
      itemCount := t.itemCount + 1
      alloc := fun n => t.alloc (n + 1) }, ?_, ⟨h.bucketed.push ⟨key, value⟩, h.size⟩, rfl, rfl, rfl⟩
  rw [← h.idx, EtsTable.addEntry, hgrant]
  rfl

theorem setValue (h : t.Linked L) (value : Eterm)
    (hL : L (keyBucket key) = K ++ (i, ⟨key, old⟩) :: R) :
    ∃ t', t.setValue i ⟨key, old⟩ value = some t' ∧
      t'.Linked (Function.update L (keyBucket key) (K ++ (i, ⟨key, value⟩) :: R)) ∧
      t'.type = t.type ∧ t'.itemCount = t.itemCount ∧ t'.alloc = t.alloc := by
  obtain ⟨nodes, hs, hb⟩ := h.bucketed.setVal hL (w := ⟨key, value⟩) rfl
  exact ⟨{ t with nodes := nodes }, by rw [EtsTable.setValue, hs]; rfl, ⟨hb, h.size⟩, rfl, rfl, rfl⟩

theorem delete (h : t.Linked L) (hL : L (keyBucket key) = K ++ (i, ⟨key, old⟩) :: R)
    (hK : ∀ y ∈ K, y.2.key ≠ key) :
    ∃ t', beamEtsDelete t key = some (t', .ok) ∧
      t'.Linked (Function.update L (keyBucket key) (K ++ R)) ∧
      t'.type = t.type ∧ t'.itemCount = t.itemCount - 1 ∧ t'.alloc = t.alloc := by
  have hchain := h.bucketed.chain (keyBucket key)
  rw [hL] at hchain
  have hfind : t.nodes.searchLink (fun e => e.key == key) t.nodes.length none
      (t.buckets (keyBucket key)) = some (some ((K.getLast?.map Prod.fst).or none, i)) :=
    Chain.searchLink_found (by simp) hchain hchain.length_le (by simpa using hK)
  obtain ⟨nodes, head, hs, hb⟩ := h.bucketed.unlinkAt hL
  rw [Option.or_none] at hfind
  refine ⟨{ t with
      nodes := nodes
      buckets := Function.update t.buckets (keyBucket key) head
      itemCount := t.itemCount - 1 }, ?_, ⟨hb, h.size⟩, rfl, rfl, rfl⟩
  rw [beamEtsDelete, h.idx, hfind, Option.bind_some]
  dsimp only
  rw [hs, Option.map_some]

theorem delete_none (h : t.Linked L) (hno : ∀ x ∈ L (keyBucket key), x.2.key ≠ key) :
    beamEtsDelete t key = some (t, .errNotFound) := by
  have hchain := h.bucketed.chain (keyBucket key)
  rw [beamEtsDelete, h.idx, Chain.searchLink_none hchain hchain.length_le (by simpa using hno)]
  rfl

end EtsTable.Linked

/-! ### The entries of a map -/

namespace EtsTable.Represents

variable {t : EtsTable} {m : Finmap fun _ : Eterm => Eterm} {L : Nat → List (Nat × EtsEntry)}

theorem search (h : t.Represents m L) (key : Eterm) :
    (m.lookup key = none ∧ (∀ x ∈ L (keyBucket key), x.2.key ≠ key) ∧
      t.search key (fun e => e.key == key) = some none) ∨
    ∃ K i value R, L (keyBucket key) = K ++ (i, ⟨key, value⟩) :: R ∧
      (∀ y ∈ K, y.2.key ≠ key) ∧ (∀ y ∈ R, y.2.key ≠ key) ∧ m.lookup key = some value ∧
      t.search key (fun e => e.key == key) = some (some (i, ⟨key, value⟩)) := by
  have hl := h.lookup key
  unfold valueAt at hl
  rcases h.toLinked.search key with ⟨hno, hs⟩ | ⟨K, i, value, R, hL, hK, hs⟩
  · rw [List.find?_eq_none.mpr (by simpa using hno)] at hl
    exact Or.inl ⟨hl, hno, hs⟩
  · have hnd := h.distinct (keyBucket key)
    rw [hL, List.map_append, List.map_cons, List.nodup_append, List.nodup_cons] at hnd
    rw [hL, find_self (e := ⟨key, value⟩) hK] at hl
    refine Or.inr ⟨K, i, value, R, hL, hK, fun y hy he => ?_, hl, hs⟩
    exact hnd.2.1.1 (List.mem_map.mpr ⟨y, hy, he⟩)

theorem distinct_update (h : t.Represents m L) {b : Nat} {M : List (Nat × EtsEntry)}
    (hM : (M.map fun x => x.2.key).Nodup) :
    ∀ b', ((Function.update L b M b').map fun x => x.2.key).Nodup := by
  intro b'
  rw [Function.update_apply]
  split
  · exact hM
  · exact h.distinct b'

/-- The bucket of a key is replaced by one in which the other keys are as before. -/
theorem lookup_update (h : t.Represents m L) {key : Eterm} {M : List (Nat × EtsEntry)}
    {m' : Finmap fun _ : Eterm => Eterm}
    (hself : m'.lookup key = (M.find? fun x => x.2.key == key).map fun x => x.2.value)
    (hother : ∀ key', key' ≠ key → m'.lookup key' = m.lookup key' ∧
      M.find? (fun x => x.2.key == key') =
        (L (keyBucket key)).find? fun x => x.2.key == key') :
    ∀ key', m'.lookup key' = valueAt (Function.update L (keyBucket key) M) key' := by
  intro key'
  rw [valueAt_update]
  by_cases hk : key' = key
  · rw [hk, hself, if_pos rfl]
  · obtain ⟨hlookup, hfind⟩ := hother key' hk
    rw [hlookup, h.lookup key', hfind, valueAt]
    split
    · rename_i hb
      rw [hb]
    · rfl

theorem setValue (h : t.Represents m L) (value : Eterm) {key old : Eterm} {i : Nat}
    {K R : List (Nat × EtsEntry)} (hL : L (keyBucket key) = K ++ (i, ⟨key, old⟩) :: R)
    (hK : ∀ y ∈ K, y.2.key ≠ key) (hold : m.lookup key = some old) :
    ∃ t', t.setValue i ⟨key, old⟩ value = some t' ∧ t'.alloc = t.alloc ∧ t'.type = t.type ∧
      ∃ L', t'.Represents (m.insert key value) L' := by
  obtain ⟨t', hs, hlinked, hty, hcount, ha⟩ := h.toLinked.setValue value hL
  refine ⟨t', hs, ha, hty, _, hlinked, ?_, ?_, ?_⟩
  · have hnd := h.distinct (keyBucket key)
    rw [hL] at hnd
    exact h.distinct_update (by simpa using hnd)
  · refine h.lookup_update ?_ fun key' hk => ⟨Finmap.lookup_insert_of_ne _ hk, ?_⟩
    · rw [Finmap.lookup_insert, find_self (e := ⟨key, value⟩) hK]
      rfl
    · rw [hL, find_other (e := ⟨key, value⟩) hk, find_other (e := ⟨key, old⟩) hk]
  · have hmem : key ∈ m.keys := Finmap.mem_keys.mpr (Finmap.mem_of_lookup_eq_some hold)
    rw [keys_insert, Finset.card_insert_of_mem hmem, hcount]
    exact h.count

theorem addEntry (h : t.Represents m L) {key : Eterm} (value : Eterm)
    (hno : ∀ x ∈ L (keyBucket key), x.2.key ≠ key) (hnone : m.lookup key = none)
    (hgrant : t.alloc 0 = true) :
    ∃ t', t.addEntry key value = (t', .ok) ∧ (t'.alloc = fun n => t.alloc (n + 1)) ∧
      t'.type = t.type ∧ ∃ L', t'.Represents (m.insert key value) L' := by
  obtain ⟨t', hadd, hlinked, hty, hcount, ha⟩ := h.toLinked.addEntry hgrant key value
  refine ⟨t', hadd, ha, hty, _, hlinked, ?_, ?_, ?_⟩
  · refine h.distinct_update ?_
    rw [List.map_cons, List.nodup_cons]
    refine ⟨fun hm => ?_, h.distinct _⟩
    obtain ⟨x, hx, he⟩ := List.mem_map.mp hm
    exact hno x hx he
  · refine h.lookup_update ?_ fun key' hk => ⟨Finmap.lookup_insert_of_ne _ hk, ?_⟩
    · rw [Finmap.lookup_insert, List.find?_cons_of_pos (by simp)]
      rfl
    · exact List.find?_cons_of_neg (by simpa using fun he => hk he.symm)
  · rw [keys_insert, Finset.card_insert_of_notMem, ← h.count, hcount]
    rw [Finmap.mem_keys]
    exact Finmap.lookup_eq_none.mp hnone

theorem delete (h : t.Represents m L) {key old : Eterm} {i : Nat} {K R : List (Nat × EtsEntry)}
    (hL : L (keyBucket key) = K ++ (i, ⟨key, old⟩) :: R) (hK : ∀ y ∈ K, y.2.key ≠ key)
    (hR : ∀ y ∈ R, y.2.key ≠ key) (hold : m.lookup key = some old) :
    ∃ t', beamEtsDelete t key = some (t', .ok) ∧ t'.alloc = t.alloc ∧ t'.type = t.type ∧
      ∃ L', t'.Represents (m.erase key) L' := by
  obtain ⟨t', hdel, hlinked, hty, hcount, ha⟩ := h.toLinked.delete hL hK
  refine ⟨t', hdel, ha, hty, _, hlinked, ?_, ?_, ?_⟩
  · have hnd := h.distinct (keyBucket key)
    rw [hL] at hnd
    have hsub := List.Sublist.append_left (List.sublist_cons_self (i, ⟨key, old⟩) R) K
    exact h.distinct_update (hnd.sublist (hsub.map _))
  · refine h.lookup_update ?_ fun key' hk => ⟨Finmap.lookup_erase_ne hk, ?_⟩
    · rw [Finmap.lookup_erase, find_gone hK hR]
      rfl
    · rw [hL, find_other (e := ⟨key, old⟩) hk]
  · have hmem : key ∈ m.keys := Finmap.mem_keys.mpr (Finmap.mem_of_lookup_eq_some hold)
    rw [Finmap.keys_erase, Finset.card_erase_of_mem hmem, hcount, h.count]

theorem lookup_iff (h : t.Represents m L) (key value : Eterm) :
    m.lookup key = some value ↔ ∃ b, ∃ x ∈ L b, x.2 = ⟨key, value⟩ := by
  constructor
  · intro hl
    rcases h.search key with ⟨hnone, _, _⟩ | ⟨K, i, old, R, hL, _, _, hold, _⟩
    · rw [hnone] at hl
      cases hl
    · rw [hold] at hl
      cases hl
      exact ⟨keyBucket key, (i, ⟨key, value⟩), by rw [hL]; simp, rfl⟩
  · rintro ⟨b, ⟨i, e⟩, hx, he⟩
    cases he
    have hb : keyBucket key = b := h.bucketed.placed b (i, ⟨key, value⟩) hx
    rcases h.search key with ⟨_, hno, _⟩ | ⟨K, j, old, R, hL, hK, hR, hold, _⟩
    · exact absurd rfl (hno (i, ⟨key, value⟩) (hb ▸ hx))
    · rw [← hb, hL] at hx
      rcases List.mem_append.mp hx with hm | hm
      · exact absurd rfl (hK _ hm)
      · rcases List.mem_cons.mp hm with he | hm
        · cases he
          exact hold
        · exact absurd rfl (hR _ hm)

theorem entry_unique (h : t.Represents m L) {b b' : Nat} {x x' : Nat × EtsEntry} (hx : x ∈ L b)
    (hx' : x' ∈ L b') (hkey : x.2.key = x'.2.key) : x = x' := by
  have hbb : b = b' := by
    rw [← h.bucketed.placed b x hx, ← h.bucketed.placed b' x' hx', EtsEntry.home, EtsEntry.home,
      hkey]
  subst hbb
  exact List.inj_on_of_nodup_map (h.distinct b) hx hx' hkey

end EtsTable.Represents

/-! ### Refinement -/

/-- The table is a set or an ordered set that stands for the map. -/
def EtsTable.Models (t : EtsTable) (m : EtsMap) : Prop :=
  (t.type = .set ∨ t.type = .orderedSet) ∧ t.alloc = m.alloc ∧ ∃ L, t.Represents m.map L

theorem beamEtsInsert_set {t : EtsTable} (htype : t.type = .set ∨ t.type = .orderedSet)
    (key value : Eterm) :
    beamEtsInsert t key value = (t.search key fun e => e.key == key).bind fun
      | some (i, e) => (t.setValue i e value).map fun t => (t, .ok)
      | none => some (t.addEntry key value) := by
  unfold beamEtsInsert
  rcases htype with h | h <;> rw [h]

/-- **One operation on the table is one operation on the map.** -/
theorem etsStep_refines (t : EtsTable) (m : EtsMap) (op : EtsOp) (h : t.Models m) :
    ∃ t', etsStep t op = some (t', (m.step op).2) ∧ t'.Models (m.step op).1 := by
  obtain ⟨htype, halloc, L, hr⟩ := h
  cases op with
  | insert key value =>
    rw [etsStep, beamEtsInsert_set htype, EtsMap.step, EtsMap.insert]
    rcases hr.search key with ⟨hnone, hno, hs⟩ | ⟨K, i, old, R, hL, hK, _, hold, hs⟩
    · rw [hs, if_neg (Finmap.lookup_eq_none.mp hnone)]
      by_cases hg : t.alloc 0 = true
      · obtain ⟨t', hadd, ha, hty, L', hr'⟩ := hr.addEntry value hno hnone hg
        rw [if_pos (halloc ▸ hg)]
        refine ⟨t', by rw [Option.bind_some, hadd]; rfl, hty ▸ htype, ?_, L', hr'⟩
        rw [ha, halloc]
      · rw [if_neg (halloc ▸ hg)]
        refine ⟨{ t with alloc := fun n => t.alloc (n + 1) }, ?_, htype, ?_, L, ?_⟩
        · rw [Option.bind_some, EtsTable.addEntry_refused hg]
          rfl
        · dsimp only
          rw [halloc]
        · exact ⟨⟨hr.bucketed, hr.size⟩, hr.distinct, hr.lookup, hr.count⟩
    · obtain ⟨t', hset, ha, hty, L', hr'⟩ := hr.setValue value hL hK hold
      rw [hs, if_pos (Finmap.mem_of_lookup_eq_some hold)]
      refine ⟨t', ?_, hty ▸ htype, ha.trans halloc, L', hr'⟩
      rw [Option.bind_some]
      dsimp only
      rw [hset]
      rfl
  | lookup key =>
    rw [etsStep, beamEtsLookup, EtsMap.step]
    rcases hr.search key with ⟨hnone, _, hs⟩ | ⟨K, i, old, R, _, _, _, hold, hs⟩
    · rw [hs, hnone]
      exact ⟨t, rfl, htype, halloc, L, hr⟩
    · rw [hs, hold]
      exact ⟨t, rfl, htype, halloc, L, hr⟩
  | delete key =>
    rw [etsStep, EtsMap.step]
    rcases hr.search key with ⟨hnone, hno, _⟩ | ⟨K, i, old, R, hL, hK, hR, hold, _⟩
    · rw [hr.toLinked.delete_none hno, if_neg (Finmap.lookup_eq_none.mp hnone)]
      exact ⟨t, rfl, htype, halloc, L, hr⟩
    · obtain ⟨t', hdel, ha, hty, L', hr'⟩ := hr.delete hL hK hR hold
      rw [hdel, if_pos (Finmap.mem_of_lookup_eq_some hold)]
      exact ⟨t', rfl, hty ▸ htype, ha.trans halloc, L', hr'⟩
  | updateCounter key increment =>
    rw [etsStep, beamEtsUpdateCounter, EtsMap.step]
    rcases hr.search key with ⟨hnone, _, hs⟩ | ⟨K, i, old, R, hL, hK, _, hold, hs⟩
    · rw [hs, hnone]
      exact ⟨t, rfl, htype, halloc, L, hr⟩
    · obtain ⟨t', hset, ha, hty, L', hr'⟩ := hr.setValue
        (makeSmallInt (etermToSmallInt old + increment)) hL hK hold
      rw [hs, hold, Option.bind_some]
      dsimp only
      rw [hset]
      exact ⟨t', rfl, hty ▸ htype, ha.trans halloc, L', hr'⟩

theorem EtsTable.models_create {type : EtsType} (htype : type = .set ∨ type = .orderedSet)
    {alloc : Nat → Bool} {t : EtsTable} (hnew : beamEtsTableCreateTyped type alloc = some t) :
    t.Models ⟨∅, t.alloc⟩ := by
  unfold beamEtsTableCreateTyped at hnew
  split at hnew
  · cases hnew
    exact ⟨htype, rfl, fun _ => [], ⟨Bucketed.empty _, rfl⟩, fun _ => List.nodup_nil, fun _ => rfl,
      rfl⟩
  · cases hnew

/-- **A set refines a finite map.**  Every sequence of operations on a new set or ordered set, with
any allocator, returns what it returns on the finite map.  In the table it leaves, each entry is in
the bucket of its key's hash, a key has one entry at most, and the counter is the size of the
map. -/
theorem refines_finmap {type : EtsType} (htype : type = .set ∨ type = .orderedSet)
    (alloc : Nat → Bool) {t : EtsTable} (hnew : beamEtsTableCreateTyped type alloc = some t)
    (ops : List EtsOp) :
    let m := (specAnswers EtsMap.step ⟨∅, t.alloc⟩ ops).1
    ∃ (t' : EtsTable) (L : Nat → List (Nat × EtsEntry)),
      answers etsStep t ops = some (t', (specAnswers EtsMap.step ⟨∅, t.alloc⟩ ops).2) ∧
      (∀ b, Chain t'.nodes (t'.buckets b) (L b) none) ∧
      (∀ b, ∀ x ∈ L b, (hashEterm x.2.key).toNat % t'.bucketCount = b) ∧
      (∀ b b' x x', x ∈ L b → x' ∈ L b' → x.2.key = x'.2.key → x = x') ∧
      (∀ key value, m.map.lookup key = some value ↔ ∃ b, ∃ x ∈ L b, x.2 = ⟨key, value⟩) ∧
      beamEtsCount t' = m.map.keys.card := by
  intro m
  obtain ⟨t', hrun, _, _, L, hr⟩ :=
    refines_answers etsStep_refines ops (EtsTable.models_create htype hnew)
  refine ⟨t', L, hrun, hr.bucketed.chain, fun b x hx => ?_,
    fun b b' x x' hx hx' hkey => hr.entry_unique hx hx' hkey, hr.lookup_iff, hr.count⟩
  rw [hr.size]
  exact hr.bucketed.placed b x hx

/-- Two keys in one bucket, the memory short once, and a counter that goes down. -/
def fewOps : List EtsOp :=
  [.insert 1#64 (makeSmallInt 5#64), .insert (1#64 <<< 32) 7#64,
    .insert (1#64 ||| 1#64 <<< 32) 8#64, .updateCounter 1#64 (-9#64),
    .delete (1#64 ||| 1#64 <<< 32), .delete 1#64, .lookup 1#64]

theorem refines_finmap_fewOps :
    ∃ t t', beamEtsTableCreateTyped .set (fun n => n ≠ 3) = some t ∧
      answers etsStep t fewOps = some (t', [(.ok, none), (.errNoMemory, none), (.ok, none),
        (.ok, some (makeSmallInt (-4#64))), (.ok, none), (.ok, none), (.errNotFound, none)]) ∧
      beamEtsCount t' = 0 := by
  obtain ⟨t', L, hrun, _, _, _, _, hcount⟩ :=
    refines_finmap (Or.inl rfl) (fun n => n ≠ 3) rfl fewOps
  exact ⟨_, t', rfl, hrun, hcount⟩

end BeamModular
