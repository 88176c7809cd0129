import BeamModular.Core.Term
import BeamModular.Lib.Buckets
import BeamModular.Lib.CString
import BeamModular.Lib.Run

/-!
# The atom table

`src/global/atom_table.c`: names are kept in linked buckets by their hash and in an
array by their number, which is what an atom term carries.  The array grows by
doubling.  A call of `beam_atom_intern` searches under the read lock and, when it has
not found the name, searches again and inserts under the write lock; the two are
steps of their own here, and any number of threads take them in any order.

`Interned t names` ties the two structures together: the names in the order of their
numbers, each in the bucket of its hash and in its place of the array.  A thread
between its two steps knows nothing that the invariant would need, which is why the
second search is there.  `interned_of_run` is the result for every interleaving.
-/

namespace BeamModular

/-! ### The table -/

/-- `beam_atom_entry_t`, without its link; `name` is the buffer with its terminator. -/
structure AtomEntry where
  name : List Byte
  len : Nat
  hash : BitVec 32
  index : BitVec 32
  deriving DecidableEq, Repr

/-- `struct beam_atom_table`.  `alloc` is what the injected allocator will answer to the next
requests, and `realloc` what `realloc` will, with what the new part of the block contains. -/
structure AtomTable where
  nodes : Nodes AtomEntry
  buckets : Nat → Option Nat
  indexMap : List (Option Nat)
  bucketCount : Nat
  count : Nat
  indexMapCapacity : Nat
  alloc : Nat → Bool
  realloc : Nat → Option (Nat → Option Nat)

/-- `hash_atom_name`. -/
def hashAtomName (name : List Byte) : BitVec 32 :=
  name.foldl (fun hash b => (hash ^^^ b.setWidth 32) * 16777619#32) 2166136261#32

/-- `atom_eterm`. -/
def atomEterm (index : BitVec 32) : Eterm := index.setWidth 64 <<< 4 ||| tagImmed1Atom

/-- `atom_index`. -/
def atomIndex (term : Eterm) : BitVec 32 := (term >>> 4).setWidth 32

/-- `BEAM_ATOM_DEFAULT_CAPACITY`. -/
abbrev atomDefaultCapacity : Nat := 256

/-- The pointers in a block of `sizeof(beam_atom_entry_t*) * capacity` bytes, a number that is
computed in 64 bits. -/
def pointerSlots (capacity : Nat) : Nat := 8 * capacity % 2 ^ 64 / 8

theorem pointerSlots_eq {capacity : Nat} (h : 8 * capacity < 2 ^ 64) :
    pointerSlots capacity = capacity := by
  unfold pointerSlots
  omega

/-- `capacity` of `beam_atom_table_create`. -/
def atomCapacity (initialCapacity : Nat) : Nat :=
  if initialCapacity > 0 then initialCapacity else atomDefaultCapacity

theorem atomCapacity_pos (initialCapacity : Nat) : 0 < atomCapacity initialCapacity := by
  unfold atomCapacity
  split
  · assumption
  · decide

theorem pointerSlots_atomCapacity {initialCapacity : Nat} (h : 8 * initialCapacity < 2 ^ 64) :
    pointerSlots (atomCapacity initialCapacity) = atomCapacity initialCapacity := by
  refine pointerSlots_eq ?_
  unfold atomCapacity
  split
  · exact h
  · decide

/-- `beam_atom_table_create`: the table, the buckets and the index map are asked for in this
order, and a request is granted in full or refused. -/
def beamAtomTableCreate (initialCapacity : Nat) (alloc : Nat → Bool)
    (realloc : Nat → Option (Nat → Option Nat)) : Option AtomTable :=
  let capacity := atomCapacity initialCapacity
  if alloc 0 && alloc 1 && alloc 2 then
    some {
      nodes := []
      buckets := fun _ => none
      indexMap := List.replicate (pointerSlots capacity) none
      bucketCount := capacity
      count := 0
      indexMapCapacity := capacity
      alloc := fun n => alloc (n + 3)
      realloc := realloc }
  else none

/-- The test of `atom_table_find_entry`. -/
def AtomEntry.matches (name : List Byte) (e : AtomEntry) : Bool :=
  e.hash == hashAtomName name && e.len == name.length && e.name.take name.length == name

namespace AtomTable

/-- The bucket of a name. -/
def bucketIdx (t : AtomTable) (name : List Byte) : Nat :=
  (hashAtomName name).toNat % t.bucketCount

/-- `atom_table_find_entry`.  There is no result outside the block of the buckets. -/
def findEntry (t : AtomTable) (name : List Byte) : Option (Option (Nat × AtomEntry)) :=
  if t.bucketIdx name < pointerSlots t.bucketCount then
    t.nodes.search (AtomEntry.matches name) t.nodes.length (t.buckets (t.bucketIdx name))
  else none

/-- Twice the room in the index map, where it is full; `none` where `realloc` refuses. -/
def grow (t : AtomTable) : Option AtomTable :=
  if t.count ≥ t.indexMapCapacity then
    (t.realloc 0).map fun fill => { t with
      indexMap := t.indexMap ++ (List.range t.indexMapCapacity).map fill
      indexMapCapacity := t.indexMapCapacity * 2
      realloc := fun n => t.realloc (n + 1) }
  else some t

/-- The new entry in front of its bucket and in its place of the index map.  There is no result
outside their blocks. -/
def link (t : AtomTable) (name : List Byte) : Option AtomTable :=
  let entry : AtomEntry :=
    ⟨name ++ [0#8], name.length, hashAtomName name, BitVec.ofNat 32 t.count⟩
  if t.bucketIdx name < pointerSlots t.bucketCount ∧ t.count < t.indexMap.length then
    some { t with
      nodes := t.nodes.alloc ⟨entry, t.buckets (t.bucketIdx name)⟩
      buckets := Function.update t.buckets (t.bucketIdx name) (some t.nodes.length)
      indexMap := t.indexMap.set t.count (some t.nodes.length)
      count := t.count + 1 }
  else none

/-- The size of the grown index map would wrap around: `2 ^ 60` names, whose entries alone need more
bytes than there are addresses. -/
def Exhausted (t : AtomTable) : Prop :=
  t.count ≥ t.indexMapCapacity ∧ 2 ^ 64 ≤ 8 * (t.indexMapCapacity * 2)

instance (t : AtomTable) : Decidable t.Exhausted := inferInstanceAs (Decidable (_ ∧ _))

theorem not_exhausted {t : AtomTable} (h : t.count < 2 ^ 60) : ¬ t.Exhausted := by
  rintro ⟨hfull, hwrap⟩
  omega

/-- `atom_table_insert`: the term is 0 where an allocation is refused. -/
def insert (t : AtomTable) (name : List Byte) : Option (AtomTable × Eterm) :=
  if t.Exhausted then none
  else match t.grow with
    | none => some ({ t with realloc := fun n => t.realloc (n + 1) }, 0#64)
    | some t =>
      if !t.alloc 0 then some ({ t with alloc := fun n => t.alloc (n + 1) }, 0#64)
      else if !t.alloc 1 then some ({ t with alloc := fun n => t.alloc (n + 2) }, 0#64)
      else
        (link { t with alloc := fun n => t.alloc (n + 2) } name).map fun t' =>
          (t', atomEterm (BitVec.ofNat 32 t.count))

end AtomTable

/-- `beam_atom_lookup`: the buffer the pointer shows, or null. -/
def beamAtomLookup (t : AtomTable) (term : Eterm) : Option (Option (List Byte)) :=
  if term &&& 15#64 ≠ tagImmed1Atom then some none
  else if (atomIndex term).toNat ≥ t.count then some none
  else
    (t.indexMap[(atomIndex term).toNat]?).bind fun
      | none => some none
      | some i => (t.nodes.get i).map fun n => some n.val.name

/-- `beam_atom_table_count`. -/
def beamAtomTableCount (t : AtomTable) : Nat := t.count

/-! ### The threads -/

/-- A call: `beam_atom_intern` of a string, or `beam_atom_intern_length` of some bytes. -/
inductive AtomCall
  | intern (str : List Byte)
  | internLength (name : List Byte)
  deriving DecidableEq, Repr

/-- The bytes that are looked for. -/
def AtomCall.name : AtomCall → List Byte
  | .intern str => cString str
  | .internLength name => name

/-- Where a thread stands; `missed` is between the two locks. -/
inductive AtomPc
  | idle
  | missed (name : List Byte)
  deriving DecidableEq, Repr

/-- A step of a thread: the search under the read lock, or the search and the insertion under the
write lock. -/
inductive AtomAct (κ : Type)
  | search (k : κ) (call : AtomCall)
  | insert (k : κ)

/-- The table, the threads, and the names that calls have returned with their terms. -/
structure Interning (κ : Type) where
  table : AtomTable
  threads : κ → AtomPc
  log : List (List Byte × Eterm)

namespace Interning

variable {κ : Type}

def start (t : AtomTable) : Interning κ := ⟨t, fun _ => .idle, []⟩

variable [DecidableEq κ]

/-- A call of the thread returns. -/
def answer (s : Interning κ) (k : κ) (t : AtomTable) (name : List Byte) (term : Eterm) :
    Interning κ where
  table := t
  threads := Function.update s.threads k .idle
  log := (name, term) :: s.log

def step (s : Interning κ) : AtomAct κ → Option (Interning κ)
  | .search k call =>
    match s.threads k with
    | .missed _ => none
    | .idle => (s.table.findEntry call.name).map fun
      | some (_, e) => s.answer k s.table call.name (atomEterm e.index)
      | none => { s with threads := Function.update s.threads k (.missed call.name) }
  | .insert k =>
    match s.threads k with
    | .idle => none
    | .missed name => (s.table.findEntry name).bind fun
      | some (_, e) => some (s.answer k s.table name (atomEterm e.index))
      | none => (s.table.insert name).map fun r => s.answer k r.1 name r.2

end Interning

/-! ### What the two structures hold -/

/-- The entry of the name with this number. -/
def entryFor (name : List Byte) (i : Nat) : AtomEntry :=
  ⟨name ++ [0#8], name.length, hashAtomName name, BitVec.ofNat 32 i⟩

/-- The bucket an entry belongs to. -/
def AtomEntry.home (bucketCount : Nat) (e : AtomEntry) : Nat := e.hash.toNat % bucketCount

/-- **The invariant**: the names in the order of their numbers, each in the bucket of its hash and
in its place of the index map, and nothing else in the buckets. -/
structure Interned (t : AtomTable) (names : List (List Byte)) (L : Nat → List (Nat × AtomEntry)) :
    Prop where
  bucketed : Bucketed (AtomEntry.home t.bucketCount) t.nodes t.buckets L
  entries : ∀ b, ∀ x ∈ L b, ∃ i name, names[i]? = some name ∧ x.2 = entryFor name i
  mapped : ∀ (i : Nat) (name : List Byte), names[i]? = some name →
    ∃ node, t.indexMap[i]? = some (some node) ∧ (node, entryFor name i) ∈ L (t.bucketIdx name)
  distinct : names.Nodup
  count : t.count = names.length
  capacity : t.indexMapCapacity = t.indexMap.length
  room : t.count ≤ t.indexMapCapacity ∧ 0 < t.indexMapCapacity
  slots : ∀ name, t.bucketIdx name < pointerSlots t.bucketCount

/-- The allocator refuses nothing. -/
def AtomTable.Granting (t : AtomTable) : Prop :=
  (∀ n, t.alloc n = true) ∧ ∀ n, (t.realloc n).isSome = true

theorem interned_create {initialCapacity : Nat} {alloc : Nat → Bool}
    {realloc : Nat → Option (Nat → Option Nat)} {t : AtomTable}
    (hsize : 8 * initialCapacity < 2 ^ 64)
    (hnew : beamAtomTableCreate initialCapacity alloc realloc = some t) :
    Interned t [] fun _ => [] := by
  have hslots := pointerSlots_atomCapacity hsize
  unfold beamAtomTableCreate at hnew
  dsimp only at hnew
  split at hnew
  · cases hnew
    refine ⟨Bucketed.empty _, fun b x hx => ?_, fun i name hi => ?_, List.nodup_nil, rfl, ?_,
      ⟨Nat.zero_le _, atomCapacity_pos _⟩, fun name => ?_⟩
    · cases hx
    · simp at hi
    · rw [List.length_replicate, hslots]
    · rw [hslots]
      exact Nat.mod_lt _ (atomCapacity_pos _)
  · cases hnew

theorem matches_entryFor {name other : List Byte} {i : Nat} :
    (entryFor other i).matches name = true ↔ other = name := by
  simp only [AtomEntry.matches, entryFor, Bool.and_eq_true, beq_iff_eq]
  constructor
  · rintro ⟨⟨_, hlen⟩, htake⟩
    rwa [← hlen, List.take_left] at htake
  · rintro rfl
    exact ⟨⟨rfl, rfl⟩, List.take_left⟩

theorem toNat_atomEterm (index : BitVec 32) : (atomEterm index).toNat = 16 * index.toNat + 11 := by
  have hlt := index.isLt
  have hor := Nat.two_pow_add_eq_or_of_lt (i := 4) (show 11 < 2 ^ 4 by decide) index.toNat
  have hshift : index.toNat * 2 ^ 4 % 2 ^ 64 = 2 ^ 4 * index.toNat := by omega
  have hmod : index.toNat % 2 ^ 64 = index.toNat := by omega
  rw [atomEterm, BitVec.toNat_or, BitVec.toNat_shiftLeft, Nat.shiftLeft_eq, BitVec.toNat_setWidth,
    hmod, hshift, show tagImmed1Atom.toNat = 11 from rfl, ← hor]

theorem atomEterm_tag (index : BitVec 32) : atomEterm index &&& 15#64 = tagImmed1Atom := by
  apply BitVec.eq_of_toNat_eq
  rw [toNat_and_fifteen, toNat_atomEterm, show tagImmed1Atom.toNat = 11 from rfl]
  omega

theorem atomIndex_atomEterm (index : BitVec 32) : atomIndex (atomEterm index) = index := by
  apply BitVec.eq_of_toNat_eq
  have hlt := index.isLt
  rw [atomIndex, BitVec.toNat_setWidth, BitVec.toNat_ushiftRight, toNat_atomEterm,
    Nat.shiftRight_eq_div_pow]
  omega

theorem getElem?_snoc_iff {α : Type} {l : List α} {a b : α} {i : Nat} :
    (l ++ [a])[i]? = some b ↔ l[i]? = some b ∨ i = l.length ∧ a = b := by
  constructor
  · intro h
    rcases Nat.lt_or_ge i l.length with hlt | hge
    · rw [List.getElem?_append_left hlt] at h
      exact Or.inl h
    · have hi := (List.getElem?_eq_some_iff.mp h).1
      rw [List.length_append, List.length_singleton] at hi
      obtain rfl : i = l.length := by omega
      rw [List.getElem?_concat_length, Option.some_inj] at h
      exact Or.inr ⟨rfl, h⟩
  · rintro (h | ⟨rfl, rfl⟩)
    · obtain ⟨hlt, _⟩ := List.getElem?_eq_some_iff.mp h
      rw [List.getElem?_append_left hlt, h]
    · exact List.getElem?_concat_length

namespace Interned

variable {t : AtomTable} {names : List (List Byte)} {L : Nat → List (Nat × AtomEntry)}

theorem findEntry (h : Interned t names L) (name : List Byte) :
    (name ∉ names ∧ t.findEntry name = some none) ∨
    ∃ i node, names[i]? = some name ∧ t.findEntry name = some (some (node, entryFor name i)) := by
  have hs := h.bucketed.search (AtomEntry.matches name) (t.bucketIdx name)
  rw [AtomTable.findEntry, if_pos (h.slots name), hs]
  cases hf : (L (t.bucketIdx name)).find? fun x => x.2.matches name with
  | none =>
    refine Or.inl ⟨fun hmem => ?_, rfl⟩
    obtain ⟨i, hi⟩ := List.getElem?_of_mem hmem
    obtain ⟨node, _, hx⟩ := h.mapped i name hi
    exact List.find?_eq_none.mp hf _ hx (matches_entryFor.mpr rfl)
  | some x =>
    obtain ⟨i, other, hi, hx⟩ := h.entries _ x (List.mem_of_find?_eq_some hf)
    have hm := List.find?_some hf
    rw [hx, matches_entryFor] at hm
    subst hm
    exact Or.inr ⟨i, x.1, hi, by rw [← hx]⟩

theorem of_grow (h : Interned t names L) {t' : AtomTable} (hg : t.grow = some t') :
    Interned t' names L ∧ t'.count < t'.indexMap.length := by
  have hroom := h.room
  have hcap := h.capacity
  unfold AtomTable.grow at hg
  split at hg
  · rename_i hfull
    obtain ⟨fill, _, rfl⟩ := Option.map_eq_some_iff.mp hg
    refine ⟨⟨h.bucketed, h.entries, fun i name hi => ?_, h.distinct, h.count, ?_, ?_, h.slots⟩, ?_⟩
    · obtain ⟨node, hn, hx⟩ := h.mapped i name hi
      obtain ⟨hlt, _⟩ := List.getElem?_eq_some_iff.mp hn
      refine ⟨node, ?_, hx⟩
      dsimp only
      rw [List.getElem?_append_left hlt, hn]
    · simp only [List.length_append, List.length_map, List.length_range]
      omega
    · dsimp only
      omega
    · simp only [List.length_append, List.length_map, List.length_range]
      omega
  · rename_i hfree
    cases hg
    exact ⟨h, by omega⟩

theorem grow (h : Interned t names L) (hg : t.Granting) :
    ∃ t', t.grow = some t' ∧ Interned t' names L ∧ t'.Granting ∧
      t'.count < t'.indexMap.length := by
  obtain ⟨t', hgrow, hg'⟩ : ∃ t', t.grow = some t' ∧ t'.Granting := by
    unfold AtomTable.grow
    split
    · obtain ⟨fill, hfill⟩ := Option.isSome_iff_exists.mp (hg.2 0)
      rw [hfill]
      exact ⟨_, rfl, hg.1, fun n => hg.2 (n + 1)⟩
    · exact ⟨t, rfl, hg⟩
  obtain ⟨h', hroom⟩ := h.of_grow hgrow
  exact ⟨t', hgrow, h', hg', hroom⟩

/-- What the allocator will answer is no part of it. -/
theorem answers (h : Interned t names L) (alloc : Nat → Bool)
    (realloc : Nat → Option (Nat → Option Nat)) :
    Interned { t with alloc := alloc, realloc := realloc } names L :=
  ⟨h.bucketed, h.entries, h.mapped, h.distinct, h.count, h.capacity, h.room, h.slots⟩

/-- The buckets with the entry of a new name at the front of its own. -/
def pushed (t : AtomTable) (L : Nat → List (Nat × AtomEntry)) (name : List Byte) :
    Nat → List (Nat × AtomEntry) :=
  Function.update L (t.bucketIdx name)
    ((t.nodes.length, entryFor name t.count) :: L (t.bucketIdx name))

theorem mem_pushed {name : List Byte} {b : Nat} {x : Nat × AtomEntry} :
    x ∈ pushed t L name b ↔
      (b = t.bucketIdx name ∧ x = (t.nodes.length, entryFor name t.count)) ∨ x ∈ L b := by
  rw [pushed, Function.update_apply]
  split
  · rename_i hb
    rw [List.mem_cons, hb, eq_self_iff_true, true_and]
  · rename_i hb
    exact ⟨Or.inr, fun h => h.resolve_left fun he => hb he.1⟩

theorem entries_pushed (h : Interned t names L) (name : List Byte) :
    ∀ b, ∀ x ∈ pushed t L name b, ∃ i other, (names ++ [name])[i]? = some other ∧
      x.2 = entryFor other i := by
  intro b x hx
  rcases mem_pushed.mp hx with ⟨_, rfl⟩ | hx
  · exact ⟨t.count, name, getElem?_snoc_iff.mpr (Or.inr ⟨h.count, rfl⟩), rfl⟩
  · obtain ⟨i, other, hi, he⟩ := h.entries b x hx
    exact ⟨i, other, getElem?_snoc_iff.mpr (Or.inl hi), he⟩

theorem mapped_pushed (h : Interned t names L) {name : List Byte}
    (hroom : t.count < t.indexMap.length) :
    ∀ (i : Nat) (other : List Byte), (names ++ [name])[i]? = some other →
      ∃ node, (t.indexMap.set t.count (some t.nodes.length))[i]? = some (some node) ∧
        (node, entryFor other i) ∈ pushed t L name (t.bucketIdx other) := by
  intro i other hi
  rcases getElem?_snoc_iff.mp hi with hi | ⟨rfl, rfl⟩
  · obtain ⟨hlt, _⟩ := List.getElem?_eq_some_iff.mp hi
    obtain ⟨node, hn, hx⟩ := h.mapped i other hi
    refine ⟨node, ?_, mem_pushed.mpr (Or.inr hx)⟩
    rw [List.getElem?_set_ne (by rw [h.count]; omega), hn]
  · rw [← h.count]
    exact ⟨t.nodes.length, List.getElem?_set_self hroom, mem_pushed.mpr (Or.inl ⟨rfl, rfl⟩)⟩

theorem link (h : Interned t names L) {name : List Byte} (hnew : name ∉ names)
    (hroom : t.count < t.indexMap.length) :
    ∃ t' L', t.link name = some t' ∧ Interned t' (names ++ [name]) L' ∧ t'.alloc = t.alloc ∧
      t'.realloc = t.realloc := by
  have hhome : AtomEntry.home t.bucketCount (entryFor name t.count) = t.bucketIdx name := rfl
  have hb := h.bucketed.push (entryFor name t.count)
  rw [hhome] at hb
  rw [AtomTable.link, if_pos ⟨h.slots name, hroom⟩]
  refine ⟨_, pushed t L name, rfl,
    ⟨hb, h.entries_pushed name, h.mapped_pushed hroom, ?_, ?_, ?_, ?_, h.slots⟩, rfl, rfl⟩
  · rw [List.nodup_append]
    refine ⟨h.distinct, List.nodup_singleton _, fun a ha b hb' => ?_⟩
    rw [List.mem_singleton.mp hb']
    rintro rfl
    exact hnew ha
  · dsimp only
    rw [h.count, List.length_append, List.length_singleton]
  · dsimp only
    rw [List.length_set, h.capacity]
  · have := h.capacity
    dsimp only
    omega

/-- **The insertion**, with room made first. -/
theorem insert (h : Interned t names L) (hg : t.Granting) (hfew : ¬ t.Exhausted)
    {name : List Byte} (hnew : name ∉ names) :
    ∃ t' L', t.insert name = some (t', atomEterm (BitVec.ofNat 32 names.length)) ∧
      Interned t' (names ++ [name]) L' ∧ t'.Granting := by
  obtain ⟨t₁, hgrow, h₁, hg₁, hroom⟩ := h.grow hg
  have h₂ := h₁.answers (fun n => t₁.alloc (n + 2)) t₁.realloc
  obtain ⟨t', L', hlink, h', ha, hr⟩ := h₂.link hnew hroom
  refine ⟨t', L', ?_, h', ?_, ?_⟩
  · rw [AtomTable.insert, if_neg hfew, hgrow]
    simp only [hg₁.1 0, hg₁.1 1, Bool.not_true, Bool.false_eq_true, if_false, hlink,
      Option.map_some]
    rw [h₁.count]
  · intro n
    rw [ha]
    exact hg₁.1 (n + 2)
  · intro n
    rw [hr]
    exact hg₁.2 n

/-- **The insertion**, with an allocator that may refuse: either 0 is returned and the names are as
before, or the name has the next number. -/
theorem insert_cases (h : Interned t names L) (hfew : ¬ t.Exhausted) {name : List Byte}
    (hnew : name ∉ names) :
    ∃ t', (t.insert name = some (t', 0#64) ∧ Interned t' names L) ∨
      ∃ L', t.insert name = some (t', atomEterm (BitVec.ofNat 32 names.length)) ∧
        Interned t' (names ++ [name]) L' := by
  rw [AtomTable.insert, if_neg hfew]
  cases hgrow : t.grow with
  | none => exact ⟨_, Or.inl ⟨rfl, h.answers t.alloc _⟩⟩
  | some t₁ =>
    obtain ⟨h₁, hroom⟩ := h.of_grow hgrow
    dsimp only
    cases ha : t₁.alloc 0 with
    | false => exact ⟨_, Or.inl ⟨rfl, h₁.answers _ t₁.realloc⟩⟩
    | true =>
      cases hb : t₁.alloc 1 with
      | false => exact ⟨_, Or.inl ⟨rfl, h₁.answers _ t₁.realloc⟩⟩
      | true =>
        obtain ⟨t', L', hlink, h', _⟩ :=
          (h₁.answers (fun n => t₁.alloc (n + 2)) t₁.realloc).link hnew hroom
        refine ⟨t', Or.inr ⟨L', ?_, h'⟩⟩
        simp only [Bool.not_true, Bool.false_eq_true, if_false, hlink, Option.map_some]
        rw [h₁.count]

theorem lookup_eq (h : Interned t names L) (term : Eterm) :
    beamAtomLookup t term =
      if term &&& 15#64 = tagImmed1Atom then
        some (names[(atomIndex term).toNat]?.map fun name => name ++ [0#8])
      else some none := by
  have hcount := h.count
  rw [beamAtomLookup]
  by_cases htag : term &&& 15#64 = tagImmed1Atom
  · rw [if_neg (not_not_intro htag), if_pos htag]
    cases hi : names[(atomIndex term).toNat]? with
    | none =>
      have hge := List.getElem?_eq_none_iff.mp hi
      rw [if_pos (by omega)]
      rfl
    | some name =>
      obtain ⟨hlt, _⟩ := List.getElem?_eq_some_iff.mp hi
      obtain ⟨node, hn, hx⟩ := h.mapped _ name hi
      obtain ⟨link, hget⟩ := (h.bucketed.chain _).get_of_mem _ hx
      rw [if_neg (by omega), hn]
      dsimp only [Option.bind_some]
      rw [hget]
      rfl
  · rw [if_pos htag, if_neg htag]

/-- **The number of a name leads back to it.** -/
theorem lookup (h : Interned t names L) {i : Nat} {name : List Byte} (hi : names[i]? = some name)
    (hlt : i < 2 ^ 32) :
    beamAtomLookup t (atomEterm (BitVec.ofNat 32 i)) = some (some (name ++ [0#8])) := by
  have hidx : (atomIndex (atomEterm (BitVec.ofNat 32 i))).toNat = i := by
    rw [atomIndex_atomEterm, BitVec.toNat_ofNat]
    omega
  rw [h.lookup_eq, if_pos (atomEterm_tag _), hidx, hi]
  rfl

end Interned

/-! ### Every interleaving -/

section Runs

variable {κ : Type} [DecidableEq κ]

/-- The invariant of the whole: every name of the table has been returned, and what has been
returned is its number. -/
structure Interning.Sound (s : Interning κ) (names : List (List Byte))
    (L : Nat → List (Nat × AtomEntry)) : Prop where
  interned : Interned s.table names L
  granting : s.table.Granting
  returned : ∀ name term, (name, term) ∈ s.log →
    ∃ i : Nat, names[i]? = some name ∧ term = atomEterm (BitVec.ofNat 32 i)
  logged : ∀ name ∈ names, ∃ term, (name, term) ∈ s.log
  nulFree : ∀ name ∈ names, 0#8 ∉ name
  missed : ∀ k name, s.threads k = .missed name → 0#8 ∉ name

namespace Interning.Sound

variable {s s' : Interning κ} {names : List (List Byte)} {L : Nat → List (Nat × AtomEntry)} {k : κ}

theorem missed_idle (h : s.Sound names L) {j : κ} {name : List Byte}
    (hj : Function.update s.threads k .idle j = .missed name) : 0#8 ∉ name := by
  rw [Function.update_apply] at hj
  split at hj
  · cases hj
  · exact h.missed j name hj

theorem answer_old (h : s.Sound names L) {i : Nat} {name : List Byte}
    (hi : names[i]? = some name) :
    (s.answer k s.table name (atomEterm (BitVec.ofNat 32 i))).Sound names L where
  interned := h.interned
  granting := h.granting
  returned other term hm := by
    rcases List.mem_cons.mp hm with he | hm
    · cases he
      exact ⟨i, hi, rfl⟩
    · exact h.returned other term hm
  logged other ho := by
    obtain ⟨term, ht⟩ := h.logged other ho
    exact ⟨term, List.mem_cons_of_mem _ ht⟩
  nulFree := h.nulFree
  missed _ _ hj := h.missed_idle hj

theorem answer_new (h : s.Sound names L) {name : List Byte} {t : AtomTable}
    {L' : Nat → List (Nat × AtomEntry)} (ht : Interned t (names ++ [name]) L') (hg : t.Granting)
    (hnul : 0#8 ∉ name) :
    (s.answer k t name (atomEterm (BitVec.ofNat 32 names.length))).Sound (names ++ [name]) L' where
  interned := ht
  granting := hg
  returned other term hm := by
    rcases List.mem_cons.mp hm with he | hm
    · cases he
      exact ⟨names.length, getElem?_snoc_iff.mpr (Or.inr ⟨rfl, rfl⟩), rfl⟩
    · obtain ⟨i, hi, he⟩ := h.returned other term hm
      exact ⟨i, getElem?_snoc_iff.mpr (Or.inl hi), he⟩
  logged other ho := by
    rcases List.mem_append.mp ho with ho | ho
    · obtain ⟨term, ht⟩ := h.logged other ho
      exact ⟨term, List.mem_cons_of_mem _ ht⟩
    · rw [List.mem_singleton.mp ho]
      exact ⟨_, List.mem_cons_self⟩
  nulFree other ho := by
    rcases List.mem_append.mp ho with ho | ho
    · exact h.nulFree other ho
    · rw [List.mem_singleton.mp ho]
      exact hnul
  missed _ _ hj := h.missed_idle hj

theorem search (h : s.Sound names L) (hk : s.threads k = .idle) {call : AtomCall}
    (hnul : 0#8 ∉ call.name) :
    ∃ s', s.step (.search k call) = some s' ∧ s'.Sound names L := by
  rw [Interning.step, hk]
  rcases h.interned.findEntry call.name with ⟨_, hf⟩ | ⟨i, node, hi, hf⟩
  · rw [hf]
    refine ⟨_, rfl, h.interned, h.granting, h.returned, h.logged, h.nulFree, fun j name hj => ?_⟩
    dsimp only at hj
    rw [Function.update_apply] at hj
    split at hj
    · cases hj
      exact hnul
    · exact h.missed j name hj
  · rw [hf]
    exact ⟨_, rfl, h.answer_old hi⟩

/-- **The search and the insertion under the write lock**, whatever happened since the first
search. -/
theorem insert (h : s.Sound names L) {name : List Byte} (hk : s.threads k = .missed name) :
    (s.table.Exhausted ∧ s.step (.insert k) = none) ∨
      ∃ s' names' L', s.step (.insert k) = some s' ∧ s'.Sound names' L' := by
  rw [Interning.step, hk]
  rcases h.interned.findEntry name with ⟨hnew, hf⟩ | ⟨i, node, hi, hf⟩
  · by_cases hfew : s.table.Exhausted
    · refine Or.inl ⟨hfew, ?_⟩
      dsimp only
      rw [hf, Option.bind_some]
      dsimp only
      rw [AtomTable.insert, if_pos hfew, Option.map_none]
    · obtain ⟨t', L', hins, ht', hg'⟩ := h.interned.insert h.granting hfew hnew
      refine Or.inr ⟨_, _, L', ?_, h.answer_new (k := k) ht' hg' (h.missed k name hk)⟩
      dsimp only
      rw [hf, Option.bind_some]
      dsimp only
      rw [hins, Option.map_some]
  · exact Or.inr ⟨_, names, L, by dsimp only; rw [hf]; rfl, h.answer_old (k := k) hi⟩

theorem step (h : s.Sound names L) {act : AtomAct κ}
    (hnul : ∀ k call, act = .search k call → 0#8 ∉ call.name) (hs : s.step act = some s') :
    ∃ names' L', s'.Sound names' L' := by
  cases act with
  | search k call =>
    cases hk : s.threads k with
    | missed name =>
      rw [Interning.step, hk] at hs
      cases hs
    | idle =>
      obtain ⟨s₁, hs₁, h₁⟩ := h.search hk (hnul k call rfl)
      rw [hs] at hs₁
      cases hs₁
      exact ⟨names, L, h₁⟩
  | insert k =>
    cases hk : s.threads k with
    | idle =>
      rw [Interning.step, hk] at hs
      cases hs
    | missed name =>
      rcases h.insert hk with ⟨_, hnone⟩ | ⟨s₁, names', L', hs₁, h₁⟩
      · rw [hs] at hnone
        cases hnone
      · rw [hs] at hs₁
        cases hs₁
        exact ⟨names', L', h₁⟩

omit [DecidableEq κ] in
/-- While the numbers fit into 32 bits, different names have different terms. -/
theorem name_eq_iff (h : s.Sound names L) (hlt : names.length < 2 ^ 32)
    {name name' : List Byte} {term term' : Eterm} (hm : (name, term) ∈ s.log)
    (hm' : (name', term') ∈ s.log) : name = name' ↔ term = term' := by
  obtain ⟨i, hi, rfl⟩ := h.returned name term hm
  obtain ⟨j, hj, rfl⟩ := h.returned name' term' hm'
  obtain ⟨hil, hie⟩ := List.getElem?_eq_some_iff.mp hi
  obtain ⟨hjl, hje⟩ := List.getElem?_eq_some_iff.mp hj
  constructor
  · rintro rfl
    rw [(List.Nodup.getElem_inj_iff h.interned.distinct).mp (hie.trans hje.symm)]
  · intro he
    have hidx := congrArg (fun w => (atomIndex w).toNat) he
    simp only [atomIndex_atomEterm, BitVec.toNat_ofNat] at hidx
    have hij : i = j := by omega
    subst hij
    exact Option.some.inj (hi.symm.trans hj)

omit [DecidableEq κ] in
theorem logged_names (h : s.Sound names L) :
    (s.log.map Prod.fst).toFinset = names.toFinset := by
  ext name
  rw [List.mem_toFinset, List.mem_toFinset, List.mem_map]
  constructor
  · rintro ⟨⟨_, term⟩, hm, rfl⟩
    obtain ⟨i, hi, _⟩ := h.returned _ term hm
    exact List.mem_of_getElem? hi
  · intro hm
    obtain ⟨term, ht⟩ := h.logged name hm
    exact ⟨_, ht, rfl⟩

end Interning.Sound

omit [DecidableEq κ] in
theorem sound_start {initialCapacity : Nat} {alloc : Nat → Bool}
    {realloc : Nat → Option (Nat → Option Nat)} (halloc : ∀ n, alloc n = true)
    (hrealloc : ∀ n, (realloc n).isSome = true) (hsize : 8 * initialCapacity < 2 ^ 64)
    {t : AtomTable} (hnew : beamAtomTableCreate initialCapacity alloc realloc = some t) :
    ∃ names L, (Interning.start t : Interning κ).Sound names L := by
  have hinterned := interned_create hsize hnew
  unfold beamAtomTableCreate at hnew
  dsimp only at hnew
  split at hnew
  · cases hnew
    refine ⟨[], fun _ => [], hinterned, ⟨fun n => halloc (n + 3), hrealloc⟩, ?_, ?_, ?_, ?_⟩
    · intro name term hm
      cases hm
    · intro name hm
      cases hm
    · intro name hm
      cases hm
    · intro k name hk
      cases hk
  · cases hnew

/-- **Interning is a stable bijection.**  For any threads and every interleaving of their searches
and insertions of names without NUL, with an allocator that grants everything and blocks whose
sizes do not wrap around, while there are fewer than `2 ^ 32` atoms: every call can go on, equal
names have got equal terms and different names different ones, each term still leads to its name,
and the count is the number of names. -/
theorem interned_of_run (initialCapacity : Nat) (alloc : Nat → Bool)
    (realloc : Nat → Option (Nat → Option Nat)) (halloc : ∀ n, alloc n = true)
    (hrealloc : ∀ n, (realloc n).isSome = true) (hsize : 8 * initialCapacity < 2 ^ 64)
    {t : AtomTable}
    (hnew : beamAtomTableCreate initialCapacity alloc realloc = some t) {acts : List (AtomAct κ)}
    (hnul : ∀ k call, AtomAct.search k call ∈ acts → 0#8 ∉ call.name) {s : Interning κ}
    (hrun : run Interning.step (Interning.start t) acts = some s)
    (hlt : beamAtomTableCount s.table < 2 ^ 32) :
    (∀ k call, s.threads k = .idle → 0#8 ∉ call.name → (s.step (.search k call)).isSome = true) ∧
    (∀ k name, s.threads k = .missed name → (s.step (.insert k)).isSome = true) ∧
    (∀ name term name' term', (name, term) ∈ s.log → (name', term') ∈ s.log →
      (name = name' ↔ term = term')) ∧
    (∀ name term, (name, term) ∈ s.log →
      ∃ buffer, beamAtomLookup s.table term = some (some buffer) ∧ cString buffer = name) ∧
    beamAtomTableCount s.table = (s.log.map Prod.fst).toFinset.card := by
  have hok : Along Interning.step (fun _ a => ∀ k call, a = .search k call → 0#8 ∉ call.name)
      (Interning.start t) acts :=
    Along.of_forall _ fun a ha k call he => hnul k call (he ▸ ha)
  obtain ⟨names, L, h⟩ := run_induct (fun s : Interning κ => ∃ names L, s.Sound names L)
    (fun s a s' ⟨_, _, hi⟩ hu hs => hi.step hu hs) (sound_start halloc hrealloc hsize hnew) hok hrun
  have hcount := h.interned.count
  refine ⟨fun k call hk hn => ?_, fun k name hk => ?_, ?_, ?_, ?_⟩
  · obtain ⟨s', hs, _⟩ := h.search hk hn
    rw [hs]
    rfl
  · obtain ⟨s', _, _, hs, _⟩ := (h.insert hk).resolve_left fun hfull =>
      AtomTable.not_exhausted (lt_trans hlt (by decide)) hfull.1
    rw [hs]
    rfl
  · intro name term name' term' hm hm'
    exact h.name_eq_iff (hcount ▸ hlt) hm hm'
  · intro name term hm
    obtain ⟨i, hi, rfl⟩ := h.returned name term hm
    obtain ⟨hin, _⟩ := List.getElem?_eq_some_iff.mp hi
    refine ⟨_, h.interned.lookup hi ((hcount ▸ hin).trans hlt), cString_terminated ?_⟩
    exact h.nulFree name (List.mem_of_getElem? hi)
  · rw [h.logged_names, List.toFinset_card_of_nodup h.interned.distinct]
    exact hcount

end Runs

/-- Two threads and a table with room for one name: both miss the same name, and a third name
makes the index map grow. -/
def sameName : List (AtomAct (Fin 2)) :=
  [.search 0 (.intern [111#8, 107#8, 0#8]), .search 1 (.internLength [111#8, 107#8]), .insert 1,
    .insert 0, .search 0 (.intern [98#8, 0#8]), .insert 0, .search 1 (.internLength []), .insert 1]

theorem interned_of_run_sameName :
    ∃ t s, beamAtomTableCreate 1 (fun _ => true) (fun _ => some fun _ => none) = some t ∧
      run Interning.step (Interning.start t) sameName = some s ∧
      s.log = [([], atomEterm 2#32), ([98#8], atomEterm 1#32), ([111#8, 107#8], atomEterm 0#32),
        ([111#8, 107#8], atomEterm 0#32)] ∧
      beamAtomTableCount s.table = (s.log.map Prod.fst).toFinset.card := by
  obtain ⟨s, hs, hv⟩ := Option.map_eq_some_iff.mp
    (show (run Interning.step (Interning.start ⟨[], fun _ => none, [none], 1, 0, 1, fun _ => true,
      fun _ => some fun _ => none⟩) sameName).map (fun s => (s.log, s.table.count)) =
        some ([([], atomEterm 2#32), ([98#8], atomEterm 1#32), ([111#8, 107#8], atomEterm 0#32),
          ([111#8, 107#8], atomEterm 0#32)], 3) by decide)
  simp only [Prod.mk.injEq] at hv
  have hnul : ∀ k call, AtomAct.search k call ∈ sameName → 0#8 ∉ call.name := by
    intro k call hm
    simp only [sameName, List.mem_cons, AtomAct.search.injEq, reduceCtorEq, List.not_mem_nil,
      or_false, false_or] at hm
    rcases hm with ⟨_, rfl⟩ | ⟨_, rfl⟩ | ⟨_, rfl⟩ | ⟨_, rfl⟩ <;> decide
  refine ⟨_, s, rfl, hs, hv.1, ?_⟩
  exact (interned_of_run 1 (fun _ => true) (fun _ => some fun _ => none) (fun _ => rfl)
    (fun _ => rfl) (by decide) rfl hnul hs
    (by rw [beamAtomTableCount, hv.2]; decide)).2.2.2.2

end BeamModular
