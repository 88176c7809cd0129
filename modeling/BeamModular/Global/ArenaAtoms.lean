import BeamModular.Global.AtomTable
import BeamModular.Memory.Arena

/-!
# Atoms in an arena

An atom table of `src/global/atom_table.c` over the arena of `src/memory/beam_alloc.c`.  The
buckets, the entries and the names do not care which allocator they come from.  The index map
does: `atom_table_insert` grows it through `realloc` and goes on with what `realloc` returns,
and the arena returns a block that holds whatever the buffer held before.

`Backed` compares the table with the one that a copying `realloc` would have left: the map
`kept` differs from the table's own in nothing but its contents, and not even there until the
first growth.  So `Interned` is used for the table with `kept`, and what a lookup sees is read
off the table's own map.  `atomsSurvive_iff` says which sequences of names can be looked up
whatever the buffer held.
-/

namespace BeamModular

/-! ### The table -/

/-- `sizeof(beam_atom_entry_t)`. -/
abbrev atomEntryBytes : Nat := 32

/-- A table with an arena for its allocator, which answers in place of `alloc` and `realloc` of the
table.  `indexMapPtr` is the offset of the index map in the buffer, and `fresh` what the words of
the buffer held when it was made, read as pointers to entries. -/
structure ArenaTable where
  table : AtomTable
  arena : Arena
  indexMapPtr : Word
  fresh : Nat → Option Nat

/-- `beam_atom_table_create` over an arena; the size of the table itself depends on the lock of the
platform. -/
def beamAtomTableCreateIn (tableBytes initialCapacity : Nat) (a : Arena)
    (fresh : Nat → Option Nat) : Option ArenaTable :=
  let pointers := BitVec.ofNat 64 (8 * atomCapacity initialCapacity)
  (arenaAlloc a (BitVec.ofNat 64 tableBytes)).bind fun (a, _) =>
    (arenaAlloc a pointers).bind fun (a, _) =>
      (arenaAlloc a pointers).bind fun (a, ptr) =>
        (beamAtomTableCreate initialCapacity (fun _ => true) fun _ => none).map fun t =>
          ⟨t, a, ptr, fresh⟩

namespace ArenaTable

/-- What a new block of pointers holds. -/
def freshPointers (s : ArenaTable) (ptr : Word) (n : Nat) : List (Option Nat) :=
  (List.range n).map fun i => s.fresh (ptr.toNat / 8 + i)

/-- The index map in its new block. -/
def moved (s : ArenaTable) (a : Arena) (ptr : Word) (newCap : Nat) : ArenaTable where
  table := { s.table with indexMap := s.freshPointers ptr newCap, indexMapCapacity := newCap }
  arena := a
  indexMapPtr := ptr
  fresh := s.fresh

/-- Twice the room in the index map, where it is full; `none` where the arena refuses. -/
def grow (s : ArenaTable) : Option ArenaTable :=
  let newCap := s.table.indexMapCapacity * 2
  if s.table.count ≥ s.table.indexMapCapacity then
    (arenaRealloc s.arena s.indexMapPtr (BitVec.ofNat 64 (8 * newCap))).map fun (a, ptr) =>
      s.moved a ptr newCap
  else some s

/-- `atom_table_insert`: what the arena has granted is not given back. -/
def insert (s : ArenaTable) (name : List Byte) : Option (ArenaTable × Eterm) :=
  match s.grow with
  | none => some (s, 0#64)
  | some s =>
    match arenaAlloc s.arena (BitVec.ofNat 64 atomEntryBytes) with
    | none => some (s, 0#64)
    | some (a, _) =>
      match arenaAlloc a (BitVec.ofNat 64 (name.length + 1)) with
      | none => some ({ s with arena := a }, 0#64)
      | some (a, _) => (s.table.link name).map fun t =>
        ({ s with table := t, arena := a }, atomEterm (BitVec.ofNat 32 s.table.count))

/-- A search under one of the locks, and what is done where it finds nothing. -/
def searchOr (s : ArenaTable) (name : List Byte) (missed : Option (ArenaTable × Eterm)) :
    Option (ArenaTable × Eterm) :=
  (s.table.findEntry name).bind fun
    | some (_, e) => some (s, atomEterm e.index)
    | none => missed

/-- `beam_atom_intern`. -/
def beamAtomIntern (s : ArenaTable) (str : List Byte) : Option (ArenaTable × Eterm) :=
  let name := cString str
  s.searchOr name (s.searchOr name (s.insert name))

end ArenaTable

/-! ### Calls one after another -/

/-- The table, and the names that calls have returned with their terms. -/
structure ArenaInterning where
  atoms : ArenaTable
  log : List (List Byte × Eterm)

namespace ArenaInterning

/-- A call of `beam_atom_intern`. -/
def call (s : ArenaInterning) (str : List Byte) : Option ArenaInterning :=
  (s.atoms.beamAtomIntern str).map fun r => ⟨r.1, (cString str, r.2) :: s.log⟩

/-- Every term that has been returned leads to its name. -/
def Survives (s : ArenaInterning) : Prop :=
  ∀ name term, (name, term) ∈ s.log →
    ∃ buffer, beamAtomLookup s.atoms.table term = some (some buffer) ∧ cString buffer = name

end ArenaInterning

/-- **Atoms survive**: whatever the buffer held, the table is made, every call returns, and after
each of them every term that has been returned leads to its name. -/
def AtomsSurvive (tableBytes initialCapacity : Nat) (arenaSize : Word) (strs : List (List Byte)) :
    Prop :=
  ∀ fresh, ∃ t, beamAtomTableCreateIn tableBytes initialCapacity
      (beamAllocatorCreateArena arenaSize true) fresh = some t ∧
    ∀ n, ∃ s, run ArenaInterning.call ⟨t, []⟩ (strs.take n) = some s ∧ s.Survives

/-- What a call can take from the arena: an entry, a name, and its share of the index map. -/
def callBytes (str : List Byte) : Nat := 64 + blockBytes ((cString str).length + 1)

/-- An arena that is large enough for the table and the calls. -/
def arenaRoom (tableBytes initialCapacity : Nat) (strs : List (List Byte)) : Nat :=
  blockBytes tableBytes + 16 * atomCapacity initialCapacity + (strs.map callBytes).sum

/-! ### The map that a copy would have kept -/

/-- The table with another index map. -/
def AtomTable.withMap (t : AtomTable) (m : List (Option Nat)) : AtomTable :=
  { t with indexMap := m }

theorem AtomTable.link_withMap {t : AtomTable} {m : List (Option Nat)} (name : List Byte)
    (hlen : t.indexMap.length = m.length) (hroom : t.count < m.length)
    (hslot : t.bucketIdx name < pointerSlots t.bucketCount) :
    ∃ t', t.link name = some t' ∧
      (t.withMap m).link name = some (t'.withMap (m.set t.count (some t.nodes.length))) ∧
      t'.indexMap = t.indexMap.set t.count (some t.nodes.length) ∧
      t'.indexMapCapacity = t.indexMapCapacity ∧ t'.count = t.count + 1 := by
  have hroom' : (t.withMap m).count < (t.withMap m).indexMap.length := hroom
  rw [link, if_pos ⟨hslot, hlen ▸ hroom⟩, link, if_pos ⟨hslot, hroom'⟩]
  exact ⟨_, rfl, rfl, rfl, rfl, rfl⟩

/-- **The invariant**: the table would be right with the map `kept`, and this is its own until the
map grows.  After that, where the buffer held null pointers, the first name has lost its place.
`seen` counts the names, with the one that is being inserted. -/
structure Backed (capacity : Nat) (fresh : Nat → Option Nat) (seen : Nat) (s : ArenaTable)
    (names : List (List Byte)) (L : Nat → List (Nat × AtomEntry)) (kept : List (Option Nat)) :
    Prop where
  interned : Interned (s.table.withMap kept) names L
  length : s.table.indexMap.length = kept.length
  buffer : s.arena.buffer = true
  same : s.table.indexMapCapacity = capacity → s.table.indexMap = kept
  grown : s.table.indexMapCapacity ≠ capacity → capacity < seen
  lost : s.table.indexMapCapacity ≠ capacity → (∀ i, fresh i = none) →
    s.table.indexMap[0]? = some none
  positive : 0 < capacity
  unread : s.fresh = fresh

/-- The arena has room for the calls that are left.  The index map has taken 16 bytes for each place
it has more than at first, and a full map has been paid for by the names it holds. -/
structure Paid (capacity : Nat) (s : ArenaTable) (strs : List (List Byte)) : Prop where
  room : s.arena.offset.toNat + (strs.map callBytes).sum + 32 * s.table.count + 16 * capacity ≤
    s.arena.capacity.toNat + 16 * s.table.indexMapCapacity
  growth : s.table.indexMapCapacity ≤ capacity + 2 * s.table.count

section Calls

variable {capacity : Nat} {fresh : Nat → Option Nat} {s : ArenaTable} {names : List (List Byte)}
  {L : Nat → List (Nat × AtomEntry)} {kept : List (Option Nat)} {name str : List Byte}
  {strs : List (List Byte)}

theorem Paid.entry (h : Paid capacity s (str :: strs)) (hb : s.arena.buffer = true) :
    ∃ a₁ a₂ ptr₁ ptr₂, arenaAlloc s.arena (BitVec.ofNat 64 atomEntryBytes) = some (a₁, ptr₁) ∧
      arenaAlloc a₁ (BitVec.ofNat 64 ((cString str).length + 1)) = some (a₂, ptr₂) ∧
      a₂.buffer = true ∧ ∀ t', t'.count = s.table.count + 1 →
        t'.indexMapCapacity = s.table.indexMapCapacity →
          Paid capacity { s with table := t', arena := a₂ } strs := by
  obtain ⟨hroom, hgrowth⟩ := h
  have hentry : blockBytes atomEntryBytes = 32 := rfl
  rw [List.map_cons, List.sum_cons, callBytes] at hroom
  obtain ⟨a₁, h₁, hb₁, hc₁, ho₁⟩ := arenaAlloc_granted (n := atomEntryBytes) hb (by omega)
  obtain ⟨a₂, h₂, hb₂, hc₂, ho₂⟩ := arenaAlloc_granted (n := (cString str).length + 1) hb₁
    (by rw [hc₁]; omega)
  refine ⟨a₁, a₂, _, _, h₁, h₂, hb₂, fun t' hcount hcap => ⟨?_, ?_⟩⟩
  · dsimp only
    rw [ho₂, hc₂, hc₁, hcount, hcap]
    omega
  · dsimp only
    omega

/-- The block after growth is one in which a copy would have been right. -/
theorem Backed.moved (h : Backed capacity fresh names.length s names L kept)
    (hfull : s.table.count ≥ s.table.indexMapCapacity) {a : Arena} (hb : a.buffer = true)
    (ptr : Word) :
    Backed capacity fresh (names.length + 1) (s.moved a ptr (s.table.indexMapCapacity * 2)) names L
      (kept ++ List.replicate kept.length none) := by
  have hcount : s.table.count = names.length := h.interned.count
  have hcap : s.table.indexMapCapacity = kept.length := h.interned.capacity
  have hpos : 0 < s.table.indexMapCapacity := h.interned.room.2
  have hle : s.table.count ≤ s.table.indexMapCapacity := h.interned.room.1
  have hseen : capacity < names.length + 1 := by
    by_cases he : s.table.indexMapCapacity = capacity
    · omega
    · exact Nat.lt_succ_of_lt (h.grown he)
  have hlen : (s.freshPointers ptr (s.table.indexMapCapacity * 2)).length
      = s.table.indexMapCapacity * 2 := by
    rw [ArenaTable.freshPointers, List.length_map, List.length_range]
  refine ⟨⟨h.interned.bucketed, h.interned.entries, fun i name hi => ?_, h.interned.distinct,
    hcount, ?_, ?_, h.interned.slots⟩, ?_, hb, fun he => ?_, fun _ => hseen, fun _ hnull => ?_,
    h.positive, h.unread⟩
  · obtain ⟨node, hn, hx⟩ := h.interned.mapped i name hi
    obtain ⟨hlt, _⟩ := List.getElem?_eq_some_iff.mp hn
    exact ⟨node, (List.getElem?_append_left hlt).trans hn, hx⟩
  · show s.table.indexMapCapacity * 2 = (kept ++ List.replicate kept.length none).length
    rw [List.length_append, List.length_replicate]
    omega
  · show s.table.count ≤ s.table.indexMapCapacity * 2 ∧ 0 < s.table.indexMapCapacity * 2
    omega
  · show (s.freshPointers ptr (s.table.indexMapCapacity * 2)).length = _
    rw [hlen, List.length_append, List.length_replicate]
    omega
  · exact absurd (show s.table.indexMapCapacity * 2 = capacity from he) (by omega)
  · show (s.freshPointers ptr (s.table.indexMapCapacity * 2))[0]? = some none
    rw [ArenaTable.freshPointers, List.getElem?_map, List.getElem?_range (by omega),
      Option.map_some]
    exact congrArg some (h.unread ▸ hnull _)

theorem Backed.grow (h : Backed capacity fresh names.length s names L kept)
    (hp : Paid capacity s (str :: strs)) :
    ∃ s' kept', s.grow = some s' ∧ Backed capacity fresh (names.length + 1) s' names L kept' ∧
      Paid capacity s' (str :: strs) ∧ s'.table.count < kept'.length := by
  have hcap : s.table.indexMapCapacity = kept.length := h.interned.capacity
  have hpos : 0 < s.table.indexMapCapacity := h.interned.room.2
  have hle : s.table.count ≤ s.table.indexMapCapacity := h.interned.room.1
  by_cases hfull : s.table.count ≥ s.table.indexMapCapacity
  · have hbytes : blockBytes (8 * (s.table.indexMapCapacity * 2))
        = 16 * s.table.indexMapCapacity := by
      unfold blockBytes
      omega
    obtain ⟨hroom, hgrowth⟩ := hp
    obtain ⟨a, ha, hb, hc, ho⟩ := arenaAlloc_granted (n := 8 * (s.table.indexMapCapacity * 2))
      h.buffer (by omega)
    refine ⟨_, _, ?_, h.moved hfull hb s.arena.offset, ⟨?_, ?_⟩, ?_⟩
    · rw [ArenaTable.grow, if_pos hfull, arenaRealloc, ha, Option.map_some]
    · show a.offset.toNat + ((str :: strs).map callBytes).sum + 32 * s.table.count + 16 * capacity ≤
        a.capacity.toNat + 16 * (s.table.indexMapCapacity * 2)
      rw [ho, hc]
      omega
    · show s.table.indexMapCapacity * 2 ≤ capacity + 2 * s.table.count
      omega
    · show s.table.count < (kept ++ List.replicate kept.length none).length
      rw [List.length_append, List.length_replicate]
      omega
  · exact ⟨s, kept, by rw [ArenaTable.grow, if_neg hfull], ⟨h.interned, h.length, h.buffer, h.same,
      fun hne => Nat.lt_succ_of_lt (h.grown hne), h.lost, h.positive, h.unread⟩, hp, by omega⟩

theorem Backed.insert (h : Backed capacity fresh names.length s names L kept)
    (hp : Paid capacity s (str :: strs)) (hnew : cString str ∉ names) :
    ∃ s' L' kept', s.insert (cString str)
        = some (s', atomEterm (BitVec.ofNat 32 names.length)) ∧
      Backed capacity fresh (names ++ [cString str]).length s' (names ++ [cString str]) L' kept' ∧
      Paid capacity s' strs := by
  obtain ⟨s₁, kept₁, hgrow, h₁, hp₁, hroom⟩ := h.grow hp
  obtain ⟨a₁, a₂, _, _, hentry, hname, hb₂, hp₂⟩ := hp₁.entry h₁.buffer
  obtain ⟨t', hlink, hlink', hmap, hcap, hcount⟩ :=
    AtomTable.link_withMap (cString str) h₁.length hroom (h₁.interned.slots _)
  obtain ⟨t₂, L', ht₂, hint, _, _⟩ := h₁.interned.link hnew (show _ < _ from hroom)
  rw [hlink'] at ht₂
  cases ht₂
  have hnames : s₁.table.count = names.length := h₁.interned.count
  refine ⟨{ s₁ with table := t', arena := a₂ }, L', _, ?_, ⟨hint, ?_, hb₂, fun he => ?_,
    fun he => ?_, fun he hnull => ?_, h.positive, h₁.unread⟩, hp₂ t' hcount hcap⟩
  · rw [ArenaTable.insert, hgrow]
    dsimp only
    rw [hentry]
    dsimp only
    rw [hname]
    dsimp only
    rw [hlink, Option.map_some, hnames]
  · dsimp only
    rw [hmap, List.length_set, List.length_set, h₁.length]
  · dsimp only at he ⊢
    rw [hmap, h₁.same (hcap ▸ he)]
  · rw [List.length_append, List.length_singleton]
    exact h₁.grown (hcap ▸ he)
  · dsimp only at he ⊢
    have hpast := h₁.grown (hcap ▸ he)
    have hpos := h.positive
    rw [hmap, List.getElem?_set_ne (by omega), h₁.lost (hcap ▸ he) hnull]

/-- **The invariant of the calls**: what has been returned is the number of a name, and every name
has been returned. -/
structure ArenaSound (capacity : Nat) (fresh : Nat → Option Nat) (s : ArenaInterning)
    (names : List (List Byte)) (L : Nat → List (Nat × AtomEntry)) (kept : List (Option Nat)) :
    Prop where
  backed : Backed capacity fresh names.length s.atoms names L kept
  returned : ∀ name term, (name, term) ∈ s.log →
    ∃ i : Nat, names[i]? = some name ∧ term = atomEterm (BitVec.ofNat 32 i)
  logged : ∀ (i : Nat) name, names[i]? = some name →
    (name, atomEterm (BitVec.ofNat 32 i)) ∈ s.log
  nulFree : ∀ name ∈ names, 0#8 ∉ name

theorem Paid.skip (h : Paid capacity s (str :: strs)) : Paid capacity s strs := by
  obtain ⟨hroom, hgrowth⟩ := h
  rw [List.map_cons, List.sum_cons] at hroom
  exact ⟨by omega, hgrowth⟩

theorem Paid.take (h : Paid capacity s strs) (n : Nat) : Paid capacity s (strs.take n) := by
  have hsum : ((strs.take n).map callBytes).sum + ((strs.drop n).map callBytes).sum
      = (strs.map callBytes).sum := by
    rw [← List.sum_append, ← List.map_append, List.take_append_drop]
  have := h.room
  exact ⟨by omega, h.growth⟩

/-- **A call** returns the number of a name that is there, or gives it the next number. -/
theorem ArenaSound.call {s : ArenaInterning} (h : ArenaSound capacity fresh s names L kept)
    (hp : Paid capacity s.atoms (str :: strs)) :
    ∃ s' names' L' kept', s.call str = some s' ∧ ArenaSound capacity fresh s' names' L' kept' ∧
      Paid capacity s'.atoms strs := by
  have hfind := h.backed.interned.findEntry (cString str)
  change (_ ∧ s.atoms.table.findEntry (cString str) = _) ∨
    (∃ i node, _ ∧ s.atoms.table.findEntry (cString str) = _) at hfind
  rcases hfind with ⟨hnew, hf⟩ | ⟨i, node, hi, hf⟩
  · obtain ⟨t, L', kept', hins, hb, hp'⟩ := h.backed.insert hp hnew
    refine ⟨⟨t, (cString str, atomEterm (BitVec.ofNat 32 names.length)) :: s.log⟩, _, L', kept', ?_,
      ⟨hb, fun name term hm => ?_, fun i name hi => ?_, fun name hm => ?_⟩, hp'⟩
    · simp only [ArenaInterning.call, ArenaTable.beamAtomIntern, ArenaTable.searchOr, hf,
        Option.bind_some, hins, Option.map_some]
    · rcases List.mem_cons.mp hm with he | hm
      · cases he
        exact ⟨names.length, getElem?_snoc_iff.mpr (Or.inr ⟨rfl, rfl⟩), rfl⟩
      · obtain ⟨i, hi, he⟩ := h.returned name term hm
        exact ⟨i, getElem?_snoc_iff.mpr (Or.inl hi), he⟩
    · rcases getElem?_snoc_iff.mp hi with hi | ⟨rfl, rfl⟩
      · exact List.mem_cons_of_mem _ (h.logged i name hi)
      · exact List.mem_cons_self
    · rcases List.mem_append.mp hm with hm | hm
      · exact h.nulFree name hm
      · rw [List.mem_singleton.mp hm]
        exact zero_notMem_cString str
  · refine ⟨⟨s.atoms, (cString str, atomEterm (BitVec.ofNat 32 i)) :: s.log⟩, names, L, kept, ?_,
      ⟨h.backed, fun name term hm => ?_,
        fun j name hj => List.mem_cons_of_mem _ (h.logged j name hj), h.nulFree⟩, hp.skip⟩
    · simp only [ArenaInterning.call, ArenaTable.beamAtomIntern, ArenaTable.searchOr, hf,
        Option.bind_some, Option.map_some]
      rfl
    · rcases List.mem_cons.mp hm with he | hm
      · cases he
        exact ⟨i, hi, rfl⟩
      · exact h.returned name term hm

theorem ArenaSound.run : ∀ {strs : List (List Byte)} {s : ArenaInterning} {names : List (List Byte)}
    {L : Nat → List (Nat × AtomEntry)} {kept : List (Option Nat)},
    ArenaSound capacity fresh s names L kept → Paid capacity s.atoms strs →
      ∃ s' names' L' kept', run ArenaInterning.call s strs = some s' ∧
        ArenaSound capacity fresh s' names' L' kept' := by
  intro strs
  induction strs with
  | nil => intro s names L kept h _; exact ⟨s, names, L, kept, rfl, h⟩
  | cons str strs ih =>
    intro s names L kept h hp
    obtain ⟨s₁, names₁, L₁, kept₁, hs, h₁, hp₁⟩ := h.call hp
    obtain ⟨s', names', L', kept', hrun, h'⟩ := ih h₁ hp₁
    exact ⟨s', names', L', kept', by rw [BeamModular.run, hs, Option.bind_some, hrun], h'⟩

theorem log_of_run : ∀ {strs : List (List Byte)} {s s' : ArenaInterning},
    BeamModular.run ArenaInterning.call s strs = some s' →
      s'.log.map Prod.fst = (strs.map cString).reverse ++ s.log.map Prod.fst := by
  intro strs
  induction strs with
  | nil => intro s s' h; cases h; rfl
  | cons str strs ih =>
    intro s s' h
    obtain ⟨s₁, hs, hrest⟩ := run_cons_eq_some h
    obtain ⟨r, _, rfl⟩ := Option.map_eq_some_iff.mp hs
    rw [ih hrest]
    simp only [List.map_cons, List.reverse_cons, List.append_assoc, List.singleton_append]

/-! ### Which names survive -/

namespace ArenaSound

variable {s : ArenaInterning}

theorem length_names (h : ArenaSound capacity fresh s names L kept)
    (hlog : s.log.map Prod.fst = (strs.map cString).reverse) :
    names.length = (strs.map cString).toFinset.card := by
  have hset : names.toFinset = (strs.map cString).toFinset := by
    ext name
    rw [List.mem_toFinset, List.mem_toFinset, ← @List.mem_reverse _ _ (strs.map cString), ← hlog,
      List.mem_map]
    constructor
    · intro hm
      obtain ⟨i, hi⟩ := List.getElem?_of_mem hm
      exact ⟨_, h.logged i name hi, rfl⟩
    · rintro ⟨⟨_, term⟩, hm, rfl⟩
      obtain ⟨i, hi, _⟩ := h.returned _ term hm
      exact List.mem_of_getElem? hi
  rw [← hset, List.toFinset_card_of_nodup h.backed.interned.distinct]

/-- **While the map has not grown**, every term leads to its name. -/
theorem survives (h : ArenaSound capacity fresh s names L kept) (hcap : names.length ≤ capacity)
    (hindex : names.length ≤ 2 ^ 32) : s.Survives := by
  have hsame : s.atoms.table.indexMapCapacity = capacity := by
    by_contra hne
    exact absurd (h.backed.grown hne) (by omega)
  have hint := h.backed.interned
  rw [← h.backed.same hsame] at hint
  intro name term hm
  obtain ⟨i, hi, rfl⟩ := h.returned name term hm
  have hin := (List.getElem?_eq_some_iff.mp hi).1
  exact ⟨_, hint.lookup hi (by omega),
    cString_terminated (h.nulFree name (List.mem_of_getElem? hi))⟩

/-- **After the map has grown** over null pointers, the first name is lost; and past `2 ^ 32` names
a term has two. -/
theorem few_of_survives (h : ArenaSound capacity (fun _ => none) s names L kept)
    (hs : s.Survives) : names.length ≤ min capacity (2 ^ 32) := by
  by_contra hmany
  have hcount : s.atoms.table.count = names.length := h.backed.interned.count
  have hroom : s.atoms.table.count ≤ s.atoms.table.indexMapCapacity := h.backed.interned.room.1
  have hpos := h.backed.positive
  have hsome : 0 < names.length := by omega
  have hzero := h.logged 0 names[0] (List.getElem?_eq_getElem hsome)
  obtain ⟨buffer, hlook, hname⟩ := hs _ _ hzero
  by_cases hcap : names.length ≤ capacity
  · have hbig : 2 ^ 32 < names.length := by omega
    have hwrap := h.logged (2 ^ 32) names[2 ^ 32] (List.getElem?_eq_getElem hbig)
    rw [show BitVec.ofNat 32 (2 ^ 32) = BitVec.ofNat 32 0 from rfl] at hwrap
    obtain ⟨buffer', hlook', hname'⟩ := hs _ _ hwrap
    rw [hlook, Option.some_inj, Option.some_inj] at hlook'
    rw [← hlook', hname] at hname'
    exact absurd ((List.Nodup.getElem_inj_iff h.backed.interned.distinct).mp hname') (by omega)
  · have hlost := h.backed.lost (by omega) fun _ => rfl
    have hidx : (atomIndex (atomEterm (BitVec.ofNat 32 0))).toNat = 0 := by
      rw [atomIndex_atomEterm]
      rfl
    rw [beamAtomLookup, if_neg (by rw [atomEterm_tag]; simp), hidx, if_neg (by omega),
      hlost] at hlook
    cases hlook

end ArenaSound

theorem arenaSound_create {tableBytes initialCapacity : Nat} {arenaSize : Word}
    (hlarge : arenaRoom tableBytes initialCapacity strs ≤ arenaSize.toNat)
    (fresh : Nat → Option Nat) :
    ∃ t, beamAtomTableCreateIn tableBytes initialCapacity
        (beamAllocatorCreateArena arenaSize true) fresh = some t ∧
      ArenaSound (atomCapacity initialCapacity) fresh ⟨t, []⟩ [] (fun _ => [])
        (List.replicate (atomCapacity initialCapacity) none) ∧
      Paid (atomCapacity initialCapacity) t strs := by
  have hsize : 8 * initialCapacity < 2 ^ 64 := by
    have hfits := arenaSize.isLt
    unfold arenaRoom atomCapacity at hlarge
    split at hlarge <;> omega
  have hnew : beamAtomTableCreate initialCapacity (fun _ => true) (fun _ => none) =
      some ⟨[], fun _ => none, List.replicate (atomCapacity initialCapacity) none,
        atomCapacity initialCapacity, 0, atomCapacity initialCapacity, fun _ => true,
        fun _ => none⟩ := by
    unfold beamAtomTableCreate
    dsimp only
    rw [pointerSlots_atomCapacity hsize]
    rfl
  have hinterned := interned_create hsize hnew
  have hpos := atomCapacity_pos initialCapacity
  unfold arenaRoom at hlarge
  have hptr : blockBytes (8 * atomCapacity initialCapacity) = 8 * atomCapacity initialCapacity := by
    unfold blockBytes
    omega
  have hcap : (beamAllocatorCreateArena arenaSize true).capacity = arenaSize := rfl
  have hoff : (beamAllocatorCreateArena arenaSize true).offset.toNat = 0 := rfl
  obtain ⟨a₁, h₁, _, hc₁, ho₁⟩ := arenaAlloc_granted (n := tableBytes)
    (show (beamAllocatorCreateArena arenaSize true).buffer = true from rfl) (by rw [hcap]; omega)
  obtain ⟨a₂, h₂, _, hc₂, ho₂⟩ := arenaAlloc_granted (n := 8 * atomCapacity initialCapacity) ‹_›
    (by rw [hc₁, hcap]; omega)
  obtain ⟨a₃, h₃, hb₃, hc₃, ho₃⟩ := arenaAlloc_granted (n := 8 * atomCapacity initialCapacity) ‹_›
    (by rw [hc₂, hc₁, hcap]; omega)
  have hcreate : beamAtomTableCreateIn tableBytes initialCapacity
      (beamAllocatorCreateArena arenaSize true) fresh =
        some ⟨⟨[], fun _ => none, List.replicate (atomCapacity initialCapacity) none,
          atomCapacity initialCapacity, 0, atomCapacity initialCapacity, fun _ => true,
          fun _ => none⟩, a₃, a₂.offset, fresh⟩ := by
    rw [beamAtomTableCreateIn, h₁, Option.bind_some]
    dsimp only
    rw [h₂, Option.bind_some]
    dsimp only
    rw [h₃, Option.bind_some, hnew]
    rfl
  refine ⟨_, hcreate, ⟨⟨hinterned, rfl, hb₃, fun _ => rfl, fun hne => absurd rfl hne,
    fun hne => absurd rfl hne, hpos, rfl⟩, fun name term hm => ?_, fun i name hi => ?_,
    fun name hm => ?_⟩, ⟨?_, ?_⟩⟩
  · cases hm
  · simp at hi
  · cases hm
  · dsimp only
    rw [hc₃, hc₂, hc₁, hcap]
    omega
  · exact Nat.le_add_right _ _

end Calls

/-- **Atoms survive in an arena** exactly when the names fit into the first index map. -/
theorem atomsSurvive_iff {tableBytes initialCapacity : Nat} {arenaSize : Word}
    {strs : List (List Byte)}
    (hlarge : arenaRoom tableBytes initialCapacity strs ≤ arenaSize.toNat) :
    AtomsSurvive tableBytes initialCapacity arenaSize strs ↔
      (strs.map cString).toFinset.card ≤ min (atomCapacity initialCapacity) (2 ^ 32) := by
  constructor
  · intro hall
    obtain ⟨t, ht, hs⟩ := hall fun _ => none
    obtain ⟨s, hrun, hsurvives⟩ := hs strs.length
    obtain ⟨t', ht', hsound, hpaid⟩ := arenaSound_create hlarge fun _ => none
    rw [ht] at ht'
    cases ht'
    rw [List.take_length] at hrun
    obtain ⟨s', names, L, kept, hrun', h⟩ := hsound.run hpaid
    rw [hrun] at hrun'
    cases hrun'
    rw [← h.length_names (by rw [log_of_run hrun]; exact List.append_nil _)]
    exact h.few_of_survives hsurvives
  · intro hfew fresh
    obtain ⟨t, ht, hsound, hpaid⟩ := arenaSound_create hlarge fresh
    refine ⟨t, ht, fun n => ?_⟩
    obtain ⟨s, names, L, kept, hrun, h⟩ := hsound.run (hpaid.take n)
    have hlen := h.length_names (by rw [log_of_run hrun]; exact List.append_nil _)
    have hsub : ((strs.take n).map cString).toFinset ⊆ (strs.map cString).toFinset := fun name hm =>
      List.mem_toFinset.mpr (((List.take_sublist n strs).map cString).subset
        (List.mem_toFinset.mp hm))
    have hle := (hlen ▸ Finset.card_le_card hsub).trans hfew
    exact ⟨s, hrun, h.survives (by omega) (by omega)⟩

/-- Room for one name, and the second one makes the index map grow over null pointers: the first
is looked up in vain. -/
theorem twoNames_not_atomsSurvive : ¬ AtomsSurvive 128 1 1024#64 [[97#8, 0#8], [98#8, 0#8]] := by
  intro h
  obtain ⟨t, ht, hs⟩ := h fun _ => none
  obtain ⟨s, hrun, hsurvives⟩ := hs 2
  have hlook : ((beamAtomTableCreateIn 128 1 (beamAllocatorCreateArena 1024#64 true)
      fun _ => none).bind fun t => (run ArenaInterning.call ⟨t, []⟩ [[97#8, 0#8], [98#8, 0#8]]).map
        fun s => (s.log, beamAtomLookup s.atoms.table (atomEterm 0#32))) =
      some ([([98#8], atomEterm 1#32), ([97#8], atomEterm 0#32)], some none) := by decide +kernel
  rw [ht, Option.bind_some] at hlook
  obtain ⟨s', hrun', hv⟩ := Option.map_eq_some_iff.mp hlook
  rw [show [[97#8, 0#8], [98#8, 0#8]].take 2 = [[97#8, 0#8], [98#8, 0#8]] from rfl, hrun'] at hrun
  cases hrun
  simp only [Prod.mk.injEq] at hv
  obtain ⟨buffer, hbuffer, _⟩ := hsurvives [97#8] (atomEterm 0#32) (by rw [hv.1]; simp)
  rw [hv.2] at hbuffer
  cases hbuffer

theorem atomsSurvive_twoNames :
    AtomsSurvive 128 2 1024#64 [[97#8, 0#8], [98#8, 0#8], [97#8, 0#8]] :=
  (atomsSurvive_iff (by decide)).mpr (by decide)

end BeamModular
