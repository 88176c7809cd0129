import BeamModular.Lib.Blocks
import BeamModular.Emulator.Chunks

/-!
# What the loader owes to its allocator

`beam_file_parse` and `beam_file_destroy` once more, with the blocks they ask for and
give back: the file itself, the table of its atoms, a block for each name.  The file
that is parsed is the one of `Emulator.Load` (`beam_beamFileParseIn`).

The loader forgets what it holds in two places.  With too many atoms it returns without
the file, and at a second atom chunk it overwrites the table of the first.  `Tidy` says
of the atom chunks of a file, and of the answers of the allocator, that neither happens;
`released_iff` says that then, and only then, everything is given back.
-/

namespace BeamModular

/-! ### The loader with its blocks -/

/-- A name with the block it is copied into, or null. -/
abbrev NameBlock := Option (Nat × List Byte)

/-- A `beam_file_t` with its block, the block of its atom table and those of the names. -/
structure LoadedFile where
  beam : BeamFile
  block : Nat
  table : Option (Nat × List NameBlock)

/-- The loop over the atoms: a block for each name. -/
def readAtomsIn (buffer : Nat → Byte) (isAtu8 : Bool) : Nat → Nat → Blocks →
    List NameBlock × Blocks
  | 0, _, h => ([], h)
  | n + 1, pos, h =>
    let len := atomLen buffer isAtu8 pos
    let start := pos + lenBytes isAtu8
    let r := h.alloc
    let rest := readAtomsIn buffer isAtu8 n (start + len) r.1
    (r.2.map (fun b => (b, bytesAt buffer start len)) :: rest.1, rest.2)

/-- The names that are in a table. -/
def contents (names : List NameBlock) : List (Option (List Byte)) := names.map (Option.map Prod.snd)

/-- What the loader does with the chunks of the walk.  The old table is overwritten at an atom
chunk, and a chunk with too many atoms ends the loading. -/
def loadChunksIn (buffer : Nat → Byte) : List Nat → LoadedFile → Blocks →
    Option LoadedFile × Blocks
  | [], f, h => (some f, h)
  | pos :: walk, f, h =>
    match kindAt buffer pos with
    | .atoms isAtu8 =>
      let count := (atomCount buffer (pos + 8)).toNat
      if count > maxAtoms then (none, h)
      else
        match h.alloc with
        | (h, none) =>
          loadChunksIn buffer walk { f with beam := f.beam.setAtoms count none, table := none } h
        | (h, some table) =>
          let r := readAtomsIn buffer isAtu8 count (pos + 12) h
          loadChunksIn buffer walk
            { f with beam := f.beam.setAtoms count (some (contents r.1))
                     table := some (table, r.1) } r.2
    | kind =>
      loadChunksIn buffer walk { f with beam := f.beam.setChunk kind (pos + 8) (lenAt buffer pos) } h

/-- `beam_file_parse`, with its blocks. -/
def beamFileParseIn (buffer : Nat → Byte) (size : Nat) (h : Blocks) : Option LoadedFile × Blocks :=
  if size < 12 ∨ isFor1 buffer = false ∨ isBeam buffer = false then (none, h)
  else
    match h.alloc with
    | (h, none) => (none, h)
    | (h, some block) =>
      loadChunksIn buffer (completeChunks buffer size size 12) ⟨.zero, block, none⟩ h

/-- `beam_file_destroy`: the names, their table and the file. -/
def beamFileDestroy (f : LoadedFile) (h : Blocks) : Option Blocks :=
  (match f.table with
    | none => some h
    | some (table, names) =>
      (Blocks.freeAll ((names.take f.beam.atomCount).filterMap (Option.map Prod.fst)) h).bind
        fun h => h.free table).bind fun h => h.free f.block

/-- The live blocks are those from before, after `NULL` at once and after a file when
`beam_file_destroy` has released it. -/
def Balanced (base : Finset Nat) : Option LoadedFile × Blocks → Prop
  | (none, h) => h.live = base
  | (some f, h) => ∃ h', beamFileDestroy f h = some h' ∧ h'.live = base

/-- **Everything is given back.** -/
def Released (buffer : Nat → Byte) (size : Nat) (h : Blocks) : Prop :=
  Balanced h.live (beamFileParseIn buffer size h)

/-- The numbers of atoms of the atom chunks of a walk. -/
def atomCounts (buffer : Nat → Byte) (walk : List Nat) : List Nat :=
  walk.filterMap fun pos =>
    match kindAt buffer pos with
    | .atoms _ => some (atomCount buffer (pos + 8)).toNat
    | _ => none

/-- **Nothing is forgotten**: no chunk has too many atoms, and no atom chunk follows one whose table
was granted. -/
def Tidy : List Nat → (Nat → Bool) → Prop
  | [], _ => True
  | count :: counts, grant =>
    count ≤ maxAtoms ∧ if grant 0 then counts = [] else Tidy counts fun k => grant (k + 1)

/-! ### The same file -/

section

variable {buffer : Nat → Byte} {isAtu8 : Bool}

/-- The names are those of `readAtoms`, and one request is made for each. -/
theorem readAtomsIn_eq : ∀ (n pos : Nat) (h : Blocks),
    contents (readAtomsIn buffer isAtu8 n pos h).1 = (readAtoms buffer isAtu8 n pos h.grant).1 ∧
      (readAtomsIn buffer isAtu8 n pos h).2.grant = fun k => h.grant (k + n) := by
  intro n
  induction n with
  | zero => intro pos h; exact ⟨rfl, rfl⟩
  | succ n ih =>
    intro pos h
    rw [readAtomsIn, readAtoms]
    dsimp only
    cases hg : h.grant 0 with
    | false =>
      obtain ⟨hnames, hgrant⟩ := ih
        (pos + lenBytes isAtu8 + atomLen buffer isAtu8 pos) h.refuse
      rw [Blocks.alloc_refused hg, if_neg (by decide)]
      refine ⟨congrArg (none :: ·) hnames, hgrant.trans ?_⟩
      funext k
      exact congrArg h.grant (by omega)
    | true =>
      obtain ⟨hnames, hgrant⟩ := ih
        (pos + lenBytes isAtu8 + atomLen buffer isAtu8 pos) h.give
      rw [Blocks.alloc_granted hg, if_pos rfl]
      refine ⟨congrArg (some (bytesAt buffer (pos + lenBytes isAtu8) _) :: ·) hnames,
        hgrant.trans ?_⟩
      funext k
      exact congrArg h.grant (by omega)

section Rounds

variable {pos : Nat} (walk : List Nat) (f : LoadedFile) {h : Blocks}

theorem loadChunksIn_plain (hkind : ∀ isAtu8, kindAt buffer pos ≠ .atoms isAtu8) :
    loadChunksIn buffer (pos :: walk) f h = loadChunksIn buffer walk
      { f with beam := f.beam.setChunk (kindAt buffer pos) (pos + 8) (lenAt buffer pos) } h := by
  rw [loadChunksIn]
  split
  · rename_i isAtu8 he
    exact absurd he (hkind isAtu8)
  · rfl

variable (hkind : kindAt buffer pos = .atoms isAtu8)
include hkind

theorem loadChunksIn_tooMany (hmany : maxAtoms < (atomCount buffer (pos + 8)).toNat) :
    loadChunksIn buffer (pos :: walk) f h = (none, h) := by
  rw [loadChunksIn, hkind]
  exact if_pos hmany

theorem loadChunksIn_refused (hfew : (atomCount buffer (pos + 8)).toNat ≤ maxAtoms)
    (hrefuse : h.grant 0 = false) :
    loadChunksIn buffer (pos :: walk) f h = loadChunksIn buffer walk
      { f with beam := f.beam.setAtoms (atomCount buffer (pos + 8)).toNat none, table := none }
      h.refuse := by
  rw [loadChunksIn, hkind, Blocks.alloc_refused hrefuse]
  exact if_neg (Nat.not_lt.mpr hfew)

theorem loadChunksIn_granted (hfew : (atomCount buffer (pos + 8)).toNat ≤ maxAtoms)
    (hgrant : h.grant 0 = true) :
    let r := readAtomsIn buffer isAtu8 (atomCount buffer (pos + 8)).toNat (pos + 12) h.give
    loadChunksIn buffer (pos :: walk) f h = loadChunksIn buffer walk
      { f with beam := f.beam.setAtoms (atomCount buffer (pos + 8)).toNat (some (contents r.1))
               table := some (h.next, r.1) } r.2 := by
  rw [loadChunksIn, hkind, Blocks.alloc_granted hgrant]
  exact if_neg (Nat.not_lt.mpr hfew)

end Rounds

theorem beam_loadChunksIn : ∀ (walk : List Nat) (f : LoadedFile) (h : Blocks),
    (loadChunksIn buffer walk f h).1.map LoadedFile.beam =
      loadChunks buffer walk f.beam h.grant := by
  intro walk
  induction walk with
  | nil => intro f h; rfl
  | cons pos walk ih =>
    intro f h
    rcases atoms_or_plain (kindAt buffer pos) with ⟨isAtu8, hkind⟩ | hkind
    swap
    · rw [loadChunksIn_plain _ _ hkind, loadChunks_plain _ _ hkind]
      exact ih _ _
    by_cases hmany : maxAtoms < (atomCount buffer (pos + 8)).toNat
    · rw [loadChunksIn_tooMany _ _ hkind hmany, loadChunks_tooMany _ _ hkind hmany]
      rfl
    have hfew := Nat.not_lt.mp hmany
    cases hg : h.grant 0 with
    | false =>
      rw [loadChunksIn_refused _ _ hkind hfew hg, loadChunks_refused _ _ hkind hfew hg]
      exact ih _ _
    | true =>
      obtain ⟨hnames, hgrant⟩ :=
        @readAtomsIn_eq buffer isAtu8 (atomCount buffer (pos + 8)).toNat (pos + 12) h.give
      rw [loadChunksIn_granted _ _ hkind hfew hg, loadChunks_granted _ _ hkind hfew hg, ih, hnames,
        hgrant]
      congr 1
      funext k
      exact congrArg h.grant (by omega)

theorem beam_beamFileParseIn (buffer : Nat → Byte) (size : Nat) (h : Blocks) :
    (beamFileParseIn buffer size h).1.map LoadedFile.beam =
      (beamFileParse buffer size h.grant).file := by
  unfold beamFileParseIn beamFileParse
  by_cases hsize : size < 12
  · rw [if_pos (Or.inl hsize), if_pos hsize]
    rfl
  cases hfor : isFor1 buffer with
  | false => rw [if_pos (by simp), if_neg hsize]; rfl
  | true =>
    cases hbeam : isBeam buffer with
    | false => rw [if_pos (by simp), if_neg hsize]; rfl
    | true =>
      rw [if_neg (by simp [hsize]), if_neg hsize]
      cases hg : h.grant 0 with
      | false => rw [Blocks.alloc_refused hg]; rfl
      | true =>
        rw [Blocks.alloc_granted hg]
        exact (beam_loadChunksIn _ _ _).trans (chunkLoop_eq_loadChunks _ _ _ _).symm

end

/-! ### What a file holds -/

/-- The blocks of the names in a table. -/
def nameBlocks (names : List NameBlock) : List Nat := names.filterMap (Option.map Prod.fst)

/-- The blocks that a file holds. -/
def LoadedFile.blocks (f : LoadedFile) : List Nat :=
  match f.table with
  | none => [f.block]
  | some (table, names) => nameBlocks names ++ [table] ++ [f.block]

/-- The table has as many places as the file has atoms. -/
def LoadedFile.Whole (f : LoadedFile) : Prop :=
  ∀ table names, f.table = some (table, names) → names.length = f.beam.atomCount

/-- A block is live that was not before, and that the file, if there is one, does not hold. -/
def Leaks (base : Finset Nat) (r : Option LoadedFile × Blocks) : Prop :=
  ∃ b ∈ r.2.live, b ∉ base ∧ ∀ f, r.1 = some f → b ∉ f.blocks

theorem beamFileDestroy_eq {f : LoadedFile} (hf : f.Whole) (h : Blocks) :
    beamFileDestroy f h = Blocks.freeAll f.blocks h := by
  unfold beamFileDestroy LoadedFile.blocks
  cases ht : f.table with
  | none => rw [Option.bind_some, Blocks.freeAll_single]
  | some r =>
    obtain ⟨table, names⟩ := r
    dsimp only
    rw [List.take_of_length_le (hf table names ht).le, Blocks.freeAll_append, Blocks.freeAll_append]
    simp only [nameBlocks, Blocks.freeAll_single]

theorem atomCount_setAtoms (beam : BeamFile) (count : Nat)
    (table : Option (List (Option (List Byte)))) :
    (beam.setAtoms count table).atomCount = count := by
  match table with
  | none | some [] | some (none :: _) | some (some _ :: _) => rfl

section

variable {buffer : Nat → Byte} {isAtu8 : Bool}

theorem readAtomsIn_grows : ∀ (n pos : Nat) (h : Blocks),
    (readAtomsIn buffer isAtu8 n pos h).1.length = n ∧
      h.Grows (nameBlocks (readAtomsIn buffer isAtu8 n pos h).1)
        (readAtomsIn buffer isAtu8 n pos h).2 := by
  intro n
  induction n with
  | zero => intro pos h; exact ⟨rfl, Blocks.Grows.refl h⟩
  | succ n ih =>
    intro pos h
    rw [readAtomsIn]
    dsimp only
    cases hg : h.grant 0 with
    | false =>
      obtain ⟨hlen, hgrow⟩ := ih (pos + lenBytes isAtu8 + atomLen buffer isAtu8 pos) h.refuse
      rw [Blocks.alloc_refused hg]
      exact ⟨congrArg (· + 1) hlen, h.grows_refuse.trans hgrow⟩
    | true =>
      obtain ⟨hlen, hgrow⟩ := ih (pos + lenBytes isAtu8 + atomLen buffer isAtu8 pos) h.give
      rw [Blocks.alloc_granted hg]
      exact ⟨congrArg (· + 1) hlen, h.grows_give.trans hgrow⟩

theorem atomCounts_plain {pos : Nat} (walk : List Nat)
    (hkind : ∀ isAtu8, kindAt buffer pos ≠ .atoms isAtu8) :
    atomCounts buffer (pos :: walk) = atomCounts buffer walk := by
  refine List.filterMap_cons_none ?_
  split
  · rename_i isAtu8 he
    exact absurd he (hkind isAtu8)
  · rfl

theorem atomCounts_atoms {pos : Nat} (walk : List Nat) (hkind : kindAt buffer pos = .atoms isAtu8) :
    atomCounts buffer (pos :: walk) =
      (atomCount buffer (pos + 8)).toNat :: atomCounts buffer walk := by
  refine List.filterMap_cons_some ?_
  rw [hkind]

/-- **What a round can do** with a file and the blocks. -/
inductive ChunkRound (buffer : Nat → Byte) (pos : Nat) (walk : List Nat) (f : LoadedFile)
    (h : Blocks) : Prop
  /-- Another chunk is recorded. -/
  | plain (beam : BeamFile) (hcounts : atomCounts buffer (pos :: walk) = atomCounts buffer walk)
      (hsame : beam.atomCount = f.beam.atomCount)
      (hload : loadChunksIn buffer (pos :: walk) f h =
        loadChunksIn buffer walk ⟨beam, f.block, f.table⟩ h)
  | tooMany (count : Nat)
      (hcounts : atomCounts buffer (pos :: walk) = count :: atomCounts buffer walk)
      (hmany : maxAtoms < count) (hload : loadChunksIn buffer (pos :: walk) f h = (none, h))
  /-- There is no memory for the table; the one before it is forgotten. -/
  | refused (count : Nat) (beam : BeamFile)
      (hcounts : atomCounts buffer (pos :: walk) = count :: atomCounts buffer walk)
      (hfew : count ≤ maxAtoms) (hgrant : h.grant 0 = false)
      (hload : loadChunksIn buffer (pos :: walk) f h =
        loadChunksIn buffer walk ⟨beam, f.block, none⟩ h.refuse)
  /-- The new table takes the place of the one before it. -/
  | granted (count : Nat) (beam : BeamFile) (names : List NameBlock) (h' : Blocks)
      (hcounts : atomCounts buffer (pos :: walk) = count :: atomCounts buffer walk)
      (hfew : count ≤ maxAtoms) (hgrant : h.grant 0 = true)
      (hwhole : names.length = beam.atomCount) (hgrow : h.give.Grows (nameBlocks names) h')
      (hload : loadChunksIn buffer (pos :: walk) f h =
        loadChunksIn buffer walk ⟨beam, f.block, some (h.next, names)⟩ h')

theorem chunk_round (pos : Nat) (walk : List Nat) (f : LoadedFile) (h : Blocks) :
    ChunkRound buffer pos walk f h := by
  rcases atoms_or_plain (kindAt buffer pos) with ⟨isAtu8, hkind⟩ | hkind
  swap
  · exact .plain _ (atomCounts_plain walk hkind) (atoms_setChunk f.beam _ _ _).2.1
      (loadChunksIn_plain walk f hkind)
  have hcounts := atomCounts_atoms walk hkind
  by_cases hmany : maxAtoms < (atomCount buffer (pos + 8)).toNat
  · exact .tooMany _ hcounts hmany (loadChunksIn_tooMany walk f hkind hmany)
  have hfew := Nat.not_lt.mp hmany
  cases hg : h.grant 0 with
  | false => exact .refused _ _ hcounts hfew hg (loadChunksIn_refused walk f hkind hfew hg)
  | true =>
    obtain ⟨hlen, hgrow⟩ :=
      @readAtomsIn_grows buffer isAtu8 (atomCount buffer (pos + 8)).toNat (pos + 12) h.give
    exact .granted _ _ _ _ hcounts hfew hg (hlen.trans (atomCount_setAtoms _ _ _).symm) hgrow
      (loadChunksIn_granted walk f hkind hfew hg)

theorem block_mem_blocks (f : LoadedFile) : f.block ∈ f.blocks := by
  unfold LoadedFile.blocks
  split <;> simp

theorem not_mem_new {f : LoadedFile} {h h' : Blocks} {beam : BeamFile} {names : List NameBlock}
    {b : Nat} (hlive : b ∈ h.live) (hblock : b ≠ f.block)
    (hgrow : h.give.Grows (nameBlocks names) h') :
    b ∉ LoadedFile.blocks ⟨beam, f.block, some (h.next, names)⟩ := by
  simp only [LoadedFile.blocks, List.mem_append, List.mem_singleton, not_or]
  refine ⟨⟨fun hm => (hgrow.mem hm).2 (h.grows_give.keeps hlive), ?_⟩, hblock⟩
  exact Nat.ne_of_lt (h.fresh b hlive)

/-- **Nothing forgotten**: the file holds what it held and what was obtained since. -/
theorem loadChunksIn_tidy : ∀ {walk : List Nat} {f : LoadedFile} {h : Blocks}, f.Whole →
    (if f.table = none then Tidy (atomCounts buffer walk) h.grant
      else atomCounts buffer walk = []) →
    ∃ f' h' bs, loadChunksIn buffer walk f h = (some f', h') ∧ f'.Whole ∧ h.Grows bs h' ∧
      f'.blocks.Perm (f.blocks ++ bs) := by
  intro walk
  induction walk with
  | nil =>
    intro f h hf _
    exact ⟨f, h, [], rfl, hf, Blocks.Grows.refl h, by rw [List.append_nil]⟩
  | cons pos walk ih =>
    intro f h hf htidy
    have hfirst : ∀ {count}, atomCounts buffer (pos :: walk) = count :: atomCounts buffer walk →
        f.blocks = [f.block] ∧
          if h.grant 0 then atomCounts buffer walk = []
          else Tidy (atomCounts buffer walk) fun k => h.grant (k + 1) := by
      intro count hcounts
      rw [hcounts] at htidy
      split at htidy
      · rename_i hno
        exact ⟨by rw [LoadedFile.blocks, hno], htidy.2⟩
      · cases htidy
    cases chunk_round pos walk f h with
    | plain beam hcounts hsame hload =>
      rw [hcounts] at htidy
      rw [hload]
      exact @ih ⟨beam, f.block, f.table⟩ h
        (fun table names ht => (hf table names ht).trans hsame.symm) htidy
    | tooMany count hcounts hmany hload =>
      rw [hcounts] at htidy
      split at htidy
      · exact absurd htidy.1 (Nat.not_le.mpr hmany)
      · cases htidy
    | refused count beam hcounts hfew hgrant hload =>
      obtain ⟨hblocks, hrest⟩ := hfirst hcounts
      rw [hgrant, if_neg (by decide)] at hrest
      obtain ⟨f', h', bs, hload', hf', hgrow, hperm⟩ := @ih ⟨beam, f.block, none⟩ h.refuse
        (fun _ _ ht => by cases ht) hrest
      rw [hload, hblocks]
      exact ⟨f', h', bs, hload', hf', h.grows_refuse.trans hgrow, hperm⟩
    | granted count beam names h₁ hcounts hfew hgrant hwhole hnames hload =>
      obtain ⟨hblocks, hrest⟩ := hfirst hcounts
      rw [hgrant, if_pos rfl] at hrest
      obtain ⟨f', h', bs, hload', hf', hgrow, hperm⟩ :=
        @ih ⟨beam, f.block, some (h.next, names)⟩ h₁ (fun _ _ ht => by cases ht; exact hwhole) hrest
      rw [hload, hblocks]
      refine ⟨f', h', _, hload', hf', (h.grows_give.trans hnames).trans hgrow, hperm.trans ?_⟩
      rw [← List.append_assoc]
      refine List.Perm.append_right bs ?_
      exact List.perm_append_comm.trans (List.Perm.append_left _ List.perm_append_comm)

/-- **What is forgotten stays so.** -/
theorem leaks_of_forgotten {base : Finset Nat} {b : Nat} (hbase : b ∉ base) :
    ∀ {walk : List Nat} {f : LoadedFile} {h : Blocks}, b ∈ h.live → b ∉ f.blocks →
      Leaks base (loadChunksIn buffer walk f h) := by
  intro walk
  induction walk with
  | nil =>
    intro f h hlive hno
    exact ⟨b, hlive, hbase, fun f' he => by cases he; exact hno⟩
  | cons pos walk ih =>
    intro f h hlive hno
    have hblock : b ≠ f.block := fun he => hno (he ▸ block_mem_blocks f)
    cases chunk_round pos walk f h with
    | plain beam hcounts hsame hload => rw [hload]; exact ih hlive hno
    | tooMany count hcounts hmany hload =>
      rw [hload]
      exact ⟨b, hlive, hbase, fun f' he => by cases he⟩
    | refused count beam hcounts hfew hgrant hload =>
      rw [hload]
      exact ih hlive (by simpa [LoadedFile.blocks] using hblock)
    | granted count beam names h₁ hcounts hfew hgrant hwhole hnames hload =>
      rw [hload]
      exact ih (hnames.keeps (h.grows_give.keeps hlive)) (not_mem_new hlive hblock hnames)

theorem leaks_of_twice {base : Finset Nat} {table : Nat} (htable : table ∉ base) :
    ∀ {walk : List Nat} {f : LoadedFile} {h : Blocks}, table ∈ h.live → table ≠ f.block →
      f.block ∈ h.live → f.block ∉ base → atomCounts buffer walk ≠ [] →
      Leaks base (loadChunksIn buffer walk f h) := by
  intro walk
  induction walk with
  | nil => intro f h _ _ _ _ hne; exact absurd rfl hne
  | cons pos walk ih =>
    intro f h hlive hne hblock hbase hcounts
    cases chunk_round pos walk f h with
    | plain beam hsame _ hload =>
      rw [hload]
      exact @ih ⟨beam, f.block, f.table⟩ h hlive hne hblock hbase (hsame ▸ hcounts)
    | tooMany count _ hmany hload =>
      rw [hload]
      exact ⟨f.block, hblock, hbase, fun f' he => by cases he⟩
    | refused count beam _ hfew hgrant hload =>
      rw [hload]
      exact leaks_of_forgotten htable hlive (by simpa [LoadedFile.blocks] using hne)
    | granted count beam names h₁ _ hfew hgrant hwhole hnames hload =>
      rw [hload]
      exact leaks_of_forgotten htable (hnames.keeps (h.grows_give.keeps hlive))
        (not_mem_new hlive hne hnames)

theorem leaks_of_not_tidy {base : Finset Nat} : ∀ {walk : List Nat} {f : LoadedFile} {h : Blocks},
    f.block ∈ h.live → f.block ∉ base → base ⊆ h.live →
      ¬ Tidy (atomCounts buffer walk) h.grant → Leaks base (loadChunksIn buffer walk f h) := by
  intro walk
  induction walk with
  | nil => intro f h _ _ _ hno; exact absurd trivial hno
  | cons pos walk ih =>
    intro f h hblock hbase hsub hno
    cases chunk_round pos walk f h with
    | plain beam hcounts hsame hload =>
      rw [hload]
      exact @ih ⟨beam, f.block, f.table⟩ h hblock hbase hsub (hcounts ▸ hno)
    | tooMany count hcounts hmany hload =>
      rw [hload]
      exact ⟨f.block, hblock, hbase, fun f' he => by cases he⟩
    | refused count beam hcounts hfew hgrant hload =>
      rw [hcounts, Tidy, hgrant, if_neg (by decide)] at hno
      rw [hload]
      exact @ih ⟨beam, f.block, none⟩ h.refuse hblock hbase hsub fun ht => hno ⟨hfew, ht⟩
    | granted count beam names h₁ hcounts hfew hgrant hwhole hnames hload =>
      rw [hcounts, Tidy, hgrant, if_pos rfl] at hno
      rw [hload]
      obtain ⟨hgiven, hnew⟩ := h.grows_give.mem (List.mem_singleton_self h.next)
      refine leaks_of_twice (fun hm => hnew (hsub hm)) (hnames.keeps hgiven) ?_
        (hnames.keeps (h.grows_give.keeps hblock)) hbase fun he => hno ⟨hfew, he⟩
      exact fun he => hnew (he ▸ hblock)

theorem whole_loadChunksIn : ∀ {walk : List Nat} {f f' : LoadedFile} {h : Blocks},
    f.Whole → (loadChunksIn buffer walk f h).1 = some f' → f'.Whole := by
  intro walk
  induction walk with
  | nil => intro f f' h hf he; cases he; exact hf
  | cons pos walk ih =>
    intro f f' h hf he
    cases chunk_round pos walk f h with
    | plain beam hcounts hsame hload =>
      rw [hload] at he
      exact @ih ⟨beam, f.block, f.table⟩ f' h
        (fun table names ht => (hf table names ht).trans hsame.symm) he
    | tooMany count hcounts hmany hload => rw [hload] at he; cases he
    | refused count beam hcounts hfew hgrant hload =>
      rw [hload] at he
      exact ih (fun _ _ ht => by cases ht) he
    | granted count beam names h₁ hcounts hfew hgrant hwhole hnames hload =>
      rw [hload] at he
      exact ih (fun _ _ ht => by cases ht; exact hwhole) he

end

/-! ### The balance -/

theorem balanced_of_perm {h h' : Blocks} {f : LoadedFile} {bs : List Nat} (hf : f.Whole)
    (hgrow : h.Grows bs h') (hperm : f.blocks.Perm bs) : Balanced h.live (some f, h') := by
  rw [Balanced, beamFileDestroy_eq hf]
  exact Blocks.freeAll_of_grows hgrow hperm

theorem not_balanced_of_leaks {base : Finset Nat} {r : Option LoadedFile × Blocks}
    (hwhole : ∀ f, r.1 = some f → f.Whole) (hleak : Leaks base r) : ¬ Balanced base r := by
  intro hbal
  obtain ⟨b, hb, hbase, hno⟩ := hleak
  refine hbase ?_
  obtain ⟨file, h⟩ := r
  cases file with
  | none =>
    have hlive : h.live = base := hbal
    exact hlive ▸ hb
  | some f =>
    obtain ⟨h', hdestroy, hlive⟩ := hbal
    rw [beamFileDestroy_eq (hwhole f rfl)] at hdestroy
    rw [← hlive, Blocks.live_of_freeAll hdestroy, Finset.mem_sdiff, List.mem_toFinset]
    exact ⟨hb, hno f rfl⟩

theorem balanced_loadChunksIn_iff (buffer : Nat → Byte) (walk : List Nat) (h : Blocks) :
    Balanced h.live (loadChunksIn buffer walk ⟨.zero, h.next, none⟩ h.give) ↔
      Tidy (atomCounts buffer walk) fun k => h.grant (k + 1) := by
  have hwhole : LoadedFile.Whole ⟨.zero, h.next, none⟩ := fun _ _ ht => by cases ht
  obtain ⟨hgiven, hnew⟩ := h.grows_give.mem (List.mem_singleton_self h.next)
  constructor
  · intro hbal
    by_contra hno
    refine not_balanced_of_leaks (fun f he => whole_loadChunksIn hwhole he) ?_ hbal
    exact leaks_of_not_tidy hgiven hnew (fun b hb => h.grows_give.keeps hb) hno
  · intro htidy
    obtain ⟨f, h', bs, hload, hf, hgrow, hperm⟩ := @loadChunksIn_tidy buffer walk
      ⟨.zero, h.next, none⟩ h.give hwhole (by rw [if_pos rfl]; exact htidy)
    rw [hload]
    exact balanced_of_perm hf (h.grows_give.trans hgrow) hperm

/-- **The loader releases what it allocates exactly where it forgets nothing**: the header is wrong,
or the file is refused, or no chunk has too many atoms and no atom chunk follows one whose table was
granted. -/
theorem released_iff (buffer : Nat → Byte) (size : Nat) (h : Blocks) :
    Released buffer size h ↔
      size < 12 ∨ isFor1 buffer = false ∨ isBeam buffer = false ∨ h.grant 0 = false ∨
        Tidy (atomCounts buffer (completeChunks buffer size size 12)) fun k => h.grant (k + 1) := by
  unfold Released beamFileParseIn
  by_cases hhead : size < 12 ∨ isFor1 buffer = false ∨ isBeam buffer = false
  · rw [if_pos hhead]
    refine iff_of_true rfl ?_
    rcases hhead with hs | hf | hb
    · exact Or.inl hs
    · exact Or.inr (Or.inl hf)
    · exact Or.inr (Or.inr (Or.inl hb))
  rw [if_neg hhead, ← or_assoc, ← or_assoc, or_assoc (a := size < 12), or_iff_right hhead]
  cases hg : h.grant 0 with
  | false =>
    rw [Blocks.alloc_refused hg]
    exact iff_of_true rfl (Or.inl rfl)
  | true =>
    rw [Blocks.alloc_granted hg, or_iff_right (by decide)]
    exact balanced_loadChunksIn_iff buffer _ h

/-- Two atom chunks, each with the one name `a`. -/
def twoAtomChunks : List Byte :=
  [70#8, 79#8, 82#8, 49#8, 0#8, 0#8, 0#8, 36#8, 66#8, 69#8, 65#8, 77#8] ++
    encodeChunks [BeamChunk.atoms false [[97#8]], BeamChunk.atoms false [[97#8]]]

/-- **The table of the first chunk and its name are lost.** -/
theorem twoAtomChunks_leak :
    ∃ f h, beamFileParseIn (fun i => twoAtomChunks.getD i 0#8) twoAtomChunks.length
        Blocks.granting = (some f, h) ∧ (beamFileDestroy f h).map Blocks.live = some {1, 2} ∧
      ¬ Released (fun i => twoAtomChunks.getD i 0#8) twoAtomChunks.length Blocks.granting := by
  have hrun : (beamFileParseIn (fun i => twoAtomChunks.getD i 0#8) twoAtomChunks.length
      Blocks.granting).1.bind (fun f => (beamFileDestroy f (beamFileParseIn
        (fun i => twoAtomChunks.getD i 0#8) twoAtomChunks.length Blocks.granting).2).map
          Blocks.live) = some {1, 2} := by decide +kernel
  obtain ⟨f, hf, hlive⟩ := Option.bind_eq_some_iff.mp hrun
  refine ⟨f, _, Prod.ext hf rfl, hlive, fun hrel => ?_⟩
  rw [Released, show beamFileParseIn (fun i => twoAtomChunks.getD i 0#8) twoAtomChunks.length
    Blocks.granting = (some f, _) from Prod.ext hf rfl] at hrel
  obtain ⟨h', hdestroy, hsame⟩ := hrel
  rw [hdestroy, Option.map_some, Option.some_inj] at hlive
  rw [hlive] at hsame
  exact absurd hsame (by decide)

end BeamModular
