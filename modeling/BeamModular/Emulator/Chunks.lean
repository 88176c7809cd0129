import BeamModular.Emulator.RoundTrip

/-!
# The chunks of a file

The loop of `beam_file_parse` does two things at once: it walks over the chunks, up to
the first one that does not fit into the file, and it does something with each.  Here
they are taken apart.  `completeChunks` is the walk, and `loadChunks` is what the loader
does with the chunks the walk has found; `chunkLoop_eq_loadChunks` says that the loop is
the one after the other.

What is recorded of a kind of chunk is then a matter of lists: it is the last one of the
walk (`chunk_loadChunks`), and there is a file unless a chunk has too many atoms
(`loadChunks_eq_none_iff`).  A file that is cut inside a chunk has the same walk as the
chunks before it, so the loader returns what they are worth (`rejected_iff`).
-/

namespace BeamModular

/-! ### The walk -/

/-- Where the chunks from `pos` on begin, up to the first one that does not fit into the file.
Every round takes at least eight bytes. -/
def completeChunks (buffer : Nat → Byte) (size : Nat) : Nat → Nat → List Nat
  | 0, _ => []
  | fuel + 1, pos =>
    if pos + 8 + lenAt buffer pos ≤ size then
      pos :: completeChunks buffer size fuel (nextChunk buffer pos)
    else []

/-- The last chunk of a kind. -/
def lastOfKind (buffer : Nat → Byte) (kind : ChunkKind) (walk : List Nat) : Option Nat :=
  (walk.filter fun pos => kindAt buffer pos = kind).getLast?

/-- The data of the chunk at `pos`: where it stands and how long it is. -/
def dataAt (buffer : Nat → Byte) (pos : Nat) : Nat × Nat := (pos + 8, lenAt buffer pos)

/-- The chunk at `pos` is an atom chunk with more atoms than the sanity check lets through. -/
def TooMany (buffer : Nat → Byte) (pos : Nat) : Prop :=
  ∃ isAtu8, kindAt buffer pos = .atoms isAtu8 ∧ maxAtoms < (atomCount buffer (pos + 8)).toNat

/-- What an atom chunk leaves in the file: the names and their number, or the number alone where
there is no memory for the table. -/
def BeamFile.setAtoms (beam : BeamFile) (count : Nat) :
    Option (List (Option (List Byte))) → BeamFile
  | some names => { beam with atomTable := some names, atomCount := count }.setModuleName names
  | none => { beam with atomTable := none, atomCount := count }

/-- What the loader does with the chunks at these places, one after the other. -/
def loadChunks (buffer : Nat → Byte) : List Nat → BeamFile → (Nat → Bool) → Option BeamFile
  | [], beam, _ => some beam
  | pos :: walk, beam, alloc =>
    match kindAt buffer pos with
    | .atoms isAtu8 =>
      let count := (atomCount buffer (pos + 8)).toNat
      if count > maxAtoms then none
      else if alloc 0 then
        loadChunks buffer walk (beam.setAtoms count
          (some (readAtoms buffer isAtu8 count (pos + 12) fun k => alloc (k + 1)).1))
          fun k => alloc (k + 1 + count)
      else loadChunks buffer walk (beam.setAtoms count none) fun k => alloc (k + 1)
    | kind => loadChunks buffer walk (beam.setChunk kind (pos + 8) (lenAt buffer pos)) alloc

theorem atoms_or_plain (kind : ChunkKind) :
    (∃ isAtu8, kind = .atoms isAtu8) ∨ ∀ isAtu8, kind ≠ .atoms isAtu8 := by
  cases kind with
  | atoms isAtu8 => exact Or.inl ⟨isAtu8, rfl⟩
  | _ => exact Or.inr fun _ he => by cases he

section

variable {buffer : Nat → Byte} {size : Nat}

section Rounds

variable {pos : Nat} (walk : List Nat) (beam : BeamFile) {alloc : Nat → Bool}

theorem loadChunks_plain (hkind : ∀ isAtu8, kindAt buffer pos ≠ .atoms isAtu8) :
    loadChunks buffer (pos :: walk) beam alloc =
      loadChunks buffer walk (beam.setChunk (kindAt buffer pos) (pos + 8) (lenAt buffer pos))
        alloc := by
  rw [loadChunks]
  split
  · rename_i isAtu8 he
    exact absurd he (hkind isAtu8)
  · rfl

variable {isAtu8 : Bool} (hkind : kindAt buffer pos = .atoms isAtu8)
include hkind

theorem loadChunks_tooMany (hmany : maxAtoms < (atomCount buffer (pos + 8)).toNat) :
    loadChunks buffer (pos :: walk) beam alloc = none := by
  rw [loadChunks, hkind]
  exact if_pos hmany

theorem loadChunks_granted (hfew : (atomCount buffer (pos + 8)).toNat ≤ maxAtoms)
    (hgrant : alloc 0 = true) :
    loadChunks buffer (pos :: walk) beam alloc =
      loadChunks buffer walk (beam.setAtoms (atomCount buffer (pos + 8)).toNat
        (some (readAtoms buffer isAtu8 (atomCount buffer (pos + 8)).toNat (pos + 12)
          fun k => alloc (k + 1)).1)) fun k => alloc (k + 1 + (atomCount buffer (pos + 8)).toNat) := by
  rw [loadChunks, hkind]
  exact (if_neg (Nat.not_lt.mpr hfew)).trans (if_pos hgrant)

theorem loadChunks_refused (hfew : (atomCount buffer (pos + 8)).toNat ≤ maxAtoms)
    (hrefuse : alloc 0 = false) :
    loadChunks buffer (pos :: walk) beam alloc =
      loadChunks buffer walk (beam.setAtoms (atomCount buffer (pos + 8)).toNat none)
        fun k => alloc (k + 1) := by
  rw [loadChunks, hkind]
  exact (if_neg (Nat.not_lt.mpr hfew)).trans (if_neg (by simp [hrefuse]))

end Rounds

theorem le_of_mem_completeChunks : ∀ {fuel start pos : Nat},
    pos ∈ completeChunks buffer size fuel start → pos + 8 + lenAt buffer pos ≤ size := by
  intro fuel
  induction fuel with
  | zero => intro start pos h; cases h
  | succ fuel ih =>
    intro start pos h
    rw [completeChunks] at h
    split at h
    · rcases List.mem_cons.mp h with rfl | h
      · assumption
      · exact ih h
    · cases h

/-- **The loop of the loader** is the walk, and then what is done with its chunks. -/
theorem chunkLoop_eq_loadChunks : ∀ (fuel pos : Nat) (beam : BeamFile) (alloc : Nat → Bool),
    (chunkLoop buffer size fuel pos beam alloc).file =
      loadChunks buffer (completeChunks buffer size fuel pos) beam alloc := by
  intro fuel
  induction fuel with
  | zero => intro pos beam alloc; rfl
  | succ fuel ih =>
    intro pos beam alloc
    by_cases hle : pos + 8 + lenAt buffer pos ≤ size
    swap
    · rw [completeChunks, if_neg hle]
      by_cases hstop : size < pos + 8
      · rw [chunkLoop_stop _ _ _ hstop]
        rfl
      · rw [chunkLoop_cut _ _ _ (by omega) (by omega)]
        rfl
    rw [completeChunks, if_pos hle]
    rcases atoms_or_plain (kindAt buffer pos) with ⟨isAtu8, hkind⟩ | hkind
    swap
    · rw [chunkLoop_plain fuel beam alloc hle hkind, loadChunks_plain _ _ hkind]
      exact ih _ _ _
    by_cases hmany : maxAtoms < (atomCount buffer (pos + 8)).toNat
    · rw [chunkLoop_tooMany _ _ _ hle hkind hmany, loadChunks_tooMany _ _ hkind hmany]
    have hfew := Nat.not_lt.mp hmany
    rw [chunkLoop, if_pos (by omega), if_neg (by omega), hkind]
    dsimp only
    rw [if_neg hmany]
    cases ha : alloc 0 with
    | true =>
      rw [if_pos rfl, loadChunks_granted _ _ hkind hfew ha]
      exact ih _ _ _
    | false =>
      rw [if_neg (by decide), loadChunks_refused _ _ hkind hfew ha]
      exact ih _ _ _

theorem chunkLoop_enough (pos : Nat) (beam : BeamFile) (alloc : Nat → Bool) {fuel : Nat}
    (h : size ≤ fuel) :
    chunkLoop buffer size fuel pos beam alloc = chunkLoop buffer size size pos beam alloc := by
  induction fuel, h using Nat.le_induction with
  | base => rfl
  | succ fuel hle ih => rw [chunkLoop_fuel beam alloc (by omega), ih]

/-! ### What is recorded -/

theorem chunk_setAtoms (beam : BeamFile) (count : Nat)
    (table : Option (List (Option (List Byte)))) (kind : ChunkKind) :
    (beam.setAtoms count table).chunk kind = beam.chunk kind := by
  cases table with
  | none => cases kind <;> rfl
  | some names =>
    match names with
    | [] | none :: _ | some _ :: _ => cases kind <;> rfl

theorem lastOfKind_cons_of_ne {kind : ChunkKind} {pos : Nat} (walk : List Nat)
    (h : kindAt buffer pos ≠ kind) :
    lastOfKind buffer kind (pos :: walk) = lastOfKind buffer kind walk := by
  rw [lastOfKind, List.filter_cons_of_neg (by simpa using h), lastOfKind]

theorem lastOfKind_cons_self {kind : ChunkKind} {pos : Nat} (walk : List Nat)
    (h : kindAt buffer pos = kind) :
    lastOfKind buffer kind (pos :: walk) = (lastOfKind buffer kind walk).or (some pos) := by
  rw [lastOfKind, List.filter_cons_of_pos (by simpa using h), List.getLast?_cons, lastOfKind]
  cases (walk.filter fun pos => kindAt buffer pos = kind).getLast? <;> rfl

/-- **What a round can do**: there are too many atoms and no file, or the walk goes on, and the
chunk is recorded if it is one of the five. -/
theorem loadChunks_cases (pos : Nat) (walk : List Nat) (beam : BeamFile) (alloc : Nat → Bool) :
    (TooMany buffer pos ∧ loadChunks buffer (pos :: walk) beam alloc = none) ∨
    (¬TooMany buffer pos ∧ ∃ beam' alloc',
      loadChunks buffer (pos :: walk) beam alloc = loadChunks buffer walk beam' alloc' ∧
      ∀ kind : ChunkKind, kind.Named → beam'.chunk kind =
        if kindAt buffer pos = kind then some (dataAt buffer pos) else beam.chunk kind) := by
  rcases atoms_or_plain (kindAt buffer pos) with ⟨isAtu8, hat⟩ | hplain
  · by_cases hmany : maxAtoms < (atomCount buffer (pos + 8)).toNat
    · exact Or.inl ⟨⟨isAtu8, hat, hmany⟩, loadChunks_tooMany _ _ hat hmany⟩
    have hfew := Nat.not_lt.mp hmany
    have hkeeps : ∀ count table (kind : ChunkKind), kind.Named →
        (beam.setAtoms count table).chunk kind =
          if kindAt buffer pos = kind then some (dataAt buffer pos) else beam.chunk kind := by
      intro count table kind hk
      rw [if_neg fun he => hk.2 isAtu8 (he.symm.trans hat), chunk_setAtoms]
    refine Or.inr ⟨fun h => hmany h.choose_spec.2, ?_⟩
    cases ha : alloc 0 with
    | true => exact ⟨_, _, loadChunks_granted _ _ hat hfew ha, hkeeps _ _⟩
    | false => exact ⟨_, _, loadChunks_refused _ _ hat hfew ha, hkeeps _ _⟩
  · exact Or.inr ⟨fun h => hplain h.choose h.choose_spec.1, _, _, loadChunks_plain _ _ hplain,
      fun kind hk => chunk_setChunk hk⟩

/-- **Of each kind the last chunk is recorded**, by induction on the walk. -/
theorem chunk_loadChunks {kind : ChunkKind} (hk : kind.Named) : ∀ {walk : List Nat}
    {beam beam' : BeamFile} {alloc : Nat → Bool}, loadChunks buffer walk beam alloc = some beam' →
      beam'.chunk kind = ((lastOfKind buffer kind walk).map (dataAt buffer)).or
        (beam.chunk kind) := by
  intro walk
  induction walk with
  | nil => intro beam beam' alloc h; cases h; rfl
  | cons pos walk ih =>
    intro beam beam' alloc h
    rcases loadChunks_cases pos walk beam alloc with ⟨_, hnone⟩ | ⟨_, beam₁, alloc₁, he, hchunk⟩
    · rw [hnone] at h
      cases h
    · rw [he] at h
      rw [ih h, hchunk kind hk]
      by_cases hat : kindAt buffer pos = kind
      · rw [lastOfKind_cons_self walk hat, if_pos hat]
        cases lastOfKind buffer kind walk <;> rfl
      · rw [lastOfKind_cons_of_ne walk hat, if_neg hat]

theorem loadChunks_eq_none_iff : ∀ {walk : List Nat} {beam : BeamFile} {alloc : Nat → Bool},
    loadChunks buffer walk beam alloc = none ↔ ∃ pos ∈ walk, TooMany buffer pos := by
  intro walk
  induction walk with
  | nil => intro beam alloc; simp [loadChunks]
  | cons pos walk ih =>
    intro beam alloc
    rw [List.exists_mem_cons_iff]
    rcases loadChunks_cases pos walk beam alloc with ⟨hmany, hnone⟩ | ⟨hfew, _, _, he, _⟩
    · exact iff_of_true hnone (Or.inl hmany)
    · rw [he, or_iff_right hfew]
      exact ih

end

/-- **Recorded chunks lie inside the file.**  The loop over the chunks ends: more rounds than the
buffer has bytes change nothing.  And in the file that is returned, each of the five slices is the
data of the last chunk of its kind that the walk from offset 12 has reached complete, or is unset
where there is none, and lies inside the buffer. -/
theorem recorded_inside (buffer : Nat → Byte) (size : Nat) (alloc : Nat → Bool) :
    (∀ beam fuel, size ≤ fuel →
      chunkLoop buffer size fuel 12 beam alloc = chunkLoop buffer size size 12 beam alloc) ∧
    ∀ beam, (beamFileParse buffer size alloc).file = some beam →
      ∀ kind : ChunkKind, kind.Named →
        beam.chunk kind =
          (lastOfKind buffer kind (completeChunks buffer size size 12)).map (dataAt buffer) ∧
        ∀ offset length, beam.chunk kind = some (offset, length) → offset + length ≤ size := by
  refine ⟨fun beam fuel h => chunkLoop_enough 12 beam alloc h, fun beam hfile kind hk => ?_⟩
  have hload : loadChunks buffer (completeChunks buffer size size 12) .zero
      (fun k => alloc (k + 1)) = some beam := by
    rw [← chunkLoop_eq_loadChunks]
    unfold beamFileParse at hfile
    split_ifs at hfile
    exact hfile
  have hlast : beam.chunk kind =
      (lastOfKind buffer kind (completeChunks buffer size size 12)).map (dataAt buffer) := by
    rw [chunk_loadChunks hk hload]
    cases kind <;> exact Option.or_none
  refine ⟨hlast, fun offset length hat => ?_⟩
  rw [hlast] at hat
  obtain ⟨pos, hpos, hdata⟩ := Option.map_eq_some_iff.mp hat
  cases hdata
  exact le_of_mem_completeChunks (List.mem_of_mem_filter (List.mem_of_getLast? hpos))

theorem recorded_inside_smallFile :
    ∃ beam, (beamFileParse smallFile.buffer smallFile.bytes.length fun _ => true).file =
        some beam ∧ beam.codeChunk = some (48, 5) ∧ 48 + 5 ≤ smallFile.bytes.length := by
  obtain ⟨beam, hfile, hcode⟩ := Option.map_eq_some_iff.mp
    (show (beamFileParse smallFile.buffer smallFile.bytes.length fun _ => true).file.map
      BeamFile.codeChunk = some (some (48, 5)) by decide +kernel)
  have hinside := ((recorded_inside smallFile.buffer smallFile.bytes.length fun _ => true).2 beam
    hfile .code ⟨by decide, fun _ he => by cases he⟩).2 48 5 hcode
  exact ⟨beam, hfile, hcode, hinside⟩

/-! ### Files that are cut -/

/-- `beam_module_load_from_memory`: the file of the module, or `NULL`. -/
def beamModuleLoadFromMemory (buffer : Nat → Byte) (size : Nat) (alloc : Nat → Bool) :
    Option BeamFile :=
  if size = 0 then none
  else if !alloc 0 then none
  else (beamFileParse buffer size fun k => alloc (k + 1)).file

/-- The number of atoms that the data of an atom chunk begin with. -/
def BeamChunk.announced (c : BeamChunk) : Nat := (atomCount (fun i => c.data.getD i 0#8) 0).toNat

/-- **A whole file**: chunks with their names, lengths and padding, and in each atom chunk the
number of its atoms and as many names. -/
structure WholeFile where
  formSize : List Byte
  chunks : List BeamChunk
  formSize_length : formSize.length = 4
  ids : ∀ c ∈ chunks, c.id.length = 4
  fits : ∀ c ∈ chunks, c.data.length < 2 ^ 32
  atoms : ∀ c ∈ chunks, ∀ isAtu8, c.kind = .atoms isAtu8 → 4 ≤ c.data.length ∧
    AtomsFit (fun i => c.data.getD i 0#8) c.data.length isAtu8 c.announced 4

namespace WholeFile

/-- What stands before the chunks: `FOR1`, the size of the form and `BEAM`. -/
def header (f : WholeFile) : List Byte :=
  [70#8, 79#8, 82#8, 49#8] ++ f.formSize ++ [66#8, 69#8, 65#8, 77#8]

def bytes (f : WholeFile) : List Byte := f.header ++ encodeChunks f.chunks

end WholeFile

/-- Neither the parser nor the loader of modules returns anything for these bytes. -/
def Rejected (bytes : List Byte) (alloc : Nat → Bool) : Prop :=
  (beamFileParse (fun i => bytes.getD i 0#8) bytes.length alloc).file = none ∧
    beamModuleLoadFromMemory (fun i => bytes.getD i 0#8) bytes.length alloc = none

section

variable {buffer : Nat → Byte} {size : Nat}

theorem atomCount_of_holds {pos : Nat} {bs : List Byte} (h : Holds buffer pos bs)
    (h4 : 4 ≤ bs.length) : atomCount buffer pos = atomCount (fun i => bs.getD i 0#8) 0 := by
  match bs, h4 with
  | b0 :: b1 :: b2 :: b3 :: rest, _ =>
    rw [holds_cons, holds_cons, holds_cons, holds_cons] at h
    obtain ⟨h0, h1, h2, h3, _⟩ := h
    simp only [atomCount, u32At, h0, h1, h2, h3]
    rfl

/-- **The walk over whole chunks** goes through all of them, and on behind them. -/
theorem completeChunks_encoded : ∀ {cs : List BeamChunk} {pos : Nat} (fuel : Nat),
    (∀ c ∈ cs, c.id.length = 4 ∧ c.data.length < 2 ^ 32 ∧
      ∀ isAtu8, c.kind = .atoms isAtu8 → 4 ≤ c.data.length) →
    Holds buffer pos (encodeChunks cs) → pos + (encodeChunks cs).length ≤ size →
      ∃ walk, completeChunks buffer size (fuel + cs.length) pos =
          walk ++ completeChunks buffer size fuel (pos + (encodeChunks cs).length) ∧
        ((∃ p ∈ walk, TooMany buffer p) ↔
          ∃ c ∈ cs, ∃ isAtu8, c.kind = .atoms isAtu8 ∧ maxAtoms < c.announced) := by
  intro cs
  induction cs with
  | nil => intro pos fuel _ _ _; exact ⟨[], rfl, by simp⟩
  | cons c cs ih =>
    intro pos fuel hcs h hle
    obtain ⟨hid, hfit, hcount⟩ := hcs c List.mem_cons_self
    rw [encodeChunks_cons, holds_append] at h
    rw [encodeChunks_cons, List.length_append] at hle
    obtain ⟨hkind, hlen, hdata, hnext⟩ := chunk_encoded h.1 hid hfit
    have hsize := length_encode hid
    obtain ⟨walk, hwalk, hmany⟩ := ih fuel (fun c hc => hcs c (List.mem_cons_of_mem _ hc)) h.2
      (by omega)
    refine ⟨pos :: walk, ?_, ?_⟩
    · rw [List.length_cons, ← Nat.add_assoc, completeChunks, if_pos (by omega), hnext, hwalk,
        encodeChunks_cons, List.length_append, ← Nat.add_assoc]
      rfl
    · have hhead : TooMany buffer pos ↔
          ∃ isAtu8, c.kind = .atoms isAtu8 ∧ maxAtoms < c.announced := by
        unfold TooMany
        rw [hkind]
        refine exists_congr fun isAtu8 => and_congr_right fun he => ?_
        rw [atomCount_of_holds hdata (hcount isAtu8 he)]
        rfl
      rw [List.exists_mem_cons_iff, List.exists_mem_cons_iff, hmany, hhead]

/-- The parser of a file with the right header rejects it exactly where the file cannot be
allocated or a complete chunk has too many atoms. -/
theorem parse_eq_none_iff (hsize : 12 ≤ size) (hfor : isFor1 buffer = true)
    (hbeam : isBeam buffer = true) (alloc : Nat → Bool) :
    (beamFileParse buffer size alloc).file = none ↔
      alloc 0 = false ∨ ∃ pos ∈ completeChunks buffer size size 12, TooMany buffer pos := by
  rw [beamFileParse, if_neg (by omega), hfor, hbeam]
  cases ha : alloc 0 with
  | false => exact iff_of_true rfl (Or.inl rfl)
  | true =>
    rw [or_iff_right (by decide), ← loadChunks_eq_none_iff, ← chunkLoop_eq_loadChunks]
    rfl

end

namespace WholeFile

variable {f : WholeFile} {before after : List BeamChunk} {c : BeamChunk} {k : Nat}

theorem length_header (f : WholeFile) : f.header.length = 12 := by
  simp only [header, List.length_append, f.formSize_length, List.length_cons, List.length_nil]

theorem take_bytes (h : f.chunks = before ++ c :: after) (hk : k < c.data.length) :
    f.bytes.take (12 + (encodeChunks before).length + 8 + k) =
      f.header ++ encodeChunks before ++ (c.id ++ be32 c.data.length ++ c.data.take k) := by
  have hid : c.id.length = 4 := f.ids c (by rw [h]; simp)
  have hhead : (c.id ++ be32 c.data.length).length = 8 := by
    rw [List.length_append, hid]
    rfl
  have hsplit : f.bytes = f.header ++ encodeChunks before ++ (c.id ++ be32 c.data.length) ++
      (c.data ++ (List.replicate ((4 - c.data.length % 4) % 4) 0#8 ++ encodeChunks after)) := by
    rw [bytes, h, encodeChunks_append, encodeChunks_cons, BeamChunk.encode]
    simp only [List.append_assoc]
  have hlen : (f.header ++ encodeChunks before ++ (c.id ++ be32 c.data.length)).length =
      12 + (encodeChunks before).length + 8 := by
    rw [List.length_append, List.length_append, f.length_header, hhead]
  rw [hsplit, ← hlen, List.take_length_add_append, List.take_append_of_le_length hk.le]
  simp only [List.append_assoc]

theorem tooMany_cut (h : f.chunks = before ++ c :: after) (hk : k < c.data.length) {cut : Nat}
    (hcut : cut = 12 + (encodeChunks before).length + 8 + k) {buffer : Nat → Byte}
    (hb : Holds buffer 12 (encodeChunks before))
    (hc : Holds buffer (12 + (encodeChunks before).length + 4) (be32 c.data.length)) :
    (∃ pos ∈ completeChunks buffer cut cut 12, TooMany buffer pos) ↔
      ∃ c' ∈ before, ∃ isAtu8, c'.kind = .atoms isAtu8 ∧ maxAtoms < c'.announced := by
  have hmem : ∀ c' ∈ before, c' ∈ f.chunks := fun c' hc' => by
    rw [h]
    exact List.mem_append_left _ hc'
  have hshort := length_le_encodeChunks fun c' hc' => f.ids c' (hmem c' hc')
  have hlast : lenAt buffer (12 + (encodeChunks before).length) = c.data.length :=
    u32At_be32 hc (f.fits c (by rw [h]; simp))
  obtain ⟨fuel, hfuel⟩ : ∃ fuel, cut = fuel + 1 + before.length :=
    ⟨cut - before.length - 1, by omega⟩
  obtain ⟨walk, hwalk, hmany⟩ := @completeChunks_encoded buffer cut before 12 (fuel + 1)
    (fun c' hc' => ⟨f.ids c' (hmem c' hc'), f.fits c' (hmem c' hc'),
      fun isAtu8 he => (f.atoms c' (hmem c' hc') isAtu8 he).1⟩) hb (by omega)
  rw [← hfuel, completeChunks, if_neg (by omega), List.append_nil] at hwalk
  rw [hwalk, hmany]

end WholeFile

/-- **A file that is cut inside the data of a chunk** is rejected exactly where the file cannot be
allocated, or a chunk before the cut announces more atoms than the sanity check lets through. -/
theorem rejected_iff (f : WholeFile) {before after : List BeamChunk} {c : BeamChunk}
    (h : f.chunks = before ++ c :: after) {k : Nat} (hk : k < c.data.length)
    (alloc : Nat → Bool) :
    Rejected (f.bytes.take (12 + (encodeChunks before).length + 8 + k)) alloc ↔
      alloc 0 = false ∨
        ∃ c' ∈ before, ∃ isAtu8, c'.kind = .atoms isAtu8 ∧ maxAtoms < c'.announced := by
  have hid : c.id.length = 4 := f.ids c (by rw [h]; simp)
  rw [WholeFile.take_bytes h hk]
  -- the parts of what is left, in the buffer
  have hall := holds_getD
    (f.header ++ encodeChunks before ++ (c.id ++ be32 c.data.length ++ c.data.take k))
  set bytes := f.header ++ encodeChunks before ++ (c.id ++ be32 c.data.length ++ c.data.take k)
    with hbytes
  have hlen : bytes.length = 12 + (encodeChunks before).length + 8 + k := by
    simp only [hbytes, be32, List.length_append, f.length_header, hid, List.length_cons,
      List.length_nil, List.length_take]
    omega
  rw [hbytes, holds_append, holds_append, holds_append, holds_append, WholeFile.header,
    holds_append, holds_append] at hall
  simp only [List.length_append, f.formSize_length, hid, List.length_cons, List.length_nil]
    at hall
  obtain ⟨⟨⟨⟨hfor, _⟩, hbeam⟩, hbefore⟩, ⟨⟨_, hsize⟩, _⟩⟩ := hall
  have hfor' : isFor1 (fun i => bytes.getD i 0#8) = true := by rw [isFor1, beq_iff_eq]; exact hfor
  have hbeam' : isBeam (fun i => bytes.getD i 0#8) = true := by
    rw [isBeam, beq_iff_eq]; exact hbeam
  have hcut := WholeFile.tooMany_cut h hk hlen hbefore (by simpa using hsize)
  have hparse := fun alloc => (parse_eq_none_iff (by omega) hfor' hbeam' alloc).trans
    (or_congr_right hcut)
  rw [Rejected, hparse, beamModuleLoadFromMemory, if_neg (by omega)]
  refine and_iff_left_of_imp fun hrej => ?_
  cases ha : alloc 0 with
  | false => rfl
  | true =>
    rw [ha] at hrej
    exact (hparse _).mpr (Or.inr (hrej.resolve_left (by decide)))

theorem announced_atoms {isAtu8 : Bool} {names : List (List Byte)} (h : names.length < 2 ^ 31) :
    (BeamChunk.atoms isAtu8 names).announced = names.length := by
  have hdata := holds_getD (BeamChunk.atoms isAtu8 names).data
  rw [BeamChunk.atoms, holds_append] at hdata
  exact atomCount_be32 hdata.1 h

theorem atomsFit_encoded {buffer : Nat → Byte} {size : Nat} {isAtu8 : Bool} :
    ∀ {names : List (List Byte)} {pos : Nat},
      (∀ name ∈ names, name.length < 256 ^ lenBytes isAtu8) →
        Holds buffer pos (names.flatMap (encodeName isAtu8)) →
          pos + (names.flatMap (encodeName isAtu8)).length ≤ size →
            AtomsFit buffer size isAtu8 names.length pos := by
  intro names
  induction names with
  | nil => intro pos _ _ _; exact trivial
  | cons name names ih =>
    intro pos hshort h hle
    rw [List.flatMap_cons, holds_append] at h
    rw [List.flatMap_cons, List.length_append] at hle
    have hlen := (atomLen_encoded h.1 (hshort name List.mem_cons_self)).1
    rw [length_encodeName] at h hle
    rw [List.length_cons, AtomsFit, hlen]
    refine ⟨by omega, ih (fun n hn => hshort n (List.mem_cons_of_mem _ hn)) ?_ (by omega)⟩
    rw [Nat.add_assoc]
    exact h.2

theorem atoms_whole {isAtu8 : Bool} {names : List (List Byte)} (h : names.length < 2 ^ 31)
    (hshort : ∀ name ∈ names, name.length < 256 ^ lenBytes isAtu8) :
    4 ≤ (BeamChunk.atoms isAtu8 names).data.length ∧
      AtomsFit (fun i => (BeamChunk.atoms isAtu8 names).data.getD i 0#8)
        (BeamChunk.atoms isAtu8 names).data.length isAtu8
        (BeamChunk.atoms isAtu8 names).announced 4 := by
  rw [announced_atoms h]
  have hdata := holds_getD (BeamChunk.atoms isAtu8 names).data
  have hlen : (BeamChunk.atoms isAtu8 names).data.length =
      4 + (names.flatMap (encodeName isAtu8)).length := by
    rw [BeamChunk.atoms, List.length_append]
    rfl
  rw [show (BeamChunk.atoms isAtu8 names).data =
    be32 names.length ++ names.flatMap (encodeName isAtu8) from rfl, holds_append] at hdata
  exact ⟨by omega, atomsFit_encoded hshort hdata.2 hlen.ge⟩

/-- The code of `smallFile`. -/
def smallCode : BeamChunk := ⟨[67#8, 111#8, 100#8, 101#8], [1#8, 2#8, 3#8, 4#8, 5#8]⟩

/-- The chunks of `smallFile` in front of its code. -/
def smallBefore : List BeamChunk :=
  [⟨[83#8, 116#8, 114#8, 84#8], []⟩, BeamChunk.atoms true [[97#8, 98#8], [99#8]]]

/-- The chunk of `smallFile` behind its code. -/
def smallLine : BeamChunk := ⟨[76#8, 105#8, 110#8, 101#8], [0#8]⟩

theorem smallChunks_ids : ∀ c ∈ smallBefore ++ smallCode :: [smallLine], c.id.length = 4 := by
  decide

theorem smallChunks_fit : ∀ c ∈ smallBefore ++ smallCode :: [smallLine],
    c.data.length < 2 ^ 32 := by
  decide

theorem smallChunks_atoms : ∀ c ∈ smallBefore ++ smallCode :: [smallLine], ∀ isAtu8,
    c.kind = .atoms isAtu8 → 4 ≤ c.data.length ∧
      AtomsFit (fun i => c.data.getD i 0#8) c.data.length isAtu8 c.announced 4 := by
  intro c hc isAtu8
  simp only [smallBefore, List.cons_append, List.nil_append, List.mem_cons, List.not_mem_nil,
    or_false] at hc
  rcases hc with rfl | rfl | rfl | rfl
  · intro he; cases he
  · intro he
    cases he
    exact atoms_whole (by decide) (by decide)
  · intro he; cases he
  · intro he; cases he

/-- `smallFile` as chunks. -/
def smallWhole : WholeFile where
  formSize := smallFile.formSize
  chunks := smallBefore ++ smallCode :: [smallLine]
  formSize_length := smallFile.formSize_length
  ids := smallChunks_ids
  fits := smallChunks_fit
  atoms := smallChunks_atoms

/-- One atom more than the sanity check lets through, each with an empty name. -/
def manyAtoms : BeamChunk := BeamChunk.atoms false (List.replicate 100001 [])

theorem length_emptyNames (n : Nat) :
    (BeamChunk.atoms false (List.replicate n [])).data.length = 4 + n := by
  simp [BeamChunk.atoms, be32, encodeName]
  omega

theorem length_manyAtoms : manyAtoms.data.length = 100005 := length_emptyNames 100001

theorem announced_manyAtoms : manyAtoms.announced = 100001 :=
  (announced_atoms (by rw [List.length_replicate]; omega)).trans List.length_replicate

/-- A file with too many atoms in front of its code. -/
def manyWhole : WholeFile where
  formSize := smallFile.formSize
  chunks := [manyAtoms, smallCode]
  formSize_length := smallFile.formSize_length
  ids := by
    rw [List.forall_mem_cons]
    exact ⟨rfl, by decide⟩
  fits := by
    rw [List.forall_mem_cons, length_manyAtoms]
    exact ⟨by omega, by decide⟩
  atoms := by
    rw [List.forall_mem_cons]
    refine ⟨fun isAtu8 he => ?_, fun c hc isAtu8 he => ?_⟩
    · rw [manyAtoms, kind_atoms] at he
      cases he
      exact atoms_whole (by rw [List.length_replicate]; omega)
        fun name hn => by rw [List.eq_of_mem_replicate hn]; decide
    · rw [List.mem_singleton.mp hc] at he
      cases he

theorem rejected_iff_smallWhole :
    (Rejected (smallWhole.bytes.take (12 + (encodeChunks smallBefore).length + 8 + 2))
      fun _ => false) ∧
    Rejected (manyWhole.bytes.take (12 + (encodeChunks [manyAtoms]).length + 8 + 2))
      fun _ => true :=
  ⟨(rejected_iff smallWhole (c := smallCode) rfl (by decide) fun _ => false).mpr (Or.inl rfl),
    (rejected_iff manyWhole (c := smallCode) rfl (by decide) fun _ => true).mpr
      (Or.inr ⟨manyAtoms, List.mem_singleton.mpr rfl, false, kind_atoms _ _,
        by rw [announced_manyAtoms]; decide⟩)⟩

/-- **A file that is cut behind two bytes of its code is accepted**, without the code. -/
theorem cutCode_accepted :
    smallWhole.chunks = smallBefore ++ smallCode :: smallWhole.chunks.drop 3 ∧
      12 + (encodeChunks smallBefore).length + 8 + 2 < smallWhole.bytes.length ∧
      ((beamFileParse (fun i => (smallWhole.bytes.take 50).getD i 0#8)
          (smallWhole.bytes.take 50).length fun _ => true).file.map BeamFile.codeChunk =
        some none) ∧
      ¬ Rejected (smallWhole.bytes.take (12 + (encodeChunks smallBefore).length + 8 + 2))
        fun _ => true := by
  have hparse : (beamFileParse (fun i => (smallWhole.bytes.take 50).getD i 0#8)
      (smallWhole.bytes.take 50).length fun _ => true).file.map BeamFile.codeChunk =
        some none := by decide +kernel
  refine ⟨rfl, by decide +kernel, hparse, fun hrej => ?_⟩
  have hnone := hrej.1
  rw [show 12 + (encodeChunks smallBefore).length + 8 + 2 = 50 from rfl] at hnone
  rw [hnone] at hparse
  cases hparse

end BeamModular
