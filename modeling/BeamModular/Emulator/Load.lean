import BeamModular.Emulator.Decode

/-!
# The loader

`beam_file_parse` of `src/emulator/beam_load.c`: a file is a header and a sequence of
chunks, each with a name and a length and padded to four bytes.  The loader keeps where
the chunks it knows stand, and copies the names out of the atom chunk.

The buffer is a function, so that a read outside it is a read like any other, and the
indices that are read are returned with the file.  The loop over the chunks looks
whether a chunk fits into the file; the loop over the atoms does not look at all.
`ChunksFit` is the grammar of the files that make up for it, and `safe_iff_chunksFit`
says that these are exactly the files the loader stays inside of.
-/

namespace BeamModular

/-- `struct beam_file`; a chunk is kept as its place and its length. -/
structure BeamFile where
  moduleName : List Byte
  atomTable : Option (List (Option (List Byte)))
  atomCount : Nat
  codeChunk : Option (Nat × Nat)
  litChunk : Option (Nat × Nat)
  expChunk : Option (Nat × Nat)
  impChunk : Option (Nat × Nat)
  strChunk : Option (Nat × Nat)
  deriving DecidableEq, Repr

/-- The file as `memset` leaves it. -/
def BeamFile.zero : BeamFile := ⟨[], none, 0, none, none, none, none, none⟩

/-- What the loader returns, and the indices of the buffer it has read. -/
structure Parsed where
  file : Option BeamFile
  reads : List Nat
  deriving DecidableEq, Repr

/-- `n` indices from `pos` on. -/
def indices (pos n : Nat) : List Nat := (List.range n).map (pos + ·)

/-- `n` bytes from `pos` on. -/
def bytesAt (buffer : Nat → Byte) (pos n : Nat) : List Byte := (indices pos n).map buffer

/-- `read_u32_be` at a place of the buffer. -/
def u32At (buffer : Nat → Byte) (pos : Nat) : BitVec 32 :=
  readU32Be (buffer pos) (buffer (pos + 1)) (buffer (pos + 2)) (buffer (pos + 3))

/-! ### The atoms -/

/-- The bytes of an atom's length: two in an `AtU8` chunk, one in an `Atom` chunk. -/
def lenBytes (isAtu8 : Bool) : Nat := if isAtu8 then 2 else 1

/-- The length of the atom at a place. -/
def atomLen (buffer : Nat → Byte) (isAtu8 : Bool) (pos : Nat) : Nat :=
  if isAtu8 then 256 * (buffer pos).toNat + (buffer (pos + 1)).toNat else (buffer pos).toNat

/-- The loop over the atoms: the names, null where there is no memory for one, and the indices
that are read. -/
def readAtoms (buffer : Nat → Byte) (isAtu8 : Bool) :
    Nat → Nat → (Nat → Bool) → List (Option (List Byte)) × List Nat
  | 0, _, _ => ([], [])
  | n + 1, pos, alloc =>
    let len := atomLen buffer isAtu8 pos
    let start := pos + lenBytes isAtu8
    let rest := readAtoms buffer isAtu8 n (start + len) fun k => alloc (k + 1)
    if alloc 0 then
      (some (bytesAt buffer start len) :: rest.1,
        indices pos (lenBytes isAtu8) ++ indices start len ++ rest.2)
    else (none :: rest.1, indices pos (lenBytes isAtu8) ++ rest.2)

/-- The number of atoms that a chunk announces, a negative one without its sign. -/
def atomCount (buffer : Nat → Byte) (pos : Nat) : BitVec 32 :=
  let raw := u32At buffer pos
  if raw.msb then -raw else raw

/-- The limit of the sanity check. -/
abbrev maxAtoms : Nat := 100000

/-- `strncpy(beam->module_name, name, sizeof(beam->module_name) - 1)`, when there is a first name.
-/
def BeamFile.setModuleName (beam : BeamFile) (names : List (Option (List Byte))) : BeamFile :=
  match names with
  | some name :: _ => { beam with moduleName := (cString name).take 63 }
  | _ => beam

/-! ### The chunks -/

/-- The names of chunks that the loader knows. -/
inductive ChunkKind
  | atoms (isAtu8 : Bool)
  | code
  | lit
  | exp
  | imp
  | str
  | other
  deriving DecidableEq, Repr

def chunkKind (id : List Byte) : ChunkKind :=
  if id = [65#8, 116#8, 111#8, 109#8] then .atoms false
  else if id = [65#8, 116#8, 85#8, 56#8] then .atoms true
  else if id = [67#8, 111#8, 100#8, 101#8] then .code
  else if id = [76#8, 105#8, 116#8, 84#8] then .lit
  else if id = [69#8, 120#8, 112#8, 84#8] then .exp
  else if id = [73#8, 109#8, 112#8, 84#8] then .imp
  else if id = [83#8, 116#8, 114#8, 84#8] then .str
  else .other

/-- Keep where a chunk stands. -/
def BeamFile.setChunk (beam : BeamFile) (kind : ChunkKind) (pos len : Nat) : BeamFile :=
  match kind with
  | .code => { beam with codeChunk := some (pos, len) }
  | .lit => { beam with litChunk := some (pos, len) }
  | .exp => { beam with expChunk := some (pos, len) }
  | .imp => { beam with impChunk := some (pos, len) }
  | .str => { beam with strChunk := some (pos, len) }
  | _ => beam

/-- The kind of the chunk whose header stands at `pos`. -/
def kindAt (buffer : Nat → Byte) (pos : Nat) : ChunkKind := chunkKind (bytesAt buffer pos 4)

/-- Its length. -/
def lenAt (buffer : Nat → Byte) (pos : Nat) : Nat := (u32At buffer (pos + 4)).toNat

/-- Where the next header stands, behind the padding. -/
def nextChunk (buffer : Nat → Byte) (pos : Nat) : Nat :=
  pos + 8 + (lenAt buffer pos + (4 - lenAt buffer pos % 4) % 4)

/-- More indices have been read. -/
def Parsed.reading (r : Parsed) (is : List Nat) : Parsed := ⟨r.file, is ++ r.reads⟩

/-- The loop over the chunks.  Every round takes at least eight bytes, so `fuel` never runs out
before the file does (`chunkLoop_fuel`). -/
def chunkLoop (buffer : Nat → Byte) (size : Nat) :
    Nat → Nat → BeamFile → (Nat → Bool) → Parsed
  | 0, _, beam, _ => ⟨some beam, []⟩
  | fuel + 1, pos, beam, alloc =>
    if pos + 8 ≤ size then
      let body := pos + 8
      let len := lenAt buffer pos
      let next := chunkLoop buffer size fuel (nextChunk buffer pos)
      if body + len > size then ⟨some beam, indices pos 8⟩
      else match kindAt buffer pos with
        | .atoms isAtu8 =>
          let count := (atomCount buffer body).toNat
          let read := indices pos 8 ++ indices body 4
          if count > maxAtoms then ⟨none, read⟩
          else if alloc 0 then
            let r := readAtoms buffer isAtu8 count (body + 4) fun k => alloc (k + 1)
            let beam := { beam with atomTable := some r.1, atomCount := count }
            (next (beam.setModuleName r.1) fun k => alloc (k + 1 + count)).reading (read ++ r.2)
          else
            (next { beam with atomTable := none, atomCount := count } fun k => alloc (k + 1)).reading
              read
        | kind => (next (beam.setChunk kind body len) alloc).reading (indices pos 8)
    else ⟨some beam, []⟩

/-- The file starts with `FOR1`. -/
def isFor1 (buffer : Nat → Byte) : Bool := bytesAt buffer 0 4 == [70#8, 79#8, 82#8, 49#8]

/-- The form is `BEAM`. -/
def isBeam (buffer : Nat → Byte) : Bool := bytesAt buffer 8 4 == [66#8, 69#8, 65#8, 77#8]

/-- `beam_file_parse` of a buffer of `size` bytes. -/
def beamFileParse (buffer : Nat → Byte) (size : Nat) (alloc : Nat → Bool) : Parsed :=
  if size < 12 then ⟨none, []⟩
  else if !isFor1 buffer then ⟨none, indices 0 4⟩
  else if !isBeam buffer then ⟨none, indices 0 4 ++ indices 8 4⟩
  else if !alloc 0 then ⟨none, indices 0 4 ++ indices 8 4⟩
  else
    (chunkLoop buffer size size 12 .zero fun k => alloc (k + 1)).reading
      (indices 0 4 ++ indices 8 4)

/-! ### Files that fit -/

/-- From `pos` on there are `n` whole atoms before the end of the file. -/
def AtomsFit (buffer : Nat → Byte) (size : Nat) (isAtu8 : Bool) : Nat → Nat → Prop
  | 0, _ => True
  | n + 1, pos =>
    pos + lenBytes isAtu8 + atomLen buffer isAtu8 pos ≤ size ∧
      AtomsFit buffer size isAtu8 n (pos + lenBytes isAtu8 + atomLen buffer isAtu8 pos)

/-- **The chunks from `pos` on**: the first one that does not fit into the file ends them; an atom
chunk has its count before the end of the file, and ends them when that is beyond the limit, or is
followed by as many atoms. -/
inductive ChunksFit (buffer : Nat → Byte) (size : Nat) : Nat → Prop
  | done {pos : Nat} (h : size < pos + 8 ∨ size < pos + 8 + lenAt buffer pos) :
      ChunksFit buffer size pos
  | plain {pos : Nat} (hkind : ∀ isAtu8, kindAt buffer pos ≠ .atoms isAtu8)
      (hnext : ChunksFit buffer size (nextChunk buffer pos)) : ChunksFit buffer size pos
  | tooMany {pos : Nat} {isAtu8 : Bool} (hkind : kindAt buffer pos = .atoms isAtu8)
      (hcount : pos + 12 ≤ size) (hmany : maxAtoms < (atomCount buffer (pos + 8)).toNat) :
      ChunksFit buffer size pos
  | atoms {pos : Nat} {isAtu8 : Bool} (hkind : kindAt buffer pos = .atoms isAtu8)
      (hcount : pos + 12 ≤ size) (hfew : (atomCount buffer (pos + 8)).toNat ≤ maxAtoms)
      (hfit : AtomsFit buffer size isAtu8 (atomCount buffer (pos + 8)).toNat (pos + 12))
      (hnext : ChunksFit buffer size (nextChunk buffer pos)) : ChunksFit buffer size pos

/-- Only bytes of the file are read. -/
def Inside (size : Nat) (reads : List Nat) : Prop := ∀ i ∈ reads, i < size

/-- **The loader stays inside the file**, whatever the allocator does. -/
def SafeLoad (buffer : Nat → Byte) (size : Nat) : Prop :=
  ∀ alloc, Inside size (beamFileParse buffer size alloc).reads

theorem inside_nil (size : Nat) : Inside size [] := fun _ h => by cases h

theorem inside_append {size : Nat} {is js : List Nat} :
    Inside size (is ++ js) ↔ Inside size is ∧ Inside size js := List.forall_mem_append

theorem inside_indices {size pos n : Nat} (hn : 0 < n) :
    Inside size (indices pos n) ↔ pos + n ≤ size := by
  unfold Inside indices
  constructor
  · intro h
    have hlast := h (pos + (n - 1)) (List.mem_map.mpr ⟨n - 1, by rw [List.mem_range]; omega, rfl⟩)
    omega
  · intro h i hi
    obtain ⟨j, hj, rfl⟩ := List.mem_map.mp hi
    rw [List.mem_range] at hj
    omega

theorem inside_indices_of_le {size pos n : Nat} (h : pos + n ≤ size) :
    Inside size (indices pos n) := by
  cases n with
  | zero => exact inside_nil size
  | succ n => exact (inside_indices (Nat.succ_pos n)).mpr h

section Atoms

variable {buffer : Nat → Byte} {size : Nat} {isAtu8 : Bool}

theorem lenBytes_pos (isAtu8 : Bool) : 0 < lenBytes isAtu8 := by
  cases isAtu8 <;> decide

theorem readAtoms_inside : ∀ {n pos : Nat}, AtomsFit buffer size isAtu8 n pos →
    ∀ alloc, Inside size (readAtoms buffer isAtu8 n pos alloc).2 := by
  intro n
  induction n with
  | zero => intro pos _ alloc; exact inside_nil size
  | succ n ih =>
    rintro pos ⟨hle, hrest⟩ alloc
    have hhead : Inside size (indices pos (lenBytes isAtu8)) := inside_indices_of_le (by omega)
    have hname := inside_indices_of_le hle
    have htail := ih hrest fun k => alloc (k + 1)
    rw [readAtoms]
    split
    · exact inside_append.mpr ⟨inside_append.mpr ⟨hhead, hname⟩, htail⟩
    · exact inside_append.mpr ⟨hhead, htail⟩

theorem atomsFit_of_inside : ∀ {n pos : Nat},
    Inside size (readAtoms buffer isAtu8 n pos fun _ => true).2 →
      AtomsFit buffer size isAtu8 n pos := by
  intro n
  induction n with
  | zero => intro pos _; exact trivial
  | succ n ih =>
    intro pos h
    rw [readAtoms] at h
    simp only [if_true] at h
    obtain ⟨hfirst, htail⟩ := inside_append.mp h
    obtain ⟨hhead, hname⟩ := inside_append.mp hfirst
    refine ⟨?_, ih htail⟩
    rcases Nat.eq_zero_or_pos (atomLen buffer isAtu8 pos) with h0 | hpos
    · rw [h0]
      exact (inside_indices (lenBytes_pos isAtu8)).mp hhead
    · exact (inside_indices hpos).mp hname

end Atoms

section Chunks

variable {buffer : Nat → Byte} {size : Nat}

theorem le_nextChunk (buffer : Nat → Byte) (pos : Nat) : pos + 8 ≤ nextChunk buffer pos := by
  unfold nextChunk
  omega

section Rounds

variable {pos : Nat} (fuel : Nat) (beam : BeamFile) (alloc : Nat → Bool)

theorem chunkLoop_stop (h : size < pos + 8) :
    chunkLoop buffer size fuel pos beam alloc = ⟨some beam, []⟩ := by
  cases fuel with
  | zero => rfl
  | succ fuel => rw [chunkLoop, if_neg (by omega)]

theorem chunkLoop_cut (hle : pos + 8 ≤ size) (h : size < pos + 8 + lenAt buffer pos) :
    chunkLoop buffer size (fuel + 1) pos beam alloc = ⟨some beam, indices pos 8⟩ := by
  rw [chunkLoop, if_pos hle, if_pos h]

theorem chunkLoop_plain (hle : pos + 8 + lenAt buffer pos ≤ size)
    (hkind : ∀ isAtu8, kindAt buffer pos ≠ .atoms isAtu8) :
    chunkLoop buffer size (fuel + 1) pos beam alloc =
      (chunkLoop buffer size fuel (nextChunk buffer pos)
        (beam.setChunk (kindAt buffer pos) (pos + 8) (lenAt buffer pos)) alloc).reading
          (indices pos 8) := by
  rw [chunkLoop, if_pos (by omega), if_neg (by omega)]
  split
  · rename_i isAtu8 he
    exact absurd he (hkind isAtu8)
  · rfl

theorem chunkLoop_tooMany (hle : pos + 8 + lenAt buffer pos ≤ size) {isAtu8 : Bool}
    (hkind : kindAt buffer pos = .atoms isAtu8)
    (hmany : maxAtoms < (atomCount buffer (pos + 8)).toNat) :
    chunkLoop buffer size (fuel + 1) pos beam alloc =
      ⟨none, indices pos 8 ++ indices (pos + 8) 4⟩ := by
  rw [chunkLoop, if_pos (by omega), if_neg (by omega), hkind]
  dsimp only
  rw [if_pos hmany]

theorem chunkLoop_atoms (hle : pos + 8 + lenAt buffer pos ≤ size) {isAtu8 : Bool}
    (hkind : kindAt buffer pos = .atoms isAtu8)
    (hfew : (atomCount buffer (pos + 8)).toNat ≤ maxAtoms) :
    let count := (atomCount buffer (pos + 8)).toNat
    ∃ beam', chunkLoop buffer size (fuel + 1) pos beam alloc =
      if alloc 0 then
        (chunkLoop buffer size fuel (nextChunk buffer pos) beam' fun k =>
          alloc (k + 1 + count)).reading (indices pos 8 ++ indices (pos + 8) 4 ++
            (readAtoms buffer isAtu8 count (pos + 12) fun k => alloc (k + 1)).2)
      else
        (chunkLoop buffer size fuel (nextChunk buffer pos) beam' fun k => alloc (k + 1)).reading
          (indices pos 8 ++ indices (pos + 8) 4) := by
  rw [chunkLoop, if_pos (by omega), if_neg (by omega), hkind]
  dsimp only
  rw [if_neg (Nat.not_lt.mpr hfew)]
  by_cases ha : alloc 0
  · rw [if_pos ha]
    simp only [if_pos ha]
    exact ⟨_, rfl⟩
  · rw [if_neg ha]
    simp only [if_neg ha]
    exact ⟨_, rfl⟩

end Rounds

theorem inside_reading {r : Parsed} {is : List Nat} :
    Inside size (r.reading is).reads ↔ Inside size is ∧ Inside size r.reads := inside_append

theorem chunkLoop_inside : ∀ {fuel pos : Nat}, ChunksFit buffer size pos →
    ∀ beam alloc, Inside size (chunkLoop buffer size fuel pos beam alloc).reads := by
  intro fuel
  induction fuel with
  | zero => intro pos _ beam alloc; exact inside_nil size
  | succ fuel ih =>
    intro pos hfit beam alloc
    by_cases hstop : size < pos + 8
    · rw [chunkLoop_stop _ _ _ hstop]
      exact inside_nil size
    have hhead : Inside size (indices pos 8) := inside_indices_of_le (by omega)
    by_cases hcut : size < pos + 8 + lenAt buffer pos
    · rw [chunkLoop_cut _ _ _ (by omega) hcut]
      exact hhead
    have hle : pos + 8 + lenAt buffer pos ≤ size := by omega
    cases hfit with
    | done h => omega
    | plain hkind hnext =>
      rw [chunkLoop_plain fuel beam alloc hle hkind, inside_reading]
      exact ⟨hhead, ih hnext _ _⟩
    | tooMany hkind hcount hmany =>
      rw [chunkLoop_tooMany _ _ _ hle hkind hmany]
      exact inside_append.mpr ⟨hhead, inside_indices_of_le (by omega)⟩
    | atoms hkind hcount hfew hfit hnext =>
      have hnum : Inside size (indices (pos + 8) 4) := inside_indices_of_le (by omega)
      obtain ⟨beam', he⟩ := chunkLoop_atoms fuel beam alloc hle hkind hfew
      rw [he]
      split
      · rw [inside_reading, inside_append, inside_append]
        exact ⟨⟨⟨hhead, hnum⟩, readAtoms_inside hfit _⟩, ih hnext _ _⟩
      · rw [inside_reading, inside_append]
        exact ⟨⟨hhead, hnum⟩, ih hnext _ _⟩

theorem chunksFit_of_inside : ∀ {fuel pos : Nat} {beam : BeamFile}, size ≤ pos + fuel →
    Inside size (chunkLoop buffer size fuel pos beam fun _ => true).reads →
      ChunksFit buffer size pos := by
  intro fuel
  induction fuel with
  | zero => intro pos beam hf _; exact .done (Or.inl (by omega))
  | succ fuel ih =>
    intro pos beam hf h
    by_cases hstop : size < pos + 8
    · exact .done (Or.inl hstop)
    by_cases hcut : size < pos + 8 + lenAt buffer pos
    · exact .done (Or.inr hcut)
    have hle : pos + 8 + lenAt buffer pos ≤ size := by omega
    have hnextle := le_nextChunk buffer pos
    cases hkind : kindAt buffer pos with
    | atoms isAtu8 =>
      by_cases hmany : maxAtoms < (atomCount buffer (pos + 8)).toNat
      · rw [chunkLoop_tooMany _ _ _ hle hkind hmany] at h
        have hnum := (inside_indices (by decide)).mp (inside_append.mp h).2
        exact .tooMany hkind (by omega) hmany
      · have hfew := Nat.not_lt.mp hmany
        obtain ⟨beam', he⟩ := chunkLoop_atoms fuel beam (fun _ => true) hle hkind hfew
        rw [he, if_pos rfl, inside_reading, inside_append, inside_append] at h
        obtain ⟨⟨⟨_, hnum⟩, hatoms⟩, hrest⟩ := h
        have hnum := (inside_indices (by decide)).mp hnum
        exact .atoms hkind (by omega) hfew (atomsFit_of_inside hatoms) (ih (by omega) hrest)
    | _ =>
      have hplain : ∀ isAtu8, kindAt buffer pos ≠ .atoms isAtu8 := by
        intro isAtu8 he
        rw [hkind] at he
        cases he
      rw [chunkLoop_plain fuel beam (fun _ => true) hle hplain, inside_reading] at h
      exact .plain hplain (ih (by omega) h.2)

end Chunks

/-- The loop over the chunks ends with the file, not with the fuel. -/
theorem chunkLoop_fuel {buffer : Nat → Byte} {size : Nat} : ∀ {fuel pos : Nat} (beam : BeamFile)
    (alloc : Nat → Bool), size ≤ pos + fuel →
      chunkLoop buffer size (fuel + 1) pos beam alloc =
        chunkLoop buffer size fuel pos beam alloc := by
  intro fuel
  induction fuel with
  | zero =>
    intro pos beam alloc h
    rw [chunkLoop_stop _ _ _ (by omega), chunkLoop_stop _ _ _ (by omega)]
  | succ fuel ih =>
    intro pos beam alloc h
    have hnext := le_nextChunk buffer pos
    have ih' : ∀ beam alloc, chunkLoop buffer size (fuel + 1) (nextChunk buffer pos) beam alloc =
        chunkLoop buffer size fuel (nextChunk buffer pos) beam alloc :=
      fun beam alloc => ih beam alloc (by omega)
    conv_lhs => rw [chunkLoop]
    conv_rhs => rw [chunkLoop]
    simp only [ih']

/-- **The loader stays inside a file exactly when it is too short, has another header, or consists
of chunks whose atoms fit into it.** -/
theorem safe_iff_chunksFit (buffer : Nat → Byte) (size : Nat) :
    SafeLoad buffer size ↔
      size < 12 ∨ isFor1 buffer = false ∨ isBeam buffer = false ∨ ChunksFit buffer size 12 := by
  constructor
  · intro h
    have hgranted := h fun _ => true
    by_cases hsize : size < 12
    · exact Or.inl hsize
    cases hfor : isFor1 buffer with
    | false => exact Or.inr (Or.inl rfl)
    | true =>
      cases hbeam : isBeam buffer with
      | false => exact Or.inr (Or.inr (Or.inl rfl))
      | true =>
        simp only [beamFileParse, hsize, hfor, hbeam, Bool.not_true, Bool.false_eq_true,
          if_false] at hgranted
        rw [inside_reading] at hgranted
        exact Or.inr (Or.inr (Or.inr (chunksFit_of_inside (by omega) hgranted.2)))
  · intro h alloc
    unfold beamFileParse
    split
    · exact inside_nil size
    · rename_i hsize
      have h0 : Inside size (indices 0 4) := inside_indices_of_le (by omega)
      have h8 : Inside size (indices 0 4 ++ indices 8 4) :=
        inside_append.mpr ⟨h0, inside_indices_of_le (by omega)⟩
      split
      · exact h0
      · rename_i hfor
        split
        · exact h8
        · rename_i hbeam
          split
          · exact h8
          · rw [inside_reading]
            refine ⟨h8, chunkLoop_inside ?_ _ _⟩
            rcases h with h | h | h | h
            · exact absurd h hsize
            · simp [h] at hfor
            · simp [h] at hbeam
            · exact h

/-- A file that ends with the header of an empty atom chunk. -/
def emptyAtoms : List Byte :=
  [70#8, 79#8, 82#8, 49#8, 0#8, 0#8, 0#8, 12#8, 66#8, 69#8, 65#8, 77#8,
    65#8, 116#8, 111#8, 109#8, 0#8, 0#8, 0#8, 0#8]

/-- **The loader leaves the file**: it looks for the number of atoms behind the end. -/
theorem emptyAtoms_left :
    20 ∈ (beamFileParse (fun i => emptyAtoms.getD i 0#8) emptyAtoms.length fun _ => true).reads ∧
      ¬ SafeLoad (fun i => emptyAtoms.getD i 0#8) emptyAtoms.length := by
  have hread : 20 ∈ (beamFileParse (fun i => emptyAtoms.getD i 0#8) emptyAtoms.length
      fun _ => true).reads := by decide
  exact ⟨hread, fun h => absurd (h _ 20 hread) (by decide)⟩

end BeamModular
