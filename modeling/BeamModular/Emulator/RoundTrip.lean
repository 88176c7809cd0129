import BeamModular.Emulator.Load
import BeamModular.Lib.CString

/-!
# Loading what was serialised

The format the other way round: chunks with their names, their lengths and their
padding behind a header, and in the atom chunk the names behind their lengths.
`FileContents` is what a file can say, with the bounds that its lengths have to keep;
`FileContents.bytes` is the file.  `beamFileParse_bytes` is the round trip.

The two loops of the loader stay in step with the lists they read: `readAtoms_encoded` by
induction on the names, `chunkLoop_encoded` on the chunks.  `placeOf` says where the chunk
of a kind stands.
-/

namespace BeamModular

/-! ### Bytes of a list in a buffer -/

/-- The bytes stand in the buffer from `pos` on. -/
def Holds (buffer : Nat → Byte) (pos : Nat) (bs : List Byte) : Prop :=
  bytesAt buffer pos bs.length = bs

theorem indices_add (pos m n : Nat) :
    indices pos (m + n) = indices pos m ++ indices (pos + m) n := by
  unfold indices
  rw [List.range_add, List.map_append, List.map_map]
  congr 1
  refine List.map_congr_left fun i _ => ?_
  rw [Function.comp, Nat.add_assoc]

theorem bytesAt_add (buffer : Nat → Byte) (pos m n : Nat) :
    bytesAt buffer pos (m + n) = bytesAt buffer pos m ++ bytesAt buffer (pos + m) n := by
  rw [bytesAt, indices_add, List.map_append, bytesAt, bytesAt]

theorem length_bytesAt (buffer : Nat → Byte) (pos n : Nat) :
    (bytesAt buffer pos n).length = n := by
  rw [bytesAt, List.length_map, indices, List.length_map, List.length_range]

theorem holds_append {buffer : Nat → Byte} {pos : Nat} {as bs : List Byte} :
    Holds buffer pos (as ++ bs) ↔ Holds buffer pos as ∧ Holds buffer (pos + as.length) bs := by
  unfold Holds
  rw [List.length_append, bytesAt_add]
  exact ⟨fun h => List.append_inj h (length_bytesAt _ _ _), fun ⟨h1, h2⟩ => by rw [h1, h2]⟩

theorem holds_cons {buffer : Nat → Byte} {pos : Nat} {b : Byte} {bs : List Byte} :
    Holds buffer pos (b :: bs) ↔ buffer pos = b ∧ Holds buffer (pos + 1) bs := by
  rw [← List.singleton_append, holds_append]
  refine and_congr_left fun _ => ?_
  simp [Holds, bytesAt, indices]

theorem holds_getD (bs : List Byte) : Holds (fun i => bs.getD i 0#8) 0 bs := by
  apply List.ext_getElem
  · exact length_bytesAt _ _ _
  · intro i h1 h2
    simp [bytesAt, indices, List.getD_eq_getElem?_getD, h2]

/-! ### Numbers -/

/-- A number in four bytes, most significant first. -/
def be32 (n : Nat) : List Byte :=
  [BitVec.ofNat 8 (n / 2 ^ 24), BitVec.ofNat 8 (n / 2 ^ 16), BitVec.ofNat 8 (n / 2 ^ 8),
    BitVec.ofNat 8 n]

theorem toNat_readU32Be (b0 b1 b2 b3 : Byte) : (readU32Be b0 b1 b2 b3).toNat
    = 2 ^ 24 * b0.toNat + 2 ^ 16 * b1.toNat + 2 ^ 8 * b2.toNat + b3.toNat := by
  have h0 := b0.isLt
  have h1 := b1.isLt
  have h2 := b2.isLt
  have h3 := b3.isLt
  have e0 : (b0.setWidth 32 <<< 24).toNat = 2 ^ 24 * b0.toNat := by
    rw [BitVec.toNat_shiftLeft, BitVec.toNat_setWidth, Nat.shiftLeft_eq]
    omega
  have e1 : (b1.setWidth 32 <<< 16).toNat = 2 ^ 16 * b1.toNat := by
    rw [BitVec.toNat_shiftLeft, BitVec.toNat_setWidth, Nat.shiftLeft_eq]
    omega
  have e2 : (b2.setWidth 32 <<< 8).toNat = 2 ^ 8 * b2.toNat := by
    rw [BitVec.toNat_shiftLeft, BitVec.toNat_setWidth, Nat.shiftLeft_eq]
    omega
  have e3 : (b3.setWidth 32).toNat = b3.toNat := by
    rw [BitVec.toNat_setWidth]
    omega
  rw [readU32Be, BitVec.toNat_or, BitVec.toNat_or, BitVec.toNat_or, e0, e1, e2, e3,
    ← Nat.two_pow_add_eq_or_of_lt (i := 24) (by omega),
    show 2 ^ 24 * b0.toNat + 2 ^ 16 * b1.toNat = 2 ^ 16 * (2 ^ 8 * b0.toNat + b1.toNat) by omega,
    ← Nat.two_pow_add_eq_or_of_lt (i := 16) (by omega),
    show 2 ^ 16 * (2 ^ 8 * b0.toNat + b1.toNat) + 2 ^ 8 * b2.toNat
      = 2 ^ 8 * (2 ^ 16 * b0.toNat + 2 ^ 8 * b1.toNat + b2.toNat) by omega,
    ← Nat.two_pow_add_eq_or_of_lt (i := 8) h3]

/-- **A number comes back from its four bytes.** -/
theorem u32At_be32 {buffer : Nat → Byte} {pos n : Nat} (h : Holds buffer pos (be32 n))
    (hn : n < 2 ^ 32) : (u32At buffer pos).toNat = n := by
  unfold be32 at h
  rw [holds_cons, holds_cons, holds_cons, holds_cons] at h
  obtain ⟨h0, h1, h2, h3, _⟩ := h
  rw [u32At, h0, h1, h2, h3, toNat_readU32Be]
  simp only [BitVec.toNat_ofNat]
  omega

/-- A number of atoms comes back as it is when it has no sign. -/
theorem atomCount_be32 {buffer : Nat → Byte} {pos n : Nat} (h : Holds buffer pos (be32 n))
    (hn : n < 2 ^ 31) : (atomCount buffer pos).toNat = n := by
  have hraw := u32At_be32 h (by omega)
  have hpos : (u32At buffer pos).msb = false := by
    rw [BitVec.msb_eq_false_iff_two_mul_lt, hraw]
    omega
  rw [atomCount, hpos]
  exact hraw

/-! ### The format -/

/-- The name of an atom behind its length. -/
def encodeName (isAtu8 : Bool) (name : List Byte) : List Byte :=
  (if isAtu8 then [BitVec.ofNat 8 (name.length / 256), BitVec.ofNat 8 name.length]
    else [BitVec.ofNat 8 name.length]) ++ name

/-- A chunk: its four bytes of name and its data. -/
structure BeamChunk where
  id : List Byte
  data : List Byte
  deriving DecidableEq, Repr

namespace BeamChunk

def kind (c : BeamChunk) : ChunkKind := chunkKind c.id

/-- Name, length, data, and zeros up to a multiple of four bytes. -/
def encode (c : BeamChunk) : List Byte :=
  c.id ++ be32 c.data.length ++ c.data ++ List.replicate ((4 - c.data.length % 4) % 4) 0#8

/-- The atom chunk: the number of atoms and the names. -/
def atoms (isAtu8 : Bool) (names : List (List Byte)) : BeamChunk where
  id := if isAtu8 then [65#8, 116#8, 85#8, 56#8] else [65#8, 116#8, 111#8, 109#8]
  data := be32 names.length ++ names.flatMap (encodeName isAtu8)

end BeamChunk

theorem kind_atoms (isAtu8 : Bool) (names : List (List Byte)) :
    (BeamChunk.atoms isAtu8 names).kind = .atoms isAtu8 := by
  cases isAtu8 <;> rfl

/-- The bytes of the chunks, one after the other. -/
def encodeChunks (cs : List BeamChunk) : List Byte := cs.flatMap BeamChunk.encode

theorem encodeChunks_cons (c : BeamChunk) (cs : List BeamChunk) :
    encodeChunks (c :: cs) = c.encode ++ encodeChunks cs := List.flatMap_cons

theorem encodeChunks_append (as bs : List BeamChunk) :
    encodeChunks (as ++ bs) = encodeChunks as ++ encodeChunks bs := List.flatMap_append

/-- A chunk whose place the loader keeps. -/
def ChunkKind.Named (kind : ChunkKind) : Prop := kind ≠ .other ∧ ∀ isAtu8, kind ≠ .atoms isAtu8

/-- **What a file says**: one atom chunk, other chunks before and behind it, each named one at most
once, and no length beyond what its bytes can hold. -/
structure FileContents where
  formSize : List Byte
  isAtu8 : Bool
  names : List (List Byte)
  before : List BeamChunk
  behind : List BeamChunk
  formSize_length : formSize.length = 4
  few : names.length ≤ maxAtoms
  short : ∀ name ∈ names, name.length < 256 ^ lenBytes isAtu8
  nulFree : ∀ name ∈ names, 0#8 ∉ name
  ids : ∀ c ∈ before ++ behind, c.id.length = 4 ∧ ∀ isAtu8, c.kind ≠ .atoms isAtu8
  once : ∀ kind : ChunkKind, kind.Named → (before ++ behind).countP (fun c => c.kind = kind) ≤ 1
  fits : ∀ c ∈ before ++ BeamChunk.atoms isAtu8 names :: behind, c.data.length < 2 ^ 32

namespace FileContents

def chunks (f : FileContents) : List BeamChunk :=
  f.before ++ BeamChunk.atoms f.isAtu8 f.names :: f.behind

/-- `FOR1`, the size of the form, `BEAM`, and the chunks. -/
def bytes (f : FileContents) : List Byte :=
  [70#8, 79#8, 82#8, 49#8] ++ f.formSize ++ [66#8, 69#8, 65#8, 77#8] ++ encodeChunks f.chunks

end FileContents

/-! ### What the loader keeps -/

/-- Where the chunk of a kind stands. -/
def BeamFile.chunk (beam : BeamFile) : ChunkKind → Option (Nat × Nat)
  | .code => beam.codeChunk
  | .lit => beam.litChunk
  | .exp => beam.expChunk
  | .imp => beam.impChunk
  | .str => beam.strChunk
  | _ => none

/-- `beam_file_get_module_name`. -/
def beamFileGetModuleName (beam : BeamFile) : List Byte := beam.moduleName

/-- `beam_file_get_atom_count`. -/
def beamFileGetAtomCount (beam : BeamFile) : Nat := beam.atomCount

/-- `beam_file_get_atom`: the string at the pointer, or null. -/
def beamFileGetAtom (beam : BeamFile) (index : Nat) : Option (List Byte) :=
  if index ≥ beam.atomCount then none
  else beam.atomTable.bind fun table => (table[index]?.join).map cString

theorem chunk_setChunk {beam : BeamFile} {kind kind' : ChunkKind} {pos len : Nat}
    (h : kind'.Named) :
    (beam.setChunk kind pos len).chunk kind' =
      if kind = kind' then some (pos, len) else beam.chunk kind' := by
  cases kind' with
  | other => exact absurd rfl h.1
  | atoms isAtu8 => exact absurd rfl (h.2 isAtu8)
  | code => cases kind <;> rfl
  | lit => cases kind <;> rfl
  | exp => cases kind <;> rfl
  | imp => cases kind <;> rfl
  | str => cases kind <;> rfl

theorem atoms_setChunk (beam : BeamFile) (kind : ChunkKind) (pos len : Nat) :
    (beam.setChunk kind pos len).atomTable = beam.atomTable ∧
      (beam.setChunk kind pos len).atomCount = beam.atomCount ∧
      (beam.setChunk kind pos len).moduleName = beam.moduleName := by
  cases kind <;> exact ⟨rfl, rfl, rfl⟩

/-! ### Names -/

section Loader

variable {buffer : Nat → Byte} {size : Nat} {isAtu8 : Bool}

theorem atomLen_encoded {pos : Nat} {name : List Byte}
    (h : Holds buffer pos (encodeName isAtu8 name)) (hshort : name.length < 256 ^ lenBytes isAtu8) :
    atomLen buffer isAtu8 pos = name.length ∧ Holds buffer (pos + lenBytes isAtu8) name := by
  cases isAtu8 with
  | true =>
    rw [lenBytes, if_pos rfl] at hshort ⊢
    rw [encodeName, if_pos rfl, List.cons_append, List.cons_append, List.nil_append, holds_cons,
      holds_cons] at h
    obtain ⟨h0, h1, h2⟩ := h
    refine ⟨?_, h2⟩
    rw [atomLen, if_pos rfl, h0, h1, BitVec.toNat_ofNat, BitVec.toNat_ofNat]
    omega
  | false =>
    rw [lenBytes, if_neg (by decide)] at hshort ⊢
    rw [encodeName, if_neg (by decide), List.cons_append, List.nil_append, holds_cons] at h
    refine ⟨?_, h.2⟩
    rw [atomLen, if_neg (by decide), h.1, BitVec.toNat_ofNat]
    omega

theorem length_encodeName (name : List Byte) :
    (encodeName isAtu8 name).length = lenBytes isAtu8 + name.length := by
  cases isAtu8 <;> simp [encodeName, lenBytes] <;> omega

theorem readAtoms_encoded : ∀ {names : List (List Byte)} {pos : Nat},
    (∀ name ∈ names, name.length < 256 ^ lenBytes isAtu8) →
      Holds buffer pos (names.flatMap (encodeName isAtu8)) →
        (readAtoms buffer isAtu8 names.length pos fun _ => true).1 = names.map some := by
  intro names
  induction names with
  | nil => intro pos _ _; rfl
  | cons name names ih =>
    intro pos hshort h
    rw [List.flatMap_cons, holds_append] at h
    obtain ⟨hlen, hname⟩ := atomLen_encoded h.1 (hshort name List.mem_cons_self)
    rw [length_encodeName, ← Nat.add_assoc] at h
    rw [List.length_cons, readAtoms, if_pos rfl, hlen, hname, List.map_cons]
    dsimp only
    rw [ih (fun n hn => hshort n (List.mem_cons_of_mem _ hn)) h.2]

/-! ### Chunks -/

theorem length_encode {c : BeamChunk} (hid : c.id.length = 4) :
    c.encode.length = 8 + (c.data.length + (4 - c.data.length % 4) % 4) := by
  simp only [BeamChunk.encode, be32, List.length_append, List.length_cons, List.length_nil,
    List.length_replicate, hid]
  omega

/-- **What the loader sees of a chunk.** -/
theorem chunk_encoded {pos : Nat} {c : BeamChunk} (h : Holds buffer pos c.encode)
    (hid : c.id.length = 4) (hfit : c.data.length < 2 ^ 32) :
    kindAt buffer pos = c.kind ∧ lenAt buffer pos = c.data.length ∧
      Holds buffer (pos + 8) c.data ∧ nextChunk buffer pos = pos + c.encode.length := by
  have hlen := length_encode hid
  rw [BeamChunk.encode, holds_append, holds_append, holds_append, hid] at h
  obtain ⟨⟨⟨hname, hsize⟩, hdata⟩, _⟩ := h
  have hat : lenAt buffer pos = c.data.length := u32At_be32 hsize hfit
  have h8 : (c.id ++ be32 c.data.length).length = 8 := by
    rw [List.length_append, hid]
    rfl
  rw [h8] at hdata
  refine ⟨?_, hat, hdata, ?_⟩
  · rw [Holds, hid] at hname
    rw [kindAt, hname, BeamChunk.kind]
  · rw [nextChunk, hat, hlen]
    omega

/-- Where the last chunk of a kind stands, behind its header. -/
def placeOf (kind : ChunkKind) : Nat → List BeamChunk → Option (Nat × Nat)
  | _, [] => none
  | pos, c :: cs =>
    (placeOf kind (pos + c.encode.length) cs).or
      (if c.kind = kind then some (pos + 8, c.data.length) else none)

theorem placeOf_eq_none {kind : ChunkKind} : ∀ {cs : List BeamChunk} {pos : Nat},
    (∀ c ∈ cs, c.kind ≠ kind) → placeOf kind pos cs = none := by
  intro cs
  induction cs with
  | nil => intro pos _; rfl
  | cons c cs ih =>
    intro pos h
    rw [placeOf, ih fun c hc => h c (List.mem_cons_of_mem _ hc), if_neg (h c List.mem_cons_self)]
    rfl

theorem placeOf_append {kind : ChunkKind} {bs : List BeamChunk} :
    ∀ {as : List BeamChunk} {pos : Nat}, placeOf kind pos (as ++ bs) =
      (placeOf kind (pos + (encodeChunks as).length) bs).or (placeOf kind pos as) := by
  intro as
  induction as with
  | nil => intro pos; rw [List.nil_append, placeOf, Option.or_none]; rfl
  | cons a as ih =>
    intro pos
    rw [List.cons_append, placeOf, ih, placeOf, Option.or_assoc, encodeChunks_cons,
      List.length_append, Nat.add_assoc]

theorem placeOf_only {kind : ChunkKind} {as bs : List BeamChunk} {c : BeamChunk} {pos : Nat}
    (hc : c.kind = kind) (hbs : ∀ c ∈ bs, c.kind ≠ kind) :
    placeOf kind pos (as ++ c :: bs)
      = some (pos + (encodeChunks as).length + 8, c.data.length) := by
  rw [placeOf_append, placeOf, placeOf_eq_none hbs, Option.none_or, if_pos hc, Option.some_or]

/-- **The loop over chunks without atoms** keeps their places and leaves the atoms alone, by
induction on the chunks. -/
theorem chunkLoop_encoded (fuel : Nat) : ∀ {cs : List BeamChunk} {pos : Nat} (beam : BeamFile),
    (∀ c ∈ cs, c.id.length = 4 ∧ (∀ isAtu8, c.kind ≠ .atoms isAtu8) ∧ c.data.length < 2 ^ 32) →
      Holds buffer pos (encodeChunks cs) → pos + (encodeChunks cs).length ≤ size →
        ∃ beam', (chunkLoop buffer size (fuel + cs.length) pos beam fun _ => true).file =
            (chunkLoop buffer size fuel (pos + (encodeChunks cs).length) beam' fun _ => true).file ∧
          beam'.atomTable = beam.atomTable ∧ beam'.atomCount = beam.atomCount ∧
          beam'.moduleName = beam.moduleName ∧
          ∀ kind : ChunkKind, kind.Named →
            beam'.chunk kind = (placeOf kind pos cs).or (beam.chunk kind) := by
  intro cs
  induction cs with
  | nil =>
    intro pos beam _ _ _
    exact ⟨beam, rfl, rfl, rfl, rfl, fun _ _ => by rw [placeOf, Option.none_or]⟩
  | cons c cs ih =>
    intro pos beam hcs h hle
    obtain ⟨hid, hplain, hfit⟩ := hcs c List.mem_cons_self
    rw [encodeChunks_cons, holds_append] at h
    rw [encodeChunks_cons, List.length_append] at hle
    obtain ⟨hkind, hlen, _, hnext⟩ := chunk_encoded h.1 hid hfit
    have hsize := length_encode hid
    obtain ⟨beam', hfile, ht, hc, hm, hplace⟩ := ih (beam.setChunk c.kind (pos + 8) c.data.length)
      (fun c hc => hcs c (List.mem_cons_of_mem _ hc)) h.2 (by omega)
    obtain ⟨ht', hc', hm'⟩ := atoms_setChunk beam c.kind (pos + 8) c.data.length
    refine ⟨beam', ?_, ht.trans ht', hc.trans hc', hm.trans hm', fun kind hk => ?_⟩
    · rw [List.length_cons, ← Nat.add_assoc,
        chunkLoop_plain _ _ _ (by omega) (by rw [hkind]; exact hplain), hnext, hkind, hlen]
      rw [encodeChunks_cons, List.length_append, ← Nat.add_assoc]
      exact hfile
    · rw [hplace kind hk, chunk_setChunk hk, placeOf, Option.or_assoc]
      congr 1
      split <;> rfl

theorem chunkLoop_atomChunk (fuel : Nat) {names : List (List Byte)} {pos : Nat} (beam : BeamFile)
    (hfew : names.length ≤ maxAtoms) (hshort : ∀ name ∈ names, name.length < 256 ^ lenBytes isAtu8)
    (hfit : (BeamChunk.atoms isAtu8 names).data.length < 2 ^ 32)
    (h : Holds buffer pos (BeamChunk.atoms isAtu8 names).encode)
    (hle : pos + (BeamChunk.atoms isAtu8 names).encode.length ≤ size) :
    (chunkLoop buffer size (fuel + 1) pos beam fun _ => true).file =
      (chunkLoop buffer size fuel (pos + (BeamChunk.atoms isAtu8 names).encode.length)
        ({ beam with
          atomTable := some (names.map some)
          atomCount := names.length }.setModuleName (names.map some)) fun _ => true).file := by
  have hid : (BeamChunk.atoms isAtu8 names).id.length = 4 := by cases isAtu8 <;> rfl
  have hsize := length_encode hid
  obtain ⟨hkind, hlen, hdata, hnext⟩ := chunk_encoded h hid hfit
  obtain ⟨hnum, hnames⟩ := holds_append.mp hdata
  have hcount := atomCount_be32 hnum (lt_of_le_of_lt hfew (by decide))
  have hread := readAtoms_encoded hshort hnames
  rw [chunkLoop, if_pos (by omega), if_neg (by omega), hkind, kind_atoms]
  dsimp only
  rw [hcount, if_neg (by omega), if_pos rfl, hnext]
  change (chunkLoop buffer size fuel _ (BeamFile.setModuleName _ _) _).file = _
  rw [show pos + 8 + 4 = pos + 8 + (be32 names.length).length from rfl, hread]

end Loader

/-! ### The round trip -/

namespace FileContents

variable (f : FileContents)

/-- The file as a buffer. -/
def buffer (i : Nat) : Byte := f.bytes.getD i 0#8

theorem holds_parts : Holds f.buffer 0 [70#8, 79#8, 82#8, 49#8] ∧
    Holds f.buffer 8 [66#8, 69#8, 65#8, 77#8] ∧ Holds f.buffer 12 (encodeChunks f.chunks) := by
  have h : Holds f.buffer 0 f.bytes := holds_getD f.bytes
  rw [bytes, holds_append, holds_append, holds_append] at h
  obtain ⟨⟨⟨hfor, _⟩, hbeam⟩, hchunks⟩ := h
  simp only [List.length_append, f.formSize_length, List.length_cons, List.length_nil]
    at hbeam hchunks
  exact ⟨hfor, hbeam, hchunks⟩

theorem length_bytes : f.bytes.length = 12 + (encodeChunks f.chunks).length := by
  simp only [bytes, List.length_append, f.formSize_length, List.length_cons, List.length_nil]

theorem atoms_kind_ne {kind : ChunkKind} (hk : kind.Named) :
    (BeamChunk.atoms f.isAtu8 f.names).kind ≠ kind := by
  rw [kind_atoms]
  exact (hk.2 _).symm

theorem count_named {kind : ChunkKind} (hk : kind.Named) :
    f.chunks.countP (fun c => c.kind = kind) ≤ 1 := by
  rw [chunks, List.countP_append, List.countP_cons_of_neg (by simpa using f.atoms_kind_ne hk),
    ← List.countP_append]
  exact f.once kind hk

theorem only_named {as bs : List BeamChunk} {c : BeamChunk} (h : f.chunks = as ++ c :: bs)
    (hk : c.kind.Named) : ∀ b ∈ bs, b.kind ≠ c.kind := by
  have hcount := f.count_named hk
  rw [h, List.countP_append, List.countP_cons_of_pos (by simp)] at hcount
  have hzero : bs.countP (fun b => b.kind = c.kind) = 0 := by omega
  intro b hb he
  exact List.countP_eq_zero.mp hzero b hb (by simpa using he)

end FileContents

theorem length_le_encodeChunks : ∀ {cs : List BeamChunk}, (∀ c ∈ cs, c.id.length = 4) →
    cs.length ≤ (encodeChunks cs).length := by
  intro cs
  induction cs with
  | nil => intro _; exact Nat.le_refl 0
  | cons c cs ih =>
    intro h
    have hc := length_encode (h c List.mem_cons_self)
    have hcs := ih fun c hc => h c (List.mem_cons_of_mem _ hc)
    rw [encodeChunks_cons, List.length_append, List.length_cons]
    omega

namespace FileContents

variable (f : FileContents)

theorem id_length {c : BeamChunk} (hc : c ∈ f.chunks) : c.id.length = 4 := by
  rcases List.mem_append.mp hc with hc | hc
  · exact (f.ids c (List.mem_append_left _ hc)).1
  · rcases List.mem_cons.mp hc with rfl | hc
    · cases f.isAtu8 <;> rfl
    · exact (f.ids c (List.mem_append_right _ hc)).1

/-- The names give the module's name, and nothing else. -/
theorem setModuleName_names (f : FileContents) (beam : BeamFile) (hname : beam.moduleName = []) :
    (beam.setModuleName (f.names.map some)).atomTable = beam.atomTable ∧
      (beam.setModuleName (f.names.map some)).atomCount = beam.atomCount ∧
      (beam.setModuleName (f.names.map some)).moduleName = (f.names.headD []).take 63 ∧
      ∀ kind, (beam.setModuleName (f.names.map some)).chunk kind = beam.chunk kind := by
  cases hn : f.names with
  | nil => exact ⟨rfl, rfl, hname, fun _ => rfl⟩
  | cons name names =>
    have hnul : 0#8 ∉ name := f.nulFree name (by rw [hn]; exact List.mem_cons_self)
    refine ⟨rfl, rfl, ?_, fun kind => by cases kind <;> rfl⟩
    change (cString name).take 63 = name.take 63
    rw [cString_eq_self hnul]

/-- The beam file after the whole loop: the names, and the places of all chunks. -/
theorem chunkLoop_file : ∃ beam,
    (chunkLoop f.buffer f.bytes.length f.bytes.length 12 .zero fun _ => true).file = some beam ∧
      beam.atomTable = some (f.names.map some) ∧ beam.atomCount = f.names.length ∧
      beam.moduleName = (f.names.headD []).take 63 ∧
      ∀ kind : ChunkKind, kind.Named → beam.chunk kind = placeOf kind 12 f.chunks := by
  obtain ⟨_, _, hchunks⟩ := f.holds_parts
  have hsize := f.length_bytes
  have hcount : f.chunks.length ≤ (encodeChunks f.chunks).length :=
    length_le_encodeChunks fun c hc => f.id_length hc
  obtain ⟨fuel, hfuel⟩ : ∃ fuel, f.bytes.length
      = fuel + f.behind.length + 1 + f.before.length :=
    ⟨f.bytes.length - f.chunks.length, by
      have hlen : f.chunks.length = f.before.length + (f.behind.length + 1) := by
        rw [chunks, List.length_append, List.length_cons]
      omega⟩
  rw [chunks, encodeChunks_append, encodeChunks_cons, holds_append, holds_append] at hchunks
  rw [chunks, encodeChunks_append, encodeChunks_cons, List.length_append,
    List.length_append] at hsize
  obtain ⟨hbefore, hatoms, hbehind⟩ := hchunks
  obtain ⟨b₁, hloop₁, _, _, hname₁, hplace₁⟩ := @chunkLoop_encoded f.buffer
    f.bytes.length (fuel + f.behind.length + 1) _ _ .zero
    (fun c hc => ⟨(f.ids c (List.mem_append_left _ hc)).1, (f.ids c (List.mem_append_left _ hc)).2,
      f.fits c (List.mem_append_left _ hc)⟩) hbefore (by omega)
  have hloop₂ := @chunkLoop_atomChunk f.buffer f.bytes.length f.isAtu8 (fuel + f.behind.length)
    _ _ b₁ f.few f.short (f.fits _ (by simp)) hatoms (by omega)
  obtain ⟨b₃, hloop₃, ht, hc, hm, hplace₃⟩ := @chunkLoop_encoded f.buffer
    f.bytes.length fuel _ _ ({ b₁ with
      atomTable := some (f.names.map some)
      atomCount := f.names.length }.setModuleName (f.names.map some))
    (fun c hc => ⟨(f.ids c (List.mem_append_right _ hc)).1,
      (f.ids c (List.mem_append_right _ hc)).2,
      f.fits c (List.mem_append_right _ (List.mem_cons_of_mem _ hc))⟩) hbehind (by omega)
  obtain ⟨ht', hc', hm', hplace₂⟩ := setModuleName_names (f := f)
    { b₁ with atomTable := some (f.names.map some), atomCount := f.names.length } hname₁
  have hstop : (chunkLoop f.buffer f.bytes.length fuel (12 + (encodeChunks f.before).length +
      (BeamChunk.atoms f.isAtu8 f.names).encode.length + (encodeChunks f.behind).length) b₃
      fun _ => true).file = some b₃ := by rw [chunkLoop_stop _ _ _ (by omega)]
  have hall := hloop₁.trans (hloop₂.trans (hloop₃.trans hstop))
  rw [← hfuel] at hall
  refine ⟨b₃, hall, ht.trans ht', hc.trans hc', hm.trans hm', fun kind hk => ?_⟩
  rw [hplace₃ kind hk, hplace₂]
  change (placeOf kind _ f.behind).or (b₁.chunk kind) = _
  rw [hplace₁ kind hk, chunks, placeOf_append, placeOf, if_neg (f.atoms_kind_ne hk),
    Option.or_none]
  congr 1
  cases kind <;> exact Option.or_none

theorem parse : ∃ beam, (beamFileParse f.buffer f.bytes.length fun _ => true).file = some beam ∧
    beam.atomTable = some (f.names.map some) ∧ beam.atomCount = f.names.length ∧
    beam.moduleName = (f.names.headD []).take 63 ∧
    ∀ kind : ChunkKind, kind.Named → beam.chunk kind = placeOf kind 12 f.chunks := by
  obtain ⟨hfor, hbeam, _⟩ := f.holds_parts
  have hsize := f.length_bytes
  have hfor' : isFor1 f.buffer = true := by rw [isFor1, beq_iff_eq]; exact hfor
  have hbeam' : isBeam f.buffer = true := by rw [isBeam, beq_iff_eq]; exact hbeam
  rw [beamFileParse, if_neg (by omega), hfor', hbeam']
  exact f.chunkLoop_file

variable {f} {as bs : List BeamChunk} {c : BeamChunk}

theorem bytesAt_chunk (h : f.chunks = as ++ c :: bs) :
    bytesAt f.buffer (12 + (encodeChunks as).length + 8) c.data.length = c.data := by
  obtain ⟨_, _, hchunks⟩ := f.holds_parts
  have hmem : c ∈ f.chunks := by rw [h]; simp
  rw [h, encodeChunks_append, encodeChunks_cons, holds_append, holds_append] at hchunks
  exact (chunk_encoded hchunks.2.1 (f.id_length hmem) (f.fits c hmem)).2.2.1

theorem placeOf_named (h : f.chunks = as ++ c :: bs) (hk : c.kind.Named) :
    placeOf c.kind 12 f.chunks = some (12 + (encodeChunks as).length + 8, c.data.length) := by
  rw [h, placeOf_only rfl (f.only_named h hk)]

end FileContents

/-- **Loading undoes serialisation**: the loader, with memory for everything, gives the atoms of the
file in their order, the first one's name, and of each named chunk the place of its data. -/
theorem beamFileParse_bytes (f : FileContents) :
    ∃ beam, (beamFileParse f.buffer f.bytes.length fun _ => true).file = some beam ∧
      beamFileGetAtomCount beam = f.names.length ∧
      (∀ i, beamFileGetAtom beam i = f.names[i]?) ∧
      beamFileGetModuleName beam = (f.names.headD []).take 63 ∧
      (∀ as c bs, f.chunks = as ++ c :: bs → c.kind.Named →
        beam.chunk c.kind = some (12 + (encodeChunks as).length + 8, c.data.length) ∧
          bytesAt f.buffer (12 + (encodeChunks as).length + 8) c.data.length = c.data) ∧
      ∀ kind : ChunkKind, kind.Named → (∀ c ∈ f.chunks, c.kind ≠ kind) →
        beam.chunk kind = none := by
  obtain ⟨beam, hparse, htable, hcount, hname, hplace⟩ := f.parse
  refine ⟨beam, hparse, hcount, fun i => ?_, hname, fun as c bs hcs hk => ⟨?_, ?_⟩,
    fun kind hk hno => by rw [hplace kind hk, placeOf_eq_none hno]⟩
  · rw [beamFileGetAtom, hcount, htable]
    by_cases hi : i ≥ f.names.length
    · rw [if_pos hi, List.getElem?_eq_none hi]
    · have hlt : i < f.names.length := by omega
      rw [if_neg hi, Option.bind_some, List.getElem?_map, List.getElem?_eq_getElem hlt]
      exact congrArg some (cString_eq_self (f.nulFree _ (List.getElem_mem hlt)))
  · rw [hplace c.kind hk, FileContents.placeOf_named hcs hk]
  · exact FileContents.bytesAt_chunk hcs

/-- The module `ab` with a function `c`, its code between an empty chunk and an unknown one. -/
def smallFile : FileContents where
  formSize := [0#8, 0#8, 0#8, 60#8]
  isAtu8 := true
  names := [[97#8, 98#8], [99#8]]
  before := [⟨[83#8, 116#8, 114#8, 84#8], []⟩]
  behind := [⟨[67#8, 111#8, 100#8, 101#8], [1#8, 2#8, 3#8, 4#8, 5#8]⟩,
    ⟨[76#8, 105#8, 110#8, 101#8], [0#8]⟩]
  formSize_length := rfl
  few := by decide
  short := by decide
  nulFree := by decide
  ids := by
    intro c hc
    simp only [List.cons_append, List.nil_append, List.mem_cons, List.not_mem_nil, or_false] at hc
    rcases hc with rfl | rfl | rfl <;> exact ⟨rfl, fun _ he => by cases he⟩
  once kind hk := by
    cases kind with
    | atoms isAtu8 => exact absurd rfl (hk.2 isAtu8)
    | _ => decide
  fits := by decide

example : (beamFileParse smallFile.buffer smallFile.bytes.length fun _ => true).file = some {
    moduleName := [97#8, 98#8]
    atomTable := some [some [97#8, 98#8], some [99#8]]
    atomCount := 2
    codeChunk := some (48, 5)
    litChunk := none
    expChunk := none
    impChunk := none
    strChunk := some (20, 0) } := by decide +kernel

end BeamModular
