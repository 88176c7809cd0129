import BeamModular.Emulator.CodeServer
import BeamModular.Emulator.RoundTrip
import BeamModular.Emulator.Translate

/-!
# Files, modules and code

The way from a file to a run.  A host loads each file and registers it under the name that the
loader gives it; later it looks a module up by name, decodes its code chunk and calls the
interpreter.

The loader cuts the name of a module at 63 bytes, so it always fits the code server, and a
search for a longer name finds nothing.  Of the files with one name the first counts.  `Stocked`
says what the server then has in it, and `modules_run` follows a file all the way: what is
decoded in the end is its own code, and it does what the program says exactly if decoder and
interpreter agree on all of its instructions.
-/

namespace BeamModular

/-- A loaded file, and the buffer in which its chunks stand. -/
structure ModuleFile where
  buffer : Nat → Byte
  beam : BeamFile

/-- Load a file, with memory for everything. -/
def FileContents.load (f : FileContents) : Option ModuleFile :=
  (beamFileParse f.buffer f.bytes.length fun _ => true).file.map fun beam => ⟨f.buffer, beam⟩

/-- Load a file and register it under its own name. -/
def addModule (cs : CodeServer ModuleFile) (f : FileContents) : Option (CodeServer ModuleFile) :=
  f.load.map fun file =>
    (beamCodeServerRegisterModule cs (beamFileGetModuleName file.beam) file).1

/-- Look a module up and decode its code. -/
def moduleCode (cs : CodeServer ModuleFile) (name : List Byte) : Option (List Instruction) :=
  (beamCodeServerLookupModule cs name).bind fun file => file.beam.codeChunk.bind fun place =>
    beamDecodeCodeChunk (bytesAt file.buffer place.1 place.2) true

/-! ### One file -/

namespace FileContents

/-- The first atom, as far as there is room for it. -/
def moduleName (f : FileContents) : List Byte := (f.names.headD []).take 63

theorem cString_moduleName (f : FileContents) : cString f.moduleName = f.moduleName := by
  refine cString_eq_self fun hmem => ?_
  have hhead := List.mem_of_mem_take hmem
  cases hn : f.names with
  | nil =>
    rw [hn] at hhead
    cases hhead
  | cons name names =>
    rw [hn] at hhead
    exact f.nulFree name (by rw [hn]; exact List.mem_cons_self) hhead

theorem moduleName_short (f : FileContents) : (cString f.moduleName).length ≤ 63 := by
  rw [f.cString_moduleName]
  exact List.length_take_le _ _

theorem load_spec (f : FileContents) : ∃ file, f.load = some file ∧ file.buffer = f.buffer ∧
    beamFileGetModuleName file.beam = f.moduleName ∧
    ∀ kind : ChunkKind, kind.Named → file.beam.chunk kind = placeOf kind 12 f.chunks := by
  obtain ⟨beam, hparse, _, _, hname, hplace⟩ := f.parse
  exact ⟨⟨f.buffer, beam⟩, by rw [load, hparse]; rfl, rfl, hname, hplace⟩

end FileContents

/-! ### All files -/

/-- **What the server has in it** after these files: an entry for each name, with the first file of
that name. -/
structure Stocked (cs : CodeServer ModuleFile) (fs : List FileContents) : Prop where
  nodup : (cs.entries.map ModuleEntry.key).Nodup
  names : (cs.entries.map ModuleEntry.key).toFinset = (fs.map FileContents.moduleName).toFinset
  found : ∀ k, (cs.find ModuleEntry.key k).map ModuleEntry.file =
    (fs.find? fun f => f.moduleName = k).bind FileContents.load

section Stock

variable {cs : CodeServer ModuleFile} {fs : List FileContents} {f : FileContents}

theorem stocked_empty : Stocked .empty [] := ⟨List.nodup_nil, rfl, fun _ => rfl⟩

theorem Stocked.count (h : Stocked cs fs) :
    cs.entries.length = (fs.map FileContents.moduleName).toFinset.card := by
  rw [← h.names, List.toFinset_card_of_nodup h.nodup, List.length_map]

theorem toFinset_names_append (fs : List FileContents) (f : FileContents) :
    ((fs ++ [f]).map FileContents.moduleName).toFinset =
      insert f.moduleName (fs.map FileContents.moduleName).toFinset := by
  rw [List.map_append, List.toFinset_append, Finset.union_comm]
  rfl

theorem find_append (fs : List FileContents) (f : FileContents) (k : List Byte) :
    ((fs ++ [f]).find? fun f => f.moduleName = k).bind FileContents.load =
      ((fs.find? fun f => f.moduleName = k).bind FileContents.load).or
        (if f.moduleName = k then f.load else none) := by
  rw [List.find?_append, List.find?_singleton]
  cases fs.find? fun f => f.moduleName = k with
  | none =>
    by_cases hk : f.moduleName = k
    · simp [hk]
    · simp [hk]
  | some g =>
    obtain ⟨file, hfile, _⟩ := g.load_spec
    simp [hfile]

theorem Stocked.add (h : Stocked cs fs)
    (hfew : ((fs ++ [f]).map FileContents.moduleName).toFinset.card ≤ maxLoadedModules) :
    ∃ cs', addModule cs f = some cs' ∧ Stocked cs' (fs ++ [f]) := by
  obtain ⟨file, hload, _, hname, _⟩ := f.load_spec
  have hkey := f.cString_moduleName
  rw [toFinset_names_append] at hfew
  rw [addModule, hload, Option.map_some, hname]
  have hlookup : (beamCodeServerLookupModule cs f.moduleName).isSome ↔
      f.moduleName ∈ (fs.map FileContents.moduleName).toFinset := by
    rw [lookup_isSome_iff, hkey, ← h.names, List.mem_toFinset]
  by_cases hmem : f.moduleName ∈ (fs.map FileContents.moduleName).toFinset
  · -- the name is there: nothing changes, whether the table is full or not
    have hsome := hlookup.mpr hmem
    have hsame : (beamCodeServerRegisterModule cs f.moduleName file).1 = cs := by
      obtain ⟨_, hr⟩ | ⟨_, _, hr⟩ | ⟨_, hnone, _⟩ := register_cases cs f.moduleName file
      · rw [hr]
      · rw [hr]
      · rw [hnone] at hsome
        cases hsome
    refine ⟨cs, by rw [hsame], h.nodup, ?_, fun k => ?_⟩
    · rw [toFinset_names_append, Finset.insert_eq_of_mem hmem, h.names]
    · rw [find_append, ← h.found k]
      by_cases hk : f.moduleName = k
      · rw [beamCodeServerLookupModule, hkey, hk] at hsome
        obtain ⟨old, hold⟩ := Option.isSome_iff_exists.mp hsome
        rw [hold, Option.some_or]
      · rw [if_neg hk, Option.or_none]
  · rw [Finset.card_insert_of_notMem hmem, ← h.count] at hfew
    obtain ⟨hfull, _⟩ | ⟨_, hsome, _⟩ | ⟨hroom, hnone, hr⟩ :=
      register_cases cs f.moduleName file
    · omega
    · exact absurd (hlookup.mp hsome) hmem
    · have hkeys := @keys_push _ cs f.moduleName file f.moduleName_short hroom
      rw [hkey] at hkeys
      refine ⟨_, by rw [hr], ?_, ?_, fun k => ?_⟩
      · rw [hkeys, List.nodup_append]
        refine ⟨h.nodup, List.nodup_singleton _, fun k hk k' hk' he => hmem ?_⟩
        rw [← List.mem_singleton.mp hk', ← he, ← h.names, List.mem_toFinset]
        exact hk
      · rw [hkeys, List.toFinset_append, h.names, toFinset_names_append, Finset.union_comm]
        rfl
      · have hnew : (⟨.ofString f.moduleName 63, file⟩ : ModuleEntry ModuleFile).key =
            f.moduleName := by rw [key_ofString f.moduleName_short, hkey]
        rw [find_append, ← h.found k, Directory.find_push, Option.map_or, hnew]
        by_cases hk : f.moduleName = k
        · rw [if_pos hk, if_pos hk, hload]
          rfl
        · rw [if_neg hk, if_neg hk]
          rfl

theorem Stocked.run : ∀ (gs : List FileContents) {fs : List FileContents}
    {cs : CodeServer ModuleFile}, Stocked cs fs →
    ((fs ++ gs).map FileContents.moduleName).toFinset.card ≤ maxLoadedModules →
      ∃ cs', BeamModular.run addModule cs gs = some cs' ∧ Stocked cs' (fs ++ gs) := by
  intro gs
  induction gs with
  | nil =>
    intro fs cs h _
    exact ⟨cs, rfl, by rwa [List.append_nil]⟩
  | cons g gs ih =>
    intro fs cs h hfew
    have hsplit : fs ++ g :: gs = (fs ++ [g]) ++ gs := by simp
    rw [hsplit] at hfew ⊢
    have hfirst : ((fs ++ [g]).map FileContents.moduleName).toFinset.card ≤ maxLoadedModules := by
      refine (Finset.card_le_card fun n hn => ?_).trans hfew
      rw [List.mem_toFinset] at hn ⊢
      rw [List.map_append]
      exact List.mem_append_left _ hn
    obtain ⟨cs₁, hadd, h₁⟩ := h.add hfirst
    obtain ⟨cs', hrun, h'⟩ := ih h₁ hfew
    exact ⟨cs', by rw [BeamModular.run, hadd, Option.bind_some, hrun], h'⟩

/-- **A module's code** is the code chunk of the first file with its name. -/
theorem Stocked.code (h : Stocked cs fs) {name : List Byte}
    (hf : (fs.find? fun f => f.moduleName = cString name) = some f) {as bs : List BeamChunk}
    {c : BeamChunk} (hc : f.chunks = as ++ c :: bs) (hcode : c.kind = .code) :
    moduleCode cs name = beamDecodeCodeChunk c.data true := by
  obtain ⟨file, hload, hbuffer, _, hplace⟩ := f.load_spec
  have hnamed : c.kind.Named := by
    rw [hcode]
    exact ⟨ChunkKind.noConfusion, fun _ => ChunkKind.noConfusion⟩
  have hchunk : file.beam.codeChunk =
      some (12 + (encodeChunks as).length + 8, c.data.length) := by
    have hat := (hplace c.kind hnamed).trans (FileContents.placeOf_named hc hnamed)
    rwa [hcode] at hat
  rw [moduleCode, beamCodeServerLookupModule, h.found, hf, Option.bind_some, hload,
    Option.bind_some, hchunk, Option.bind_some, hbuffer, FileContents.bytesAt_chunk hc]

end Stock

/-- **From files to runs.**  Whatever files are loaded and registered under their own names, as long
as there are no more than 128 names: the server counts the names and finds these and no others, a
name leads to the code of the first file that has it, and when that is decoded and called, it does
what the program in the file says exactly if the program is short enough and has only instructions
that survive. -/
theorem modules_run {alloc : Bool} {cs : CodeServer ModuleFile}
    (hnew : beamCodeServerCreate ModuleFile alloc = some cs) {fs : List FileContents}
    (hfew : (fs.map FileContents.moduleName).toFinset.card ≤ maxLoadedModules) :
    ∃ cs', run addModule cs fs = some cs' ∧
      beamCodeServerModuleCount cs' = (fs.map FileContents.moduleName).toFinset.card ∧
      (∀ name, (beamCodeServerLookupModule cs' name).isSome ↔
        ∃ f ∈ fs, f.moduleName = cString name) ∧
      ∀ name f, (fs.find? fun f => f.moduleName = cString name) = some f →
        ∀ as c bs prog, f.chunks = as ++ c :: bs → c.kind = .code → IsChunk prog c.data →
          ∃ code, moduleCode cs' name = some code ∧
            (Preserves prog code ↔ prog.length ≤ maxDecoded ∧ ∀ a ∈ prog, a.Kept prog) := by
  have hempty : cs = .empty := by
    unfold beamCodeServerCreate at hnew
    split at hnew
    · cases hnew
      rfl
    · cases hnew
  subst hempty
  obtain ⟨cs', hrun, h⟩ := Stocked.run fs stocked_empty (by rwa [List.nil_append])
  rw [List.nil_append] at h
  refine ⟨cs', hrun, h.count, fun name => ?_, fun name f hf as c bs prog hc hcode hprog => ?_⟩
  · rw [lookup_isSome_iff, ← List.mem_toFinset, h.names, List.mem_toFinset, List.mem_map]
  · obtain ⟨body, hall, hdecode⟩ := decode_chunk hprog
    exact ⟨_, (h.code hf hc hcode).trans hdecode, preserves_decodeLoop hall⟩

/-- The module `a`, with a program that survives. -/
def keptFile : FileContents where
  formSize := [0#8, 0#8, 0#8, 0#8]
  isAtu8 := true
  names := [[97#8]]
  before := []
  behind := [⟨[67#8, 111#8, 100#8, 101#8], chunkOf keptBytes⟩]
  formSize_length := rfl
  few := by decide
  short := by decide
  nulFree := by decide
  ids := by
    intro c hc
    rcases List.mem_singleton.mp hc with rfl
    exact ⟨rfl, fun _ he => by cases he⟩
  once kind _ := List.countP_le_length
  fits := by decide

theorem modules_run_kept : ∃ cs code,
    run addModule .empty [smallFile, keptFile, smallFile] = some cs ∧
      beamCodeServerModuleCount cs = 2 ∧ moduleCode cs [97#8] = some code ∧
      Preserves keptProgram code := by
  obtain ⟨cs, hrun, hcount, _, hcode⟩ := @modules_run true .empty rfl
    [smallFile, keptFile, smallFile] (by decide)
  obtain ⟨code, hdecode, hiff⟩ := hcode [97#8] keptFile rfl _ _ [] keptProgram
    (show keptFile.chunks = [.atoms true [[97#8]]] ++ _ :: [] from rfl) rfl
    (isChunk_chunkOf encodes_keptProgram)
  exact ⟨cs, code, hrun, hcount, hdecode, hiff.mpr ⟨by decide, kept_keptProgram⟩⟩

end BeamModular
