import BeamModular.Emulator.Framing

/-!
# The header of a code chunk

A code chunk begins with the size of its header, and the decoder starts that many bytes
behind this word.  It adds the two in 32 bits: from a size of 2^32 - 4 on the sum begins
again at 0, and the decoder starts inside the word itself.  `behindHeader_iff` says that
these are all the sizes for which the header is decoded.
-/

namespace BeamModular

/-- The first word of a chunk: the size of what stands before the code. -/
def subSize : List Byte → Nat
  | b0 :: b1 :: b2 :: b3 :: _ => (readU32Be b0 b1 b2 b3).toNat
  | _ => 0

/-- The instruction is what the decoder makes of the bytes from the offset on. -/
def InstrAt (chunk : List Byte) (off : Nat) (instr : Instruction) : Prop :=
  ∃ opcode p, chunk.drop off = opcode :: p ∧ instr = (decodeInstr opcode.toNat p).1

/-- **The header is not decoded**: the instructions that are returned start behind it, each one is
decoded from the bytes from its offset on, and there is none where the chunk ends with the
header. -/
def BehindHeader (chunk : List Byte) (granted : Bool) : Prop :=
  ∀ is, beamDecodeCodeChunk chunk granted = some is →
    is = (decodedAt chunk).map Prod.snd ∧
    (∀ x ∈ decodedAt chunk, 4 + subSize chunk ≤ x.1 ∧ InstrAt chunk x.1 x.2) ∧
    (chunk.length ≤ 4 + subSize chunk → is = [])

variable {chunk : List Byte}

/-- The decoder starts behind the header, modulo 2^32. -/
theorem codeStart_eq (h : 4 ≤ chunk.length) : codeStart chunk = (4 + subSize chunk) % 2 ^ 32 := by
  match chunk, h with
  | b0 :: b1 :: b2 :: b3 :: rest, _ =>
    rw [codeStart, subSize, BitVec.toNat_add]
    rfl

theorem subSize_lt (chunk : List Byte) : subSize chunk < 2 ^ 32 := by
  unfold subSize
  split
  · exact BitVec.isLt _
  · decide

theorem le_of_mem_decodeTrace : ∀ {left off : Nat} {code : List Byte},
    ∀ x ∈ decodeTrace left off code, off ≤ x.1 := by
  intro left
  induction left with
  | zero => intro off code x hx; cases hx
  | succ left ih =>
    intro off code x hx
    cases code with
    | nil => cases hx
    | cons opcode p =>
      rw [decodeTrace, List.mem_cons] at hx
      rcases hx with rfl | hx
      · exact Nat.le_refl off
      · have hle := ih x hx
        omega

theorem exists_mem_decodedAt (h : codeStart chunk < chunk.length) :
    ∃ x ∈ decodedAt chunk, x.1 = codeStart chunk := by
  obtain ⟨opcode, p, hcode⟩ : ∃ opcode p, codeBytes chunk = opcode :: p := by
    refine List.exists_cons_of_ne_nil fun hnil => ?_
    rw [codeBytes, List.drop_eq_nil_iff] at hnil
    omega
  rw [decodedAt, hcode, show maxDecoded = 100000 + 1 from rfl, decodeTrace]
  exact ⟨_, List.mem_cons_self, rfl⟩

theorem not_behindHeader (h : 20 ≤ chunk.length) (hlt : codeStart chunk < 4 + subSize chunk)
    (hcode : codeStart chunk < chunk.length) : ¬ BehindHeader chunk true := by
  intro hbehind
  obtain ⟨x, hx, hoff⟩ := exists_mem_decodedAt hcode
  obtain ⟨_, hoffs, _⟩ := hbehind _ (beamDecodeCodeChunk_eq h)
  have hle := (hoffs x hx).1
  omega

/-- **The header is kept apart from the code exactly where the offset behind it fits into 32
bits**, or where there is no memory for the instructions. -/
theorem behindHeader_iff (h : 20 ≤ chunk.length) (granted : Bool) :
    BehindHeader chunk granted ↔ 4 + subSize chunk < 2 ^ 32 ∨ granted = false := by
  have hstart := codeStart_eq (show 4 ≤ chunk.length by omega)
  have hsub := subSize_lt chunk
  cases granted with
  | false =>
    refine iff_of_true (fun is his => ?_) (Or.inr rfl)
    rw [beamDecodeCodeChunk_granted h] at his
    cases his
  | true =>
    constructor
    · intro hbehind
      by_contra hwrap
      simp only [Bool.true_eq_false, or_false, Nat.not_lt] at hwrap
      exact not_behindHeader h (by omega) (by omega) hbehind
    · rintro (hfits | hno)
      swap
      · cases hno
      rw [Nat.mod_eq_of_lt hfits] at hstart
      intro is his
      rw [beamDecodeCodeChunk_eq h] at his
      cases his
      refine ⟨rfl, fun x hx => ⟨?_, decodeTrace_mem rfl x hx⟩, fun hend => ?_⟩
      · rw [← hstart]
        exact le_of_mem_decodeTrace x hx
      · -- no byte is left behind the header
        rw [decodedAt, codeBytes, List.drop_eq_nil_of_le (by omega)]
        rfl

/-- The first instruction of the tests' chunk starts at 20, behind a header of 16 bytes. -/
theorem behindHeader_return : BehindHeader (chunkOf [19]) true :=
  (behindHeader_iff (by decide) true).mpr (Or.inl (by decide))

/-- Twenty bytes whose first word is 2^32 - 4. -/
def wrappingHeader : List Byte := [255#8, 255#8, 255#8, 252#8] ++ List.replicate 16 0#8

/-- **The first word is decoded as an instruction.** -/
theorem wrappingHeader_decoded :
    (∃ x ∈ decodedAt wrappingHeader, x.1 = 0) ∧ ¬ BehindHeader wrappingHeader true := by
  have hstart : codeStart wrappingHeader = 0 := by decide
  have hcode : codeStart wrappingHeader < wrappingHeader.length := by decide
  refine ⟨?_, not_behindHeader (by decide) (by decide) hcode⟩
  rw [← hstart]
  exact exists_mem_decodedAt hcode

end BeamModular
