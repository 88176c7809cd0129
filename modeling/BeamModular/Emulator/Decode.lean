import BeamModular.Emulator.Emu

/-!
# The decoder

`src/emulator/beam_decode.c`: from the bytes of a code chunk to the instructions of
the interpreter.  Operands are in the compact encoding of BEAM files: a tag in the
three low bits and a value of four bits, of eleven bits or of a number of bytes.
Values are computed in 32 bits, as in the source.

`decode_arg` moves a pointer, so the model returns the bytes that are left.  At a
truncated operand it returns 0 and leaves the pointer where it was.

`Compact tag v bs` says that `bs` is an encoding of `v`, and `decodeArg_compact` that
the decoder reads it back and stops behind it.
-/

namespace BeamModular

/-- The internal opcode of a number, as the enumeration counts them. -/
def Opcode.ofCode : Nat → Opcode
  | 1 => .label
  | 2 => .move
  | 3 => .add
  | 4 => .sub
  | 5 => .mul
  | 6 => .intDiv
  | 7 => .allocate
  | 8 => .deallocate
  | 9 => .call
  | 10 => .return
  | 11 => .send
  | 12 => .receive
  | 13 => .matchTuple
  | 14 => .getTupleElement
  | 15 => .testIsEqExact
  | 16 => .testIsNeExact
  | 17 => .testIsTuple
  | 18 => .testIsList
  | 19 => .getList
  | 20 => .selectVal
  | 21 => .callExt
  | 22 => .callLast
  | 23 => .makeFun2
  | 24 => .loopRec
  | 25 => .loopRecEnd
  | 26 => .removeMessage
  | 27 => .wait
  | 28 => .try
  | 29 => .tryCase
  | 30 => .catch
  | 31 => .tryEnd
  | 32 => .raise
  | 33 => .tryCaseEnd
  | 34 => .halt
  | n => .other n

/-- `read_u32_be`. -/
def readU32Be (b0 b1 b2 b3 : Byte) : BitVec 32 :=
  b0.setWidth 32 <<< 24 ||| b1.setWidth 32 <<< 16 ||| b2.setWidth 32 <<< 8 ||| b3.setWidth 32

/-- The loop that collects a value from up to `len` bytes. -/
def readBytes : Nat → BitVec 32 → List Byte → BitVec 32 × List Byte
  | 0, val, p => (val, p)
  | _ + 1, val, [] => (val, [])
  | len + 1, val, b :: p => readBytes len (val <<< 8 ||| b.setWidth 32) p

/-- The `switch` on the tag. -/
def taggedArg (tag : Byte) (val : BitVec 32) : Eterm :=
  match tag.toNat with
  | 0 => makeSmallInt (val.setWidth 64)
  | 1 => makeSmallInt (val.setWidth 64)
  | 2 => (val <<< 4 ||| 11#32).setWidth 64
  | 6 => makeSmallInt (val.setWidth 64)
  | _ => val.setWidth 64

/-- `decode_arg`. -/
def decodeArg : List Byte → Eterm × List Byte
  | [] => (0#64, [])
  | b :: p =>
    let tag := b &&& 7#8
    if b &&& 8#8 = 0#8 then (taggedArg tag ((b >>> 4).setWidth 32), p)
    else if b &&& 16#8 = 0#8 then
      match p with
      | [] => (0#64, [b])
      | c :: p => (taggedArg tag ((b >>> 5).setWidth 32 <<< 8 ||| c.setWidth 32), p)
    else
      let len := (b >>> 5).setWidth 32
      let nested := decodeArg p
      let (len, p) := if len < 7#32 then (len + 2#32, p)
        else ((etermToSmallInt nested.1).setWidth 32, nested.2)
      let len := if len > 1024#32 then 1024#32 else len
      let (val, p) := readBytes len.toNat 0#32 p
      (taggedArg tag val, p)

/-- `beam_opcode_arities`. -/
def beamOpcodeArities : List Nat :=
  [0, 1, 3, 0, 2, 3, 2, 2, 3, 2, 4, 5, 2, 3, 2, 3,
   2, 1, 1, 0, 0, 0, 0, 2, 1, 1, 2, 4, 4, 4, 4, 4,
   4, 4, 4, 4, 4, 4, 3, 3, 3, 3, 3, 3, 3, 2, 2, 2,
   2, 2, 2, 2, 2, 2, 2, 2, 2, 2, 3, 3, 3, 1, 2, 1,
   2, 3, 3, 3, 3, 3, 2, 1, 1, 0, 1, 1, 3, 2, 2, 2,
   5, 5, 5, 4, 2, 1, 1, 2, 2, 5, 5, 5, 2, 1, 0, 1,
   2, 2, 4, 4, 4, 4, 3, 1, 2, 1, 1, 1, 2, 6, 3, 5,
   1, 2, 2, 3, 5, 7, 7, 7, 5, 3, 2, 2, 5, 6, 2, 2,
   2, 2, 1, 3, 4, 0, 8, 6, 2, 6, 5, 4, 5, 4, 5, 4,
   3, 3, 3, 3, 3, 0, 1, 1, 7, 1, 5, 5, 2, 3, 3, 4,
   0, 0, 2, 2, 2, 3, 4, 3, 2, 2, 4, 3, 1, 2, 1, 1,
   1, 6, 3, 0, 1, 5, 3, 2, 4, 6, 2, 4, 3, 6, 3, 5]

/-- Skip operands. -/
def skipArgs : Nat → List Byte → List Byte
  | 0, p => p
  | n + 1, p => skipArgs n (decodeArg p).2

/-- An instruction with up to three operands, in the order of its fields. -/
def decodeArgs (opcode : Opcode) (count : Nat) (p : List Byte) : Instruction × List Byte :=
  let a1 := decodeArg p
  let a2 := decodeArg a1.2
  let a3 := decodeArg a2.2
  match count with
  | 0 => ({ opcode := opcode }, p)
  | 1 => ({ opcode := opcode, arg1 := a1.1.setWidth 32 }, a1.2)
  | 2 => ({ opcode := opcode, arg1 := a1.1.setWidth 32, arg2 := a2.1.setWidth 32 }, a2.2)
  | _ => ({ opcode := opcode, arg1 := a1.1.setWidth 32, arg2 := a2.1.setWidth 32,
            arg3 := a3.1.setWidth 32 }, a3.2)

/-- The `switch` of `beam_decode_code_chunk`.  An unknown opcode leaves a cleared instruction. -/
def decodeInstr (opcode : Nat) (p : List Byte) : Instruction × List Byte :=
  match opcode with
  | 1 => decodeArgs .label 1 p
  | 64 => decodeArgs .move 2 p
  | 4 => decodeArgs .call 2 p
  | 19 => decodeArgs .return 0 p
  | 153 => decodeArgs (.ofCode 153) 1 p
  | 2 => decodeArgs (.ofCode 2) 3 p
  | 3 => decodeArgs (.ofCode 3) 0 p
  | 16 => decodeArgs (.ofCode 16) 2 p
  | 69 => decodeArgs .getList 3 p
  | 78 => decodeArgs .selectVal 3 p
  | 62 => decodeArgs .catch 2 p
  | 63 => decodeArgs .tryEnd 1 p
  | 104 => decodeArgs .try 2 p
  | 105 => decodeArgs .tryEnd 1 p
  | 106 => decodeArgs .tryCase 1 p
  | 107 => decodeArgs .tryCaseEnd 1 p
  | 108 => decodeArgs .raise 2 p
  | 161 => decodeArgs .raise 0 p
  | n => ({ opcode := .ofCode 0 }, skipArgs (beamOpcodeArities.getD n 0) p)

/-- The number of instructions the safety counter lets through. -/
abbrev maxDecoded : Nat := 100001

/-- The decoding loop, with what is left of the safety counter. -/
def decodeLoop : Nat → List Byte → List Instruction
  | 0, _ => []
  | _ + 1, [] => []
  | left + 1, opcode :: p =>
    let r := decodeInstr opcode.toNat p
    r.1 :: decodeLoop left r.2

/-- `beam_decode_code_chunk`; `granted` is the allocator's answer. -/
def beamDecodeCodeChunk (chunk : List Byte) (granted : Bool) : Option (List Instruction) :=
  match chunk with
  | b0 :: b1 :: b2 :: b3 :: _ =>
    if chunk.length < 20 then none
    else if granted then
      some (decodeLoop maxDecoded (chunk.drop (4#32 + readU32Be b0 b1 b2 b3).toNat))
    else none
  | _ => none

/-! ### The compact encoding -/

/-- The value of big-endian bytes. -/
def bytesValue (bs : List Byte) : Nat := bs.foldl (fun v b => 256 * v + b.toNat) 0

/-- The encodings of a value under a tag: four bits, eleven bits, or two to eight bytes. -/
inductive Compact (tag v : Nat) : List Byte → Prop
  | small (h : v < 16) : Compact tag v [BitVec.ofNat 8 (16 * v + tag)]
  | medium (h : v < 2048) :
      Compact tag v [BitVec.ofNat 8 (32 * (v / 256) + 8 + tag), BitVec.ofNat 8 (v % 256)]
  | bytes (bs : List Byte) (h2 : 2 ≤ bs.length) (h8 : bs.length ≤ 8) (hv : bytesValue bs = v) :
      Compact tag v (BitVec.ofNat 8 (32 * (bs.length - 2) + 24 + tag) :: bs)

/-! ### Reading an encoding back -/

theorem first_byte {b : Byte} {high tag : Nat} (hh : high < 32) (ht : tag < 8)
    (hb : b = BitVec.ofNat 8 (8 * high + tag)) :
    b &&& 7#8 = BitVec.ofNat 8 tag ∧ (b &&& 8#8 = 0#8 ↔ high % 2 = 0) ∧
      (b &&& 16#8 = 0#8 ↔ high / 2 % 2 = 0) ∧ b >>> 4 = BitVec.ofNat 8 (high / 2) ∧
      b >>> 5 = BitVec.ofNat 8 (high / 4) := by
  have hall : ∀ high : Fin 32, ∀ tag : Fin 8,
      BitVec.ofNat 8 (8 * high + tag) &&& 7#8 = BitVec.ofNat 8 tag ∧
      (BitVec.ofNat 8 (8 * high + tag) &&& 8#8 = 0#8 ↔ high.val % 2 = 0) ∧
      (BitVec.ofNat 8 (8 * high + tag) &&& 16#8 = 0#8 ↔ high.val / 2 % 2 = 0) ∧
      BitVec.ofNat 8 (8 * high + tag) >>> 4 = BitVec.ofNat 8 (high / 2) ∧
      BitVec.ofNat 8 (8 * high + tag) >>> 5 = BitVec.ofNat 8 (high / 4) := by decide +kernel
  rw [hb]
  exact hall ⟨high, hh⟩ ⟨tag, ht⟩

theorem small_byte {v tag : Nat} (hv : v < 16) (ht : tag < 8) :
    let b := BitVec.ofNat 8 (16 * v + tag)
    b &&& 7#8 = BitVec.ofNat 8 tag ∧ b &&& 8#8 = 0#8 ∧ b >>> 4 = BitVec.ofNat 8 v := by
  intro b
  obtain ⟨h7, h8, -, h4, -⟩ := first_byte (b := b) (show 2 * v < 32 by omega) ht
    (congrArg (BitVec.ofNat 8) (by omega))
  rw [show 2 * v / 2 = v by omega] at h4
  exact ⟨h7, h8.mpr (by omega), h4⟩

theorem medium_byte {v tag : Nat} (hv : v < 8) (ht : tag < 8) :
    let b := BitVec.ofNat 8 (32 * v + 8 + tag)
    b &&& 7#8 = BitVec.ofNat 8 tag ∧ b &&& 8#8 ≠ 0#8 ∧ b &&& 16#8 = 0#8 ∧
      b >>> 5 = BitVec.ofNat 8 v := by
  intro b
  obtain ⟨h7, h8, h16, -, h5⟩ := first_byte (b := b) (show 4 * v + 1 < 32 by omega) ht
    (congrArg (BitVec.ofNat 8) (by omega))
  rw [show (4 * v + 1) / 4 = v by omega] at h5
  exact ⟨h7, fun h => absurd (h8.mp h) (by omega), h16.mpr (by omega), h5⟩

theorem long_byte {k tag : Nat} (hk : k < 7) (ht : tag < 8) :
    let b := BitVec.ofNat 8 (32 * k + 24 + tag)
    b &&& 7#8 = BitVec.ofNat 8 tag ∧ b &&& 8#8 ≠ 0#8 ∧ b &&& 16#8 ≠ 0#8 ∧ b >>> 5 ≠ 7#8 ∧
      (b >>> 5).toNat = k := by
  intro b
  obtain ⟨h7, h8, h16, -, h5⟩ := first_byte (b := b) (show 4 * k + 3 < 32 by omega) ht
    (congrArg (BitVec.ofNat 8) (by omega))
  rw [show (4 * k + 3) / 4 = k by omega] at h5
  have hto : (b >>> 5).toNat = k := by
    rw [h5, BitVec.toNat_ofNat]
    omega
  refine ⟨h7, fun h => absurd (h8.mp h) (by omega), fun h => absurd (h16.mp h) (by omega), ?_, hto⟩
  intro h
  rw [h] at hto
  exact absurd hto.symm hk.ne

/-- Shifting a byte in is multiplying and adding, in 32 bits. -/
theorem shift_byte (val : BitVec 32) (b : Byte) :
    val <<< 8 ||| b.setWidth 32 = BitVec.ofNat 32 (256 * val.toNat + b.toNat) := by
  apply BitVec.eq_of_toNat_eq
  have hb := b.isLt
  have hsplit : val.toNat * 2 ^ 8 % 2 ^ 32 = 2 ^ 8 * (val.toNat % 2 ^ 24) := by omega
  have hor := Nat.two_pow_add_eq_or_of_lt (i := 8) hb (val.toNat % 2 ^ 24)
  rw [BitVec.toNat_or, BitVec.toNat_shiftLeft, Nat.shiftLeft_eq, hsplit, BitVec.toNat_setWidth,
    Nat.mod_eq_of_lt (show b.toNat < 2 ^ 32 by omega), ← hor, BitVec.toNat_ofNat]
  omega

theorem readBytes_append (bs rest : List Byte) : ∀ v : Nat,
    readBytes bs.length (BitVec.ofNat 32 v) (bs ++ rest) =
      (BitVec.ofNat 32 (bs.foldl (fun v b => 256 * v + b.toNat) v), rest) := by
  induction bs with
  | nil => intro v; rfl
  | cons b bs ih =>
    intro v
    have hstep : BitVec.ofNat 32 v <<< 8 ||| b.setWidth 32 =
        BitVec.ofNat 32 (256 * v + b.toNat) := by
      rw [shift_byte]
      apply BitVec.eq_of_toNat_eq
      simp only [BitVec.toNat_ofNat]
      omega
    rw [List.length_cons, List.cons_append, readBytes, hstep, ih]
    rfl

section

variable {b : Byte} {p bs rest : List Byte}

/-- The number of bytes of a long operand, and the bytes from its value on. -/
def longOperand (b : Byte) (p : List Byte) : Nat × List Byte :=
  let len := (b >>> 5).setWidth 32
  let nested := decodeArg p
  let (len, p) := if len < 7#32 then (len + 2#32, p)
    else ((etermToSmallInt nested.1).setWidth 32, nested.2)
  ((if len > 1024#32 then 1024#32 else len).toNat, p)

theorem decodeArg_cons (b : Byte) (p : List Byte) :
    decodeArg (b :: p) =
      if b &&& 8#8 = 0#8 then (taggedArg (b &&& 7#8) ((b >>> 4).setWidth 32), p)
      else if b &&& 16#8 = 0#8 then
        match p with
        | [] => (0#64, [b])
        | c :: p => (taggedArg (b &&& 7#8) ((b >>> 5).setWidth 32 <<< 8 ||| c.setWidth 32), p)
      else
        let r := longOperand b p
        (taggedArg (b &&& 7#8) (readBytes r.1 0#32 r.2).1, (readBytes r.1 0#32 r.2).2) := by
  rw [decodeArg.eq_def]
  rfl

theorem longOperand_plain (h7 : b >>> 5 ≠ 7#8) (p : List Byte) :
    longOperand b p = ((b >>> 5).toNat + 2, p) := by
  have hbyte : (b >>> 5).toNat < 7 := by
    have hne : (b >>> 5).toNat ≠ 7 := fun he => h7 (BitVec.eq_of_toNat_eq he)
    rw [BitVec.toNat_ushiftRight, Nat.shiftRight_eq_div_pow] at hne ⊢
    have := b.isLt
    omega
  have hlt : (b >>> 5).setWidth 32 < 7#32 := by
    rw [BitVec.lt_def, BitVec.toNat_setWidth]
    simp only [BitVec.toNat_ofNat]
    omega
  have hsum : ((b >>> 5).setWidth 32 + 2#32).toNat = (b >>> 5).toNat + 2 := by
    rw [BitVec.toNat_add, BitVec.toNat_setWidth]
    simp only [BitVec.toNat_ofNat]
    omega
  have hsafe : ¬ (b >>> 5).setWidth 32 + 2#32 > 1024#32 := by
    rw [gt_iff_lt, BitVec.lt_def, hsum]
    simp only [BitVec.toNat_ofNat]
    omega
  simp only [longOperand, if_pos hlt, if_neg hsafe, hsum]

theorem decodeArg_long (h8 : b &&& 8#8 ≠ 0#8) (h16 : b &&& 16#8 ≠ 0#8)
    (hl : longOperand b p = (bs.length, bs ++ rest)) :
    decodeArg (b :: p) = (taggedArg (b &&& 7#8) (BitVec.ofNat 32 (bytesValue bs)), rest) := by
  rw [decodeArg_cons, if_neg h8, if_neg h16, hl]
  dsimp only
  rw [show (0#32 : BitVec 32) = BitVec.ofNat 32 0 from rfl, readBytes_append]
  rfl

end

/-- **The decoder reads a compact operand back**, in 32 bits, and stops behind it. -/
theorem decodeArg_compact {tag v : Nat} {bs : List Byte} (h : Compact tag v bs) (ht : tag < 8)
    (rest : List Byte) :
    decodeArg (bs ++ rest) = (taggedArg (BitVec.ofNat 8 tag) (BitVec.ofNat 32 v), rest) := by
  cases h with
  | small hv =>
    obtain ⟨h1, h2, h3⟩ := small_byte hv ht
    rw [List.cons_append, List.nil_append, decodeArg.eq_def]
    simp only [h1, h2, h3, if_true]
    congr 2
    apply BitVec.eq_of_toNat_eq
    simp only [BitVec.toNat_setWidth, BitVec.toNat_ofNat]
    omega
  | medium hv =>
    obtain ⟨h1, h2, h3, h4⟩ := medium_byte (show v / 256 < 8 by omega) ht
    rw [List.cons_append, List.cons_append, List.nil_append, decodeArg]
    simp only [h1, h2, h3, h4, if_true, if_false]
    rw [shift_byte]
    congr 2
    apply BitVec.eq_of_toNat_eq
    simp only [BitVec.toNat_setWidth, BitVec.toNat_ofNat]
    omega
  | bytes bs h2 h8 hv =>
    obtain ⟨b1, b2, b3, b4, b5⟩ := long_byte (show bs.length - 2 < 7 by omega) ht
    have hlen : longOperand (BitVec.ofNat 8 (32 * (bs.length - 2) + 24 + tag)) (bs ++ rest) =
        (bs.length, bs ++ rest) := by
      rw [longOperand_plain b4, b5, Nat.sub_add_cancel h2]
    rw [List.cons_append, decodeArg_long b2 b3 hlen, b1, hv]

/-! ### The smallest chunks -/

/-- A header of twenty bytes that says that sixteen follow its first word. -/
structure CodeHeader where
  b0 : Byte
  b1 : Byte
  b2 : Byte
  b3 : Byte
  fields : List Byte
  subSize : readU32Be b0 b1 b2 b3 = 16#32
  length_fields : fields.length = 16

def CodeHeader.bytes (h : CodeHeader) : List Byte := h.b0 :: h.b1 :: h.b2 :: h.b3 :: h.fields

/-- A header whose sixteen bytes are 0. -/
def zeroHeader : CodeHeader where
  b0 := 0#8
  b1 := 0#8
  b2 := 0#8
  b3 := 16#8
  fields := List.replicate 16 0#8
  subSize := rfl
  length_fields := rfl

/-- The chunk with these instruction bytes behind that header. -/
def chunkOf (code : List Byte) : List Byte := zeroHeader.bytes ++ code

end BeamModular
