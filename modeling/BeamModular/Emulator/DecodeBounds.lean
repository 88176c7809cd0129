import BeamModular.Emulator.Framing

/-!
# The decoder's memory

`Emulator.Decode` reads its input as a list, which has no bounds to go beyond.  Here
is the decoder once more as the source has it: a pointer into the chunk, a test against
`end` where the source tests, a read that has no result outside the chunk, and an
array of slots for the instructions with a write that has no result outside it.  The
recursion of `decode_arg` and the counting loop are cut off by a number of steps.

`decodeArgAt_eq` and `decodeLoopAt_eq` show that both descriptions agree, whatever the
bytes are: no read and no write is out of bounds, and as many steps as there are bytes
are enough.
-/

namespace BeamModular

section

variable (chunk : List Byte)

/-! ### The source, with its pointers -/

/-- The loop that collects a value, from the offset `p` on. -/
def readBytesAt : Nat → BitVec 32 → Nat → Option (BitVec 32 × Nat)
  | 0, val, p => some (val, p)
  | len + 1, val, p =>
    if p ≥ chunk.length then some (val, p)
    else chunk[p]?.bind fun b => readBytesAt len (val <<< 8 ||| b.setWidth 32) (p + 1)

/-- `decode_arg` at the offset `ptr`: the operand and the new offset.  A truncated operand leaves
the offset where it was. -/
def decodeArgAt : Nat → Nat → Option (Eterm × Nat)
  | 0, _ => none
  | fuel + 1, ptr =>
    if ptr ≥ chunk.length then some (0#64, ptr)
    else chunk[ptr]?.bind fun b =>
      let p := ptr + 1
      let tag := b &&& 7#8
      if b &&& 8#8 = 0#8 then some (taggedArg tag ((b >>> 4).setWidth 32), p)
      else if b &&& 16#8 = 0#8 then
        if p ≥ chunk.length then some (0#64, ptr)
        else chunk[p]?.map fun c =>
          (taggedArg tag ((b >>> 5).setWidth 32 <<< 8 ||| c.setWidth 32), p + 1)
      else
        let len := (b >>> 5).setWidth 32
        let nested : Option (BitVec 32 × Nat) :=
          if len < 7#32 then some (len + 2#32, p)
          else (decodeArgAt fuel p).map fun r => ((etermToSmallInt r.1).setWidth 32, r.2)
        nested.bind fun (len, p) =>
          let len := if len > 1024#32 then 1024#32 else len
          (readBytesAt chunk len.toNat 0#32 p).map fun r => (taggedArg tag r.1, r.2)

/-- Operands in a row. -/
def decodeArgsAt (fuel : Nat) : Nat → Nat → Option (List Eterm × Nat)
  | 0, p => some ([], p)
  | count + 1, p =>
    (decodeArgAt chunk fuel p).bind fun r =>
      (decodeArgsAt fuel count r.2).map fun q => (r.1 :: q.1, q.2)

/-- The operands in the fields of an instruction; those it does not have are cleared. -/
def instrOf (opcode : Opcode) (args : List Eterm) : Instruction where
  opcode := opcode
  arg1 := (args.getD 0 0#64).setWidth 32
  arg2 := (args.getD 1 0#64).setWidth 32
  arg3 := (args.getD 2 0#64).setWidth 32

/-- The `switch` of the decoder. -/
def decodeInstrAt (fuel opcode p : Nat) : Option (Instruction × Nat) :=
  match namedOpcode opcode with
  | some (op, count) => (decodeArgsAt chunk fuel count p).map fun r => (instrOf op r.1, r.2)
  | none => (decodeArgsAt chunk fuel (arityOf opcode) p).map fun r =>
      (instrOf (.ofCode 0) [], r.2)

/-- The decoding loop: what is left of the safety counter, the offset, the next slot and the
slots. -/
def decodeLoopAt (fuel : Nat) : Nat → Nat → Nat → List (Option Instruction) →
    Option (List (Option Instruction) × Nat)
  | 0, _, i, slots => some (slots, i)
  | left + 1, p, i, slots =>
    if p ≥ chunk.length then some (slots, i)
    else chunk[p]?.bind fun opcode =>
      if i ≥ slots.length then none
      else (decodeInstrAt chunk fuel opcode.toNat (p + 1)).bind fun r =>
        decodeLoopAt fuel left r.2 (i + 1) (slots.set i (some r.1))

/-- The first pass, which counts the bytes. -/
def countBytesAt : Nat → Nat → Nat → Option Nat
  | 0, _, _ => none
  | fuel + 1, scan, count =>
    if scan ≥ chunk.length then some count
    else chunk[scan]?.bind fun _ => countBytesAt fuel (scan + 1) (count + 1)

/-- `beam_decode_code_chunk`: the slots and `out_count`, or `NULL`.  There is no result where the
source would read or write out of bounds, or take more than `fuel` steps in a recursion or in the
first pass. -/
def beamDecodeCodeChunkAt (granted : Bool) (fuel : Nat) :
    Option (Option (List (Option Instruction) × Nat)) :=
  if chunk.length < 20 then some none
  else
    chunk[0]?.bind fun b0 => chunk[1]?.bind fun b1 => chunk[2]?.bind fun b2 =>
    chunk[3]?.bind fun b3 =>
      let p := (4#32 + readU32Be b0 b1 b2 b3).toNat
      (countBytesAt chunk fuel p 0).bind fun _ =>
        if granted then
          (decodeLoopAt chunk fuel maxDecoded p 0 (List.replicate chunk.length none)).map some
        else some none

end

/-! ### Offsets and lists -/

/-- What is read at an offset is what is read from the list, and the new offset is where the list
goes on. -/
def Reads {β : Type} (chunk : List Byte) (r : Option (β × Nat)) (s : β × List Byte) : Prop :=
  ∃ q, r = some (s.1, q) ∧ chunk.drop q = s.2

section

variable {chunk : List Byte} {β γ : Type} {r : Option (β × Nat)} {s : β × List Byte}

theorem Reads.map (h : Reads chunk r s) (f : β → γ) :
    Reads chunk (r.map fun x => (f x.1, x.2)) (f s.1, s.2) := by
  obtain ⟨q, rfl, hq⟩ := h
  exact ⟨q, rfl, hq⟩

theorem Reads.bind {g : β × Nat → Option (γ × Nat)} {t : γ × List Byte} (h : Reads chunk r s)
    (hg : ∀ q, chunk.drop q = s.2 → Reads chunk (g (s.1, q)) t) : Reads chunk (r.bind g) t := by
  obtain ⟨q, rfl, hq⟩ := h
  exact hg q hq

theorem length_le_of_drop_nil {p : Nat} (h : chunk.drop p = []) : p ≥ chunk.length :=
  List.drop_eq_nil_iff.mp h

theorem lt_length_of_drop_cons {p : Nat} {b : Byte} {rest : List Byte}
    (h : chunk.drop p = b :: rest) : ¬ p ≥ chunk.length := by
  intro hge
  rw [List.drop_eq_nil_of_le hge] at h
  cases h

theorem readBytesAt_eq : ∀ (len : Nat) (val : BitVec 32) (p : Nat),
    Reads chunk (readBytesAt chunk len val p) (readBytes len val (chunk.drop p)) := by
  intro len
  induction len with
  | zero => intro val p; exact ⟨p, rfl, rfl⟩
  | succ len ih =>
    intro val p
    cases hp : chunk.drop p with
    | nil => exact ⟨p, by rw [readBytesAt, if_pos (length_le_of_drop_nil hp)]; rfl, hp⟩
    | cons b rest =>
      obtain ⟨hget, hdrop⟩ := getElem?_of_drop hp
      rw [readBytesAt, if_neg (lt_length_of_drop_cons hp), hget, Option.bind_some, readBytes,
        ← hdrop]
      exact ih _ (p + 1)

/-- **An operand is read inside the chunk**, and its recursion ends. -/
theorem decodeArgAt_eq : ∀ (fuel p : Nat), (chunk.drop p).length < fuel →
    Reads chunk (decodeArgAt chunk fuel p) (decodeArg (chunk.drop p)) := by
  intro fuel
  induction fuel with
  | zero => intro p hf; exact absurd hf (Nat.not_lt_zero _)
  | succ fuel ih =>
    intro p hf
    cases hp : chunk.drop p with
    | nil => exact ⟨p, by rw [decodeArgAt, if_pos (length_le_of_drop_nil hp)]; rfl, hp⟩
    | cons b rest =>
      obtain ⟨hget, hdrop⟩ := getElem?_of_drop hp
      rw [decodeArgAt, if_neg (lt_length_of_drop_cons hp), hget, Option.bind_some, decodeArg_cons]
      dsimp only
      by_cases h8 : b &&& 8#8 = 0#8
      · rw [if_pos h8, if_pos h8]
        exact ⟨p + 1, rfl, hdrop⟩
      rw [if_neg h8, if_neg h8]
      by_cases h16 : b &&& 16#8 = 0#8
      · rw [if_pos h16, if_pos h16]
        cases rest with
        | nil => exact ⟨p, by rw [if_pos (length_le_of_drop_nil hdrop)], hp⟩
        | cons c rest =>
          obtain ⟨hget', hdrop'⟩ := getElem?_of_drop hdrop
          exact ⟨p + 1 + 1, by rw [if_neg (lt_length_of_drop_cons hdrop), hget']; rfl, hdrop'⟩
      · -- a long operand: its length may be an operand of its own
        rw [if_neg h16, if_neg h16, longOperand]
        by_cases hlen : (b >>> 5).setWidth 32 < 7#32
        · simp only [hlen, if_true, Option.bind_some]
          rw [← hdrop]
          exact (readBytesAt_eq _ _ _).map _
        · simp only [hlen, if_false]
          have hshort : (chunk.drop (p + 1)).length < fuel := by
            rw [hp, List.length_cons] at hf
            rw [hdrop]
            omega
          have hnested := ih (p + 1) hshort
          rw [hdrop] at hnested
          refine (hnested.map fun t => (etermToSmallInt t).setWidth 32).bind fun q hq => ?_
          dsimp only at hq ⊢
          rw [← hq]
          exact (readBytesAt_eq _ _ q).map _

/-- The operands of an instruction, from the list. -/
def argsOf : Nat → List Byte → List Eterm
  | 0, _ => []
  | count + 1, p => (decodeArg p).1 :: argsOf count (decodeArg p).2

theorem decodeArgsAt_eq {fuel : Nat} : ∀ (count p : Nat), (chunk.drop p).length < fuel →
    Reads chunk (decodeArgsAt chunk fuel count p)
      (argsOf count (chunk.drop p), skipArgs count (chunk.drop p)) := by
  intro count
  induction count with
  | zero => intro p _; exact ⟨p, rfl, rfl⟩
  | succ count ih =>
    intro p hf
    refine (decodeArgAt_eq fuel p hf).bind fun q hq => ?_
    have hle := (decodeArg_suffix (chunk.drop p)).length_le
    rw [← hq] at hle
    have hrest := (ih q (by omega)).map (List.cons (decodeArg (chunk.drop p)).1)
    rw [hq] at hrest
    exact hrest

theorem decodeArgs_eq {op : Opcode} {count : Nat} (h : count ≤ 3) (p : List Byte) :
    decodeArgs op count p = (instrOf op (argsOf count p), skipArgs count p) := by
  match count, h with
  | 0, _ => rfl
  | 1, _ => rfl
  | 2, _ => rfl
  | 3, _ => rfl

theorem decodeInstrAt_eq {fuel : Nat} (opcode p : Nat) (hf : (chunk.drop p).length < fuel) :
    Reads chunk (decodeInstrAt chunk fuel opcode p) (decodeInstr opcode (chunk.drop p)) := by
  rw [decodeInstrAt, decodeInstr_eq]
  cases hn : namedOpcode opcode with
  | none => exact (decodeArgsAt_eq _ p hf).map fun _ => instrOf (.ofCode 0) []
  | some form =>
    dsimp only
    rw [decodeArgs_eq (namedOpcode_count_le hn)]
    exact (decodeArgsAt_eq _ p hf).map (instrOf form.1)

end

/-! ### The loops -/

theorem length_decodeLoop_le_bytes : ∀ (left : Nat) (code : List Byte),
    (decodeLoop left code).length ≤ code.length := by
  intro left
  induction left with
  | zero => intro code; exact Nat.zero_le _
  | succ left ih =>
    intro code
    cases code with
    | nil => exact Nat.le_refl _
    | cons opcode p =>
      rw [decodeLoop, List.length_cons, List.length_cons]
      have hle := (skipArgs_suffix (operandsRead opcode.toNat) p).length_le
      rw [← decodeInstr_rest] at hle
      exact Nat.succ_le_succ ((ih _).trans hle)

section

variable {chunk : List Byte}

theorem countBytesAt_isSome : ∀ (fuel scan count : Nat), (chunk.drop scan).length < fuel →
    ∃ n, countBytesAt chunk fuel scan count = some n := by
  intro fuel
  induction fuel with
  | zero => intro scan count hf; exact absurd hf (Nat.not_lt_zero _)
  | succ fuel ih =>
    intro scan count hf
    cases hp : chunk.drop scan with
    | nil => exact ⟨count, by rw [countBytesAt, if_pos (length_le_of_drop_nil hp)]⟩
    | cons b rest =>
      obtain ⟨hget, hdrop⟩ := getElem?_of_drop hp
      rw [countBytesAt, if_neg (lt_length_of_drop_cons hp), hget, Option.bind_some]
      rw [hp, List.length_cons] at hf
      exact ih _ _ (by rw [hdrop]; omega)

/-- **The loop writes the next slot each time**: `done` is decoded, and there are at least as many
free slots as bytes. -/
theorem decodeLoopAt_eq {fuel : Nat} : ∀ (left p free : Nat) (done : List Instruction),
    (chunk.drop p).length < fuel → (chunk.drop p).length ≤ free →
      decodeLoopAt chunk fuel left p done.length
          (done.map some ++ List.replicate free none) =
        some ((done ++ decodeLoop left (chunk.drop p)).map some ++
            List.replicate (free - (decodeLoop left (chunk.drop p)).length) none,
          (done ++ decodeLoop left (chunk.drop p)).length) := by
  intro left
  induction left with
  | zero => intro p free done _ _; simp [decodeLoopAt, decodeLoop]
  | succ left ih =>
    intro p free done hf hfree
    cases hp : chunk.drop p with
    | nil =>
      rw [decodeLoopAt, if_pos (length_le_of_drop_nil hp)]
      simp [decodeLoop]
    | cons opcode rest =>
      obtain ⟨hget, hdrop⟩ := getElem?_of_drop hp
      rw [hp, List.length_cons] at hf hfree
      obtain ⟨free, rfl⟩ : ∃ k, free = k + 1 := ⟨free - 1, by omega⟩
      obtain ⟨q, hq, hrest⟩ := decodeInstrAt_eq opcode.toNat (p + 1)
        (show (chunk.drop (p + 1)).length < fuel by rw [hdrop]; omega)
      rw [hdrop] at hq hrest
      have hslot : ¬ done.length ≥ (done.map some ++ List.replicate (free + 1) none :
          List (Option Instruction)).length := by
        simp
      have hset : (done.map some ++ List.replicate (free + 1) none).set done.length
          (some (decodeInstr opcode.toNat rest).1) =
            (done ++ [(decodeInstr opcode.toNat rest).1]).map some ++ List.replicate free none := by
        rw [List.replicate_succ, List.map_append, List.append_assoc]
        simp
      have hle : (chunk.drop q).length ≤ rest.length := by
        rw [hrest, decodeInstr_rest]
        exact (skipArgs_suffix _ rest).length_le
      have hnext := ih q free (done ++ [(decodeInstr opcode.toNat rest).1]) (by omega) (by omega)
      rw [decodeLoopAt, if_neg (lt_length_of_drop_cons hp), hget, Option.bind_some, if_neg hslot,
        hq, Option.bind_some, hset, decodeLoop, ← hrest]
      simpa using hnext

end

theorem beamDecodeCodeChunkAt_eq {chunk : List Byte} (h : 20 ≤ chunk.length) (granted : Bool)
    (fuel : Nat) :
    beamDecodeCodeChunkAt chunk granted fuel =
      (countBytesAt chunk fuel (codeStart chunk) 0).bind fun _ =>
        if granted then
          (decodeLoopAt chunk fuel maxDecoded (codeStart chunk) 0
            (List.replicate chunk.length none)).map some
        else some none := by
  match chunk, h with
  | b0 :: b1 :: b2 :: b3 :: rest, h =>
    rw [beamDecodeCodeChunkAt, if_neg (by omega)]
    rfl

/-- **The decoder stays inside its memory and ends.**  For every chunk of at least twenty bytes,
with as many steps as it has bytes, and whatever the allocator answers: no read is outside the
chunk, no write outside its `chunk_len` slots; the slots hold the instructions that the decoder is
said to give, `out_count` is their number, and there are no more of them than bytes of code. -/
theorem decode_inBounds (chunk : List Byte) (h : 20 ≤ chunk.length) (granted : Bool) (fuel : Nat)
    (hf : chunk.length < fuel) :
    beamDecodeCodeChunkAt chunk granted fuel =
        some ((beamDecodeCodeChunk chunk granted).map fun is =>
          (is.map some ++ List.replicate (chunk.length - is.length) none, is.length)) ∧
      ∀ is, beamDecodeCodeChunk chunk granted = some is → is.length ≤ (codeBytes chunk).length := by
  rw [beamDecodeCodeChunk_granted h, beamDecodeCodeChunkAt_eq h]
  have hle : (codeBytes chunk).length ≤ chunk.length := by
    rw [codeBytes, List.length_drop]
    omega
  have hlt : (chunk.drop (codeStart chunk)).length < fuel := lt_of_le_of_lt hle hf
  obtain ⟨n, hn⟩ := countBytesAt_isSome fuel (codeStart chunk) 0 hlt
  rw [hn, Option.bind_some]
  cases granted with
  | false => exact ⟨rfl, fun is his => by cases his⟩
  | true =>
    have hloop := decodeLoopAt_eq maxDecoded (codeStart chunk) chunk.length [] hlt hle
    refine ⟨?_, fun is his => ?_⟩
    · simp only [List.length_nil, List.map_nil, List.nil_append] at hloop
      rw [if_pos rfl, if_pos rfl, hloop]
      rfl
    · cases his
      exact length_decodeLoop_le_bytes _ _

/-- Nothing but long operands whose lengths are long operands, up to the end of the chunk. -/
theorem decode_inBounds_nested :
    beamDecodeCodeChunkAt (chunkOf [64, 255, 255, 255]) true 100 =
      some (some (some { opcode := .move } :: List.replicate 23 none, 1)) := by
  have h := (decode_inBounds (chunkOf [64, 255, 255, 255]) (by decide) true 100 (by decide)).1
  rw [h]
  decide +kernel

end BeamModular
