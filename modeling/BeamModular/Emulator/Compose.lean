import BeamModular.Emulator.DecodeBounds
import BeamModular.Emulator.Translate

/-!
# Code in pieces

The decoder carries nothing from one instruction to the next but the safety counter, so
a chunk can be decoded in pieces.  `WholeOperand` and `WholeInstr` say which bytes are a
whole operand and a whole instruction, from what the bytes themselves tell about their
number; `WholeOperand.decode` and `WholeInstr.decode` that the decoder reads them the
same way whatever comes behind.

`decodeLoop_append` is the law for the loop: two pieces decode to the instructions of
the first and then those of the second, as many of them as the counter lets through.
-/

namespace BeamModular

/-! ### Whole operands -/

/-- The number of bytes that an operand announces as a nested length. -/
def nestedLength (n : List Byte) : Nat :=
  min ((etermToSmallInt (decodeArg n).1).setWidth 32).toNat 1024

/-- The bytes of one operand, all of them: one, two, or as many as the first byte or a nested
operand says. -/
inductive WholeOperand : List Byte → Prop
  | small {b : Byte} (h8 : b &&& 8#8 = 0#8) : WholeOperand [b]
  | medium {b c : Byte} (h8 : b &&& 8#8 ≠ 0#8) (h16 : b &&& 16#8 = 0#8) : WholeOperand [b, c]
  | long {b : Byte} {bs : List Byte} (h8 : b &&& 8#8 ≠ 0#8) (h16 : b &&& 16#8 ≠ 0#8)
      (h7 : b >>> 5 ≠ 7#8) (hlen : bs.length = (b >>> 5).toNat + 2) : WholeOperand (b :: bs)
  | nested {b : Byte} {n bs : List Byte} (h8 : b &&& 8#8 ≠ 0#8) (h16 : b &&& 16#8 ≠ 0#8)
      (h7 : b >>> 5 = 7#8) (hn : WholeOperand n) (hlen : bs.length = nestedLength n) :
      WholeOperand (b :: (n ++ bs))

theorem longOperand_nested {b : Byte} (h7 : b >>> 5 = 7#8) (p : List Byte) :
    longOperand b p =
      (min ((etermToSmallInt (decodeArg p).1).setWidth 32).toNat 1024, (decodeArg p).2) := by
  have hlt : ¬ (7#8 : Byte).setWidth 32 < 7#32 := by decide
  have hbound : (1024#32 : BitVec 32).toNat = 1024 := rfl
  rw [longOperand, h7]
  simp only [if_neg hlt]
  split
  · rename_i hcap
    rw [gt_iff_lt, BitVec.lt_def, hbound] at hcap
    rw [hbound, Nat.min_eq_right (Nat.le_of_lt hcap)]
  · rename_i hcap
    rw [gt_iff_lt, BitVec.lt_def, hbound] at hcap
    rw [Nat.min_eq_left (Nat.le_of_not_lt hcap)]

/-- **A whole operand** is read to its end, and as the same term whatever comes behind it. -/
theorem WholeOperand.decode {o : List Byte} (h : WholeOperand o) : ∀ rest : List Byte,
    decodeArg (o ++ rest) = ((decodeArg o).1, rest) := by
  induction h with
  | small h8 =>
    intro rest
    rw [List.singleton_append, decodeArg_cons, decodeArg_cons, if_pos h8, if_pos h8]
  | medium h8 h16 =>
    intro rest
    rw [List.cons_append, List.singleton_append, decodeArg_cons, decodeArg_cons, if_neg h8,
      if_neg h8, if_pos h16, if_pos h16]
  | @long b bs h8 h16 h7 hlen =>
    intro rest
    have hl : ∀ p, longOperand b p = (bs.length, p) := by
      intro p
      rw [longOperand_plain h7, hlen]
    rw [List.cons_append, decodeArg_long h8 h16 (hl (bs ++ rest)),
      decodeArg_long h8 h16 (show longOperand b bs = (bs.length, bs ++ []) by
        rw [hl, List.append_nil])]
  | @nested b n bs h8 h16 h7 hn hlen ih =>
    intro rest
    have hl : ∀ p, longOperand b (n ++ p) = (bs.length, p) := by
      intro p
      rw [longOperand_nested h7, ih, hlen, nestedLength]
    rw [List.cons_append, List.append_assoc, decodeArg_long h8 h16 (hl (bs ++ rest)),
      decodeArg_long h8 h16 (show longOperand b (n ++ bs) = (bs.length, bs ++ []) by
        rw [hl, List.append_nil])]

theorem Compact.whole {tag v : Nat} {bs : List Byte} (h : Compact tag v bs) (ht : tag < 8) :
    WholeOperand bs := by
  cases h with
  | small hv =>
    obtain ⟨_, b8, _⟩ := small_byte hv ht
    exact .small b8
  | medium hv =>
    obtain ⟨_, b8, b16, _⟩ := medium_byte (show v / 256 < 8 by omega) ht
    exact .medium b8 b16
  | bytes bs h2 h8 hv =>
    obtain ⟨_, b8, b16, b7, b5⟩ := long_byte (show bs.length - 2 < 7 by omega) ht
    exact .long b8 b16 b7 (by rw [b5, Nat.sub_add_cancel h2])

section

variable {ops : List (List Byte)}

theorem skipArgs_whole (h : ∀ o ∈ ops, WholeOperand o) (rest : List Byte) :
    skipArgs ops.length (ops.flatten ++ rest) = rest := by
  induction ops with
  | nil => rfl
  | cons o ops ih =>
    rw [List.forall_mem_cons] at h
    rw [List.flatten_cons, List.append_assoc, List.length_cons, skipArgs, h.1.decode]
    exact ih h.2

theorem argsOf_whole (h : ∀ o ∈ ops, WholeOperand o) (rest : List Byte) :
    argsOf ops.length (ops.flatten ++ rest) = ops.map fun o => (decodeArg o).1 := by
  induction ops with
  | nil => rfl
  | cons o ops ih =>
    rw [List.forall_mem_cons] at h
    rw [List.flatten_cons, List.append_assoc, List.length_cons, argsOf, h.1.decode, List.map_cons,
      ih h.2]

end

/-! ### Whole instructions -/

/-- The bytes of one instruction: the opcode, and as many operands as the decoder reads for it. -/
def WholeInstr (bytes : List Byte) : Prop :=
  ∃ (op : Byte) (ops : List (List Byte)), bytes = op :: ops.flatten ∧
    ops.length = operandsRead op.toNat ∧ ∀ o ∈ ops, WholeOperand o

/-- **A whole instruction** is decoded on its own: the decoder stops behind it, and what it makes of
it does not depend on what follows. -/
theorem WholeInstr.decode {bytes : List Byte} (h : WholeInstr bytes) :
    ∃ instr, ∀ rest n, decodeLoop (n + 1) (bytes ++ rest) = instr :: decodeLoop n rest := by
  obtain ⟨op, ops, rfl, hcount, hops⟩ := h
  have hrest : ∀ rest, (decodeInstr op.toNat (ops.flatten ++ rest)).2 = rest := by
    intro rest
    rw [decodeInstr_rest, ← hcount, skipArgs_whole hops]
  have hinstr : ∃ instr, ∀ rest, (decodeInstr op.toNat (ops.flatten ++ rest)).1 = instr := by
    cases hn : namedOpcode op.toNat with
    | none => exact ⟨_, fun rest => by rw [decodeInstr_eq, hn]⟩
    | some form =>
      have hlen : ops.length = form.2 := by rw [hcount, operandsRead, hn]
      refine ⟨instrOf form.1 (ops.map fun o => (decodeArg o).1), fun rest => ?_⟩
      rw [decodeInstr_eq, hn]
      dsimp only
      rw [decodeArgs_eq (namedOpcode_count_le hn), ← hlen, argsOf_whole hops]
  obtain ⟨instr, hinstr⟩ := hinstr
  refine ⟨instr, fun rest n => ?_⟩
  rw [List.cons_append, decodeLoop, hrest, hinstr]

/-! ### The loop -/

theorem decodeLoop_take : ∀ (n m : Nat) (code : List Byte), n ≤ m →
    (decodeLoop m code).take n = decodeLoop n code := by
  intro n
  induction n with
  | zero => intro m code _; rfl
  | succ n ih =>
    intro m code hle
    obtain ⟨m, rfl⟩ : ∃ k, m = k + 1 := ⟨m - 1, by omega⟩
    cases code with
    | nil => rfl
    | cons op p =>
      rw [decodeLoop, decodeLoop, List.take_succ_cons, ih m _ (by omega)]

section

variable {instrs : List (List Byte)}

theorem length_decodeLoop_whole (h : ∀ i ∈ instrs, WholeInstr i) : ∀ n : Nat,
    (decodeLoop n instrs.flatten).length = min instrs.length n := by
  induction instrs with
  | nil => intro n; cases n <;> rfl
  | cons bytes instrs ih =>
    intro n
    rw [List.forall_mem_cons] at h
    obtain ⟨instr, hdec⟩ := h.1.decode
    cases n with
    | zero => exact (Nat.min_zero _).symm
    | succ n => rw [List.flatten_cons, hdec, List.length_cons, ih h.2, List.length_cons,
        Nat.succ_min_succ]

/-- **The loop over two pieces**: first the instructions of the one, then those of the other, as far
as the counter goes. -/
theorem decodeLoop_append (h : ∀ i ∈ instrs, WholeInstr i) (rest : List Byte) : ∀ n : Nat,
    decodeLoop n (instrs.flatten ++ rest) =
      (decodeLoop n instrs.flatten ++ decodeLoop n rest).take n := by
  induction instrs with
  | nil =>
    intro n
    have hnil : decodeLoop n ([] : List (List Byte)).flatten = [] := by cases n <;> rfl
    rw [hnil, List.nil_append, decodeLoop_take n n rest (Nat.le_refl n)]
    rfl
  | cons bytes instrs ih =>
    intro n
    rw [List.forall_mem_cons] at h
    obtain ⟨instr, hdec⟩ := h.1.decode
    cases n with
    | zero => rfl
    | succ n =>
      -- the second piece is decoded with a counter that is larger by one
      have hrest : (decodeLoop (n + 1) rest).take n = decodeLoop n rest :=
        decodeLoop_take n (n + 1) rest (Nat.le_succ n)
      rw [List.flatten_cons, List.append_assoc, hdec, hdec, List.cons_append, List.take_succ_cons,
        ih h.2, List.take_append, List.take_append, ← hrest, List.take_take,
        Nat.min_eq_left (Nat.sub_le n _)]

end

/-! ### The chunk -/

theorem CodeHeader.decode (h : CodeHeader) (code : List Byte) :
    beamDecodeCodeChunk (h.bytes ++ code) true = some (decodeLoop maxDecoded code) := by
  have hlen : h.bytes.length = 20 := by
    simp only [CodeHeader.bytes, List.length_cons, h.length_fields]
  have hstart : codeStart (h.bytes ++ code) = 20 := by
    show (4#32 + readU32Be h.b0 h.b1 h.b2 h.b3).toNat = 20
    rw [h.subSize]
    rfl
  have h20 : 20 ≤ (h.bytes ++ code).length := by
    rw [List.length_append]
    omega
  rw [beamDecodeCodeChunk_granted h20, if_pos rfl, codeBytes, hstart, ← hlen, List.drop_left]

/-- **Decoding is compositional up to the safety counter.**  Behind every header, whole instructions
and any bytes after them decode to the instructions of the former and then those of the latter, the
first `maxDecoded` of them; no instruction is left out exactly as long as there are not more. -/
theorem beamDecodeCodeChunk_append (h : CodeHeader) {instrs : List (List Byte)}
    (hA : ∀ i ∈ instrs, WholeInstr i) (B : List Byte) :
    ∃ codeA codeB, beamDecodeCodeChunk (h.bytes ++ instrs.flatten) true = some codeA ∧
      beamDecodeCodeChunk (h.bytes ++ B) true = some codeB ∧
      codeA.length = min instrs.length maxDecoded ∧
      beamDecodeCodeChunk (h.bytes ++ (instrs.flatten ++ B)) true =
        some ((codeA ++ codeB).take maxDecoded) ∧
      (beamDecodeCodeChunk (h.bytes ++ (instrs.flatten ++ B)) true = some (codeA ++ codeB) ↔
        codeA.length + codeB.length ≤ maxDecoded) := by
  refine ⟨_, _, h.decode _, h.decode _, length_decodeLoop_whole hA _, ?_, ?_⟩
  · rw [h.decode, decodeLoop_append hA]
  · rw [h.decode, decodeLoop_append hA, Option.some_inj, List.take_eq_self_iff, List.length_append]

theorem wholeInstr_intCodeEnd : WholeInstr [3#8] := ⟨3#8, [], rfl, rfl, by simp⟩

theorem beamDecodeCodeChunk_append_call :
    ∃ codeA codeB, beamDecodeCodeChunk (zeroHeader.bytes ++ [4, 0, 5, 3]) true = some codeA ∧
      beamDecodeCodeChunk (zeroHeader.bytes ++ [19]) true = some codeB ∧ codeA.length = 2 ∧
      beamDecodeCodeChunk (zeroHeader.bytes ++ [4, 0, 5, 3, 19]) true = some (codeA ++ codeB) := by
  have hcall : WholeInstr [4#8, 0#8, 5#8] := by
    have harity : Compact 0 0 [0#8] := .small (by decide)
    have hlabel : Compact 5 0 [5#8] := .small (by decide)
    refine ⟨4#8, [[0#8], [5#8]], rfl, rfl, fun o ho => ?_⟩
    rw [List.mem_pair] at ho
    rcases ho with rfl | rfl
    · exact harity.whole (by decide)
    · exact hlabel.whole (by decide)
  have hA : ∀ i ∈ [[4#8, 0#8, 5#8], [3#8]], WholeInstr i := by
    intro i hi
    rw [List.mem_pair] at hi
    rcases hi with rfl | rfl
    · exact hcall
    · exact wholeInstr_intCodeEnd
  obtain ⟨codeA, codeB, h1, h2, hlen, _, hiff⟩ := beamDecodeCodeChunk_append zeroHeader hA [19]
  refine ⟨codeA, codeB, h1, h2, hlen, hiff.mpr ?_⟩
  cases h2
  rw [hlen]
  decide

/-- `int_code_end`, a number of times. -/
def intCodeEnds (count : Nat) : List (List Byte) := List.replicate count [3#8]

theorem wholeInstr_intCodeEnds {count : Nat} : ∀ i ∈ intCodeEnds count, WholeInstr i := by
  intro i hi
  rw [List.eq_of_mem_replicate hi]
  exact wholeInstr_intCodeEnd

theorem decodeLoop_intCodeEnds_ne (n : Nat) :
    decodeLoop (n + 1) ((intCodeEnds (n + 1)).flatten ++ [3#8]) ≠
      decodeLoop (n + 1) (intCodeEnds (n + 1)).flatten ++ decodeLoop (n + 1) [3#8] := by
  intro he
  have hlen := congrArg List.length he
  have hle := length_decodeLoop_le (n + 1) ((intCodeEnds (n + 1)).flatten ++ [3#8])
  have hone : (decodeLoop (n + 1) [3#8]).length = 1 := by cases n <;> rfl
  rw [List.length_append, length_decodeLoop_whole wholeInstr_intCodeEnds, intCodeEnds,
    List.length_replicate, Nat.min_self, hone] at hlen
  rw [intCodeEnds, hlen] at hle
  omega

/-- **A chunk that is too long is cut**: behind 100001 times `int_code_end`, one more is not
decoded. -/
theorem beamDecodeCodeChunk_cut :
    (∀ i ∈ intCodeEnds 100001, WholeInstr i) ∧
      ∃ codeA codeB,
        beamDecodeCodeChunk (zeroHeader.bytes ++ (intCodeEnds 100001).flatten) true = some codeA ∧
        beamDecodeCodeChunk (zeroHeader.bytes ++ [3#8]) true = some codeB ∧
        beamDecodeCodeChunk (zeroHeader.bytes ++ ((intCodeEnds 100001).flatten ++ [3#8])) true ≠
          some (codeA ++ codeB) := by
  refine ⟨wholeInstr_intCodeEnds, _, _, zeroHeader.decode _, zeroHeader.decode _, ?_⟩
  rw [zeroHeader.decode]
  intro he
  exact decodeLoop_intCodeEnds_ne 100000 (Option.some.inj he)

end BeamModular
