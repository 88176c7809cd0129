import BeamModular.Emulator.Decode

/-!
# Where instructions start

The decoder reads an opcode byte and then its operands, so where the next
instruction starts depends on how many operands it takes the opcode to have.  For
the opcodes its `switch` names, that number is written in the case; for all others it
is taken from `beam_opcode_arities`.  `operandsRead_eq_iff` compares the two: they
differ for 78, which the decoder calls `select_val` and reads with three operands,
while the table gives it two.

`decodeTrace` is the decoding loop with the offset of each instruction, `arityWalk`
the walk that believes the table.  `offsets_eq_iff` says when they start their
instructions at the same bytes.

The second half is about the numbers of labels.  The operand of a `label` comes out of
the decoder as a small integer, the operand of a jump as the bare number, and the
interpreter compares the two (`findLabel_ne_label`).
-/

namespace BeamModular

/-! ### The operands of an instruction -/

/-- What the `switch` of the decoder says about an opcode byte it names: the internal opcode and
the number of operands. -/
def namedOpcode : Nat → Option (Opcode × Nat)
  | 1 => some (.label, 1)
  | 64 => some (.move, 2)
  | 4 => some (.call, 2)
  | 19 => some (.return, 0)
  | 153 => some (.ofCode 153, 1)
  | 2 => some (.ofCode 2, 3)
  | 3 => some (.ofCode 3, 0)
  | 16 => some (.ofCode 16, 2)
  | 69 => some (.getList, 3)
  | 78 => some (.selectVal, 3)
  | 62 => some (.catch, 2)
  | 63 => some (.tryEnd, 1)
  | 104 => some (.try, 2)
  | 105 => some (.tryEnd, 1)
  | 106 => some (.tryCase, 1)
  | 107 => some (.tryCaseEnd, 1)
  | 108 => some (.raise, 2)
  | 161 => some (.raise, 0)
  | _ => none

/-- The number of operands in the table. -/
def arityOf (opcode : Nat) : Nat := beamOpcodeArities.getD opcode 0

/-- The number of operands the decoder reads. -/
def operandsRead (opcode : Nat) : Nat :=
  match namedOpcode opcode with
  | some (_, count) => count
  | none => arityOf opcode

theorem decodeInstr_eq (opcode : Nat) (p : List Byte) :
    decodeInstr opcode p = match namedOpcode opcode with
      | some (op, count) => decodeArgs op count p
      | none => ({ opcode := .ofCode 0 }, skipArgs (arityOf opcode) p) := by
  unfold decodeInstr
  split
  case h_19 =>
    rw [namedOpcode]
    · rfl
    all_goals assumption
  all_goals rfl

theorem namedOpcode_count_le {opcode count : Nat} {op : Opcode}
    (h : namedOpcode opcode = some (op, count)) : count ≤ 3 := by
  unfold namedOpcode at h
  split at h <;> cases h <;> decide

theorem decodeArgs_rest {op : Opcode} {count : Nat} (h : count ≤ 3) (p : List Byte) :
    (decodeArgs op count p).2 = skipArgs count p := by
  match count, h with
  | 0, _ => rfl
  | 1, _ => rfl
  | 2, _ => rfl
  | 3, _ => rfl

theorem decodeInstr_rest (opcode : Nat) (p : List Byte) :
    (decodeInstr opcode p).2 = skipArgs (operandsRead opcode) p := by
  rw [decodeInstr_eq, operandsRead]
  cases h : namedOpcode opcode with
  | none => rfl
  | some r => exact decodeArgs_rest (namedOpcode_count_le h) p

/-- An opcode with a case of its own reads what the table says, but for 78. -/
theorem namedOpcode_count_eq_iff {opcode count : Nat} {op : Opcode}
    (h : namedOpcode opcode = some (op, count)) : count = arityOf opcode ↔ opcode ≠ 78 := by
  unfold namedOpcode at h
  split at h <;> cases h <;> decide +kernel

/-- **The decoder and the table agree on every opcode but 78.** -/
theorem operandsRead_eq_iff (opcode : Byte) :
    operandsRead opcode.toNat = arityOf opcode.toNat ↔ opcode ≠ 78#8 := by
  have h78 : opcode ≠ 78#8 ↔ opcode.toNat ≠ 78 :=
    not_congr ⟨fun he => by rw [he]; rfl, fun he => BitVec.eq_of_toNat_eq he⟩
  rw [h78, operandsRead]
  cases h : namedOpcode opcode.toNat with
  | none =>
    refine iff_of_true rfl fun he => ?_
    rw [he] at h
    cases h
  | some r => exact namedOpcode_count_eq_iff h

theorem operandsRead_selectVal : operandsRead 78 = 3 ∧ arityOf 78 = 2 := by decide +kernel

/-! ### What an operand consumes -/

theorem readBytes_suffix : ∀ (len : Nat) (val : BitVec 32) (p : List Byte),
    (readBytes len val p).2 <:+ p := by
  intro len
  induction len with
  | zero => intro val p; exact List.suffix_refl p
  | succ len ih =>
    intro val p
    cases p with
    | nil => exact List.suffix_refl []
    | cons b p => exact (ih _ p).trans (List.suffix_cons b p)

theorem longOperand_suffix {b : Byte} {p : List Byte} (h : (decodeArg p).2 <:+ p) :
    (longOperand b p).2 <:+ p := by
  unfold longOperand
  dsimp only
  split
  · exact List.suffix_refl p
  · exact h

theorem decodeArg_suffix : ∀ (p : List Byte), (decodeArg p).2 <:+ p := by
  intro p
  induction p with
  | nil => exact List.suffix_refl []
  | cons b p ih =>
    rw [decodeArg_cons]
    split_ifs
    · exact List.suffix_cons b p
    · cases p with
      | nil => exact List.suffix_refl [b]
      | cons c p => exact (List.suffix_cons c p).trans (List.suffix_cons b _)
    · exact ((readBytes_suffix _ _ _).trans (longOperand_suffix ih)).trans (List.suffix_cons b p)

theorem skipArgs_suffix : ∀ (count : Nat) (p : List Byte), skipArgs count p <:+ p := by
  intro count
  induction count with
  | zero => intro p; exact List.suffix_refl p
  | succ count ih => intro p; exact (ih _).trans (decodeArg_suffix p)

/-- No operand is there: nothing is left, or only the first byte of an eleven-bit operand. -/
def NoOperand : List Byte → Prop
  | [] => True
  | [b] => b &&& 8#8 ≠ 0#8 ∧ b &&& 16#8 = 0#8
  | _ :: _ :: _ => False

instance : (p : List Byte) → Decidable (NoOperand p)
  | [] => .isTrue trivial
  | [b] => inferInstanceAs (Decidable (b &&& 8#8 ≠ 0#8 ∧ b &&& 16#8 = 0#8))
  | _ :: _ :: _ => .isFalse id

/-- **An operand that is there takes at least one byte.** -/
theorem decodeArg_rest_eq_iff (p : List Byte) : (decodeArg p).2 = p ↔ NoOperand p := by
  have hshort : ∀ {b : Byte} {q r : List Byte}, q <:+ r → q ≠ b :: r := by
    intro b q r h he
    have hlen := h.length_le
    rw [he, List.length_cons] at hlen
    omega
  cases p with
  | nil => exact ⟨fun _ => trivial, fun _ => rfl⟩
  | cons b p =>
    rw [decodeArg_cons]
    split_ifs with h8 h16
    · refine iff_of_false (hshort (List.suffix_refl p)) ?_
      cases p with
      | nil => exact fun h => h.1 h8
      | cons c p => exact id
    · cases p with
      | nil => exact ⟨fun _ => ⟨h8, h16⟩, fun _ => rfl⟩
      | cons c p => exact iff_of_false (hshort (List.suffix_cons c p)) id
    · refine iff_of_false (hshort ?_) ?_
      · exact (readBytes_suffix _ _ _).trans (longOperand_suffix (decodeArg_suffix p))
      · cases p with
        | nil => exact fun h => h16 h.2
        | cons c p => exact id

/-! ### Two walks over the code -/

/-- Where the code starts: behind the first word and as many bytes as it says, in 32 bits. -/
def codeStart : List Byte → Nat
  | b0 :: b1 :: b2 :: b3 :: _ => (4#32 + readU32Be b0 b1 b2 b3).toNat
  | _ => 0

/-- The bytes of the code. -/
def codeBytes (chunk : List Byte) : List Byte := chunk.drop (codeStart chunk)

/-- The decoding loop, with the offset each instruction starts at. -/
def decodeTrace : Nat → Nat → List Byte → List (Nat × Instruction)
  | 0, _, _ => []
  | _ + 1, _, [] => []
  | left + 1, off, opcode :: p =>
    let r := decodeInstr opcode.toNat p
    (off, r.1) :: decodeTrace left (off + 1 + (p.length - r.2.length)) r.2

/-- The reference walk: behind each opcode byte, as many operands as the table says. -/
def arityWalk : Nat → Nat → List Byte → List Nat
  | 0, _, _ => []
  | _ + 1, _, [] => []
  | n + 1, off, opcode :: p =>
    let rest := skipArgs (arityOf opcode.toNat) p
    off :: arityWalk n (off + 1 + (p.length - rest.length)) rest

/-- The instructions of a chunk, with the offsets at which the decoder starts them. -/
def decodedAt (chunk : List Byte) : List (Nat × Instruction) :=
  decodeTrace maxDecoded (codeStart chunk) (codeBytes chunk)

/-- The offsets of the reference walk; it takes at least one byte a step. -/
def walkOffsets (chunk : List Byte) : List Nat :=
  arityWalk chunk.length (codeStart chunk) (codeBytes chunk)

theorem decodeTrace_instrs : ∀ (left off : Nat) (code : List Byte),
    (decodeTrace left off code).map Prod.snd = decodeLoop left code := by
  intro left
  induction left with
  | zero => intro off code; rfl
  | succ left ih =>
    intro off code
    cases code with
    | nil => rfl
    | cons opcode p =>
      rw [decodeTrace, List.map_cons, ih, decodeLoop]

theorem beamDecodeCodeChunk_granted {chunk : List Byte} (h : 20 ≤ chunk.length) (granted : Bool) :
    beamDecodeCodeChunk chunk granted =
      if granted then some (decodeLoop maxDecoded (codeBytes chunk)) else none := by
  match chunk, h with
  | b0 :: b1 :: b2 :: b3 :: rest, h =>
    rw [beamDecodeCodeChunk, if_neg (by omega)]
    rfl

theorem beamDecodeCodeChunk_eq {chunk : List Byte} (h : 20 ≤ chunk.length) :
    beamDecodeCodeChunk chunk true = some ((decodedAt chunk).map Prod.snd) := by
  rw [beamDecodeCodeChunk_granted h, decodedAt, decodeTrace_instrs, if_pos rfl]

theorem decodeTrace_head (left off : Nat) (code : List Byte) :
    (decodeTrace left off code).map Prod.fst = [] ∨
      ∃ L, (decodeTrace left off code).map Prod.fst = off :: L := by
  cases left with
  | zero => exact Or.inl rfl
  | succ left =>
    cases code with
    | nil => exact Or.inl rfl
    | cons opcode p => exact Or.inr ⟨_, rfl⟩

section Walks

variable {chunk p rest : List Byte} {opcode : Byte} {off : Nat}

theorem drop_behind (hp : chunk.drop off = opcode :: p) (hs : rest <:+ p) :
    chunk.drop (off + 1 + (p.length - rest.length)) = rest := by
  rw [← List.drop_drop, ← List.drop_drop, hp, List.drop_one, List.tail_cons]
  exact (List.suffix_iff_eq_drop.mp hs).symm

/-- The opcode 78 of an instruction has no third operand. -/
def BareSelectVal (chunk : List Byte) (off : Nat) : Prop :=
  chunk[off]? = some 78#8 → NoOperand (skipArgs 2 (chunk.drop (off + 1)))

instance (chunk : List Byte) (off : Nat) : Decidable (BareSelectVal chunk off) :=
  inferInstanceAs (Decidable (chunk[off]? = some 78#8 → _))

theorem getElem?_of_drop (hp : chunk.drop off = opcode :: p) :
    chunk[off]? = some opcode ∧ chunk.drop (off + 1) = p := by
  constructor
  · rw [← List.head?_drop, hp]
    rfl
  · rw [← List.drop_drop, hp]
    rfl

/-- Behind 78 the decoder goes on where the walk does exactly when there is no third operand. -/
theorem rest_eq_iff_bare (hp : chunk.drop off = opcode :: p) :
    skipArgs (operandsRead opcode.toNat) p = skipArgs (arityOf opcode.toNat) p ↔
      BareSelectVal chunk off := by
  obtain ⟨hget, hdrop⟩ := getElem?_of_drop hp
  rw [BareSelectVal, hget, hdrop, Option.some_inj]
  by_cases h78 : opcode = 78#8
  · have hnum : (78#8 : Byte).toNat = 78 := rfl
    rw [h78, hnum, operandsRead_selectVal.1, operandsRead_selectVal.2, ← decodeArg_rest_eq_iff]
    exact ⟨fun h _ => h, fun h => h rfl⟩
  · rw [(operandsRead_eq_iff opcode).mpr h78]
    exact iff_of_true rfl fun h => absurd h h78

theorem rest_lt_of_not_bare (hp : chunk.drop off = opcode :: p) (h : ¬ BareSelectVal chunk off) :
    (skipArgs (operandsRead opcode.toNat) p).length <
      (skipArgs (arityOf opcode.toNat) p).length := by
  have h78 : opcode = 78#8 := by
    by_contra hne
    exact h ((rest_eq_iff_bare hp).mp (by rw [(operandsRead_eq_iff opcode).mpr hne]))
  have hne := mt (rest_eq_iff_bare hp).mp h
  have hnum : (78#8 : Byte).toNat = 78 := rfl
  rw [h78, hnum, operandsRead_selectVal.1, operandsRead_selectVal.2] at hne ⊢
  have hs : skipArgs 3 p <:+ skipArgs 2 p := decodeArg_suffix (skipArgs 2 p)
  exact lt_of_le_of_ne hs.length_le fun he => hne (hs.eq_of_length he)

/-- **The two walks start their instructions at the same bytes** exactly when no 78 has a third
operand. -/
theorem trace_eq_walk_iff (chunk : List Byte) : ∀ (n left off : Nat) (code : List Byte),
    chunk.drop off = code → code.length ≤ n → code.length ≤ left →
      ((decodeTrace left off code).map Prod.fst = arityWalk n off code ↔
        ∀ o ∈ arityWalk n off code, BareSelectVal chunk o) := by
  intro n
  induction n with
  | zero =>
    intro left off code _ hn _
    rw [List.eq_nil_of_length_eq_zero (Nat.le_zero.mp hn)]
    cases left <;> exact iff_of_true rfl (by simp [arityWalk])
  | succ n ih =>
    intro left off code hcode hn hleft
    cases code with
    | nil => cases left <;> exact iff_of_true rfl (by simp [arityWalk])
    | cons opcode p =>
      obtain ⟨left, rfl⟩ : ∃ k, left = k + 1 := ⟨left - 1, by simp at hleft; omega⟩
      have hrest := rest_eq_iff_bare hcode
      rw [decodeTrace, arityWalk, List.map_cons, List.cons_eq_cons, List.forall_mem_cons,
        decodeInstr_rest]
      dsimp only
      rw [eq_self_iff_true, true_and]
      have hsw := skipArgs_suffix (arityOf opcode.toNat) p
      have hlw := hsw.length_le
      rw [List.length_cons] at hn hleft
      by_cases hbare : BareSelectVal chunk off
      · rw [hrest.mpr hbare, and_iff_right hbare]
        exact ih left _ _ (drop_behind hcode hsw) (by omega) (by omega)
      · -- the walk goes on where the decoder still reads the third operand
        refine iff_of_false (fun he => ?_) (fun h => hbare h.1)
        have hlt := rest_lt_of_not_bare hcode hbare
        obtain ⟨n, rfl⟩ : ∃ k, n = k + 1 := ⟨n - 1, by omega⟩
        obtain ⟨c, w, hw⟩ : ∃ c w, skipArgs (arityOf opcode.toNat) p = c :: w :=
          List.exists_cons_of_length_pos (by omega)
        rw [hw, arityWalk] at he
        rw [hw] at hlt hlw
        rcases decodeTrace_head left (off + 1 +
            (p.length - (skipArgs (operandsRead opcode.toNat) p).length))
            (skipArgs (operandsRead opcode.toNat) p) with h0 | ⟨L, h0⟩
        · rw [h0] at he
          cases he
        · rw [h0, List.cons_eq_cons] at he
          omega

end Walks

/-- **Framing agrees with the arity table exactly when no 78 has a third operand.**  For every chunk
with at most 100000 bytes of code, the decoder starts its instructions at the offsets of the
reference walk if and only if every opcode 78 of that walk has nothing behind its two operands that
could be read as an operand. -/
theorem offsets_eq_iff (chunk : List Byte) (h20 : 20 ≤ chunk.length)
    (hlen : (codeBytes chunk).length ≤ 100000) :
    beamDecodeCodeChunk chunk true = some ((decodedAt chunk).map Prod.snd) ∧
      ((decodedAt chunk).map Prod.fst = walkOffsets chunk ↔
        ∀ off ∈ walkOffsets chunk, BareSelectVal chunk off) := by
  refine ⟨beamDecodeCodeChunk_eq h20, trace_eq_walk_iff chunk _ _ _ _ rfl ?_ ?_⟩
  · rw [codeBytes, List.length_drop]
    omega
  · exact hlen.trans (by decide)

theorem offsets_eq_callReturn :
    (codeBytes (chunkOf [4, 0, 5, 19])).length ≤ 100000 ∧
      (decodedAt (chunkOf [4, 0, 5, 19])).map Prod.fst = walkOffsets (chunkOf [4, 0, 5, 19]) := by
  refine ⟨by decide, (offsets_eq_iff (chunkOf [4, 0, 5, 19]) (by decide) (by decide)).2.mpr ?_⟩
  decide +kernel

/-- **A `return` read as an operand**: behind 78 with its two operands stands 19, and the decoder
takes it for a third one. -/
theorem selectVal_swallows_return :
    20 ≤ (chunkOf [78, 3, 5, 19, 3]).length ∧
      (codeBytes (chunkOf [78, 3, 5, 19, 3])).length ≤ 100000 ∧
      walkOffsets (chunkOf [78, 3, 5, 19, 3]) = [20, 23, 24] ∧
      (decodedAt (chunkOf [78, 3, 5, 19, 3])).map Prod.fst = [20, 24] ∧
      (decodedAt (chunkOf [78, 3, 5, 19, 3])).map Prod.fst ≠
        walkOffsets (chunkOf [78, 3, 5, 19, 3]) := by
  refine ⟨by decide, by decide, by decide +kernel, by decide +kernel, by decide +kernel⟩

/-! ### The numbers of labels -/

/-- The operand at the front has this tag and this value. -/
def ReadsAs (tag v : Nat) (p : List Byte) : Prop :=
  ∃ b q, p = b :: q ∧ (b &&& 7#8).toNat = tag ∧
    (decodeArg p).1 = taggedArg (b &&& 7#8) (BitVec.ofNat 32 v)

/-- The instruction `label N` starts with these bytes, its operand an unsigned number. -/
def IsLabel (v : Nat) (bytes : List Byte) : Prop := ∃ p, bytes = 1#8 :: p ∧ ReadsAs 0 v p

/-- An instruction that refers to the label `N` starts with these bytes: `catch` or `try` in its
first operand, `select_val` in its second. -/
def RefersTo (v : Nat) (bytes : List Byte) : Prop :=
  ∃ opcode p, bytes = opcode :: p ∧
    ((opcode = 62#8 ∨ opcode = 104#8) ∧ ReadsAs 5 v p ∨ opcode = 78#8 ∧ ReadsAs 5 v (decodeArg p).2)

/-- The field of a decoded instruction that the interpreter takes for the label. -/
def labelOperand (instr : Instruction) : BitVec 32 :=
  match instr.opcode with
  | .selectVal => instr.arg2
  | _ => instr.arg1

theorem Compact.readsAs {tag v : Nat} {bs : List Byte} (h : Compact tag v bs) (ht : tag < 8)
    (rest : List Byte) : ReadsAs tag v (bs ++ rest) := by
  have hd := congrArg Prod.fst (decodeArg_compact h ht rest)
  have htag : (BitVec.ofNat 8 tag).toNat = tag := by
    rw [BitVec.toNat_ofNat]
    omega
  cases h with
  | small hv =>
    obtain ⟨h1, _⟩ := small_byte hv ht
    exact ⟨_, _, rfl, by rw [h1, htag], by rw [h1]; exact hd⟩
  | medium hv =>
    obtain ⟨h1, _⟩ := medium_byte (show v / 256 < 8 by omega) ht
    exact ⟨_, _, rfl, by rw [h1, htag], by rw [h1]; exact hd⟩
  | bytes bs h2 h8 hv =>
    obtain ⟨h1, _⟩ := long_byte (show bs.length - 2 < 7 by omega) ht
    exact ⟨_, _, rfl, by rw [h1, htag], by rw [h1]; exact hd⟩

theorem ReadsAs.unsigned {v : Nat} {p : List Byte} (h : ReadsAs 0 v p) (hv : v < 2 ^ 28) :
    ((decodeArg p).1.setWidth 32).toNat = 16 * v + 3 := by
  obtain ⟨b, q, _, htag, hd⟩ := h
  have hval : ((BitVec.ofNat 32 v).setWidth 64).toNat = v := by
    simp only [BitVec.toNat_setWidth, BitVec.toNat_ofNat]
    omega
  have hsmall := toNat_makeSmallInt_of_lt (v := (BitVec.ofNat 32 v).setWidth 64) (by omega)
  rw [hd, taggedArg, htag, BitVec.toNat_setWidth]
  show (makeSmallInt _).toNat % 2 ^ 32 = _
  rw [hsmall, hval]
  omega

theorem ReadsAs.label {v : Nat} {p : List Byte} (h : ReadsAs 5 v p) (hv : v < 2 ^ 28) :
    ((decodeArg p).1.setWidth 32).toNat = v := by
  obtain ⟨b, q, _, htag, hd⟩ := h
  rw [hd, taggedArg, htag]
  simp only [BitVec.toNat_setWidth, BitVec.toNat_ofNat]
  omega

theorem decodeTrace_mem {chunk : List Byte} : ∀ {left off : Nat} {code : List Byte},
    chunk.drop off = code → ∀ x ∈ decodeTrace left off code,
      ∃ opcode p, chunk.drop x.1 = opcode :: p ∧ x.2 = (decodeInstr opcode.toNat p).1 := by
  intro left
  induction left with
  | zero => intro off code _ x hx; cases hx
  | succ left ih =>
    intro off code hcode x hx
    cases code with
    | nil => cases hx
    | cons opcode p =>
      rw [decodeTrace, List.mem_cons] at hx
      rcases hx with rfl | hx
      · exact ⟨opcode, p, hcode, rfl⟩
      · rw [decodeInstr_rest] at hx
        exact ih (drop_behind hcode (skipArgs_suffix _ p)) x hx

section Labels

variable {chunk : List Byte} {x : Nat × Instruction} {v : Nat}

theorem arg1_of_isLabel (hx : x ∈ decodedAt chunk) (h : IsLabel v (chunk.drop x.1))
    (hv : v < 2 ^ 28) : x.2.opcode = .label ∧ x.2.arg1.toNat = 16 * v + 3 := by
  obtain ⟨opcode, p, hdrop, hinstr⟩ := decodeTrace_mem rfl x hx
  obtain ⟨q, hbytes, hreads⟩ := h
  rw [hdrop] at hbytes
  obtain ⟨rfl, rfl⟩ := List.cons.inj hbytes
  rw [hinstr]
  exact ⟨rfl, hreads.unsigned hv⟩

theorem labelOperand_of_refersTo (hx : x ∈ decodedAt chunk) (h : RefersTo v (chunk.drop x.1))
    (hv : v < 2 ^ 28) : (labelOperand x.2).toNat = v := by
  obtain ⟨opcode, p, hdrop, hinstr⟩ := decodeTrace_mem rfl x hx
  obtain ⟨opcode', q, hbytes, hcase⟩ := h
  rw [hdrop] at hbytes
  obtain ⟨rfl, rfl⟩ := List.cons.inj hbytes
  rw [hinstr]
  rcases hcase with ⟨rfl | rfl, hreads⟩ | ⟨rfl, hreads⟩
  · exact hreads.label hv
  · exact hreads.label hv
  · exact hreads.label hv

end Labels

/-- **No decoded jump finds its label.**  For every chunk and every label number below `2 ^ 28`: the
interpreter's search for the label of a decoded `catch`, `try` or `select_val` that refers to `N`
never finds an instruction that was decoded from `label N`. -/
theorem findLabel_ne_label (chunk : List Byte) (v : Nat) (hv : v < 2 ^ 28) (i j : Nat)
    (x y : Nat × Instruction) (hx : (decodedAt chunk)[i]? = some x)
    (hlabel : IsLabel v (chunk.drop x.1)) (hy : (decodedAt chunk)[j]? = some y)
    (hjump : RefersTo v (chunk.drop y.1)) :
    findLabel ((decodedAt chunk).map Prod.snd) (labelOperand y.2).toNat ≠ some i := by
  obtain ⟨_, harg⟩ := arg1_of_isLabel (List.mem_of_getElem? hx) hlabel hv
  rw [labelOperand_of_refersTo (List.mem_of_getElem? hy) hjump hv, findLabel]
  intro hfind
  obtain ⟨hi, hfound, _⟩ := List.findIdx?_eq_some_iff_getElem.mp hfind
  rw [List.getElem?_eq_some_iff] at hx
  obtain ⟨_, hget⟩ := hx
  simp only [List.getElem_map, hget, harg, decide_eq_true_iff] at hfound
  omega

/-- `label 1` and a `try` with the handler 1. -/
def labelAndTry : List Byte := chunkOf [1, 16, 104, 21, 3]

theorem labelAndTry_label : IsLabel 1 (labelAndTry.drop 20) :=
  ⟨_, rfl, (Compact.small (by decide) : Compact 0 1 _).readsAs (by decide) [104, 21, 3]⟩

theorem labelAndTry_try : RefersTo 1 (labelAndTry.drop 22) :=
  ⟨104#8, _, rfl, Or.inl ⟨Or.inr rfl,
    (Compact.small (by decide) : Compact 5 1 _).readsAs (by decide) [3]⟩⟩

theorem labelAndTry_decoded :
    (decodedAt labelAndTry)[0]? = some (20, { opcode := .label, arg1 := 19#32 }) ∧
      (decodedAt labelAndTry)[1]? = some (22, { opcode := .try, arg1 := 1#32, arg2 := 0#32 }) := by
  decide +kernel

theorem findLabel_ne_labelAndTry :
    findLabel ((decodedAt labelAndTry).map Prod.snd) 1 ≠ some 0 :=
  findLabel_ne_label labelAndTry 1 (by decide) 0 1 _ _ labelAndTry_decoded.1 labelAndTry_label
    labelAndTry_decoded.2 labelAndTry_try

/-- **The handler of the `try` is not found**, although the chunk has its label. -/
theorem labelAndTry_unfound :
    (∃ x, (decodedAt labelAndTry)[0]? = some x ∧ IsLabel 1 (labelAndTry.drop x.1)) ∧
      (∃ y, (decodedAt labelAndTry)[1]? = some y ∧ RefersTo 1 (labelAndTry.drop y.1) ∧
        findLabel ((decodedAt labelAndTry).map Prod.snd) (labelOperand y.2).toNat = none) := by
  obtain ⟨hx, hy⟩ := labelAndTry_decoded
  exact ⟨⟨_, hx, labelAndTry_label⟩, ⟨_, hy, labelAndTry_try, by decide +kernel⟩⟩

end BeamModular
