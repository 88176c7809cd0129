import BeamModular.Emulator.Compose

/-!
# What an instruction keeps of its operands

`decode_arg` returns a term of 64 bits that it computes from 32, and the decoder stores
it in a field of 32.  A small integer has four bits of tag, so a field has room for
numbers below `2 ^ 28` (`exactNumber_iff`).

An integer and an atom are stored with their tags, a register or a label as the bare
number.  `fieldOf` is what the field of a source operand holds, and `moves_ne_iff` says
which different sources end up as the same instruction.
-/

namespace BeamModular

/-! ### The fields -/

/-- The field of an operand. -/
def Instruction.field (instr : Instruction) : Nat → BitVec 32
  | 0 => instr.arg1
  | 1 => instr.arg2
  | _ => instr.arg3

theorem argsOf_getD : ∀ (count i : Nat) (p : List Byte), i < count →
    (argsOf count p).getD i 0#64 = (decodeArg (skipArgs i p)).1 := by
  intro count
  induction count with
  | zero => intro i p hi; exact absurd hi (Nat.not_lt_zero i)
  | succ count ih =>
    intro i p hi
    cases i with
    | zero => rfl
    | succ i => exact ih i _ (Nat.lt_of_succ_lt_succ hi)

/-- **A field holds the low half of its operand.** -/
theorem decodeInstr_field {opcode count : Nat} {op : Opcode}
    (h : namedOpcode opcode = some (op, count)) {i : Nat} (hi : i < count) (p : List Byte) :
    (decodeInstr opcode p).1.field i = (decodeArg (skipArgs i p)).1.setWidth 32 := by
  have hcount := namedOpcode_count_le h
  rw [decodeInstr_eq, h]
  dsimp only
  rw [decodeArgs_eq hcount, ← argsOf_getD count i p hi]
  match i, hi with
  | 0, _ => rfl
  | 1, _ => rfl
  | 2, _ => rfl
  | n + 3, hi => omega

/-! ### Numbers -/

/-- A number of these bytes is exact: `decode_arg` takes them all and returns its small integer,
and so does the field that it is stored in, whichever instruction it is an operand of. -/
def ExactNumber (v : Nat) (bs : List Byte) : Prop :=
  (∀ rest, decodeArg (bs ++ rest) = (makeSmallInt (BitVec.ofNat 64 v), rest)) ∧
  ∀ (opcode count : Nat) (op : Opcode) (ops : List (List Byte)) (rest : List Byte),
    namedOpcode opcode = some (op, count) → ops.length < count → (∀ o ∈ ops, WholeOperand o) →
      ((decodeInstr opcode (ops.flatten ++ (bs ++ rest))).1.field ops.length).toNat =
        (makeSmallInt (BitVec.ofNat 64 v)).toNat

section

variable {tag v : Nat} {bs : List Byte}

theorem taggedArg_number (ht : tag = 0 ∨ tag = 1) (v : Nat) :
    taggedArg (BitVec.ofNat 8 tag) (BitVec.ofNat 32 v) =
      makeSmallInt (BitVec.ofNat 64 (v % 2 ^ 32)) := by
  have hval : (BitVec.ofNat 32 v).setWidth 64 = BitVec.ofNat 64 (v % 2 ^ 32) := by
    apply BitVec.eq_of_toNat_eq
    rw [BitVec.toNat_setWidth, BitVec.toNat_ofNat, BitVec.toNat_ofNat]
  rw [← hval]
  rcases ht with rfl | rfl <;> rfl

theorem toNat_makeSmallInt_ofNat (h : v < 2 ^ 59) :
    (makeSmallInt (BitVec.ofNat 64 v)).toNat = 16 * v + 3 := by
  rw [toNat_makeSmallInt_eq, BitVec.toNat_ofNat]
  omega

theorem toNat_field_number (ht : tag = 0 ∨ tag = 1) (v : Nat) :
    ((taggedArg (BitVec.ofNat 8 tag) (BitVec.ofNat 32 v)).setWidth 32).toNat =
      16 * (v % 2 ^ 28) + 3 := by
  rw [taggedArg_number ht, BitVec.toNat_setWidth, toNat_makeSmallInt_ofNat (by omega)]
  omega

/-- **Numbers are exact below `2 ^ 28`.**  For every encoding of an unsigned or integer operand
below `2 ^ 59`: the decoder takes exactly its bytes and keeps its value, in the result and in the
field, if and only if the value is below `2 ^ 28`. -/
theorem exactNumber_iff (ht : tag = 0 ∨ tag = 1) (hc : Compact tag v bs) (hv : v < 2 ^ 59) :
    ExactNumber v bs ↔ v < 2 ^ 28 := by
  have htag : tag < 8 := by omega
  constructor
  · intro h
    -- the operand of a `line` instruction
    have hline := h.2 153 1 (.ofCode 153) [] [] rfl (by decide) (by simp)
    have hfield := decodeInstr_field (show namedOpcode 153 = some (.ofCode 153, 1) from rfl)
      (show 0 < 1 by decide) (bs ++ [])
    rw [List.flatten_nil, List.nil_append, List.length_nil, hfield, skipArgs] at hline
    rw [decodeArg_compact hc htag, toNat_field_number ht, toNat_makeSmallInt_ofNat hv] at hline
    omega
  · intro hlt
    refine ⟨fun rest => ?_, fun opcode count op ops rest hn hi hops => ?_⟩
    · rw [decodeArg_compact hc htag, taggedArg_number ht, Nat.mod_eq_of_lt (by omega)]
    · rw [decodeInstr_field hn hi, skipArgs_whole hops, decodeArg_compact hc htag,
        toNat_field_number ht, toNat_makeSmallInt_ofNat hv, Nat.mod_eq_of_lt hlt]

end

theorem exactNumber_seven : Compact 1 7 [113#8] ∧ ExactNumber 7 [113#8] :=
  ⟨.small (by decide),
    (exactNumber_iff (Or.inr rfl) (.small (by decide)) (by decide)).mpr (by decide)⟩

/-- **A number that does not fit**: `2 ^ 28` in four bytes is read, and stored as 0. -/
theorem wideNumber_not_exact :
    Compact 1 (2 ^ 28) [89#8, 16#8, 0#8, 0#8, 0#8] ∧
      (decodeInstr 153 [89#8, 16#8, 0#8, 0#8, 0#8]).1.arg1 = 3#32 ∧
      ¬ ExactNumber (2 ^ 28) [89#8, 16#8, 0#8, 0#8, 0#8] := by
  have hfield : (decodeInstr 153 [89#8, 16#8, 0#8, 0#8, 0#8]).1.arg1 = 3#32 := by decide +kernel
  refine ⟨.bytes [16#8, 0#8, 0#8, 0#8] (by decide) (by decide) (by decide), hfield, fun h => ?_⟩
  have hline := h.2 153 1 (.ofCode 153) [] [] rfl (by decide) (by simp)
  change (decodeInstr 153 [89#8, 16#8, 0#8, 0#8, 0#8]).1.arg1.toNat = _ at hline
  rw [hfield, toNat_makeSmallInt_ofNat (by decide)] at hline
  exact absurd hline (by decide)

/-! ### Kinds -/

/-- The operands that are decoded to their bare number. -/
inductive Bare
  | x
  | y
  | label
  deriving DecidableEq, Repr

def Bare.tag : Bare → Nat
  | .x => 3
  | .y => 4
  | .label => 5

/-- The source of a move. -/
inductive Source
  | int (v : Int)
  | atom (n : Nat)
  | bare (kind : Bare) (n : Nat)
  deriving DecidableEq, Repr

namespace Source

/-- The encodings of a source. -/
def Encodes (bs : List Byte) : Source → Prop
  | .int v => CompactInt v bs
  | .atom n => Compact 2 n bs
  | .bare kind n => Compact kind.tag n bs

/-- The value is below `2 ^ 28`. -/
def Small : Source → Prop
  | .int v => v < 2 ^ 28
  | .atom n => n < 2 ^ 28
  | .bare _ n => n < 2 ^ 28

end Source

/-- The number that the bytes of an integer make if its sign is not looked at. -/
def signless (v : Int) (bs : List Byte) : Nat :=
  (if 0 ≤ v then v else v + 2 ^ (8 * (bs.length - 1))).toNat

/-- Two sources, of these bytes, that are told apart by nothing: two bare numbers, a bare number
that is a tagged integer or atom, or two integers that agree without their signs. -/
def Clash (a b : List Byte) : Source → Source → Prop
  | .bare _ m, .bare _ n => m = n
  | .bare _ n, .int v => n = 16 * (signless v b % 2 ^ 28) + 3
  | .int v, .bare _ n => n = 16 * (signless v a % 2 ^ 28) + 3
  | .bare _ m, .atom n => m = 16 * n + 11
  | .atom n, .bare _ m => m = 16 * n + 11
  | .int v, .int w => signless v a % 2 ^ 28 = signless w b % 2 ^ 28
  | _, _ => False

/-- What the field of a source holds. -/
def fieldOf (bs : List Byte) : Source → Nat
  | .int v => 16 * (signless v bs % 2 ^ 28) + 3
  | .atom n => 16 * n + 11
  | .bare _ n => n

theorem CompactInt.compact {v : Int} {bs : List Byte} (h : CompactInt v bs) :
    Compact 1 (signless v bs) bs := by
  cases h with
  | short bs h0 _ hc => rwa [signless, if_pos h0]
  | bytes bs h2 h8 hlo hhi hv =>
    refine Compact.bytes bs h2 h8 ?_
    have hhalf : (2 : Int) ^ (8 * bs.length) = 2 * 2 ^ (8 * bs.length - 1) := by
      rw [← pow_succ']
      congr 1
      omega
    rw [signless, List.length_cons, Nat.add_sub_cancel]
    split <;> rename_i h0
    · rw [Int.emod_eq_of_lt h0 (by omega)] at hv
      omega
    · rw [← Int.add_emod_right, Int.emod_eq_of_lt (by omega) (by omega)] at hv
      omega

theorem toNat_field_atom {n : Nat} (h : n < 2 ^ 28) :
    ((taggedArg (BitVec.ofNat 8 2) (BitVec.ofNat 32 n)).setWidth 32).toNat = 16 * n + 11 := by
  have hor := Nat.two_pow_add_eq_or_of_lt (i := 4) (show 11 < 2 ^ 4 by decide) n
  have hval : (BitVec.ofNat 32 n).toNat = n := Nat.mod_eq_of_lt (by omega)
  change ((((BitVec.ofNat 32 n) <<< 4 ||| 11#32).setWidth 64).setWidth 32).toNat = _
  rw [BitVec.toNat_setWidth, BitVec.toNat_setWidth, BitVec.toNat_or, BitVec.toNat_shiftLeft, hval,
    Nat.shiftLeft_eq, Nat.mod_eq_of_lt (show n * 2 ^ 4 < 2 ^ 32 by omega), Nat.mul_comm n,
    show (11#32 : BitVec 32).toNat = 11 from rfl, ← hor]
  omega

theorem toNat_field_bare (kind : Bare) {n : Nat} (h : n < 2 ^ 28) :
    ((taggedArg (BitVec.ofNat 8 kind.tag) (BitVec.ofNat 32 n)).setWidth 32).toNat = n := by
  have htag : taggedArg (BitVec.ofNat 8 kind.tag) (BitVec.ofNat 32 n) =
      (BitVec.ofNat 32 n).setWidth 64 := by
    cases kind <;> rfl
  rw [htag, BitVec.toNat_setWidth, BitVec.toNat_setWidth, BitVec.toNat_ofNat]
  omega

section

variable {s t : Source} {a b : List Byte}

theorem Source.Encodes.decode (h : s.Encodes a) (hs : s.Small) (rest : List Byte) :
    ((decodeArg (a ++ rest)).1.setWidth 32).toNat = fieldOf a s ∧
      (decodeArg (a ++ rest)).2 = rest := by
  cases s with
  | int v =>
    rw [decodeArg_compact h.compact (by decide)]
    exact ⟨toNat_field_number (Or.inr rfl) _, rfl⟩
  | atom n =>
    rw [decodeArg_compact h (by decide)]
    exact ⟨toNat_field_atom hs, rfl⟩
  | bare kind n =>
    rw [decodeArg_compact h (by cases kind <;> decide)]
    exact ⟨toNat_field_bare kind hs, rfl⟩

theorem fieldOf_eq_iff (hne : s ≠ t) : fieldOf a s = fieldOf b t ↔ Clash a b s t := by
  cases s <;> cases t <;> simp only [fieldOf, Clash]
  case int.int => omega
  case int.atom => exact iff_of_false (by omega) id
  case int.bare => exact eq_comm
  case atom.int => exact iff_of_false (by omega) id
  case atom.atom m n =>
    refine iff_of_false (fun he => hne ?_) id
    rw [show m = n by omega]
  case atom.bare => exact eq_comm

/-- **Moves of different sources are the same instruction exactly if the sources clash.**  For every
two sources that differ in kind or value, with values below `2 ^ 28`, all their encodings and the
same X register as destination. -/
theorem moves_ne_iff {d : Nat} {c c' : List Byte} (hne : s ≠ t) (hs : s.Small) (ht : t.Small)
    (ha : s.Encodes a) (hb : t.Encodes b) (hc : Compact 3 d c) (hc' : Compact 3 d c')
    (rest rest' : List Byte) :
    (decodeInstr 64 (a ++ (c ++ rest))).1 ≠ (decodeInstr 64 (b ++ (c' ++ rest'))).1 ↔
      ¬ Clash a b s t := by
  obtain ⟨ha₁, ha₂⟩ := ha.decode hs (c ++ rest)
  obtain ⟨hb₁, hb₂⟩ := hb.decode ht (c' ++ rest')
  have hdst : (decodeArg (c ++ rest)).1.setWidth 32 = (decodeArg (c' ++ rest')).1.setWidth 32 := by
    rw [decodeArg_compact hc (by decide), decodeArg_compact hc' (by decide)]
  have hmove : ∀ p, (decodeInstr 64 p).1 =
      { opcode := .move, arg1 := (decodeArg p).1.setWidth 32,
        arg2 := (decodeArg (decodeArg p).2).1.setWidth 32 } := fun p => rfl
  rw [not_iff_not, hmove, hmove, ha₂, hb₂, hdst, ← fieldOf_eq_iff hne, ← ha₁, ← hb₁,
    BitVec.toNat_inj, Instruction.mk.injEq]
  exact ⟨fun h => h.2.1, fun h => ⟨rfl, h, rfl, rfl, rfl, rfl, rfl, rfl⟩⟩

end

theorem moves_ne_sevens :
    (decodeInstr 64 [113#8, 3#8]).1 ≠ (decodeInstr 64 [114#8, 3#8]).1 :=
  (moves_ne_iff (s := .int 7) (t := .atom 7) (a := [113#8]) (b := [114#8]) (by decide)
    (show (7 : Int) < 2 ^ 28 by decide) (show 7 < 2 ^ 28 by decide)
    (.short _ (by decide) (by decide) (.small (by decide))) (.small (by decide))
    (.small (by decide) : Compact 3 0 [3#8]) (.small (by decide)) [] []).mpr id

/-- **An X and a Y register are the same**: the moves of `x5` and of `y5` to `x0` decode to one
instruction. -/
theorem moveFive_same :
    Source.bare .x 5 ≠ .bare .y 5 ∧
      (Source.bare .x 5).Encodes [83#8] ∧ (Source.bare .y 5).Encodes [84#8] ∧
      Compact 3 0 [3#8] ∧
      beamDecodeCodeChunk (zeroHeader.bytes ++ [64#8, 83#8, 3#8]) true =
        some [{ opcode := .move, arg1 := 5#32, arg2 := 0#32 }] ∧
      beamDecodeCodeChunk (zeroHeader.bytes ++ [64#8, 84#8, 3#8]) true =
        some [{ opcode := .move, arg1 := 5#32, arg2 := 0#32 }] :=
  ⟨by decide, .small (by decide), .small (by decide), .small (by decide), by decide +kernel,
    by decide +kernel⟩

end BeamModular
