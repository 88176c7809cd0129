import BeamModular.Lib.Memory

/-!
# Tagged terms

`include/beam_core.h`: a term is a word whose low bits say what it is.  The two
low bits are the primary tag; an immediate has four tag bits; a boxed term points
to a header word whose six low bits are the kind of object and whose other bits
are its size.

The accessors that follow a pointer read memory, so they have no result where the
pointer leads nowhere.  The predicates of the header that no modelled function
uses (floats, big integers, references, binaries) are left out.
-/

namespace BeamModular

/-- A term of the virtual machine. -/
abbrev Eterm := Word

def tagPrimaryList : Word := 1#64
def tagPrimaryBoxed : Word := 2#64

def tagImmed1SmallInt : Word := 3#64
def tagImmed1Port : Word := 7#64
def tagImmed1Atom : Word := 11#64
def tagImmed1Pid : Word := 15#64

def subtagTuple : Word := 0#64

/-- The empty list, `(0x0F << 2) | TAG_PRIMARY_IMMED1`. -/
def etermNil : Eterm := 63#64

/-- The status codes of `beam_result_t`. -/
inductive Result
  | ok
  | errInvalidArg
  | errNoMemory
  | errNotFound
  | errHalt
  | errCorruptFile
  | errBadarg
  | errException
  deriving DecidableEq, Repr

/-- The result of an operation that went wrong, without an end of the process. -/
def Result.Fails (r : Result) : Prop := r ≠ .ok ∧ r ≠ .errHalt

instance (r : Result) : Decidable r.Fails := inferInstanceAs (Decidable (r ≠ .ok ∧ r ≠ .errHalt))

/-! ### Immediates -/

def beamIsSmallInt (t : Eterm) : Bool := t &&& 15#64 == tagImmed1SmallInt

def beamIsAtom (t : Eterm) : Bool := t &&& 15#64 == tagImmed1Atom

def beamIsPid (t : Eterm) : Bool := t &&& 15#64 == tagImmed1Pid

def beamIsPort (t : Eterm) : Bool := t &&& 15#64 == tagImmed1Port

/-- `(val << 4) | TAG_IMMED1_SMALL_INT`, in 64 bits. -/
def makeSmallInt (val : Word) : Eterm := val <<< 4 ||| tagImmed1SmallInt

/-- The arithmetic shift `((intptr_t)term) >> 4`. -/
def etermToSmallInt (t : Eterm) : Word := t.sshiftRight 4

def beamIsNil (t : Eterm) : Bool := t == etermNil

/-! ### Tuples and lists -/

def beamIsTuple (m : Memory) (t : Eterm) : Option Bool :=
  if t &&& 3#64 != tagPrimaryBoxed then some false
  else if addrOf t = 0 then some false
  else (m.cell (addrOf t)).map fun header => header &&& 63#64 == subtagTuple

def beamTupleArity (m : Memory) (t : Eterm) : Option Word :=
  (beamIsTuple m t).bind fun isTuple =>
    if isTuple then (m.cell (addrOf t)).map (fun header : Word => header >>> (6 : Nat)) else some 0#64

def beamTupleElement (m : Memory) (t : Eterm) (index : Nat) : Option Eterm :=
  (beamIsTuple m t).bind fun isTuple =>
    if isTuple then m.cell (addrOf t + 8 * (index + 1)) else some 0#64

def beamIsList (t : Eterm) : Bool := t &&& 3#64 == tagPrimaryList

def beamListHead (m : Memory) (t : Eterm) : Option Eterm :=
  if beamIsList t then m.cell (addrOf t) else some 0#64

def beamListTail (m : Memory) (t : Eterm) : Option Eterm :=
  if beamIsList t then m.cell (addrOf t + 8) else some 0#64

/-! ### What the tags say -/

theorem beamIsList_iff {t : Eterm} : beamIsList t = true ↔ t.toNat % 4 = 1 := by
  rw [beamIsList, beq_iff_eq, ← toNat_and_three]
  exact ⟨fun h => by rw [h]; rfl, fun h => BitVec.eq_of_toNat_eq h⟩

theorem boxed_iff {t : Eterm} : t &&& 3#64 = tagPrimaryBoxed ↔ t.toNat % 4 = 2 := by
  rw [← toNat_and_three]
  exact ⟨fun h => by rw [h]; rfl, fun h => BitVec.eq_of_toNat_eq h⟩

theorem beamIsSmallInt_iff {t : Eterm} : beamIsSmallInt t = true ↔ t.toNat % 16 = 3 := by
  rw [beamIsSmallInt, beq_iff_eq, ← toNat_and_fifteen]
  exact ⟨fun h => by rw [h]; rfl, fun h => BitVec.eq_of_toNat_eq h⟩

theorem beamIsAtom_iff {t : Eterm} : beamIsAtom t = true ↔ t.toNat % 16 = 11 := by
  rw [beamIsAtom, beq_iff_eq, ← toNat_and_fifteen]
  exact ⟨fun h => by rw [h]; rfl, fun h => BitVec.eq_of_toNat_eq h⟩

theorem beamIsNil_iff {t : Eterm} : beamIsNil t = true ↔ t.toNat = 63 := by
  rw [beamIsNil, beq_iff_eq]
  exact ⟨fun h => by rw [h]; rfl, fun h => BitVec.eq_of_toNat_eq h⟩

/-- A boxed word is none of the immediates the collector and the lists test for. -/
theorem not_immediate_of_boxed {t : Eterm} (h : t.toNat % 4 = 2) :
    beamIsSmallInt t = false ∧ beamIsAtom t = false ∧ beamIsNil t = false ∧
      beamIsList t = false := by
  refine ⟨?_, ?_, ?_, ?_⟩ <;> rw [Bool.eq_false_iff]
  · rw [Ne, beamIsSmallInt_iff]; omega
  · rw [Ne, beamIsAtom_iff]; omega
  · rw [Ne, beamIsNil_iff]; omega
  · rw [Ne, beamIsList_iff]; omega

/-- The same for a list cell, which is not boxed either. -/
theorem not_immediate_of_list {t : Eterm} (h : t.toNat % 4 = 1) :
    beamIsSmallInt t = false ∧ beamIsAtom t = false ∧ beamIsNil t = false := by
  refine ⟨?_, ?_, ?_⟩ <;> rw [Bool.eq_false_iff]
  · rw [Ne, beamIsSmallInt_iff]; omega
  · rw [Ne, beamIsAtom_iff]; omega
  · rw [Ne, beamIsNil_iff]; omega

theorem beamIsTuple_of_not_boxed {m : Memory} {t : Eterm} (h : t.toNat % 4 ≠ 2) :
    beamIsTuple m t = some false := by
  have hb : (t &&& 3#64 != tagPrimaryBoxed) = true := by
    rw [bne_iff_ne]
    exact fun he => h (boxed_iff.mp he)
  rw [beamIsTuple, if_pos hb]

theorem beamIsTuple_of_boxed {m : Memory} {t : Eterm} (h : t.toNat % 4 = 2)
    (h0 : addrOf t ≠ 0) :
    beamIsTuple m t = (m.cell (addrOf t)).map fun header => header &&& 63#64 == subtagTuple := by
  have hb : ¬ (t &&& 3#64 != tagPrimaryBoxed) = true := by
    rw [bne_iff_ne, not_not]
    exact boxed_iff.mpr h
  rw [beamIsTuple, if_neg hb, if_neg h0]

theorem beamIsTuple_eq_true {m : Memory} {t : Eterm} (h : beamIsTuple m t = some true) :
    t.toNat % 4 = 2 ∧ addrOf t ≠ 0 ∧
      ∃ header, m.cell (addrOf t) = some header ∧ header &&& 63#64 = subtagTuple := by
  have hbox : t.toNat % 4 = 2 := by
    by_contra hne
    rw [beamIsTuple_of_not_boxed hne] at h
    cases h
  have h0 : addrOf t ≠ 0 := by
    intro h0
    rw [beamIsTuple, if_pos h0] at h
    split at h <;> cases h
  rw [beamIsTuple_of_boxed hbox h0, Option.map_eq_some_iff] at h
  obtain ⟨header, hc, hh⟩ := h
  exact ⟨hbox, h0, header, hc, by simpa using hh⟩

theorem toNat_makeSmallInt (v : Word) : (makeSmallInt v).toNat % 4 = 3 := by
  rw [← toNat_and_three]
  have hlow : makeSmallInt v &&& 3#64 = 3#64 := by
    apply BitVec.eq_of_getLsbD_eq
    intro i hi
    by_cases h2 : i < 2
    · have hcase : i = 0 ∨ i = 1 := by omega
      rcases hcase with rfl | rfl <;> simp [makeSmallInt, tagImmed1SmallInt]
    · have hbit : (3#64).getLsbD i = false := by
        have := getLsbD_not_three hi h2
        rw [BitVec.getLsbD_not] at this
        simpa [hi] using this
      rw [BitVec.getLsbD_and, hbit, Bool.and_false]
  rw [hlow]
  rfl

theorem toNat_makeSmallInt_of_lt {v : Word} (h : v.toNat < 2 ^ 58) :
    (makeSmallInt v).toNat = 16 * v.toNat + 3 := by
  rw [makeSmallInt, BitVec.toNat_or, BitVec.toNat_shiftLeft, Nat.shiftLeft_eq,
    Nat.mod_eq_of_lt (by omega), Nat.mul_comm]
  exact (Nat.two_pow_add_eq_or_of_lt (i := 4) (by decide) v.toNat).symm

/-- A count that a header can hold comes back from its small integer. -/
theorem etermToSmallInt_makeSmallInt {v : Word} (h : v.toNat < 2 ^ 58) :
    etermToSmallInt (makeSmallInt v) = v := by
  have hn := toNat_makeSmallInt_of_lt h
  have hmsb : (makeSmallInt v).msb = false := by
    rw [BitVec.msb_eq_false_iff_two_mul_lt, hn]
    omega
  apply BitVec.eq_of_toNat_eq
  rw [etermToSmallInt, BitVec.toNat_sshiftRight_of_msb_false hmsb, hn, Nat.shiftRight_eq_div_pow]
  omega

/-- **A small integer is never a tuple header.** -/
theorem makeSmallInt_and_sixtyThree (v : Word) : makeSmallInt v &&& 63#64 ≠ subtagTuple := by
  intro h
  have h1 := congrArg BitVec.toNat h
  rw [toNat_and_sixtyThree] at h1
  have h2 := toNat_makeSmallInt v
  change _ = 0 at h1
  omega

end BeamModular
