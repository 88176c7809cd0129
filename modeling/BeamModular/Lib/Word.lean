import Mathlib.Data.BitVec
import Mathlib.Data.Nat.Bitwise
import Mathlib.Tactic

/-!
# Machine words and tagged addresses

A 64-bit word carries an address and, in the low bits a word-aligned address
leaves free, a tag.  `tagAddr a t` puts a tag on an address and `addrOf` takes
it off again.  The laws of the file say that an aligned address comes back
unchanged (`addrOf_tagAddr`) and that the tag can still be read
(`tagAddr_and_three`).

The bit masks are turned into remainders once, in `toNat_and_three` and its
neighbours; everything after that is arithmetic on naturals.
-/

namespace BeamModular

/-- A machine word. -/
abbrev Word := BitVec 64

/-- A byte of a string or a file. -/
abbrev Byte := BitVec 8

/-- The string in a buffer: the bytes before the first NUL. -/
def cString (buffer : List Byte) : List Byte := buffer.takeWhile (· ≠ 0#8)

/-- The size of the address space, in bytes. -/
abbrev addressSpace : Nat := 2 ^ 64

/-! ### Masks as remainders -/

theorem toNat_and_three (w : Word) : (w &&& 3#64).toNat = w.toNat % 4 := by
  rw [BitVec.toNat_and]
  exact Nat.and_two_pow_sub_one_eq_mod w.toNat 2

theorem toNat_and_fifteen (w : Word) : (w &&& 15#64).toNat = w.toNat % 16 := by
  rw [BitVec.toNat_and]
  exact Nat.and_two_pow_sub_one_eq_mod w.toNat 4

theorem toNat_and_sixtyThree (w : Word) : (w &&& 63#64).toNat = w.toNat % 64 := by
  rw [BitVec.toNat_and]
  exact Nat.and_two_pow_sub_one_eq_mod w.toNat 6

theorem getLsbD_not_mask {i k : Nat} (hi : i < 64) (hk : ¬ i < k) :
    (~~~BitVec.ofNat 64 (2 ^ k - 1)).getLsbD i = true := by
  rw [BitVec.getLsbD_not, BitVec.getLsbD_ofNat, Nat.testBit_two_pow_sub_one]
  simp [hi, hk]

theorem getLsbD_not_three {i : Nat} (hi : i < 64) (h2 : ¬ i < 2) :
    (~~~3#64).getLsbD i = true := by
  have hmask : 3#64 = BitVec.ofNat 64 (2 ^ 2 - 1) := rfl
  rw [hmask, getLsbD_not_mask hi h2]

/-- Clearing the low bits is shifting them out and zeros back in. -/
theorem and_not_mask (w : Word) (k : Nat) :
    w &&& ~~~BitVec.ofNat 64 (2 ^ k - 1) = (w >>> k) <<< k := by
  apply BitVec.eq_of_getLsbD_eq
  intro i hi
  rw [BitVec.getLsbD_and, BitVec.getLsbD_shiftLeft, BitVec.getLsbD_ushiftRight]
  by_cases hk : i < k
  · rw [BitVec.getLsbD_not, BitVec.getLsbD_ofNat, Nat.testBit_two_pow_sub_one]
    simp [hi, hk]
  · have hback : k + (i - k) = i := by omega
    rw [getLsbD_not_mask hi hk, hback]
    simp [hi, hk]

theorem toNat_and_not_mask (w : Word) (k : Nat) :
    (w &&& ~~~BitVec.ofNat 64 (2 ^ k - 1)).toNat = w.toNat - w.toNat % 2 ^ k := by
  have hle : w.toNat / 2 ^ k * 2 ^ k ≤ w.toNat := Nat.div_mul_le_self _ _
  rw [and_not_mask, BitVec.toNat_shiftLeft, BitVec.toNat_ushiftRight, Nat.shiftRight_eq_div_pow,
    Nat.shiftLeft_eq, Nat.mod_eq_of_lt (lt_of_le_of_lt hle w.isLt),
    ← Nat.div_mul_self_eq_mod_sub_self]

theorem toNat_and_not_three (w : Word) : (w &&& ~~~3#64).toNat = w.toNat - w.toNat % 4 := by
  have hmask : 3#64 = BitVec.ofNat 64 (2 ^ 2 - 1) := rfl
  rw [hmask]
  exact toNat_and_not_mask w 2

/-! ### One up and one down -/

theorem toNat_add_one_of_lt {a b : Word} (h : a < b) : (a + 1#64).toNat = a.toNat + 1 := by
  have := b.isLt
  rw [BitVec.lt_def] at h
  rw [BitVec.toNat_add, BitVec.toNat_ofNat]
  omega

theorem toNat_sub_one_of_lt {a b : Word} (h : a < b) : (b - 1#64).toNat = b.toNat - 1 := by
  rw [BitVec.lt_def] at h
  rw [BitVec.toNat_sub_of_le (by rw [BitVec.le_def, BitVec.toNat_ofNat]; omega)]
  rfl

/-! ### Tagged addresses -/

/-- An address with a tag in its two low bits. -/
def tagAddr (a : Nat) (tag : Word) : Word := BitVec.ofNat 64 a ||| tag

/-- The address of a tagged word. -/
def addrOf (w : Word) : Nat := (w &&& ~~~3#64).toNat

theorem addrOf_eq (w : Word) : addrOf w = w.toNat - w.toNat % 4 := toNat_and_not_three w

theorem toNat_tagAddr {a : Nat} {tag : Word} (ha : a % 4 = 0) (hl : a < addressSpace)
    (ht : tag.toNat < 4) : (tagAddr a tag).toNat = a + tag.toNat := by
  rw [tagAddr, BitVec.toNat_or, BitVec.toNat_ofNat, Nat.mod_eq_of_lt hl]
  obtain ⟨k, rfl⟩ := Nat.dvd_of_mod_eq_zero ha
  exact (Nat.two_pow_add_eq_or_of_lt (i := 2) ht k).symm

/-- **An aligned address survives tagging.** -/
theorem addrOf_tagAddr {a : Nat} {tag : Word} (ha : a % 8 = 0) (hl : a < addressSpace)
    (ht : tag.toNat < 4) : addrOf (tagAddr a tag) = a := by
  rw [addrOf_eq, toNat_tagAddr (by omega) hl ht]
  omega

/-- **The tag of a tagged address can be read back.** -/
theorem tagAddr_and_three {a : Nat} {tag : Word} (ha : a % 8 = 0) (hl : a < addressSpace)
    (ht : tag.toNat < 4) : tagAddr a tag &&& 3#64 = tag := by
  apply BitVec.eq_of_toNat_eq
  rw [toNat_and_three, toNat_tagAddr (by omega) hl ht]
  omega

end BeamModular
