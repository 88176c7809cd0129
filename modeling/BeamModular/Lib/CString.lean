import BeamModular.Lib.Word
import Mathlib.Data.List.TakeWhile

/-!
# Strings in buffers

A string ends at the first NUL of its buffer.  `strncpy` copies a string into a field
of a fixed size and fills the field up with NULs.  A `CharField` has one byte more, which is
NUL, so it always holds a string and a bounded one (`length_string_le`): as much of what was
copied as fits (`string_ofString`), and all of it exactly when it is not too long
(`string_ofString_eq_iff`).
-/

namespace BeamModular

/-- The bytes that `strncpy` writes. -/
def strncpy (src : List Byte) (n : Nat) : List Byte :=
  (cString src).take n ++ List.replicate (n - (cString src).length) 0#8

/-- A field of `n + 1` bytes whose last byte is NUL. -/
structure CharField (n : Nat) where
  front : List Byte
  size : front.length = n
  deriving DecidableEq, Repr

/-- The string in the field. -/
def CharField.string {n : Nat} (f : CharField n) : List Byte := cString (f.front ++ [0#8])

variable {src name : List Byte} {n : Nat}

theorem zero_notMem_cString (str : List Byte) : 0#8 ∉ cString str := fun hm => by
  simpa using List.mem_takeWhile_imp hm

theorem cString_eq_self {name : List Byte} (h : 0#8 ∉ name) : cString name = name := by
  have hall : ∀ b ∈ name, decide (b ≠ 0#8) = true := fun b hb =>
    decide_eq_true fun he => h (he ▸ hb)
  exact List.takeWhile_eq_self_iff.mpr hall

/-- What stands behind the terminator is not read. -/
theorem cString_append_zero (hnul : 0#8 ∉ name) (rest : List Byte) :
    cString (name ++ 0#8 :: rest) = name := by
  rw [cString, List.takeWhile_append_of_pos]
  · exact List.append_nil name
  · intro b hb
    simp only [decide_not, Bool.not_eq_true', decide_eq_false_iff_not]
    rintro rfl
    exact hnul hb

theorem cString_terminated {name : List Byte} (hnul : 0#8 ∉ name) :
    cString (name ++ [0#8]) = name := cString_append_zero hnul []

theorem length_strncpy (src : List Byte) (n : Nat) : (strncpy src n).length = n := by
  rw [strncpy, List.length_append, List.length_take, List.length_replicate]
  omega

/-- What `strncpy` makes of a field of NULs. -/
def CharField.ofString (src : List Byte) (n : Nat) : CharField n :=
  ⟨strncpy src n, length_strncpy src n⟩

namespace CharField

theorem length_string_le (f : CharField n) : f.string.length ≤ n := by
  have hle : f.string.length ≤ (f.front ++ [0#8]).length := (List.takeWhile_prefix _).length_le
  rw [List.length_append, f.size, List.length_singleton] at hle
  refine Nat.le_of_lt_succ (lt_of_le_of_ne hle fun he => ?_)
  have hall : f.string = f.front ++ [0#8] := by
    apply (List.takeWhile_prefix _).eq_of_length
    rw [List.length_append, f.size]
    exact he
  apply zero_notMem_cString (f.front ++ [0#8])
  rw [← string, hall]
  exact List.mem_append_right _ (List.mem_singleton_self _)

/-- **A field holds as much of the string as fits.** -/
theorem string_ofString (src : List Byte) (n : Nat) :
    (ofString src n).string = (cString src).take n := by
  have hnul : 0#8 ∉ (cString src).take n := fun hm =>
    zero_notMem_cString src (List.mem_of_mem_take hm)
  obtain ⟨rest, hrest⟩ : ∃ rest,
      List.replicate (n - (cString src).length) 0#8 ++ [0#8] = 0#8 :: rest := by
    cases n - (cString src).length with
    | zero => exact ⟨[], rfl⟩
    | succ k => exact ⟨List.replicate k 0#8 ++ [0#8], rfl⟩
  show cString (strncpy src n ++ [0#8]) = _
  rw [strncpy, List.append_assoc, hrest]
  exact cString_append_zero hnul rest

theorem string_ofString_eq_iff : (ofString src n).string = cString src ↔
    (cString src).length ≤ n := by
  rw [string_ofString]
  exact List.take_eq_self_iff _

end CharField

end BeamModular
