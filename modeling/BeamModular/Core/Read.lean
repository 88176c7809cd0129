import BeamModular.Core.Denote

/-!
# What the accessors read of a tree

The questions that the interpreter asks of a term (is it a list, a tuple, an immediate, how
long is it) as functions of the tree, and the accessors of `beam_core.h` in these terms.

`Memory.only m used` is the memory as someone sees it who may look at the used words only.
A tree that can be read there stays what it is while the used words keep their contents and
are not given up (`only_extends`, with `Denotes.extends`), whatever is written elsewhere.
-/

namespace BeamModular

namespace Term

/-- The word of an immediate. -/
def word? : Term → Option Eterm
  | imm w => some w
  | _ => none

def isCons : Term → Bool
  | cons _ _ => true
  | _ => false

def isTuple : Term → Bool
  | tuple _ _ => true
  | _ => false

/-- The number of cells along the tails. -/
def spine : Term → Nat
  | cons _ tail => tail.spine + 1
  | _ => 0

/-- Two terms of which at least one is an immediate can be compared by their words. -/
def same? : Term → Term → Option Bool
  | imm v, imm w => some (v == w)
  | imm _, _ => some false
  | _, imm _ => some false
  | _, _ => none

end Term

/-! ### Part of a memory -/

open Classical in
/-- The memory in which only the used words can be read. -/
noncomputable def Memory.only (m : Memory) (used : Nat → Prop) : Memory where
  cell a := if used a then m.cell a else none
  block := m.block

section Only

variable {m m' : Memory} {used used' : Nat → Prop}

theorem Memory.cell_only {a : Nat} (h : used a) : (m.only used).cell a = m.cell a := if_pos h

theorem Memory.cell_only_not {a : Nat} (h : ¬ used a) : (m.only used).cell a = none := if_neg h

theorem Memory.only_sub (m : Memory) (used : Nat → Prop) : (m.only used).Extends m := by
  intro a v ha
  by_cases h : used a
  · rwa [Memory.cell_only h] at ha
  · rw [Memory.cell_only_not h] at ha
    cases ha

/-- **The used words keep their contents** and stay in use. -/
theorem Memory.only_extends (h : ∀ a v, used a → m.cell a = some v →
    used' a ∧ m'.cell a = some v) : (m.only used).Extends (m'.only used') := by
  intro a v ha
  by_cases hu : used a
  · rw [Memory.cell_only hu] at ha
    obtain ⟨hu', hv⟩ := h a v hu ha
    rw [Memory.cell_only hu', hv]
  · rw [Memory.cell_only_not hu] at ha
    cases ha

end Only

/-! ### The accessors -/

section Accessors

variable {m : Memory} {w v : Eterm} {t u : Term}

theorem denotes_imm (h : IsImmediate w) : Denotes m w (.imm w) := ⟨rfl, h⟩

theorem Denotes.isList (h : Denotes m w t) : beamIsList w = t.isCons := by
  cases t with
  | imm => exact h.2.not_list
  | cons => exact h.1
  | tuple =>
    refine Bool.eq_false_iff.mpr fun hl => ?_
    have ht := h.1
    rw [beamIsTuple_of_list hl] at ht
    cases ht

theorem Denotes.isTuple (h : Denotes m w t) : beamIsTuple m w = some t.isTuple := by
  cases t with
  | imm => exact h.2.not_tuple m
  | cons => exact beamIsTuple_of_list h.1
  | tuple => exact h.1

theorem Denotes.eq_of_word (h : Denotes m w t) (hw : t.word? = some v) : w = v := by
  cases t with
  | imm => cases hw; exact h.1
  | cons => cases hw
  | tuple => cases hw

theorem Denotes.word_of_immediate (h : Denotes m w t) (hw : IsImmediate w) :
    t.word? = some w := by
  cases t with
  | imm => rw [h.1]; rfl
  | cons => exact absurd h.1 (by rw [hw.not_list]; decide)
  | tuple => exact absurd h.1 (by rw [hw.not_tuple]; simp)

theorem Denotes.ne_of_word (h : Denotes m w t) (hn : t.word? = none) (hv : IsImmediate v) :
    w ≠ v := by
  rintro rfl
  rw [h.word_of_immediate hv] at hn
  cases hn

theorem Denotes.immediate_of_word (h : Denotes m w t) (hw : t.word? = some v) : IsImmediate w := by
  cases t with
  | imm => exact h.2
  | cons => cases hw
  | tuple => cases hw

/-- **The comparison of words** is the comparison of terms where there is one. -/
theorem Denotes.beq_eq_same (hw : Denotes m w t) (hv : Denotes m v u) {b : Bool}
    (hb : t.same? u = some b) : (w == v) = b := by
  cases ht : t.word? with
  | some x =>
    cases hu : u.word? with
    | some y =>
      rw [hw.eq_of_word ht, hv.eq_of_word hu]
      cases t <;> cases ht
      cases u <;> cases hu
      exact Option.some.inj hb
    | none =>
      have hne := hv.ne_of_word hu (hw.immediate_of_word ht)
      cases t <;> cases ht
      cases u <;> cases hu <;> cases hb <;> simpa using hne.symm
  | none =>
    cases hu : u.word? with
    | some y =>
      have hne := hw.ne_of_word ht (hv.immediate_of_word hu)
      cases u <;> cases hu
      cases t <;> cases ht <;> cases hb <;> simpa using hne
    | none => cases t <;> cases ht <;> cases u <;> cases hu <;> cases hb

theorem Denotes.isNil (h : Denotes m w t) : beamIsNil w = (t.word? == some etermNil) := by
  cases ht : t.word? with
  | some v =>
    rw [h.eq_of_word ht]
    rfl
  | none =>
    have hne := h.ne_of_word ht (v := etermNil) (by decide)
    rw [beamIsNil, beq_eq_false_iff_ne.mpr hne]
    rfl

theorem Denotes.isAtom (h : Denotes m w t) : beamIsAtom w = t.word?.any beamIsAtom := by
  cases ht : t.word? with
  | some v =>
    rw [h.eq_of_word ht]
    rfl
  | none =>
    rw [Option.any_none, Bool.eq_false_iff, Ne, beamIsAtom_iff]
    intro ha
    have himm := h.word_of_immediate (by unfold IsImmediate; omega)
    rw [ht] at himm
    cases himm

end Accessors

end BeamModular
