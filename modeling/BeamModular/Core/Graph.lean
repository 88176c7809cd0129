import BeamModular.Core.Denote
import BeamModular.Lib.Reach

/-!
# The terms as a graph

A word that points is a list cell or a boxed term; the terms stored in the object it
points to are its successors (`Field`).  A boxed object says in its header how many
there are, the arity as `beam_make_tuple` stores it or as the collector writes it; no
other header has terms behind it.

`Clean m base n w` says that nothing reachable from `w` points into the block of `n`
words at `base`.  It depends on the objects outside the block only, provided each of
them is readable and does not reach across the block's border (`Whole`).
-/

namespace BeamModular

/-- The terms behind a header. -/
def fieldCount (header : Word) : Nat :=
  if header &&& 63#64 == subtagTuple then (header >>> (6 : Nat)).toNat
  else if beamIsSmallInt header then (etermToSmallInt header).toNat
  else 0

/-- The words of the object a term points to. -/
def objectWords (m : Memory) (w : Eterm) : Nat :=
  if beamIsList w then 2
  else if w.toNat % 4 = 2 ∧ addrOf w ≠ 0 then 1 + ((m.cell (addrOf w)).map fieldCount).getD 0
  else 0

/-- The term `u` is stored in the object `w` points to; the first word of a boxed object is its
header. -/
def Field (m : Memory) (w u : Eterm) : Prop :=
  ∃ k < objectWords m w, (beamIsList w = false → 0 < k) ∧ m.cell (addrOf w + 8 * k) = some u

/-- The address lies in the block. -/
def InRange (base n a : Nat) : Prop := base ≤ a ∧ a < base + 8 * n

instance (base n a : Nat) : Decidable (InRange base n a) :=
  inferInstanceAs (Decidable (base ≤ a ∧ a < base + 8 * n))

/-- The word is a list or a boxed term and its address lies in the block. -/
def PointsInto (base n : Nat) (w : Eterm) : Prop := ¬ IsImmediate w ∧ InRange base n (addrOf w)

instance (base n : Nat) (w : Eterm) : Decidable (PointsInto base n w) :=
  inferInstanceAs (Decidable (¬ IsImmediate w ∧ InRange base n (addrOf w)))

/-- Nothing reachable from the word points into the block. -/
def Clean (m : Memory) (base n : Nat) (w : Eterm) : Prop :=
  Throughout (Field m) (fun u => ¬ PointsInto base n u) w

/-- The object can be read, and it lies in the block or outside of it with all its words. -/
def Whole (m : Memory) (base n : Nat) (w : Eterm) : Prop :=
  ∀ k < objectWords m w, (m.cell (addrOf w + 8 * k)).isSome ∧
    (InRange base n (addrOf w + 8 * k) ↔ InRange base n (addrOf w))

/-- Every object reachable from the word is whole. -/
def Intact (m : Memory) (base n : Nat) (w : Eterm) : Prop :=
  Throughout (Field m) (Whole m base n) w

section Field

variable {m m' : Memory} {base n : Nat} {w u : Eterm}

theorem objectWords_of_immediate (h : IsImmediate w) : objectWords m w = 0 := by
  rw [objectWords, h.not_list, if_neg (by decide), if_neg (fun hb => h.2 hb.1)]

theorem clean_of_immediate (h : IsImmediate w) : Clean m base n w := by
  refine throughout_iff.mpr ⟨fun hp => hp.1 h, fun u hu => ?_⟩
  obtain ⟨k, hk, _⟩ := hu
  rw [objectWords_of_immediate h] at hk
  omega

theorem intact_of_immediate (h : IsImmediate w) : Intact m base n w := by
  have hnone : ∀ k, ¬ k < objectWords m w := fun k hk => by
    rw [objectWords_of_immediate h] at hk
    omega
  exact throughout_iff.mpr ⟨fun k hk => absurd hk (hnone k), fun u hu => absurd hu.choose_spec.1
    (hnone _)⟩

theorem objectWords_pos (h : 0 < objectWords m w) : ¬ IsImmediate w := by
  intro hi
  rw [objectWords_of_immediate hi] at h
  omega

theorem field_congr (h : ∀ k < objectWords m w,
    m'.cell (addrOf w + 8 * k) = m.cell (addrOf w + 8 * k)) : Field m w u ↔ Field m' w u := by
  have hwords : objectWords m' w = objectWords m w := by
    by_cases hl : beamIsList w = true
    · rw [objectWords, objectWords, if_pos hl, if_pos hl]
    · by_cases hb : w.toNat % 4 = 2 ∧ addrOf w ≠ 0
      · have h0 := h 0 (by rw [objectWords, if_neg hl, if_pos hb]; omega)
        rw [Nat.mul_zero, Nat.add_zero] at h0
        rw [objectWords, objectWords, h0]
      · rw [objectWords, objectWords, if_neg hl, if_neg hl, if_neg hb, if_neg hb]
  unfold Field
  rw [hwords]
  constructor
  · rintro ⟨k, hk, hpos, hc⟩
    exact ⟨k, hk, hpos, by rw [h k hk, hc]⟩
  · rintro ⟨k, hk, hpos, hc⟩
    exact ⟨k, hk, hpos, by rw [← h k hk, hc]⟩

end Field

/-! ### The objects of the collector -/

section Objects

variable {m : Memory} {a : Nat} {u : Eterm}

theorem list_tagAddr (ha : a % 8 = 0) (hl : a < addressSpace) :
    beamIsList (tagAddr a tagPrimaryList) = true := by
  rw [beamIsList, tagAddr_and_three ha hl (by decide)]
  exact beq_self_eq_true _

theorem boxed_tagAddr (ha : a % 8 = 0) (hl : a < addressSpace) :
    (tagAddr a tagPrimaryBoxed).toNat % 4 = 2 := by
  rw [← boxed_iff, tagAddr_and_three ha hl (by decide)]

theorem field_list (ha : a % 8 = 0) (hl : a < addressSpace) :
    Field m (tagAddr a tagPrimaryList) u ↔ m.cell a = some u ∨ m.cell (a + 8) = some u := by
  have hlist := list_tagAddr ha hl
  have haddr : addrOf (tagAddr a tagPrimaryList) = a := addrOf_tagAddr ha hl (by decide)
  unfold Field
  rw [objectWords, if_pos hlist, haddr, hlist]
  constructor
  · rintro ⟨k, hk, -, hc⟩
    have hcase : k = 0 ∨ k = 1 := by omega
    rcases hcase with rfl | rfl
    · exact Or.inl hc
    · exact Or.inr hc
  · rintro (hc | hc)
    · exact ⟨0, by omega, (by decide), hc⟩
    · exact ⟨1, by omega, (by decide), hc⟩

theorem field_boxed {header : Word} (ha : a % 8 = 0) (hl : a < addressSpace) (h0 : a ≠ 0)
    (hh : m.cell a = some header) : Field m (tagAddr a tagPrimaryBoxed) u ↔
      ∃ k < fieldCount header, m.cell (a + 8 * (k + 1)) = some u := by
  have hbox := boxed_tagAddr ha hl
  have haddr : addrOf (tagAddr a tagPrimaryBoxed) = a := addrOf_tagAddr ha hl (by decide)
  have hlist := (not_immediate_of_boxed hbox).2.2.2
  unfold Field
  rw [objectWords, hlist, if_neg (by decide), haddr, if_pos ⟨hbox, h0⟩, hh, Option.map_some,
    Option.getD_some]
  constructor
  · rintro ⟨k, hk, hpos, hc⟩
    have := hpos rfl
    exact ⟨k - 1, by omega, by rw [show k - 1 + 1 = k by omega, hc]⟩
  · rintro ⟨k, hk, hc⟩
    exact ⟨k + 1, by omega, fun _ => by omega, hc⟩

/-- **The collector's header counts the terms behind it.** -/
theorem fieldCount_makeSmallInt {arity : Word} (h : arity.toNat < 2 ^ 58) :
    fieldCount (makeSmallInt arity) = arity.toNat := by
  have hsub : (makeSmallInt arity &&& 63#64 == subtagTuple) = false := by
    rw [Bool.eq_false_iff, Ne, beq_iff_eq]
    exact makeSmallInt_and_sixtyThree arity
  have hint : beamIsSmallInt (makeSmallInt arity) = true := by
    rw [beamIsSmallInt_iff, toNat_makeSmallInt_of_lt h]
    omega
  rw [fieldCount, hsub, if_neg (by decide), if_pos hint, etermToSmallInt_makeSmallInt h]

end Objects

end BeamModular
