import BeamModular.Memory.Gc

/-!
# Copies of lists

What `gc_copy_term` does to a term of immediates and list cells when there is room for
every cell of its tree.  The collector's proofs keep a memory in which the new block
does not exist yet; here there is one memory, and `InFrom` says that the term can be
read without the new block.  `gcCopyTerm_list_exact` then reads off the general
`gcCopyTerm_spec`: the copy shows the same tree, it takes two words for each cell, and
no word outside of these differs.
-/

namespace BeamModular

/-- The list cells of the tree; a cell that is shared counts each time. -/
def Term.cells : Term → Nat
  | .imm _ => 0
  | .cons head tail => 1 + head.cells + tail.cells
  | .tuple _ element => ∑ i, (element i).cells

/-- Every list cell of the tree lies between the addresses, with both of its words. -/
def CellsIn (m : Memory) (lo hi : Nat) : Eterm → Term → Prop
  | _, .imm _ => True
  | w, .cons head tail => (lo ≤ addrOf w ∧ addrOf w + 16 ≤ hi) ∧
    (∀ a, beamListHead m w = some a → CellsIn m lo hi a head) ∧
    ∀ b, beamListTail m w = some b → CellsIn m lo hi b tail
  | w, .tuple arity element =>
    ∀ (i : Fin arity) e, beamTupleElement m w i = some e → CellsIn m lo hi e (element i)

/-- The block a collection copies into. -/
structure NewBlock (m : Memory) (toSpace : Nat) (toCap : Word) : Prop where
  nonnull : toSpace ≠ 0
  aligned : toSpace % 8 = 0
  inside : toSpace + 8 * toCap.toNat ≤ addressSpace
  readable : ∀ i < toCap.toNat, (m.cell (toSpace + 8 * i)).isSome

/-- The word shows the tree, and none of it is read from the new block. -/
def InFrom (m : Memory) (toSpace : Nat) (toCap : Word) (w : Eterm) (t : Term) : Prop :=
  Denotes (m.unmap toSpace toCap.toNat) w t

section

variable {m : Memory} {toSpace lo hi : Nat} {toCap : Word}

/-- Without tuples a copy takes two words a cell. -/
theorem Term.words_eq_cells {t : Term} (h : t.TupleFree) : t.words = 2 * t.cells := by
  induction t with
  | imm v => rfl
  | cons head tail ihHead ihTail =>
    rw [Term.words, Term.cells, ihHead h.1, ihTail h.2]
    omega
  | tuple arity element => exact h.elim

theorem Laid.cellsIn {t : Term} (hal : toSpace % 8 = 0) (hl : toSpace + 8 * hi ≤ addressSpace)
    (hfree : t.TupleFree) : ∀ {w : Eterm}, Laid m toSpace lo hi w t →
      CellsIn m (toSpace + 8 * lo) (toSpace + 8 * hi) w t := by
  induction t with
  | imm v => exact fun _ => trivial
  | cons head tail ihHead ihTail =>
    rintro w ⟨i, h1, h2, rfl, ⟨a, ha, hla⟩, b, hb, hlb⟩
    have haddr : addrOf (tagAddr (toSpace + 8 * i) tagPrimaryList) = toSpace + 8 * i :=
      addrOf_tagAddr (by omega) (by omega) (by decide)
    have hlist := list_tagAddr (a := toSpace + 8 * i) (by omega) (by omega)
    refine ⟨by rw [haddr]; omega, fun a' ha' => ?_, fun b' hb' => ?_⟩
    · rw [beamListHead, if_pos hlist, haddr, ha] at ha'
      cases ha'
      exact ihHead hfree.1 hla
    · rw [beamListTail, if_pos hlist, haddr,
        show toSpace + 8 * i + 8 = toSpace + 8 * (i + 1) by omega, hb] at hb'
      cases hb'
      exact ihTail hfree.2 hlb
  | tuple arity element => exact hfree.elim

theorem NewBlock.isToSpace (h : NewBlock m toSpace toCap) :
    ToSpace (m.unmap toSpace toCap.toNat) m toSpace toCap := by
  have hnn := h.nonnull
  have hal := h.aligned
  have hin : toSpace + 8 * toCap.toNat ≤ 2 ^ 64 := h.inside
  refine ⟨fun i hi => Memory.cell_unmap_in (inBlock_slot.mpr hi), h.readable, fun a v ha => ?_,
    by omega⟩
  by_cases hb : InBlock toSpace toCap.toNat a
  · rw [Memory.cell_unmap_in hb] at ha
    cases ha
  · rwa [Memory.cell_unmap_out hb] at ha

/-- **Copying lists is exact**: where there is room for every cell of its tree, the copy of a term
without tuples shows the same tree in new cells, takes two words for each, and leaves every other
word alone. -/
theorem gcCopyTerm_list_exact {top : Word} {w : Eterm} {t : Term} (hnew : NewBlock m toSpace toCap)
    (htop : top.toNat ≤ toCap.toNat) (hfrom : InFrom m toSpace toCap w t) (hfree : t.TupleFree)
    (hroom : 2 * t.cells ≤ toCap.toNat - top.toNat) (depth : Nat)
    (hdepth : toCap.toNat - top.toNat < depth) :
    ∃ m' top' w', gcCopyTerm toSpace toCap depth m top w = some (m', top', w') ∧
      Denotes m' w' t ∧
      CellsIn m' (toSpace + 8 * top.toNat) (toSpace + 8 * top'.toNat) w' t ∧
      top'.toNat = top.toNat + 2 * t.cells ∧
      (∀ i < top.toNat, m'.cell (toSpace + 8 * i) = m.cell (toSpace + 8 * i)) ∧
      ∀ a, ¬ InBlock toSpace toCap.toNat a → m'.cell a = m.cell a := by
  obtain ⟨hshows, hall⟩ := hfrom.shows
  obtain ⟨m', top', w', hcopy, hr⟩ := gcCopyTerm_spec t depth m top w hdepth htop hshows
    hnew.isToSpace
  have hwords := Term.words_eq_cells hfree
  have hinside := hr.inside
  have hspace := hnew.inside
  obtain ⟨htop', hlaid⟩ := hr.complete (by omega)
  have hl : toSpace + 8 * top'.toNat ≤ addressSpace := by omega
  refine ⟨m', top', w', hcopy, ?_, hlaid.cellsIn hnew.aligned hl hfree, by omega,
    fun i hi => hr.changed.cell_eq (Or.inl hi), fun a ha => ?_⟩
  · exact (hlaid.denotes_iff hnew.aligned hl hall).mpr hfree
  · exact hr.changed.outside a fun i _ hi hai =>
      ha (by rw [hai]; exact inBlock_slot.mpr (by omega))

end

/-- Two live blocks: the list `[[7]]` in the first one, and an empty one of four words. -/
def twoBlocks : Memory :=
  (Memory.empty.map 4096 4 fun i => [makeSmallInt 7#64, etermNil, tagAddr 4096 tagPrimaryList,
    etermNil].getD i 0#64).map 8192 4 fun _ => 0#64

/-- The list `[[7]]`. -/
def nestedSeven : Term := .cons (.cons (.imm (makeSmallInt 7#64)) (.imm etermNil)) (.imm etermNil)

theorem gcCopyTerm_list_exact_nested : ∃ m' top' w',
    gcCopyTerm 8192 4#64 5 twoBlocks 0#64 (tagAddr 4112 tagPrimaryList) = some (m', top', w') ∧
      Denotes m' w' nestedSeven ∧ top'.toNat = 4 := by
  have hnew : NewBlock twoBlocks 8192 4#64 := ⟨by decide, by decide, by decide, by decide⟩
  have hfrom : InFrom twoBlocks 8192 4#64 (tagAddr 4112 tagPrimaryList) nestedSeven :=
    ⟨by decide, ⟨tagAddr 4096 tagPrimaryList, by decide, by decide,
      ⟨makeSmallInt 7#64, by decide, rfl, by decide⟩, etermNil, by decide, rfl, by decide⟩,
      etermNil, by decide, rfl, by decide⟩
  have hempty : (0#64).toNat ≤ (4#64).toNat := by decide
  obtain ⟨m', top', w', hcopy, hden, _, htop', _⟩ := gcCopyTerm_list_exact hnew hempty hfrom
    ⟨⟨trivial, trivial⟩, trivial⟩ (by decide) 5 (by decide)
  exact ⟨m', top', w', hcopy, hden, htop'⟩

end BeamModular
