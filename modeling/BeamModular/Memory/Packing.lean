import BeamModular.Memory.Gc

/-!
# Sharing and the size of the new heap

The roots of a process and the cells they lead to may share cells in any way that
closes no cycle.  `gc_copy_term` keeps no forwarding addresses: a cell that can be
reached along several paths is copied once for each of them, and the limit is the
capacity of the block, not the heap that was in use and not the stack.  So what the
copies take is the size of the trees the roots unfold into.

`shows_of_acyclic` is the unfolding.  A collection leaves in `heap_top` what
`Term.packed` counts of the trees, one after the other; as long as there is room these
are their words (`packed_of_fits`).  `heapTop_le_iff` says when that is no more than
before and leaves the stack alone.
-/

namespace BeamModular

/-! ### Graphs and trees -/

/-- Everything reachable from the word can be read, and none of it lies on a cycle. -/
def Acyclic (m : Memory) (w : Eterm) : Prop :=
  Throughout (Field m) (fun u => (∀ k < objectWords m u, (m.cell (addrOf u + 8 * k)).isSome) ∧
    ¬ Relation.TransGen (Field m) u u) w

theorem acyclic_of_fields {m : Memory} {w : Eterm}
    (hread : ∀ k < objectWords m w, (m.cell (addrOf w + 8 * k)).isSome)
    (hfields : ∀ u, Field m w u → Acyclic m u) : Acyclic m w := by
  refine throughout_iff.mpr ⟨⟨hread, fun hcyc => ?_⟩, hfields⟩
  -- a cycle through the word would be reachable from one of its fields
  obtain ⟨u, hu, hback⟩ := Relation.TransGen.head'_iff.mp hcyc
  exact (hfields u hu w hback).2 hcyc

theorem acyclic_of_immediate {m : Memory} {w : Eterm} (h : IsImmediate w) : Acyclic m w := by
  have hnone : ∀ k, ¬ k < objectWords m w := fun k hk => by
    rw [objectWords_of_immediate h] at hk
    omega
  refine acyclic_of_fields (fun k hk => absurd hk (hnone k)) fun u hu => ?_
  obtain ⟨k, hk, _⟩ := hu
  exact absurd hk (hnone k)

theorem acyclic_cell {m : Memory} {a : Nat} {head tail : Eterm} (ha : a % 8 = 0)
    (hl : a < addressSpace) (hhead : m.cell a = some head) (htail : m.cell (a + 8) = some tail)
    (hh : Acyclic m head) (ht : Acyclic m tail) : Acyclic m (tagAddr a tagPrimaryList) := by
  have haddr : addrOf (tagAddr a tagPrimaryList) = a := addrOf_tagAddr ha hl (by decide)
  refine acyclic_of_fields (fun k hk => ?_) fun u hu => ?_
  · rw [objectWords, if_pos (list_tagAddr ha hl)] at hk
    have hcase : k = 0 ∨ k = 1 := by omega
    rcases hcase with rfl | rfl
    · rw [haddr, Nat.mul_zero, Nat.add_zero, hhead]
      rfl
    · rw [haddr, Nat.mul_one, htail]
      rfl
  · rcases (field_list ha hl).mp hu with hu | hu
    · rw [hhead] at hu
      cases hu
      exact hh
    · rw [htail] at hu
      cases hu
      exact ht

theorem exists_shows_list {m : Memory} {w : Eterm} (hl : beamIsList w = true)
    (hread : ∀ k < objectWords m w, (m.cell (addrOf w + 8 * k)).isSome)
    (hfields : ∀ u, Field m w u → ∃ t, Shows m u t) : ∃ t, Shows m w t := by
  have hwords : objectWords m w = 2 := by rw [objectWords, if_pos hl]
  rw [hwords] at hread
  obtain ⟨a, ha⟩ := Option.isSome_iff_exists.mp (hread 0 (by decide))
  obtain ⟨b, hb⟩ := Option.isSome_iff_exists.mp (hread 1 (by decide))
  have hnot : ∀ k, beamIsList w = false → 0 < k := fun _ h => by rw [hl] at h; cases h
  obtain ⟨head, hhead⟩ := hfields a ⟨0, by rw [hwords]; decide, hnot 0, ha⟩
  obtain ⟨tail, htail⟩ := hfields b ⟨1, by rw [hwords]; decide, hnot 1, hb⟩
  refine ⟨.cons head tail, hl, ⟨a, ?_, hhead⟩, b, ?_, htail⟩
  · rw [beamListHead, if_pos hl]
    exact ha
  · rw [beamListTail, if_pos hl]
    exact hb

theorem exists_shows_boxed {m : Memory} {w : Eterm} (hb : w.toNat % 4 = 2) (h0 : addrOf w ≠ 0)
    (hread : ∀ k < objectWords m w, (m.cell (addrOf w + 8 * k)).isSome)
    (hfields : ∀ u, Field m w u → ∃ t, Shows m u t) : ∃ t, Shows m w t := by
  have hlist : beamIsList w = false := (not_immediate_of_boxed hb).2.2.2
  have hwords : objectWords m w = 1 + ((m.cell (addrOf w)).map fieldCount).getD 0 := by
    rw [objectWords, hlist, if_neg (by decide), if_pos ⟨hb, h0⟩]
  obtain ⟨header, hh⟩ := Option.isSome_iff_exists.mp (hread 0 (by omega))
  rw [Nat.mul_zero, Nat.add_zero] at hh
  rw [hh, Option.map_some, Option.getD_some] at hwords
  have htuple := beamIsTuple_of_boxed (m := m) hb h0
  rw [hh, Option.map_some] at htuple
  cases hsub : header &&& 63#64 == subtagTuple with
  | false =>
    rw [hsub] at htuple
    exact ⟨.imm w, rfl, hlist, htuple⟩
  | true =>
    rw [hsub] at htuple
    rw [fieldCount, if_pos hsub] at hwords
    have helement : ∀ i : Fin (header >>> (6 : Nat)).toNat,
        ∃ e, beamTupleElement m w i = some e ∧ ∃ t, Shows m e t := by
      intro i
      have hi := i.isLt
      obtain ⟨e, he⟩ := Option.isSome_iff_exists.mp (hread (i + 1) (by omega))
      refine ⟨e, ?_, hfields e ⟨i + 1, by omega, fun _ => by omega, he⟩⟩
      rw [beamTupleElement, htuple, Option.bind_some, if_pos rfl]
      exact he
    choose e he t ht using helement
    refine ⟨.tuple _ t, htuple, ⟨header >>> (6 : Nat), ?_, rfl⟩, fun i => ⟨e i, he i, ht i⟩⟩
    rw [beamTupleArity, htuple, Option.bind_some, if_pos rfl, hh]
    rfl

/-- **An acyclic word unfolds into a tree.** -/
theorem shows_of_acyclic {m : Memory} {w : Eterm} (h : Acyclic m w) : ∃ t, Shows m w t := by
  have : Finite Eterm := Finite.of_injective BitVec.toFin fun _ _ => BitVec.eq_of_toFin_eq
  have hcyc : Throughout (Field m) (fun u => ¬ Relation.TransGen (Field m) u u) w :=
    fun u hu => (h u hu).2
  refine acyclic_induct (C := fun u => ∃ t, Shows m u t) hcyc fun u hu hfields => ?_
  have hread := (h u hu).1
  by_cases hl : beamIsList u = true
  · exact exists_shows_list hl hread hfields
  · have hl : beamIsList u = false := Bool.eq_false_iff.mpr hl
    by_cases hb : u.toNat % 4 = 2
    · by_cases h0 : addrOf u = 0
      · refine ⟨.imm u, rfl, hl, ?_⟩
        rw [beamIsTuple, if_pos h0]
        exact ite_self _
      · exact exists_shows_boxed hb h0 hread hfields
    · exact ⟨.imm u, rfl, hl, beamIsTuple_of_not_boxed hb⟩

/-! ### The roots -/

/-- Every register and every live slot holds an acyclic word. -/
def RootsAcyclic (m : Memory) (p : Process) : Prop :=
  (∀ i, Acyclic m (p.frame.xRegs i)) ∧
    ∀ s, p.stackTop.toNat ≤ s → s < p.heapCapacity.toNat →
      ∃ w, m.cell (p.heap + 8 * s) = some w ∧ Acyclic m w

theorem RootsAcyclic.shown {m : Memory} {p : Process} (h : RootsAcyclic m p) :
    ∃ r : Roots, r.Shown m p := by
  have hx : ∀ i, ∃ t, Shows m (p.frame.xRegs i) t := fun i => shows_of_acyclic (h.1 i)
  have hslot : ∀ s, ∃ t, p.stackTop.toNat ≤ s → s < p.heapCapacity.toNat →
      ∃ w, m.cell (p.heap + 8 * s) = some w ∧ Shows m w t := by
    intro s
    by_cases hs : p.stackTop.toNat ≤ s ∧ s < p.heapCapacity.toNat
    · obtain ⟨w, hw, hacyclic⟩ := h.2 s hs.1 hs.2
      obtain ⟨t, ht⟩ := shows_of_acyclic hacyclic
      exact ⟨t, fun _ _ => ⟨w, hw, ht⟩⟩
    · exact ⟨.imm 0#64, fun h1 h2 => absurd ⟨h1, h2⟩ hs⟩
  choose x hx using hx
  choose slot hslot using hslot
  exact ⟨⟨x, slot⟩, hx, hslot⟩

/-! ### The whole collection -/

/-- **When a collection does not enlarge the heap.**  The roots, shared as they may be, unfold into
trees; the new `heap_top` is at most the old one and below the stack exactly if the trees together
have no more words than the old heap, or have more than the whole block and the part of them that
finds room does. -/
theorem heapTop_le_iff {m : Memory} {p : Process} (hok : HeapOk m p)
    (hends : p.heapTop ≤ p.stackTop) (hroots : RootsAcyclic m p)
    (hgrant : (m.malloc (p.alloc 0) (wordBytes p.heapCapacity)).isSome) :
    ∃ r : Roots, r.Shown m p ∧ ∃ m' p', beamGcCollectProcess m p = some (m', p', .ok) ∧
      (p'.heapTop ≤ p.heapTop ∧ p'.heapTop ≤ p'.stackTop ↔
        r.treeWords p ≤ p.heapTop.toNat ∨
          p.heapCapacity.toNat < r.treeWords p ∧ r.packed p ≤ p.heapTop.toNat) := by
  obtain ⟨r, hshown⟩ := hroots.shown
  obtain ⟨m', p', hc, hcol⟩ := collect_spec hok hshown hgrant
  refine ⟨r, hshown, m', p', hc, ?_⟩
  have hcap := hok.top
  rw [BitVec.le_def] at hends
  rw [BitVec.le_def, BitVec.le_def, hcol.top, hcol.stackTop]
  by_cases hroom : r.treeWords p ≤ p.heapCapacity.toNat
  · rw [Roots.packed_eq_treeWords hroom]
    omega
  · omega

/-- Registers that hold one list cell of immediates, any number of them, above a stack of
immediates. -/
theorem rootsAcyclic_of_cell {m : Memory} {p : Process} (a : Nat) (head tail slot : Eterm)
    (ha : a % 8 = 0) (hl : a < addressSpace) (hhead : m.cell a = some head)
    (htail : m.cell (a + 8) = some tail) (hh : IsImmediate head) (ht : IsImmediate tail)
    (hx : ∀ i, p.frame.xRegs i = tagAddr a tagPrimaryList ∨ p.frame.xRegs i = 0#64)
    (hslot : IsImmediate slot) (hs : ∀ s < p.heapCapacity.toNat, p.stackTop.toNat ≤ s →
      m.cell (p.heap + 8 * s) = some slot) : RootsAcyclic m p := by
  refine ⟨fun i => ?_, fun s h1 h2 => ⟨slot, hs s h2 h1, acyclic_of_immediate hslot⟩⟩
  rcases hx i with hcell | hzero
  · rw [hcell]
    exact acyclic_cell ha hl hhead htail (acyclic_of_immediate hh) (acyclic_of_immediate ht)
  · rw [hzero]
    exact acyclic_of_immediate (by decide)

/-- One cell in one register: the heap stays as large as it was. -/
theorem heapTop_le_iff_list : ∃ m p m' p', listRoot = some (m, p) ∧
    beamGcCollectProcess m p = some (m', p', .ok) ∧
    p'.heapTop ≤ p.heapTop ∧ p'.heapTop ≤ p'.stackTop ∧
    ∃ r : Roots, r.Shown m p ∧ (r.treeWords p ≤ p.heapTop.toNat ∨
      p.heapCapacity.toNat < r.treeWords p ∧ r.packed p ≤ p.heapTop.toNat) := by
  obtain ⟨⟨m, p⟩, hr⟩ : ∃ r, listRoot = some r := ⟨_, rfl⟩
  have hroots : RootsAcyclic m p := by
    have hx : ∀ i, p.frame.xRegs i = if i = 0 then tagAddr 4096 tagPrimaryList else 0#64 := by
      cases hr
      exact fun i => Function.update_apply _ _ _ i
    refine rootsAcyclic_of_cell 4096 (makeSmallInt 7#64) etermNil (makeSmallInt 9#64)
      (by decide) (by decide) (by cases hr; decide) (by cases hr; decide) (by decide) (by decide)
      (fun i => ?_) (by decide) (by cases hr; decide)
    rw [hx i]
    exact ite_eq_or_eq _ _ _
  obtain ⟨r, hshown, m', p', hc, hiff⟩ := heapTop_le_iff
    (by cases hr; exact ⟨by decide, by decide, by decide, rfl, by decide, by decide⟩)
    (by cases hr; decide) hroots (by cases hr; decide)
  have htop : (beamGcCollectProcess m p).map (fun q => (q.2.1.heapTop, q.2.1.stackTop)) =
      some (2#64, 3#64) := by
    cases hr
    decide +kernel
  rw [hc] at htop
  obtain ⟨h1, h2⟩ := Prod.mk.inj (Option.some.inj htop)
  have hle : p'.heapTop ≤ p.heapTop ∧ p'.heapTop ≤ p'.stackTop := by
    dsimp only at h1 h2
    rw [h1, h2]
    cases hr
    decide
  exact ⟨m, p, m', p', hr, hc, hle.1, hle.2, r, hshown, hiff.mp hle⟩

/-- The process with a second register that holds what the first one holds. -/
def sharedRoot : Option (Memory × Process) :=
  listRoot.map fun (m, p) => (m, { p with
    frame := { p.frame with xRegs := Function.update p.frame.xRegs 1 (p.frame.xRegs 0) } })

/-- **Two registers with one cell**: the cell is copied twice, and the second copy lies where the
stack does. -/
theorem sharedRoot_enlarged : ∃ m p m' p', sharedRoot = some (m, p) ∧ HeapOk m p ∧
    p.heapTop ≤ p.stackTop ∧ p.stackTop ≤ p.heapCapacity ∧ RootsAcyclic m p ∧
    beamGcCollectProcess m p = some (m', p', .ok) ∧
    ¬ p'.heapTop ≤ p.heapTop ∧ ¬ p'.heapTop ≤ p'.stackTop := by
  obtain ⟨⟨m, p⟩, hr⟩ : ∃ r, sharedRoot = some r := ⟨_, rfl⟩
  have hroots : RootsAcyclic m p := by
    have hx : ∀ i, p.frame.xRegs i = if i = 1 then tagAddr 4096 tagPrimaryList
        else if i = 0 then tagAddr 4096 tagPrimaryList else 0#64 := by
      cases hr
      exact fun i => (Function.update_apply _ _ _ i).trans
        (congrArg (ite _ _) (Function.update_apply _ _ _ i))
    refine rootsAcyclic_of_cell 4096 (makeSmallInt 7#64) etermNil (makeSmallInt 9#64)
      (by decide) (by decide) (by cases hr; decide) (by cases hr; decide) (by decide) (by decide)
      (fun i => ?_) (by decide) (by cases hr; decide)
    rw [hx i]
    split
    · exact Or.inl rfl
    · exact ite_eq_or_eq _ _ _
  obtain ⟨⟨m', p', res⟩, hc, htop⟩ := Option.map_eq_some_iff.mp
    (show (beamGcCollectProcess m p).map (fun q => (q.2.1.heapTop, q.2.1.stackTop, q.2.2)) =
      some (4#64, 3#64, .ok) by
        cases hr
        decide +kernel)
  obtain ⟨h1, h2, rfl⟩ : p'.heapTop = 4#64 ∧ p'.stackTop = 3#64 ∧ res = .ok := by
    simpa only [Prod.mk.injEq] using htop
  refine ⟨m, p, m', p', hr, ?_, ?_, ?_, hroots, hc, ?_, ?_⟩
  · cases hr
    exact ⟨by decide, by decide, by decide, rfl, by decide, by decide⟩
  · cases hr
    decide
  · cases hr
    decide
  · rw [h1]
    cases hr
    decide
  · rw [h1, h2]
    decide

end BeamModular
