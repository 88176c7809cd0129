import BeamModular.Lib.Memory

/-!
# A block that moves

An owner of one block reads and writes words, has its block grow, and may have it copied to
another place.  Two things do not depend on what it writes: which words can be read and which
blocks are live.  `SameShape` says that a step leaves both as they are, as every store does.
`Moves m b m' b'` says that at most the owner's block has changed its place, from `b` to
`b'`, and that no word became readable outside of a block.  It composes, and it holds of
stores, of C's `realloc` and of a copying collection (`Moves.of_copy`).
-/

namespace BeamModular.Memory

variable {m m' m'' : Memory} {b b' b'' : Nat}

/-- Every word that can be read lies in a live block. -/
def Covered (m : Memory) : Prop :=
  ∀ a, (m.cell a).isSome → ∃ b n, m.block b = some n ∧ InBlock b n a

/-- The same words can be read and the same blocks are live. -/
structure SameShape (m m' : Memory) : Prop where
  cell : ∀ a, (m'.cell a).isSome = (m.cell a).isSome
  block : m'.block = m.block

/-- **The block at `b` is now at `b'`**, and the other blocks are where they were. -/
structure Moves (m : Memory) (b : Nat) (m' : Memory) (b' : Nat) : Prop where
  others : ∀ c, c ≠ b → c ≠ b' → m'.block c = m.block c
  there : (m.block b).isSome → (m'.block b').isSome
  left : b' ≠ b → m.block b' = none ∧ m'.block b = none
  nonnull : b ≠ 0 → b' ≠ 0
  covered : m.Covered → m'.Covered

/-! ### Stores -/

theorem SameShape.refl (m : Memory) : SameShape m m := ⟨fun _ => rfl, rfl⟩

theorem SameShape.trans (h : SameShape m m') (h' : SameShape m' m'') : SameShape m m'' :=
  ⟨fun a => (h'.cell a).trans (h.cell a), h'.block.trans h.block⟩

theorem SameShape.of_write {a : Nat} {v : Word} (h : m.write a v = some m') : SameShape m m' := by
  refine ⟨fun c => ?_, block_write h⟩
  rw [cell_write h]
  split
  · rename_i hc
    rw [hc, (write_eq_some h).1]
    rfl
  · rfl

theorem SameShape.of_writeAll : ∀ (vs : List Word) {m m' : Memory} {a : Nat},
    m.writeAll a vs = some m' → SameShape m m' := by
  intro vs
  induction vs with
  | nil => intro m m' a h; cases h; exact .refl m
  | cons v vs ih =>
    intro m m' a h
    obtain ⟨m₁, hw, hr⟩ := Option.bind_eq_some_iff.mp h
    exact (SameShape.of_write hw).trans (ih hr)

theorem SameShape.covered (h : SameShape m m') (hm : m.Covered) : m'.Covered := by
  intro a ha
  rw [h.cell] at ha
  rw [h.block]
  exact hm a ha

/-! ### The allocator -/

theorem Covered.empty : Memory.empty.Covered := fun _ ha => Bool.noConfusion ha

theorem Covered.eq_empty (h : m.Covered) (hnone : ∀ b, m.block b = none) : m = Memory.empty := by
  obtain ⟨cell, block⟩ := m
  have hcell : cell = fun _ => none := by
    funext a
    refine Option.not_isSome_iff_eq_none.mp fun ha => ?_
    obtain ⟨b, n, hb, _⟩ := h a ha
    rw [hnone b] at hb
    cases hb
  rw [hcell, show block = fun _ => none from funext hnone]
  rfl

theorem Covered.map {n : Nat} {fill : Nat → Word} (h : m.Covered) (hfree : m.block b = none) :
    (m.map b n fill).Covered := by
  intro a ha
  by_cases hin : InBlock b n a
  · exact ⟨b, n, Function.update_self _ _ _, hin⟩
  · rw [cell_map_out hin] at ha
    obtain ⟨c, k, hc, hca⟩ := h a ha
    refine ⟨c, k, ?_, hca⟩
    have hne : c ≠ b := by
      rintro rfl
      rw [hfree] at hc
      cases hc
    exact (Function.update_of_ne hne _ _).trans hc

theorem Covered.free (h : m.Covered) (b : Nat) : (m.free b).Covered := by
  intro a ha
  have hout : ¬ InBlock b (m.wordsAt b) a := fun hin => by
    rw [Memory.free, cell_unmap_in hin] at ha
    cases ha
  rw [Memory.free, cell_unmap_out hout] at ha
  obtain ⟨c, k, hc, hca⟩ := h a ha
  refine ⟨c, k, ?_, hca⟩
  have hne : c ≠ b := by
    rintro rfl
    rw [wordsAt, hc] at hout
    exact hout hca
  exact (Function.update_of_ne hne _ _).trans hc

theorem block_free_self (m : Memory) (b : Nat) : (m.free b).block b = none :=
  Function.update_self _ _ _

theorem block_free_of_ne {c : Nat} (h : c ≠ b) : (m.free b).block c = m.block c :=
  Function.update_of_ne h _ _

theorem block_map_self (m : Memory) (b n : Nat) (fill : Nat → Word) :
    (m.map b n fill).block b = some n := Function.update_self _ _ _

theorem block_map_of_ne {n c : Nat} {fill : Nat → Word} (h : c ≠ b) :
    (m.map b n fill).block c = m.block c := Function.update_of_ne h _ _

/-! ### The owner's block -/

theorem Moves.of_shape (h : SameShape m m') : Moves m b m' b where
  others c _ _ := by rw [h.block]
  there hb := by rwa [h.block]
  left hne := absurd rfl hne
  nonnull hb := hb
  covered := h.covered

theorem Moves.refl (m : Memory) (b : Nat) : Moves m b m b := .of_shape (.refl m)

theorem Moves.trans (h : Moves m b m' b') (h' : Moves m' b' m'' b'') : Moves m b m'' b'' where
  others c hc hc'' := by
    by_cases hc' : c = b'
    · subst hc'
      obtain ⟨hfirst, _⟩ := h.left hc
      obtain ⟨_, hlast⟩ := h'.left (Ne.symm hc'')
      rw [hfirst, hlast]
    · rw [h'.others c hc' hc'', h.others c hc hc']
  there hb := h'.there (h.there hb)
  left hne := by
    by_cases hb' : b' = b
    · subst hb'
      obtain ⟨hnew, hold⟩ := h'.left hne
      refine ⟨?_, hold⟩
      by_cases hsame : b'' = b'
      · exact absurd hsame hne
      · rw [← hnew, h.others b'' hsame hsame]
    · obtain ⟨hnew, hold⟩ := h.left hb'
      by_cases hb'' : b'' = b'
      · subst hb''
        refine ⟨hnew, ?_⟩
        rw [← hold, h'.others b (Ne.symm hb') (Ne.symm hb')]
      · obtain ⟨hnew', _⟩ := h'.left hb''
        refine ⟨?_, ?_⟩
        · rw [← hnew', h.others b'' hne hb'']
        · rw [← hold, h'.others b (Ne.symm hb') (Ne.symm hne)]
  nonnull hb := h'.nonnull (h.nonnull hb)
  covered hm := h'.covered (h.covered hm)

/-- **C's `realloc`**: the block grows where it is, or somewhere else. -/
theorem Moves.of_resize {r : Reply} {bytes : Nat} (hc : r.Copying)
    (h : m.resize r b bytes = some (b', m')) : Moves m b m' b' := by
  obtain ⟨_, hnew, hfree, rfl⟩ := resize_eq_of_copying hc h
  refine ⟨fun c hc hc' => ?_, fun _ => ?_, fun hne => ⟨(hnew hne).2.2.2.1, ?_⟩, fun _ => hfree.1,
    fun hm => ?_⟩
  · rw [block_map_of_ne hc', block_free_of_ne hc]
  · rw [block_map_self]
    rfl
  · rw [block_map_of_ne (Ne.symm hne), block_free_self]
  · exact (hm.free b).map hfree.2.2.2.1

/-- **A copying collection**: a new block, stores, and the release of the old one. -/
theorem Moves.of_copy {r : Reply} {bytes : Nat} {m₁ m₂ : Memory}
    (hb : (m.block b).isSome) (h : m.malloc r bytes = some (b', m₁)) (hs : SameShape m₁ m₂) :
    Moves m b (m₂.free b) b' := by
  obtain ⟨pl, _, _, hfree, rfl⟩ := malloc_eq_some h
  obtain ⟨n, hn⟩ := Option.isSome_iff_exists.mp hb
  have hne : b' ≠ b := hfree.ne_of_block hn
  refine ⟨fun c hc hc' => ?_, fun _ => ?_, fun _ => ⟨hfree.2.2.2.1, block_free_self m₂ b⟩,
    fun _ => hfree.1, fun hm => ?_⟩
  · rw [block_free_of_ne hc, hs.block, block_map_of_ne hc']
  · rw [block_free_of_ne hne, hs.block, block_map_self]
    rfl
  · exact (hs.covered (hm.map hfree.2.2.2.1)).free b

end BeamModular.Memory
