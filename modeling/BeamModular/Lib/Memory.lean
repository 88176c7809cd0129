import BeamModular.Lib.Word
import Mathlib.Logic.Function.Basic

/-!
# A word-addressed memory with an allocator

A memory says which words can be read (`cell`, by byte address) and which blocks
are live (`block`, by base address, in words).  A read or a write anywhere else
is undefined behaviour and has no result.

An allocator is whatever sequence of replies it gives.  One reply is either a
refusal or an address with the contents the fresh words happen to have; `malloc`
and `realloc` take a reply and accept it only where the C library could have
given it: not null, aligned, inside the address space and clear of every live
block.  Any other reply counts as a refusal, so no result about a memory needs a
hypothesis about the allocator.

Two things about `realloc` are not what its callers may expect.  A request of no
bytes that is answered with null has released the old block.  And an allocator
that only hands out new blocks answers `realloc` like `malloc`: it copies nothing
and leaves the old block where it is; such a reply is not `Copying`.

`ChangedIn base lo hi m m'` says that only the words `lo ≤ i < hi` from `base` on
differ.  A fact about other words stays true, which is how a collector's copies are
carried past its later writes.  `Extends m m'` says that every word that could be read
still reads the same.
-/

namespace BeamModular

/-- The readable words, by byte address, and the live blocks, in words. -/
structure Memory where
  cell : Nat → Option Word
  block : Nat → Option Nat

/-- Where an allocator puts a block, what its words contain at first, and whether a `realloc` so
answered takes the old words along and releases the old block. -/
structure Placement where
  addr : Nat
  fill : Nat → Word
  copies : Bool

/-- One answer of an allocator; `none` is the null pointer. -/
abbrev Reply := Option Placement

/-- If the reply gives a block, it does as C's `realloc` does with the old one. -/
abbrev Reply.Copying (r : Reply) : Prop := r.all Placement.copies = true

/-- A block of zeroed words, and C's `realloc`. -/
def zeroed (addr : Nat) : Placement := ⟨addr, fun _ => 0#64, true⟩

/-- An allocator that always offers the same address, with zeroed words. -/
def offering (addr : Nat) : Nat → Reply := fun _ => some (zeroed addr)

/-- The byte address `a` is one of the `n` words from `base` on. -/
def InBlock (base n a : Nat) : Prop := base ≤ a ∧ a < base + 8 * n ∧ (a - base) % 8 = 0

instance (base n a : Nat) : Decidable (InBlock base n a) :=
  inferInstanceAs (Decidable (base ≤ a ∧ a < base + 8 * n ∧ (a - base) % 8 = 0))

theorem inBlock_slot {base n i : Nat} : InBlock base n (base + 8 * i) ↔ i < n := by
  unfold InBlock
  omega

theorem InBlock.exists_slot {base n a : Nat} (h : InBlock base n a) :
    ∃ i, i < n ∧ a = base + 8 * i := by
  obtain ⟨h1, h2, h3⟩ := h
  exact ⟨(a - base) / 8, by omega, by omega⟩

namespace Memory

/-- The memory with no block. -/
def empty : Memory := ⟨fun _ => none, fun _ => none⟩

/-- Store a word; there is no result outside the live blocks. -/
def write (m : Memory) (a : Nat) (v : Word) : Option Memory :=
  if (m.cell a).isSome then some { m with cell := Function.update m.cell a (some v) } else none

/-- Store consecutive words from `a` on. -/
def writeAll (m : Memory) (a : Nat) : List Word → Option Memory
  | [] => some m
  | v :: vs => (m.write a v).bind fun m' => m'.writeAll (a + 8) vs

/-- The block's words become readable, with the given contents. -/
def map (m : Memory) (base n : Nat) (contents : Nat → Word) : Memory where
  cell a := if InBlock base n a then some (contents ((a - base) / 8)) else m.cell a
  block := Function.update m.block base (some n)

/-- The block's words stop being readable. -/
def unmap (m : Memory) (base n : Nat) : Memory where
  cell a := if InBlock base n a then none else m.cell a
  block := Function.update m.block base none

/-- The allocator may place `n` words at `a`. -/
def Free (m : Memory) (a n : Nat) : Prop :=
  a ≠ 0 ∧ a % 8 = 0 ∧ a + 8 * n ≤ addressSpace ∧ m.block a = none ∧
    ∀ i < n, m.cell (a + 8 * i) = none

instance (m : Memory) (a n : Nat) : Decidable (m.Free a n) :=
  inferInstanceAs (Decidable (a ≠ 0 ∧ a % 8 = 0 ∧ a + 8 * n ≤ addressSpace ∧ m.block a = none ∧
    ∀ i < n, m.cell (a + 8 * i) = none))

/-- `malloc`: the block's address and the memory with it, or null. -/
def malloc (m : Memory) (r : Reply) (bytes : Nat) : Option (Nat × Memory) :=
  r.bind fun pl =>
    if m.Free pl.addr (bytes / 8) then
      some (pl.addr, m.map pl.addr (bytes / 8) pl.fill)
    else none

/-- The number of words of the block at `base`. -/
def wordsAt (m : Memory) (base : Nat) : Nat := (m.block base).getD 0

/-- `free`. -/
def free (m : Memory) (base : Nat) : Memory := m.unmap base (m.wordsAt base)

/-- The block `realloc` gives for the one at `old`.  C's keeps the words up to the new size and
releases the old block; the new one is in its place or clear of every live block. -/
def resize (m : Memory) (r : Reply) (old bytes : Nat) : Option (Nat × Memory) :=
  r.bind fun pl =>
    if pl.copies then
      if (pl.addr ≠ old → m.Free pl.addr (bytes / 8)) ∧ (m.free old).Free pl.addr (bytes / 8) then
        some (pl.addr, (m.free old).map pl.addr (bytes / 8) fun i =>
          if i < m.wordsAt old then (m.cell (old + 8 * i)).getD 0 else pl.fill i)
      else none
    else m.malloc r bytes

/-- What null leaves: the old block, unless no bytes were asked for, which has released it. -/
def unresized (m : Memory) (old bytes : Nat) : Memory := if bytes = 0 then m.free old else m

/-- `realloc`. -/
def realloc (m : Memory) (r : Reply) (old bytes : Nat) : Option Nat × Memory :=
  match m.resize r old bytes with
  | some (a, m') => (some a, m')
  | none => (none, m.unresized old bytes)

/-! ### Reading after a write -/

theorem write_eq_some {m m' : Memory} {a : Nat} {v : Word} (h : m.write a v = some m') :
    (m.cell a).isSome ∧ m' = { m with cell := Function.update m.cell a (some v) } := by
  unfold write at h
  split at h
  · exact ⟨‹_›, (Option.some.inj h).symm⟩
  · cases h

theorem write_of_isSome {m : Memory} {a : Nat} (v : Word) (h : (m.cell a).isSome) :
    m.write a v = some { m with cell := Function.update m.cell a (some v) } := if_pos h

theorem cell_write {m m' : Memory} {a : Nat} {v : Word} (h : m.write a v = some m') (b : Nat) :
    m'.cell b = if b = a then some v else m.cell b := by
  rw [(write_eq_some h).2]
  exact Function.update_apply m.cell a (some v) b

theorem block_write {m m' : Memory} {a : Nat} {v : Word} (h : m.write a v = some m') :
    m'.block = m.block := by
  rw [(write_eq_some h).2]

/-- **Consecutive stores**: the words written hold the list, the others are as before. -/
theorem writeAll_spec : ∀ (vs : List Word) {m m' : Memory} {a : Nat},
    m.writeAll a vs = some m' →
      (∀ i < vs.length, m'.cell (a + 8 * i) = vs[i]?) ∧
      (∀ b, ¬ InBlock a vs.length b → m'.cell b = m.cell b) ∧ m'.block = m.block := by
  intro vs
  induction vs with
  | nil =>
    intro m m' a h
    cases h
    exact ⟨fun i hi => by simp at hi, fun _ _ => rfl, rfl⟩
  | cons v vs ih =>
    intro m m' a h
    obtain ⟨m₁, hw, hr⟩ := Option.bind_eq_some_iff.mp h
    obtain ⟨hin, hout, hb⟩ := ih hr
    refine ⟨fun i hi => ?_, fun b hbn => ?_, hb.trans (block_write hw)⟩
    · cases i with
      | zero =>
        rw [hout _ (by unfold InBlock; omega), cell_write hw]
        simp
      | succ i =>
        have hlt : i < vs.length := by simpa using hi
        rw [show a + 8 * (i + 1) = a + 8 + 8 * i by omega, hin i hlt]
        simp
    · unfold InBlock at hbn
      simp only [List.length_cons] at hbn
      rw [hout b (by unfold InBlock; omega), cell_write hw, if_neg (by omega)]

theorem writeAll_none : ∀ (vs : List Word) {m m' : Memory} {a b : Nat},
    m.writeAll a vs = some m' → m.cell b = none → m'.cell b = none := by
  intro vs
  induction vs with
  | nil => intro m m' a b h hb; cases h; exact hb
  | cons v vs ih =>
    intro m m' a b h hb
    obtain ⟨m₁, hw, hr⟩ := Option.bind_eq_some_iff.mp h
    refine ih hr ?_
    rw [cell_write hw, if_neg, hb]
    rintro rfl
    have := (write_eq_some hw).1
    rw [hb] at this
    cases this

/-! ### Stores in any order -/

/-- Store words at indices from `base` on, one after the other. -/
def storeAt (base : Nat) : List (Nat × Word) → Memory → Option Memory
  | [], m => some m
  | x :: xs, m => (m.write (base + 8 * x.1) x.2).bind (storeAt base xs)

/-- **Stores at different indices** can all be read back, and every other word is as it was. -/
theorem storeAt_spec (base : Nat) (xs : List (Nat × Word)) : ∀ {m m' : Memory},
    (xs.map Prod.fst).Nodup → storeAt base xs m = some m' →
      (∀ x ∈ xs, m'.cell (base + 8 * x.1) = some x.2) ∧
      ∀ i, i ∉ xs.map Prod.fst → m'.cell (base + 8 * i) = m.cell (base + 8 * i) := by
  induction xs with
  | nil =>
    intro m m' _ h
    cases h
    exact ⟨fun x hx => absurd hx List.not_mem_nil, fun _ _ => rfl⟩
  | cons x xs ih =>
    intro m m' hnodup h
    obtain ⟨hnew, hrest⟩ := List.nodup_cons.mp hnodup
    obtain ⟨m₁, hw, hs⟩ := Option.bind_eq_some_iff.mp h
    obtain ⟨hin, hout⟩ := ih hrest hs
    refine ⟨fun y hy => ?_, fun i hi => ?_⟩
    · rcases List.mem_cons.mp hy with rfl | hy
      · rw [hout _ hnew, cell_write hw, if_pos rfl]
      · exact hin y hy
    · rw [List.map_cons, List.mem_cons, not_or] at hi
      rw [hout i hi.2, cell_write hw, if_neg (by omega)]

theorem storeAt_outside (base : Nat) {b : Nat} : ∀ (xs : List (Nat × Word)) {m m' : Memory},
    (∀ x ∈ xs, b ≠ base + 8 * x.1) → storeAt base xs m = some m' → m'.cell b = m.cell b := by
  intro xs
  induction xs with
  | nil => intro m m' _ h; cases h; rfl
  | cons x xs ih =>
    intro m m' hne h
    obtain ⟨m₁, hw, hs⟩ := Option.bind_eq_some_iff.mp h
    rw [ih (fun y hy => hne y (List.mem_cons_of_mem x hy)) hs, cell_write hw,
      if_neg (hne x List.mem_cons_self)]

theorem storeAt_defined (base : Nat) (xs : List (Nat × Word)) : ∀ {m : Memory},
    (∀ x ∈ xs, (m.cell (base + 8 * x.1)).isSome) → ∃ m', storeAt base xs m = some m' := by
  induction xs with
  | nil => exact fun _ => ⟨_, rfl⟩
  | cons x xs ih =>
    intro m h
    have hw := write_of_isSome x.2 (h x List.mem_cons_self)
    rw [storeAt, hw, Option.bind_some]
    refine ih fun y hy => ?_
    rw [cell_write hw]
    split
    · rfl
    · exact h y (List.mem_cons_of_mem x hy)

/-! ### Changes inside a window -/

/-- Only the words `lo ≤ i < hi` from `base` on differ, and no word stops being readable. -/
structure ChangedIn (base lo hi : Nat) (m m' : Memory) : Prop where
  outside : ∀ a, (∀ i, lo ≤ i → i < hi → a ≠ base + 8 * i) → m'.cell a = m.cell a
  readable : ∀ a, (m.cell a).isSome → (m'.cell a).isSome
  block : m'.block = m.block

/-- Every word that can be read reads the same afterwards. -/
def Extends (m m' : Memory) : Prop := ∀ a v, m.cell a = some v → m'.cell a = some v

section ChangedIn

variable {base lo hi : Nat} {m m' m'' : Memory}

theorem ChangedIn.refl (base lo hi : Nat) (m : Memory) : ChangedIn base lo hi m m :=
  ⟨fun _ _ => rfl, fun _ h => h, rfl⟩

theorem ChangedIn.trans (h : ChangedIn base lo hi m m') (h' : ChangedIn base lo hi m' m'') :
    ChangedIn base lo hi m m'' where
  outside a ha := (h'.outside a ha).trans (h.outside a ha)
  readable a ha := h'.readable a (h.readable a ha)
  block := h'.block.trans h.block

theorem ChangedIn.mono {lo' hi' : Nat} (h : ChangedIn base lo hi m m') (hlo : lo' ≤ lo)
    (hhi : hi ≤ hi') : ChangedIn base lo' hi' m m' where
  outside a ha := h.outside a fun i h1 h2 => ha i (by omega) (by omega)
  readable := h.readable
  block := h.block

theorem ChangedIn.cell_eq (h : ChangedIn base lo hi m m') {i : Nat} (hi' : i < lo ∨ hi ≤ i) :
    m'.cell (base + 8 * i) = m.cell (base + 8 * i) :=
  h.outside _ fun j h1 h2 => by omega

theorem ChangedIn.of_write {i : Nat} {v : Word} (h : m.write (base + 8 * i) v = some m') :
    ChangedIn base i (i + 1) m m' where
  outside a ha := by rw [cell_write h, if_neg (ha i (le_refl i) (by omega))]
  readable a ha := by
    rw [cell_write h]
    split
    · rfl
    · exact ha
  block := block_write h

/-- What was readable before the window's words existed is still there. -/
theorem Extends.changedIn {m₀ : Memory} (he : Extends m₀ m) (h : ChangedIn base lo hi m m')
    (hfresh : ∀ i, lo ≤ i → i < hi → m₀.cell (base + 8 * i) = none) : Extends m₀ m' := by
  intro a v ha
  rw [h.outside a, he a v ha]
  rintro i h1 h2 rfl
  rw [hfresh i h1 h2] at ha
  cases ha

theorem Free.extends_map {n : Nat} {c : Nat → Word} (h : m.Free base n) :
    Extends m (m.map base n c) := fun a v ha => by
  rw [← ha]
  exact if_neg fun hin => by
    obtain ⟨i, hi, rfl⟩ := hin.exists_slot
    rw [h.2.2.2.2 i hi] at ha
    cases ha

end ChangedIn

/-! ### Reading after the allocator has answered -/

theorem cell_map_slot {m : Memory} {base n i : Nat} {c : Nat → Word} (hi : i < n) :
    (m.map base n c).cell (base + 8 * i) = some (c i) := by
  show (if InBlock base n (base + 8 * i) then _ else _) = _
  rw [if_pos (inBlock_slot.mpr hi), show (base + 8 * i - base) / 8 = i by omega]

theorem cell_map_out {m : Memory} {base n a : Nat} {c : Nat → Word} (h : ¬ InBlock base n a) :
    (m.map base n c).cell a = m.cell a := if_neg h

theorem cell_unmap_out {m : Memory} {base n a : Nat} (h : ¬ InBlock base n a) :
    (m.unmap base n).cell a = m.cell a := if_neg h

theorem cell_unmap_in {m : Memory} {base n a : Nat} (h : InBlock base n a) :
    (m.unmap base n).cell a = none := if_pos h

theorem isSome_of_free {m : Memory} {base a : Nat} (h : ((m.free base).cell a).isSome) :
    (m.cell a).isSome := by
  by_cases hin : InBlock base (m.wordsAt base) a
  · rw [free, cell_unmap_in hin] at h
    cases h
  · rwa [free, cell_unmap_out hin] at h

theorem Free.not_inBlock {m : Memory} {base n a : Nat} {v : Word} (h : m.Free base n)
    (ha : m.cell a = some v) : ¬ InBlock base n a := by
  intro hin
  obtain ⟨i, hi, rfl⟩ := hin.exists_slot
  rw [h.2.2.2.2 i hi] at ha
  cases ha

theorem Free.ne_of_block {m : Memory} {base n b k : Nat} (h : m.Free base n)
    (hb : m.block b = some k) : base ≠ b := by
  rintro rfl
  rw [h.2.2.2.1] at hb
  cases hb

theorem malloc_eq_some {m m' : Memory} {r : Reply} {bytes a : Nat}
    (h : m.malloc r bytes = some (a, m')) :
    ∃ pl, r = some pl ∧ pl.addr = a ∧ m.Free a (bytes / 8) ∧ m' = m.map a (bytes / 8) pl.fill := by
  obtain ⟨pl, hr, hp⟩ := Option.bind_eq_some_iff.mp h
  split at hp
  · cases hp
    exact ⟨pl, hr, rfl, ‹_›, rfl⟩
  · cases hp

/-! ### Reading after `realloc` -/

section Realloc

variable {m m' : Memory} {r : Reply} {old bytes a : Nat}

/-- **Where the new block is**: at a place that was free, or that of the old block. -/
theorem resize_eq_some (h : m.resize r old bytes = some (a, m')) :
    ∃ pl rest contents, r = some pl ∧ pl.addr = a ∧ (rest = m ∨ rest = m.free old) ∧
      (a ≠ old → m.Free a (bytes / 8)) ∧ rest.Free a (bytes / 8) ∧
      m' = rest.map a (bytes / 8) contents := by
  obtain ⟨pl, hr, hp⟩ := Option.bind_eq_some_iff.mp h
  split at hp
  · split at hp
    · rename_i hc
      cases hp
      exact ⟨pl, _, _, hr, rfl, Or.inr rfl, hc.1, hc.2, rfl⟩
    · cases hp
  · obtain ⟨pl', hr', haddr, hfree, hm⟩ := malloc_eq_some hp
    exact ⟨pl', _, _, hr', haddr, Or.inl rfl, fun _ => hfree, hfree, hm⟩

/-- C's `realloc` releases the old block, and the new one begins with the old words. -/
theorem resize_eq_of_copying (hc : r.Copying) (h : m.resize r old bytes = some (a, m')) :
    ∃ fill : Nat → Word, (a ≠ old → m.Free a (bytes / 8)) ∧ (m.free old).Free a (bytes / 8) ∧
      m' = (m.free old).map a (bytes / 8) fun i =>
        if i < m.wordsAt old then (m.cell (old + 8 * i)).getD 0 else fill i := by
  obtain ⟨pl, hr, hp⟩ := Option.bind_eq_some_iff.mp h
  have hcopies : pl.copies = true := by
    rw [hr] at hc
    exact hc
  rw [if_pos hcopies] at hp
  split at hp
  · rename_i hplace
    cases hp
    exact ⟨pl.fill, hplace.1, hplace.2, rfl⟩
  · cases hp

theorem resize_kept (hc : r.Copying) (h : m.resize r old bytes = some (a, m')) {i : Nat}
    (hold : i < m.wordsAt old) (hnew : i < bytes / 8) :
    m'.cell (a + 8 * i) = some ((m.cell (old + 8 * i)).getD 0) := by
  obtain ⟨_, _, _, rfl⟩ := resize_eq_of_copying hc h
  rw [cell_map_slot hnew, if_pos hold]

theorem resize_isSome (h : m.resize r old bytes = some (a, m')) {i : Nat}
    (hnew : i < bytes / 8) : (m'.cell (a + 8 * i)).isSome := by
  obtain ⟨_, _, _, _, _, _, _, _, rfl⟩ := resize_eq_some h
  rw [cell_map_slot hnew]
  rfl

theorem resize_block (h : m.resize r old bytes = some (a, m')) :
    m'.block a = some (bytes / 8) := by
  obtain ⟨_, _, _, _, _, _, _, _, rfl⟩ := resize_eq_some h
  exact Function.update_self a _ _

/-- **A block that moves leaves nothing readable behind.** -/
theorem resize_moved (hc : r.Copying) (h : m.resize r old bytes = some (a, m')) (hmove : a ≠ old)
    {i : Nat} (hold : i < m.wordsAt old) (hread : (m.cell (old + 8 * i)).isSome) :
    m'.cell (old + 8 * i) = none := by
  obtain ⟨_, hfree, _, rfl⟩ := resize_eq_of_copying hc h
  obtain ⟨v, hv⟩ := Option.isSome_iff_exists.mp hread
  rw [cell_map_out ((hfree hmove).not_inBlock hv), free, cell_unmap_in (inBlock_slot.mpr hold)]

theorem unresized_of_ne (h : bytes ≠ 0) : m.unresized old bytes = m := if_neg h

end Realloc

end Memory

end BeamModular
