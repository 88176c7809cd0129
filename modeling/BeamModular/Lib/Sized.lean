import BeamModular.Lib.Blocks
import Mathlib.Algebra.BigOperators.Group.Finset.Basic

/-!
# Blocks with sizes

What an allocator has given, with the size of each block.  A block that is given, taken back or
given another size changes the number of the live blocks and their total size by just this block
(`total_give`, `total_free`, `total_resize`).
-/

namespace BeamModular

/-- The live blocks and the sizes of all blocks. -/
structure SizedBlocks where
  blocks : Blocks
  size : Nat → Nat

namespace SizedBlocks

/-- An allocator that has given nothing yet. -/
def empty : SizedBlocks := ⟨.granting, fun _ => 0⟩

/-- How many blocks are live. -/
def count (h : SizedBlocks) : Nat := h.blocks.live.card

/-- How large they are together. -/
def total (h : SizedBlocks) : Nat := ∑ b ∈ h.blocks.live, h.size b

/-- With one more block. -/
def give (h : SizedBlocks) (n : Nat) : SizedBlocks :=
  ⟨h.blocks.give, Function.update h.size h.blocks.next n⟩

/-- With another size of one block. -/
def resize (h : SizedBlocks) (b n : Nat) : SizedBlocks :=
  ⟨h.blocks, Function.update h.size b n⟩

/-- With one block less. -/
def free (h : SizedBlocks) (b : Nat) : Option SizedBlocks :=
  (h.blocks.free b).map fun blocks => ⟨blocks, h.size⟩

variable {h h' : SizedBlocks} {b : Nat}

theorem next_notMem (h : Blocks) : h.next ∉ h.live := fun hm => lt_irrefl _ (h.fresh _ hm)

theorem count_give (h : SizedBlocks) (n : Nat) : (h.give n).count = h.count + 1 :=
  Finset.card_insert_of_notMem (next_notMem h.blocks)

/-- The sum over other blocks does not see a new size. -/
theorem sum_update {live : Finset Nat} (hb : b ∉ live) (size : Nat → Nat) (n : Nat) :
    ∑ c ∈ live, Function.update size b n c = ∑ c ∈ live, size c :=
  Finset.sum_congr rfl fun _ hc => Function.update_of_ne (ne_of_mem_of_not_mem hc hb) _ _

theorem total_give (h : SizedBlocks) (n : Nat) : (h.give n).total = h.total + n := by
  have hnew := next_notMem h.blocks
  show ∑ c ∈ insert h.blocks.next h.blocks.live, Function.update h.size h.blocks.next n c = _
  rw [Finset.sum_insert hnew, Function.update_self, sum_update hnew, Nat.add_comm]
  rfl

theorem size_add_rest (hb : b ∈ h.blocks.live) :
    h.size b + ∑ c ∈ h.blocks.live.erase b, h.size c = h.total :=
  Finset.add_sum_erase _ _ hb

theorem size_le_total (hb : b ∈ h.blocks.live) : h.size b ≤ h.total := by
  have := size_add_rest hb
  omega

theorem total_resize (hb : b ∈ h.blocks.live) (n : Nat) :
    (h.resize b n).total = h.total - h.size b + n := by
  have hrest := size_add_rest hb
  have hsum : (h.resize b n).total = n + ∑ c ∈ h.blocks.live.erase b, h.size c := by
    show ∑ c ∈ h.blocks.live, Function.update h.size b n c = _
    rw [← Finset.add_sum_erase _ _ hb, Function.update_self,
      sum_update (Finset.notMem_erase b h.blocks.live)]
  omega

theorem live_of_free (hf : h.free b = some h') :
    b ∈ h.blocks.live ∧ h'.blocks.live = h.blocks.live.erase b ∧ h'.size = h.size := by
  obtain ⟨blocks, hb, rfl⟩ := Option.map_eq_some_iff.mp hf
  rw [Blocks.free] at hb
  split at hb
  · cases hb
    exact ⟨‹_›, rfl, rfl⟩
  · cases hb

theorem count_free (hf : h.free b = some h') : h'.count = h.count - 1 := by
  obtain ⟨hb, hlive, _⟩ := live_of_free hf
  rw [count, hlive]
  exact Finset.card_erase_of_mem hb

theorem total_free (hf : h.free b = some h') : h'.total = h.total - h.size b := by
  obtain ⟨hb, hlive, hsize⟩ := live_of_free hf
  have hrest := size_add_rest hb
  rw [total, hlive, hsize]
  omega

end SizedBlocks

end BeamModular
