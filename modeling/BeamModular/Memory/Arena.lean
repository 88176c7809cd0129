import BeamModular.Lib.Word

/-!
# The arena allocator

`src/memory/beam_alloc.c`, its second half: a buffer and an offset.  A request moves the offset
and is never given back.  `arena_realloc` is a new request: it neither reads nor copies the old
block, so what the block held is not in the new one.

Sizes are rounded up to 8 and added as machine words, which can wrap; `arenaAlloc_granted` says
what a request does that fits.
-/

namespace BeamModular

/-- `ALIGN`. -/
def align (size : Word) : Word := (size + 7#64) &&& ~~~7#64

/-- `arena_alloc_state_t`; `buffer` says whether there is one. -/
structure Arena where
  buffer : Bool
  capacity : Word
  offset : Word
  allocCount : Word
  deriving DecidableEq, Repr

/-- `beam_allocator_create_arena`; `buffer` is the answer to the request for the buffer. -/
def beamAllocatorCreateArena (arenaSize : Word) (buffer : Bool) : Arena where
  buffer := buffer
  capacity := arenaSize
  offset := 0#64
  allocCount := 0#64

/-- `arena_alloc`, with the offset of the block; `none` is the null pointer. -/
def arenaAlloc (a : Arena) (size : Word) : Option (Arena × Word) :=
  if !a.buffer then none
  else if a.offset + align size > a.capacity then none
  else some ({ a with offset := a.offset + align size, allocCount := a.allocCount + 1 }, a.offset)

/-- `arena_realloc`. -/
def arenaRealloc (a : Arena) (_ptr : Word) (newSize : Word) : Option (Arena × Word) :=
  arenaAlloc a newSize

/-- The bytes a request takes. -/
def blockBytes (n : Nat) : Nat := (n + 7) / 8 * 8

theorem toNat_align_mod (size : Word) : (align size).toNat = blockBytes size.toNat % 2 ^ 64 := by
  have hmask : ~~~7#64 = ~~~BitVec.ofNat 64 (2 ^ 3 - 1) := rfl
  have hlt := size.isLt
  unfold blockBytes
  rw [align, hmask, toNat_and_not_mask, BitVec.toNat_add, BitVec.toNat_ofNat]
  omega

theorem toNat_align {n : Nat} (hn : blockBytes n < 2 ^ 64) :
    (align (BitVec.ofNat 64 n)).toNat = blockBytes n := by
  have hlt : n < 2 ^ 64 := by
    unfold blockBytes at hn
    omega
  rw [toNat_align_mod, BitVec.toNat_ofNat, Nat.mod_eq_of_lt hlt, Nat.mod_eq_of_lt hn]

/-- **A request that fits** is granted, and the next block starts behind this one. -/
theorem arenaAlloc_granted {a : Arena} {n : Nat} (hb : a.buffer = true)
    (hfit : a.offset.toNat + blockBytes n ≤ a.capacity.toNat) :
    ∃ a', arenaAlloc a (BitVec.ofNat 64 n) = some (a', a.offset) ∧ a'.buffer = true ∧
      a'.capacity = a.capacity ∧ a'.offset.toNat = a.offset.toNat + blockBytes n := by
  have hlt := a.capacity.isLt
  have hsum : (a.offset + align (BitVec.ofNat 64 n)).toNat = a.offset.toNat + blockBytes n := by
    rw [BitVec.toNat_add, toNat_align (by omega), Nat.mod_eq_of_lt (by omega)]
  have hle : ¬ a.offset + align (BitVec.ofNat 64 n) > a.capacity := by
    rw [gt_iff_lt, BitVec.lt_def, hsum]
    omega
  refine ⟨{ a with
    offset := a.offset + align (BitVec.ofNat 64 n)
    allocCount := a.allocCount + 1 }, ?_, hb, rfl, hsum⟩
  rw [arenaAlloc, hb, Bool.not_true, if_neg Bool.false_ne_true, if_neg hle]

end BeamModular
