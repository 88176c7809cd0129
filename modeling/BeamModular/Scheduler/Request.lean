import BeamModular.Lib.Moves
import BeamModular.Scheduler.Growth

/-!
# Requests of any size

`beam_process_alloc_heap` adds the request to the heap's top, doubles the capacity and
turns words into bytes, all in 64 bits.  Each of the three can wrap around.  A top that
wraps passes the limit test, and the caller gets words that the heap does not have; a
byte size that wraps asks for a block smaller than the capacity the process goes on
with, or for no bytes at all, and null then means that the heap has been released.
`givesSpace_iff` is the exact condition on the request.
-/

namespace BeamModular

/-- **What a request promises**: a pointer comes with a top that has moved by the whole request and
lies inside the capacity, and a block that was asked for has that capacity; a null pointer leaves
the process as it was, but for the allocator, which has been asked. -/
def GivesSpace (m : Memory) (p : Process) (n : Word) : Prop :=
  match beamProcessAllocHeap m p n with
  | (m', p', some _) =>
    p'.heapTop.toNat = p.heapTop.toNat + n.toNat ∧ p'.heapTop.toNat ≤ p'.heapCapacity.toNat ∧
      (p.heapTop + n > p.heapCapacity → m'.block p'.heap = some p'.heapCapacity.toNat)
  | (m', p', none) => m' = m ∧ p' = { p with alloc := p'.alloc }

/-- No size of the request wraps around, or it is refused before one matters: the words are there,
or the grown block has fewer than 2^61 words, or the allocator refuses it and was asked for some
bytes. -/
def RequestFits (m : Memory) (p : Process) (n : Word) : Prop :=
  p.heapTop.toNat + n.toNat ≤ p.heapCapacity.toNat ∨
    2 * p.heapCapacity.toNat + n.toNat < 2 ^ 61 ∨
      (p.heapTop.toNat + n.toNat < 2 ^ 64 ∧ growReply m p n = none ∧ growBytes p n ≠ 0)

section

variable {m m' : Memory} {p : Process} {n : Word}

/-- The limit test asks for growth exactly if the words are not there and the top does not wrap
around. -/
theorem grows_iff (htop : p.heapTop.toNat ≤ p.heapCapacity.toNat) :
    p.heapTop + n > p.heapCapacity ↔
      p.heapCapacity.toNat < p.heapTop.toNat + n.toNat ∧
        p.heapTop.toNat + n.toNat < 2 ^ 64 := by
  have hn := n.isLt
  have hcap := p.heapCapacity.isLt
  rw [gt_iff_lt, BitVec.lt_def, BitVec.toNat_add]
  omega

/-- The words of a grown block are those of the new capacity exactly if its bytes do not wrap. -/
theorem grown_block_iff {a : Nat} (h : growReply m p n = some (a, m')) :
    m'.block a = some (p.heapCapacity * 2#64 + n).toNat ↔
      (p.heapCapacity * 2#64 + n).toNat < 2 ^ 61 := by
  have hw := (p.heapCapacity * 2#64 + n).isLt
  rw [growReply] at h
  rw [Memory.resize_block h, Option.some_inj, growBytes, wordBytes, BitVec.toNat_mul,
    BitVec.toNat_ofNat]
  omega

/-- Null leaves a live block exactly if some bytes were asked for. -/
theorem unresized_eq_iff {old bytes : Nat} (hlive : (m.block old).isSome) :
    m.unresized old bytes = m ↔ bytes ≠ 0 := by
  refine ⟨fun he hzero => ?_, Memory.unresized_of_ne⟩
  rw [← he, Memory.unresized, if_pos hzero, Memory.block_free_self] at hlive
  cases hlive

/-- **A heap allocation returns space that exists** exactly when its request fits. -/
theorem givesSpace_iff (htop : p.heapTop.toNat ≤ p.heapCapacity.toNat)
    (hlive : (m.block p.heap).isSome) : GivesSpace m p n ↔ RequestFits m p n := by
  have hn := n.isLt
  have hcap := p.heapCapacity.isLt
  have hsum : (p.heapTop + n).toNat = (p.heapTop.toNat + n.toNat) % 2 ^ 64 := BitVec.toNat_add _ _
  have hnew : (p.heapCapacity * 2#64 + n).toNat =
      (2 * p.heapCapacity.toNat + n.toNat) % 2 ^ 64 := by
    rw [BitVec.toNat_add, BitVec.toNat_mul, BitVec.toNat_ofNat]
    omega
  rw [GivesSpace, RequestFits]
  rcases beamProcessAllocHeap_cases m p n with
    ⟨hle, ha⟩ | ⟨hg, hr, ha⟩ | ⟨hg, newHeap, m', hr, ha⟩
  · -- no growth: either the words are there or the top has wrapped around
    have hno : ¬ p.heapTop + n > p.heapCapacity := BitVec.not_lt.mpr hle
    rw [ha]
    simp only [bumpHeap]
    rw [hsum]
    constructor
    · rintro ⟨heq, hroom, _⟩
      exact Or.inl (by omega)
    · intro hfits
      have hlt : p.heapTop.toNat + n.toNat < 2 ^ 64 := by
        rcases hfits with h | h | h <;> omega
      have hthere : p.heapTop.toNat + n.toNat ≤ p.heapCapacity.toNat := by
        by_contra hmore
        exact hno ((grows_iff htop).mpr ⟨Nat.not_le.mp hmore, hlt⟩)
      rw [Nat.mod_eq_of_lt hlt]
      exact ⟨rfl, hthere, fun hg => absurd hg hno⟩
  · -- growth refused: the process is as it was if its block is
    obtain ⟨hmore, hlt⟩ := (grows_iff htop).mp hg
    rw [ha]
    refine Iff.trans (and_iff_left rfl) ((unresized_eq_iff hlive).trans ?_)
    refine ⟨fun hne => Or.inr (Or.inr ⟨hlt, hr, hne⟩), ?_⟩
    rintro (hfit | hfit | ⟨_, _, hne⟩)
    · omega
    · rw [growBytes, wordBytes, BitVec.toNat_mul, hnew, BitVec.toNat_ofNat]
      omega
    · exact hne
  · obtain ⟨hmore, hlt⟩ := (grows_iff htop).mp hg
    have hblock := grown_block_iff hr
    rw [hnew] at hblock
    rw [ha]
    simp only [bumpHeap, Process.asked, hr, reduceCtorEq, false_and, and_false, or_false]
    rw [hsum, hnew, hblock, Nat.mod_eq_of_lt hlt]
    constructor
    · rintro ⟨_, hroom, hbytes⟩
      have := hbytes hg
      exact Or.inr (by omega)
    · rintro (hfit | hfit)
      · omega
      · exact ⟨rfl, by omega, fun _ => by omega⟩

end

/-- A process of four words with two of them used. -/
def usedProcess : Process := { freshProcess with heapTop := 2#64 }

theorem givesSpace_usedProcess : GivesSpace freshMemory usedProcess 9#64 :=
  (givesSpace_iff (by decide) (by decide)).mpr (Or.inr (Or.inl (by decide)))

/-- **A request for all the words of the address space is granted**, and the heap's top goes
down. -/
theorem wrapping_not_givesSpace : ¬ GivesSpace freshMemory usedProcess (-1#64) := by
  rintro ⟨htop, _⟩
  cases htop

end BeamModular
