import BeamModular.Memory.Arena
import BeamModular.Lib.Run
import BeamModular.Lib.Sized

/-!
# The system allocator

`src/memory/beam_alloc.c`, its first half: `malloc`, `realloc` and `free` with four counters, and
what `beam_allocator_get_stats` makes of them.  The peak is the largest value of
`total_allocated - total_freed` after an `alloc`.  A `free` adds 1 to the one counter, a `realloc`
the new size to the other, so the difference is not the size of the live blocks.

`SystemRun` keeps, beside the counters, the live blocks with their sizes and the largest total so
far.  `truthful_iff_along` says in which runs the statistics are those of the live blocks.
-/

namespace BeamModular

/-- `system_alloc_state_t`. -/
structure SystemAllocState where
  totalAllocated : Word
  totalFreed : Word
  activeAllocs : Nat
  peakBytes : Word
  deriving DecidableEq, Repr

/-- `beam_allocator_create_system`. -/
def beamAllocatorCreateSystem : SystemAllocState := ⟨0#64, 0#64, 0, 0#64⟩

/-- `sys_alloc`; `ptr` is the answer of `malloc`. -/
def sysAlloc (state : SystemAllocState) (size : Word) (ptr : Option Nat) : SystemAllocState :=
  let size := align size
  match ptr with
  | some _ =>
    let state := { state with
      totalAllocated := state.totalAllocated + size
      activeAllocs := state.activeAllocs + 1 }
    if state.totalAllocated - state.totalFreed > state.peakBytes then
      { state with peakBytes := state.totalAllocated - state.totalFreed }
    else state
  | none => state

/-- `sys_realloc`; `newPtr` is the answer of `realloc`. -/
def sysRealloc (state : SystemAllocState) (newSize : Word) (newPtr : Option Nat) :
    SystemAllocState :=
  let newSize := align newSize
  match newPtr with
  | some _ => { state with totalAllocated := state.totalAllocated + newSize }
  | none => state

/-- `sys_free`. -/
def sysFree (state : SystemAllocState) (ptr : Option Nat) : SystemAllocState :=
  match ptr with
  | some _ =>
    let state := { state with totalFreed := state.totalFreed + 1 }
    if state.activeAllocs > 0 then { state with activeAllocs := state.activeAllocs - 1 } else state
  | none => state

/-- What the context of an allocator points at. -/
inductive AllocatorCtx
  | system (state : SystemAllocState)
  | arena (arena : Arena)
  deriving DecidableEq, Repr

/-- `beam_memory_stats_t`. -/
structure MemoryStats where
  totalAllocatedBytes : Word
  activeAllocations : Nat
  peakAllocatedBytes : Word
  deriving DecidableEq, Repr

/-- `beam_allocator_get_stats`. -/
def beamAllocatorGetStats : AllocatorCtx → MemoryStats
  | .system state => ⟨state.totalAllocated, state.activeAllocs, state.peakBytes⟩
  | .arena arena => ⟨arena.offset, arena.allocCount.toNat, arena.capacity⟩

/-! ### The calls -/

/-- A call; `realloc` without a block is `realloc` of the null pointer. -/
inductive SystemCall
  | alloc (size : Word)
  | realloc (ptr : Option Nat) (newSize : Word)
  | free (ptr : Nat)
  deriving DecidableEq, Repr

/-- The counters, the live blocks with the rounded sizes that were asked for, and the largest total
so far. -/
structure SystemRun where
  state : SystemAllocState
  heap : SizedBlocks
  most : Nat

/-- With other counters and blocks. -/
def SystemRun.next (s : SystemRun) (state : SystemAllocState) (heap : SizedBlocks) : SystemRun :=
  ⟨state, heap, max s.most heap.total⟩

/-- One call on live blocks; `malloc` and `realloc` succeed. -/
def SystemRun.step (s : SystemRun) : SystemCall → Option SystemRun
  | .alloc size =>
    some (s.next (sysAlloc s.state size (some s.heap.blocks.next))
      (s.heap.give (blockBytes size.toNat)))
  | .realloc none newSize =>
    some (s.next (sysRealloc s.state newSize (some s.heap.blocks.next))
      (s.heap.give (blockBytes newSize.toNat)))
  | .realloc (some b) newSize =>
    if b ∈ s.heap.blocks.live then
      some (s.next (sysRealloc s.state newSize (some b))
        (s.heap.resize b (blockBytes newSize.toNat)))
    else none
  | .free b => (s.heap.free b).map (s.next (sysFree s.state (some b)))

/-- A new allocator. -/
def SystemRun.start : SystemRun := ⟨beamAllocatorCreateSystem, .empty, 0⟩

/-- The statistics are those of the live blocks. -/
def SystemRun.Truthful (s : SystemRun) : Prop :=
  (beamAllocatorGetStats (.system s.state)).activeAllocations = s.heap.count ∧
    (beamAllocatorGetStats (.system s.state)).peakAllocatedBytes.toNat = s.most

/-- The bytes that the counters take for live. -/
def SystemRun.shown (s : SystemRun) : Nat := (s.state.totalAllocated - s.state.totalFreed).toNat

/-- A call after which the statistics are right.  For an `alloc`, the counters have the size of the
live blocks and can count the new one, or neither they nor the live blocks come to a new peak; a
`realloc` is of a live block and comes to no new peak. -/
def CountedRight (s : SystemRun) : SystemCall → Prop
  | .alloc size =>
    (s.shown = s.heap.total ∧ s.heap.total + blockBytes size.toNat < 2 ^ 64) ∨
    ((s.shown + blockBytes size.toNat) % 2 ^ 64 ≤ s.most ∧
      s.heap.total + blockBytes size.toNat ≤ s.most)
  | .realloc none _ => False
  | .realloc (some b) newSize => b ∈ s.heap.blocks.live →
    s.heap.total - s.heap.size b + blockBytes newSize.toNat ≤ s.most
  | .free _ => True

instance (s : SystemRun) : (call : SystemCall) → Decidable (CountedRight s call)
  | .alloc _ => inferInstanceAs (Decidable ((_ ∧ _) ∨ (_ ∧ _)))
  | .realloc none _ => .isFalse id
  | .realloc (some _) _ => inferInstanceAs (Decidable (_ → _))
  | .free _ => .isTrue trivial

/-! ### One call -/

section Call

variable {s s' : SystemRun} {call : SystemCall}

/-- **`sys_alloc`** with an answer counts the block, and the peak is the larger of the old one and
the new difference of the counters. -/
theorem sysAlloc_granted (s : SystemRun) (size : Word) (b : Nat) :
    let state := sysAlloc s.state size (some b)
    state.activeAllocs = s.state.activeAllocs + 1 ∧
      (state.totalAllocated - state.totalFreed).toNat =
        (s.shown + blockBytes size.toNat) % 2 ^ 64 ∧
      state.peakBytes.toNat =
        max s.state.peakBytes.toNat (state.totalAllocated - state.totalFreed).toNat := by
  have hshown : (s.state.totalAllocated + align size - s.state.totalFreed).toNat =
      (s.shown + blockBytes size.toNat) % 2 ^ 64 := by
    have hsum : s.state.totalAllocated + align size - s.state.totalFreed =
        s.state.totalAllocated - s.state.totalFreed + align size := by
      rw [BitVec.sub_eq_add_neg, BitVec.sub_eq_add_neg, BitVec.add_assoc, BitVec.add_assoc,
        BitVec.add_comm (align size)]
    rw [hsum, BitVec.toNat_add, toNat_align_mod, Nat.add_mod_mod]
    rfl
  rw [sysAlloc]
  dsimp only
  split
  · rename_i hlt
    exact ⟨rfl, hshown, (Nat.max_eq_right (Nat.le_of_lt hlt)).symm⟩
  · rename_i hle
    exact ⟨rfl, hshown, (Nat.max_eq_left (Nat.le_of_not_lt hle)).symm⟩

theorem sysFree_some (state : SystemAllocState) (b : Nat) :
    (sysFree state (some b)).activeAllocs = state.activeAllocs - 1 ∧
      (sysFree state (some b)).peakBytes = state.peakBytes := by
  rw [sysFree]
  dsimp only
  split
  · exact ⟨rfl, rfl⟩
  · exact ⟨by dsimp only; omega, rfl⟩

theorem truthful_step_iff (h : s.Truthful) (hle : s.heap.total ≤ s.most)
    (hs : s.step call = some s') : s'.Truthful ↔ CountedRight s call := by
  obtain ⟨hactive, hpeak⟩ := h
  unfold SystemRun.Truthful
  dsimp only [beamAllocatorGetStats] at hactive hpeak ⊢
  cases call with
  | alloc size =>
    cases hs
    obtain ⟨ha, hshown, hp⟩ := sysAlloc_granted s size s.heap.blocks.next
    have hlt : s.shown < 2 ^ 64 := (s.state.totalAllocated - s.state.totalFreed).isLt
    dsimp only [SystemRun.next, CountedRight]
    rw [ha, hp, hshown, hactive, hpeak, SizedBlocks.count_give, SizedBlocks.total_give]
    omega
  | realloc ptr newSize =>
    cases ptr with
    | none =>
      cases hs
      refine iff_of_false (fun hbad => ?_) id
      have ha : s.state.activeAllocs = (s.heap.give (blockBytes newSize.toNat)).count := hbad.1
      rw [hactive, SizedBlocks.count_give] at ha
      omega
    | some b =>
      rw [SystemRun.step] at hs
      split at hs
      · rename_i hb
        cases hs
        have hsize := SizedBlocks.size_le_total hb
        dsimp only [SystemRun.next, CountedRight, sysRealloc]
        rw [SizedBlocks.total_resize hb, forall_prop_of_true hb, hpeak]
        constructor
        · rintro ⟨_, hm⟩
          omega
        · intro hm
          exact ⟨hactive, by omega⟩
      · cases hs
  | free b =>
    obtain ⟨heap', hf, rfl⟩ := Option.map_eq_some_iff.mp hs
    obtain ⟨ha, hp⟩ := sysFree_some s.state b
    refine iff_of_true ⟨?_, ?_⟩ trivial
    · dsimp only [SystemRun.next]
      rw [ha, hactive, SizedBlocks.count_free hf]
    · dsimp only [SystemRun.next]
      rw [hp, hpeak, SizedBlocks.total_free hf]
      omega

theorem total_le_most (hs : s.step call = some s') : s'.heap.total ≤ s'.most := by
  cases call with
  | alloc size =>
    cases hs
    exact Nat.le_max_right _ _
  | realloc ptr newSize =>
    cases ptr with
    | none =>
      cases hs
      exact Nat.le_max_right _ _
    | some b =>
      rw [SystemRun.step] at hs
      split at hs
      · cases hs
        exact Nat.le_max_right _ _
      · cases hs
  | free b =>
    obtain ⟨heap', _, rfl⟩ := Option.map_eq_some_iff.mp hs
    exact Nat.le_max_right _ _

/-- The statistics are right, and the live blocks are below their peak. -/
def SystemRun.Recorded (s : SystemRun) : Prop := s.Truthful ∧ s.heap.total ≤ s.most

theorem recorded_start : SystemRun.start.Recorded := ⟨⟨rfl, rfl⟩, Nat.le_refl _⟩

theorem recorded_step (h : s.Recorded) (hok : CountedRight s call) (hs : s.step call = some s') :
    s'.Recorded := ⟨(truthful_step_iff h.1 h.2 hs).mpr hok, total_le_most hs⟩

/-- A call that cannot be made is of a block that is not live. -/
theorem countedRight_of_stuck (hs : s.step call = none) : CountedRight s call := by
  cases call with
  | alloc size => cases hs
  | realloc ptr newSize =>
    cases ptr with
    | none => cases hs
    | some b =>
      intro hb
      rw [SystemRun.step, if_pos hb] at hs
      cases hs
  | free b => exact trivial

end Call

/-- **The statistics tell the truth** exactly in the runs whose calls are all counted right: in
every state of the run `active_allocations` is the number of live blocks and `peak_allocated_bytes`
the largest total size so far if and only if each call meets the condition. -/
theorem truthful_iff_along (calls : List SystemCall) :
    (∀ n s, run SystemRun.step .start (calls.take n) = some s → s.Truthful) ↔
      Along SystemRun.step CountedRight .start calls := by
  apply always_iff_along SystemRun.Recorded SystemRun.Truthful
  · exact fun s h => h.1
  · exact fun _ _ _ h hok hs => recorded_step h hok hs
  · intro s call h hall
    cases hs : s.step call with
    | none => exact countedRight_of_stuck hs
    | some s' => exact (truthful_step_iff h.1 h.2 hs).mp (hall s' hs)
  · exact recorded_start

/-- **A block that has been freed still counts**: 16 bytes, their release, and 16 bytes again. -/
theorem free_keeps_bytes : ∃ s, run SystemRun.step .start [.alloc 16#64, .free 0, .alloc 16#64]
      = some s ∧
    (beamAllocatorGetStats (.system s.state)).peakAllocatedBytes = 31#64 ∧ s.most = 16 ∧
    ¬ s.Truthful := by
  refine ⟨_, rfl, rfl, rfl, fun h => ?_⟩
  exact absurd h.2 (by decide)

/-! ### Without releases -/

section Allocs

variable {s s' : SystemRun}

theorem shown_alloc {size : Word} (h : s.shown = s.heap.total)
    (hfit : s.heap.total + blockBytes size.toNat < 2 ^ 64) (hs : s.step (.alloc size) = some s') :
    s'.shown = s'.heap.total ∧ s'.heap.total = s.heap.total + blockBytes size.toNat := by
  cases hs
  obtain ⟨_, hshown, _⟩ := sysAlloc_granted s size s.heap.blocks.next
  have htotal := s.heap.total_give (blockBytes size.toNat)
  refine ⟨?_, htotal⟩
  unfold SystemRun.shown SystemRun.next
  dsimp only
  rw [hshown, htotal, h, Nat.mod_eq_of_lt hfit]

theorem countedRight_allocs : ∀ {sizes : List Word} {s : SystemRun}, s.shown = s.heap.total →
    s.heap.total + (sizes.map fun size => blockBytes size.toNat).sum < 2 ^ 64 →
      Along SystemRun.step CountedRight s (sizes.map .alloc) := by
  intro sizes
  induction sizes with
  | nil => intro _ _ _; exact trivial
  | cons size sizes ih =>
    intro s h hfit
    rw [List.map_cons, List.sum_cons] at hfit
    have hone : s.heap.total + blockBytes size.toNat < 2 ^ 64 := by omega
    refine ⟨Or.inl ⟨h, hone⟩, fun s₁ hs => ?_⟩
    obtain ⟨h₁, htotal⟩ := shown_alloc h hone hs
    exact ih h₁ (by omega)

end Allocs

/-- **Without releases the statistics are right**, as long as the sizes fit the counters. -/
theorem truthful_of_allocs {sizes : List Word}
    (hfit : (sizes.map fun size => blockBytes size.toNat).sum < 2 ^ 64) {s : SystemRun}
    (hrun : run SystemRun.step .start (sizes.map .alloc) = some s) : s.Truthful := by
  have hok : Along SystemRun.step CountedRight .start (sizes.map .alloc) :=
    countedRight_allocs rfl (by
      rw [SystemRun.start]
      exact lt_of_eq_of_lt (Nat.zero_add _) hfit)
  exact (run_induct SystemRun.Recorded (fun _ _ _ h hc hs => recorded_step h hc hs) recorded_start
    hok hrun).1

end BeamModular
