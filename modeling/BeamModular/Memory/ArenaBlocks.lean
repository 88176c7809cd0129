import BeamModular.Memory.Arena
import BeamModular.Lib.Run
import Mathlib.Order.Interval.Finset.Nat

/-!
# Blocks of an arena

Every sequence of requests to the arena of `src/memory/beam_alloc.c`, with the blocks it has granted
and the sizes that were asked for.  As long as neither sum of a request wraps, the blocks lie one
behind the other (`stacked_step`).  A request whose sum wraps is granted, and its block is larger
than the address space behind the offset; `soundBlocks_of_along` and its converse say that this is
all that can go wrong.
-/

namespace BeamModular

/-- A request; `ptr` is the old block. -/
inductive ArenaCall
  | alloc (size : Word)
  | realloc (ptr newSize : Word)
  deriving DecidableEq, Repr

def ArenaCall.size : ArenaCall → Word
  | .alloc size => size
  | .realloc _ newSize => newSize

/-- What the allocator answers. -/
def ArenaCall.answer (a : Arena) : ArenaCall → Option (Arena × Word)
  | .alloc size => arenaAlloc a size
  | .realloc ptr newSize => arenaRealloc a ptr newSize

/-- A granted block, with the size that was asked for. -/
structure ArenaBlock where
  start : Nat
  size : Nat
  deriving DecidableEq, Repr

def ArenaBlock.bytes (b : ArenaBlock) : Finset Nat := Finset.Ico b.start (b.start + b.size)

/-- An arena, its offset before the last request, and the blocks so far with the latest first. -/
structure ArenaRun where
  arena : Arena
  before : Word
  granted : List ArenaBlock
  deriving DecidableEq, Repr

/-- One request. -/
def ArenaRun.step (s : ArenaRun) (call : ArenaCall) : Option ArenaRun :=
  match call.answer s.arena with
  | some (arena, ptr) =>
    some ⟨arena, s.arena.offset, ⟨ptr.toNat, call.size.toNat⟩ :: s.granted⟩
  | none => some { s with before := s.arena.offset }

/-- A new arena. -/
def ArenaRun.start (arenaSize : Word) (buffer : Bool) : ArenaRun :=
  ⟨beamAllocatorCreateArena arenaSize buffer, 0#64, []⟩

/-- The blocks are aligned, in the buffer and apart, the offset has not moved back and is in the
buffer, and a request that is refused changes nothing. -/
structure ArenaRun.Sound (s : ArenaRun) : Prop where
  aligned : ∀ b ∈ s.granted, b.start % 8 = 0
  inside : ∀ b ∈ s.granted, b.start + b.size ≤ s.arena.capacity.toNat
  apart : s.granted.Pairwise fun b c => Disjoint b.bytes c.bytes
  rises : s.before.toNat ≤ s.arena.offset.toNat
  within : s.arena.offset.toNat ≤ s.arena.capacity.toNat
  refused : ∀ call, call.answer s.arena = none →
    s.step call = some { s with before := s.arena.offset }

/-- If there is a buffer, the offset behind the rounded size is in the address space. -/
def SumsFit (s : ArenaRun) (call : ArenaCall) : Prop :=
  s.arena.buffer = true → s.arena.offset.toNat + blockBytes call.size.toNat < 2 ^ 64

instance (s : ArenaRun) (call : ArenaCall) : Decidable (SumsFit s call) :=
  inferInstanceAs (Decidable (_ → _))

/-! ### One request -/

section Request

variable {a : Arena} {s s' : ArenaRun} {call : ArenaCall} {capacity : Word}

theorem answer_eq (a : Arena) (call : ArenaCall) : call.answer a = arenaAlloc a call.size := by
  cases call with
  | alloc size => rfl
  | realloc ptr newSize => rfl

theorem toNat_offset_add (a : Arena) (size : Word) :
    (a.offset + align size).toNat = (a.offset.toNat + blockBytes size.toNat) % 2 ^ 64 := by
  rw [BitVec.toNat_add, toNat_align_mod, Nat.add_mod_mod]

/-- **What a request does**: it is refused, or it moves the offset, modulo the address space, to a
place in the buffer. -/
theorem arenaAlloc_cases (a : Arena) (size : Word) :
    (arenaAlloc a size = none ∧ (a.buffer = true →
      a.capacity.toNat < (a.offset.toNat + blockBytes size.toNat) % 2 ^ 64)) ∨
    ∃ a', arenaAlloc a size = some (a', a.offset) ∧ a.buffer = true ∧ a'.capacity = a.capacity ∧
      a'.offset.toNat = (a.offset.toNat + blockBytes size.toNat) % 2 ^ 64 ∧
      a'.offset.toNat ≤ a.capacity.toNat := by
  rw [arenaAlloc]
  cases hb : a.buffer with
  | false =>
    left
    exact ⟨rfl, fun h => by cases h⟩
  | true =>
    rw [Bool.not_true, if_neg Bool.false_ne_true, ← toNat_offset_add]
    by_cases hfit : a.offset + align size > a.capacity
    · left
      exact ⟨if_pos hfit, fun _ => hfit⟩
    · right
      exact ⟨_, if_neg hfit, rfl, rfl, rfl, Nat.le_of_not_lt hfit⟩

theorem disjoint_bytes {b c : ArenaBlock} (h : b.start + b.size ≤ c.start) :
    Disjoint b.bytes c.bytes := by
  rw [Finset.disjoint_left]
  intro i hb hc
  have hlt := (Finset.mem_Ico.mp hb).2
  have hge := (Finset.mem_Ico.mp hc).1
  omega

theorem le_blockBytes (n : Nat) : n ≤ blockBytes n := by
  unfold blockBytes
  omega

theorem blockBytes_le (n : Nat) : blockBytes n ≤ n + 7 := by
  unfold blockBytes
  omega

theorem blockBytes_mod (n : Nat) : blockBytes n % 8 = 0 := Nat.mul_mod_left _ _

/-- The blocks lie one behind the other, below the offset. -/
structure ArenaRun.Stacked (capacity : Word) (s : ArenaRun) : Prop where
  sound : s.Sound
  capacity : s.arena.capacity = capacity
  aligned : s.arena.offset.toNat % 8 = 0
  below : ∀ b ∈ s.granted, b.start + b.size ≤ s.arena.offset.toNat

theorem step_refused (h : call.answer s.arena = none) :
    s.step call = some { s with before := s.arena.offset } := by
  rw [ArenaRun.step, h]

theorem step_granted {a' : Arena} {ptr : Word} (h : call.answer s.arena = some (a', ptr)) :
    s.step call =
      some ⟨a', s.arena.offset, ⟨ptr.toNat, call.size.toNat⟩ :: s.granted⟩ := by
  rw [ArenaRun.step, h]

/-- **One request** that does not wrap. -/
theorem stacked_step (h : s.Stacked capacity) (hok : SumsFit s call)
    (hs : s.step call = some s') : s'.Stacked capacity := by
  obtain ⟨hr, _⟩ | ⟨a', hg, hb, hcap, hoff, hle⟩ := arenaAlloc_cases s.arena call.size
  · rw [step_refused ((answer_eq _ _).trans hr)] at hs
    cases hs
    exact ⟨⟨h.sound.aligned, h.sound.inside, h.sound.apart, Nat.le_refl _, h.sound.within,
      fun _ => step_refused⟩, h.capacity, h.aligned, h.below⟩
  · rw [step_granted ((answer_eq _ _).trans hg)] at hs
    cases hs
    rw [Nat.mod_eq_of_lt (hok hb)] at hoff
    have hsize := le_blockBytes call.size.toNat
    have hmod := blockBytes_mod call.size.toNat
    have hal := h.aligned
    have hbelow : ∀ b ∈ (⟨s.arena.offset.toNat, call.size.toNat⟩ : ArenaBlock) :: s.granted,
        b.start + b.size ≤ a'.offset.toNat := by
      intro b hm
      rcases List.mem_cons.mp hm with rfl | hm
      · dsimp only
        omega
      · have := h.below b hm
        omega
    refine ⟨⟨fun b hm => ?_, fun b hm => ?_, ?_, ?_, ?_, fun _ => step_refused⟩,
      hcap.trans h.capacity, ?_, hbelow⟩
    · rcases List.mem_cons.mp hm with rfl | hm
      · exact h.aligned
      · exact h.sound.aligned b hm
    · dsimp only
      rw [hcap]
      exact (hbelow b hm).trans hle
    · refine List.pairwise_cons.mpr ⟨fun b hm => ?_, h.sound.apart⟩
      exact (disjoint_bytes (h.below b hm)).symm
    · dsimp only
      omega
    · dsimp only
      rw [hcap]
      exact hle
    · dsimp only
      omega

/-- **A request that wraps** is granted, and its block is not in the buffer. -/
theorem sumsFit_of_sound (h : s.Stacked capacity) (hcap : capacity.toNat < 2 ^ 63)
    (hs : s.step call = some s') (hsound : s'.Sound) : SumsFit s call := by
  intro hb
  by_contra hwrap
  have hlt := s.arena.offset.isLt
  have hsize := call.size.isLt
  have hblock := blockBytes_le call.size.toNat
  have hwithin := h.sound.within
  have hc : s.arena.capacity.toNat = capacity.toNat := by rw [h.capacity]
  obtain ⟨_, hr⟩ | ⟨a', hg, _, hcap', _, _⟩ := arenaAlloc_cases s.arena call.size
  · have hbig := hr hb
    unfold blockBytes at hbig hwrap
    omega
  · rw [step_granted ((answer_eq _ _).trans hg)] at hs
    cases hs
    have hin := hsound.inside _ List.mem_cons_self
    dsimp only at hin
    rw [hcap'] at hin
    omega

end Request

/-! ### Every sequence of requests -/

theorem stacked_start (arenaSize : Word) (buffer : Bool) :
    (ArenaRun.start arenaSize buffer).Stacked arenaSize :=
  ⟨⟨fun _ hm => absurd hm List.not_mem_nil, fun _ hm => absurd hm List.not_mem_nil,
    List.Pairwise.nil, Nat.le_refl _, Nat.zero_le _, fun _ => step_refused⟩, rfl, rfl,
    fun _ hm => absurd hm List.not_mem_nil⟩

/-- **Arena blocks never overlap** as long as no sum wraps: for every size of the arena, with or
without a buffer, and every sequence of requests.  Where the buffer is one that `malloc` can grant,
this is the only way. -/
theorem soundBlocks_of_along (arenaSize : Word) (buffer : Bool) (calls : List ArenaCall) :
    (Along ArenaRun.step SumsFit (ArenaRun.start arenaSize buffer) calls →
      ∀ n s, run ArenaRun.step (ArenaRun.start arenaSize buffer) (calls.take n) = some s →
        s.Sound) ∧
    (arenaSize.toNat < 2 ^ 63 →
      (∀ n s, run ArenaRun.step (ArenaRun.start arenaSize buffer) (calls.take n) = some s →
        s.Sound) →
      Along ArenaRun.step SumsFit (ArenaRun.start arenaSize buffer) calls) := by
  have hstart := stacked_start arenaSize buffer
  refine ⟨always_of_along (ArenaRun.Stacked arenaSize) ArenaRun.Sound (fun _ h => h.sound)
    (fun _ _ _ h hok hs => stacked_step h hok hs) hstart, fun hcap => ?_⟩
  refine along_of_always (ArenaRun.Stacked arenaSize) ArenaRun.Sound
    (fun _ _ _ h hok hs => stacked_step h hok hs) (fun s call h hall => ?_) hstart
  obtain ⟨s', hs⟩ : ∃ s', s.step call = some s' := by
    unfold ArenaRun.step
    split
    · exact ⟨_, rfl⟩
    · exact ⟨_, rfl⟩
  exact sumsFit_of_sound h hcap hs (hall s' hs)

/-- **The offset moves back into a block**: 16 bytes, nearly all of the address space, 8 bytes. -/
theorem huge_request_overlaps :
    ∃ s, run ArenaRun.step (ArenaRun.start 64#64 true)
        [.alloc 16#64, .alloc (-8#64), .alloc 8#64] = some s ∧
      s.granted = [⟨8, 8⟩, ⟨16, 2 ^ 64 - 8⟩, ⟨0, 16⟩] ∧
      s.before = 8#64 ∧ ¬ Disjoint (ArenaBlock.bytes ⟨8, 8⟩) (ArenaBlock.bytes ⟨0, 16⟩) ∧
      ¬ s.Sound := by
  have hover : ¬ Disjoint (ArenaBlock.bytes ⟨8, 8⟩) (ArenaBlock.bytes ⟨0, 16⟩) := by decide
  refine ⟨_, rfl, rfl, rfl, hover, fun h => hover ?_⟩
  exact (List.pairwise_cons.mp h.apart).1 _ (List.mem_cons_of_mem _ (List.mem_singleton_self _))

theorem soundBlocks_of_two :
    (Along ArenaRun.step SumsFit (ArenaRun.start 64#64 true) [.alloc 10#64, .realloc 0#64 24#64] ∧
      ∀ n s, run ArenaRun.step (ArenaRun.start 64#64 true)
        ([ArenaCall.alloc 10#64, .realloc 0#64 24#64].take n) = some s → s.Sound) := by
  have hok : Along ArenaRun.step SumsFit (ArenaRun.start 64#64 true)
      [.alloc 10#64, .realloc 0#64 24#64] := by decide
  exact ⟨hok, (soundBlocks_of_along 64#64 true _).1 hok⟩

end BeamModular
