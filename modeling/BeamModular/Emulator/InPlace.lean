import BeamModular.Emulator.Emu
import BeamModular.Lib.Moves
import BeamModular.Scheduler.Growth
import BeamModular.Scheduler.Stack

/-!
# Instructions and the heap block

An instruction stores words in the heap block of its process and moves the stack pointer
about in it.  `InPlace` says that this is all: the same words can be read as before, and the
block is where it was and as large as it was.  Only a closure can have more in store
(`execInstr_inPlace`), since it may not fit; then C's `realloc` moves the block, and the other
blocks stay (`execInstr_moves`).  `GrowsAsC` leaves out the two other ways to grow: a `realloc`
that keeps the old block beside the new one, and one that is asked for no bytes.
-/

namespace BeamModular

open Memory (Moves SameShape)

/-- The same words can be read, and the block of the process has its place and its size. -/
structure InPlace (m : Memory) (p : Process) (m' : Memory) (p' : Process) : Prop where
  shape : SameShape m m'
  heap : p'.heap = p.heap
  capacity : p'.heapCapacity = p.heapCapacity

variable {code : List Instruction} {instr : Instruction} {m m' m'' : Memory} {p p' p'' : Process}
  {ip : Nat} {e : Effect}

theorem InPlace.refl (m : Memory) (p : Process) : InPlace m p m p := ⟨.refl m, rfl, rfl⟩

theorem InPlace.of_same (hheap : p'.heap = p.heap) (hcap : p'.heapCapacity = p.heapCapacity) :
    InPlace m p m p' := ⟨.refl m, hheap, hcap⟩

theorem InPlace.of_shape (h : SameShape m m') : InPlace m p m' p := ⟨h, rfl, rfl⟩

theorem InPlace.trans (h : InPlace m p m' p') (h' : InPlace m' p' m'' p'') :
    InPlace m p m'' p'' :=
  ⟨h.shape.trans h'.shape, h'.heap.trans h.heap, h'.capacity.trans h.capacity⟩

theorem InPlace.moves (h : InPlace m p m' p') : Moves m p.heap m' p'.heap := by
  rw [h.heap]
  exact .of_shape h.shape

/-! ### The stack -/

theorem StackMoved.inPlace (h : StackMoved m p m' p') : InPlace m p m' p' :=
  ⟨h.shape, by rw [h.proc], by rw [h.proc]⟩

/-! ### A closure -/

theorem storeFreeVars_sameShape {hp : Nat} : ∀ (left fv : Nat) {m m' : Memory},
    storeFreeVars p hp left fv m = some m' → SameShape m m' := by
  intro left
  induction left with
  | zero => intro fv m m' h; cases h; exact .refl _
  | succ left ih =>
    intro fv m m' h
    obtain ⟨m₁, h1, h2⟩ := Option.bind_eq_some_iff.mp h
    exact (SameShape.of_write h1).trans (ih (fv + 1) h2)

theorem execMakeFun2_inPlace {r : Memory × Process × Option Nat}
    (ha : beamProcessAllocHeap m p ((instr.arg2 + 2#32).setWidth 64) = r)
    (he : execMakeFun2 instr m p ip = some e) : InPlace r.1 r.2.1 e.mem e.proc := by
  subst ha
  unfold execMakeFun2 at he
  dsimp only at he
  split at he
  · rename_i hnone
    rw [hnone]
    cases he
    exact .refl _ _
  · rename_i hsome
    rw [hsome]
    obtain ⟨m₁, h1, h2⟩ := Option.bind_eq_some_iff.mp he
    obtain ⟨m₂, h3, rfl⟩ := Option.map_eq_some_iff.mp h2
    have hstores := (SameShape.of_writeAll _ h1).trans (storeFreeVars_sameShape _ _ h3)
    split <;> exact ⟨hstores, rfl, rfl⟩

/-- If the request makes the block grow, it is C's `realloc` that is asked, and for some bytes. -/
def GrowsAsC (m : Memory) (p : Process) (n : Word) : Prop :=
  p.heapTop + n > p.heapCapacity → (p.alloc 0).Copying ∧ (Refused m p n → growBytes p n ≠ 0)

instance (m : Memory) (p : Process) (n : Word) : Decidable (GrowsAsC m p n) :=
  inferInstanceAs (Decidable (_ → _ ∧ (_ → _)))

theorem beamProcessAllocHeap_moves {n : Word} (hgrow : GrowsAsC m p n) :
    Moves m p.heap (beamProcessAllocHeap m p n).1 (beamProcessAllocHeap m p n).2.1.heap := by
  rcases beamProcessAllocHeap_cases m p n with ⟨_, h⟩ | ⟨hg, hr, h⟩ | ⟨hg, newHeap, m₁, hr, h⟩
  · rw [h]; exact .refl m _
  · rw [h, Memory.unresized_of_ne ((hgrow hg).2 ⟨hg, hr⟩)]; exact .refl m _
  · rw [h]; exact .of_resize (hgrow hg).1 hr

/-! ### Every instruction -/

/-- **An instruction leaves the block where it is**, unless it makes a closure. -/
theorem execInstr_inPlace (hfun : instr.opcode ≠ .makeFun2)
    (he : execInstr code instr m p ip = some e) : InPlace m p e.mem e.proc := by
  cases hl : instr.opcode.Light with
  | true =>
    have hlight := execInstr_light he hl
    rw [hlight.mem, hlight.proc]
    exact .of_same rfl rfl
  | false =>
    rw [execInstr] at he
    cases hop : instr.opcode <;> simp only [hop, Opcode.Light, reduceCtorEq] at he hl
    case allocate => exact (execAllocate_movesStack he).moved.inPlace
    case deallocate | callLast => exact (execDropFrame_movesStack he).moved.inPlace
    case send =>
      cases he
      unfold execSend
      split <;> exact .refl _ _
    case wait => cases he; exact .of_same rfl rfl
    case loopRec =>
      obtain ⟨r, _, rfl⟩ := Option.map_eq_some_iff.mp he
      split
      · dsimp only
        split <;> exact .of_same rfl rfl
      · exact .of_same rfl rfl
    case removeMessage =>
      obtain ⟨r, _, rfl⟩ := Option.map_eq_some_iff.mp he
      exact .of_same rfl rfl
    case loopRecEnd =>
      obtain ⟨mb, _, rfl⟩ := Option.map_eq_some_iff.mp he
      exact .of_same rfl rfl
    case «try» =>
      cases he
      unfold execTry
      split <;> exact .of_same rfl rfl
    case «catch» =>
      cases he
      unfold execTry
      split <;> exact .of_same rfl rfl
    case tryEnd =>
      unfold execTryEnd at he
      split at he
      · cases he; exact .of_same rfl rfl
      · cases he; exact .of_same rfl rfl
      · obtain ⟨prev, _, rfl⟩ := Option.map_eq_some_iff.mp he
        exact .of_same rfl rfl
    case raise =>
      unfold execRaise at he
      dsimp only at he
      split at he
      · cases he; exact .refl _ _
      · obtain ⟨cf, _, rfl⟩ := Option.map_eq_some_iff.mp he
        exact .of_same rfl rfl
    case makeFun2 => exact absurd hop hfun

/-- **One instruction** leaves all blocks where they are, but for its own. -/
theorem execInstr_moves
    (hfun : instr.opcode = .makeFun2 → GrowsAsC m p ((instr.arg2 + 2#32).setWidth 64))
    (he : execInstr code instr m p ip = some e) : Moves m p.heap e.mem e.proc.heap := by
  by_cases hop : instr.opcode = .makeFun2
  · rw [execInstr, hop] at he
    exact (beamProcessAllocHeap_moves (hfun hop)).trans (execMakeFun2_inPlace rfl he).moves
  · exact (execInstr_inPlace hop he).moves

end BeamModular
