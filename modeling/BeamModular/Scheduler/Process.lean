import BeamModular.Lib.Moves
import BeamModular.Messaging.Mailbox

/-!
# The process

`src/scheduler/erl_process.c`: the process control block, its heap and the stack
that grows towards the heap in the same block, and the two constructors of
compound terms.

The control block is split in two.  `Process` is what the instructions work on;
`SchedInfo` is what the scheduler reads and writes (state, priority, reductions).
No instruction can touch the second part, and the types say so.

A heap address is a byte address; the heap and stack tops are `size_t` counts of
words and wrap as the source lets them.  `alloc` is what the injected allocator
will answer to the next requests.  The fields no function of the source reads (the
frame's own stack array, its `sp`, the catch frames' `wide`, the off-heap
payloads) are left out.
-/

namespace BeamModular

/-- `beam_process_state_t`. -/
inductive ProcState
  | runnable
  | running
  | waiting
  | suspended
  | exited
  deriving DecidableEq, Repr

/-- `beam_priority_t`, highest first. -/
inductive Priority
  | max
  | high
  | normal
  | low
  deriving DecidableEq, Repr

/-- `BEAM_NUM_X_REGISTERS`. -/
abbrev numXRegisters : Nat := 256

instance neZero_numXRegisters : NeZero numXRegisters := ⟨by decide⟩

/-- `BEAM_MAX_CATCH_DEPTH`. -/
abbrev maxCatchDepth : Nat := 64

/-- `BEAM_DEFAULT_REDUCTIONS`. -/
abbrev defaultReductions : Int := 4000

/-- `struct beam_catch_frame`. -/
structure CatchFrame where
  catchLabel : Nat
  catchStackTop : Word
  catchCp : BitVec 32
  deriving DecidableEq, Repr

/-- `beam_emulator_frame_t`. -/
structure Frame where
  xRegs : Fin numXRegisters → Eterm
  cp : BitVec 32
  ip : Nat
  catchIp : Nat
  catchSp : Word
  catchStack : Fin maxCatchDepth → CatchFrame
  catchDepth : Nat

/-- The part of `struct beam_process` that instructions work on. -/
structure Process where
  pid : BitVec 32
  heap : Nat
  heapCapacity : Word
  heapTop : Word
  stackTop : Word
  mailbox : Mailbox
  frame : Frame
  alloc : Nat → Reply

/-- The part of `struct beam_process` that belongs to the scheduler. -/
structure SchedInfo where
  state : ProcState
  priority : Priority
  reductions : Int
  deriving DecidableEq, Repr

/-- A frame as `memset` leaves it. -/
def Frame.zero : Frame where
  xRegs _ := 0#64
  cp := 0#32
  ip := 0
  catchIp := 0
  catchSp := 0#64
  catchStack _ := ⟨0, 0#64, 0#32⟩
  catchDepth := 0

/-- The scheduler's fields as `beam_process_create` sets them. -/
def SchedInfo.create : SchedInfo where
  state := .runnable
  priority := .normal
  reductions := defaultReductions

/-- `sizeof(Eterm) * words`, in 64 bits. -/
def wordBytes (words : Word) : Nat := (8#64 * words).toNat

/-- The heap's first capacity: 256 words unless the caller asks for a number. -/
def initialCapacity (initialHeapWords : Word) : Word :=
  if initialHeapWords > 0#64 then initialHeapWords else 256#64

/-- `beam_process_create`: the control block, the heap and the mailbox are asked for in this
order, and `none` is the null pointer. -/
def beamProcessCreate (m : Memory) (pid : BitVec 32) (initialHeapWords : Word)
    (alloc : Nat → Reply) (mailboxAlloc : Nat → Bool) : Option (Memory × Process) :=
  let capacity := initialCapacity initialHeapWords
  match alloc 0, m.malloc (alloc 1) (wordBytes capacity), alloc 2 with
  | some _, some (heap, m), some _ =>
    some (m, {
      pid := pid
      heap := heap
      heapCapacity := capacity
      heapTop := 0#64
      stackTop := capacity
      mailbox := Mailbox.create mailboxAlloc
      frame := Frame.zero
      alloc := fun n => alloc (n + 3) })
  | _, _, _ => none

/-- `beam_process_destroy`, as far as the word memory goes: the heap is released. -/
def beamProcessDestroy (m : Memory) (p : Process) : Memory :=
  if p.heap ≠ 0 then m.free p.heap else m

/-- Take the next words of the heap. -/
def bumpHeap (m : Memory) (p : Process) (neededWords : Word) : Memory × Process × Option Nat :=
  (m, { p with heapTop := p.heapTop + neededWords }, some (p.heap + 8 * p.heapTop.toNat))

/-- `beam_process_alloc_heap`: the limit is the block's capacity, not the stack, and the block
grows through `realloc`. -/
def beamProcessAllocHeap (m : Memory) (p : Process) (neededWords : Word) :
    Memory × Process × Option Nat :=
  if p.heapTop + neededWords > p.heapCapacity then
    let newCap := p.heapCapacity * 2#64 + neededWords
    let reply := p.alloc 0
    let p := { p with alloc := fun n => p.alloc (n + 1) }
    match m.realloc reply p.heap (wordBytes newCap) with
    | (none, m) => (m, p, none)
    | (some newHeap, m) => bumpHeap m { p with heap := newHeap, heapCapacity := newCap } neededWords
  else bumpHeap m p neededWords

/-- The words `memcpy` or `memset` stores behind a tuple header; `none` where the array given is
shorter than the arity. -/
def tupleWords (arity : Word) (elements : Option (List Eterm)) : Option (List Eterm) :=
  let count := wordBytes arity / 8
  match elements with
  | some es =>
    if arity > 0#64 then if count ≤ es.length then some (es.take count) else none
    else some (List.replicate count 0#64)
  | none => some (List.replicate count 0#64)

/-- `beam_make_tuple`. -/
def beamMakeTuple (m : Memory) (p : Process) (arity : Word) (elements : Option (List Eterm)) :
    Option (Memory × Process × Eterm) :=
  match beamProcessAllocHeap m p (arity + 1#64) with
  | (m, p, none) => some (m, p, 0#64)
  | (m, p, some hp) =>
    (m.write hp (arity <<< 6 ||| subtagTuple)).bind fun m =>
      (tupleWords arity elements).bind fun ws =>
        (m.writeAll (hp + 8) ws).map fun m => (m, p, tagAddr hp tagPrimaryBoxed)

/-- `beam_make_list`. -/
def beamMakeList (m : Memory) (p : Process) (head tail : Eterm) :
    Option (Memory × Process × Eterm) :=
  match beamProcessAllocHeap m p 2#64 with
  | (m, p, none) => some (m, p, 0#64)
  | (m, p, some hp) =>
    (m.writeAll hp [head, tail]).map fun m => (m, p, tagAddr hp tagPrimaryList)

/-- `beam_process_stack_push`. -/
def beamProcessStackPush (m : Memory) (p : Process) (term : Eterm) :
    Option (Memory × Process × Result) :=
  if p.heap = 0 then some (m, p, .errInvalidArg)
  else if p.stackTop ≤ p.heapTop then some (m, p, .errNoMemory)
  else
    let p := { p with stackTop := p.stackTop - 1#64 }
    (m.write (p.heap + 8 * p.stackTop.toNat) term).map fun m => (m, p, .ok)

/-- `beam_process_stack_pop`. -/
def beamProcessStackPop (m : Memory) (p : Process) : Option (Process × Except Result Eterm) :=
  if p.heap = 0 then some (p, .error .errInvalidArg)
  else if p.stackTop ≥ p.heapCapacity then some (p, .error .errBadarg)
  else
    (m.cell (p.heap + 8 * p.stackTop.toNat)).map fun t =>
      ({ p with stackTop := p.stackTop + 1#64 }, .ok t)

/-! ### What the operations do -/

theorem wordBytes_div {w : Word} (h : w.toNat < 2 ^ 61) : wordBytes w / 8 = w.toNat := by
  rw [wordBytes, BitVec.toNat_mul, BitVec.toNat_ofNat]
  omega

/-- A new process: an empty heap and an empty stack in a block of the first capacity. -/
theorem beamProcessCreate_eq_some {m₀ m : Memory} {pid : BitVec 32} {words : Word}
    {alloc : Nat → Reply} {mailboxAlloc : Nat → Bool} {p : Process}
    (h : beamProcessCreate m₀ pid words alloc mailboxAlloc = some (m, p)) :
    m₀.malloc (alloc 1) (wordBytes (initialCapacity words)) = some (p.heap, m) ∧
      p.heapCapacity = initialCapacity words ∧ p.heapTop = 0#64 ∧
      p.stackTop = initialCapacity words := by
  unfold beamProcessCreate at h
  dsimp only at h
  split at h
  · rename_i hm _
    cases h
    exact ⟨hm, rfl, rfl, rfl⟩
  · cases h

/-- The process once it has asked its allocator. -/
def Process.asked (p : Process) : Process := { p with alloc := fun n => p.alloc (n + 1) }

/-- The bytes a growth asks for, in 64 bits. -/
def growBytes (p : Process) (neededWords : Word) : Nat :=
  wordBytes (p.heapCapacity * 2#64 + neededWords)

/-- The block the heap grows into. -/
def growReply (m : Memory) (p : Process) (neededWords : Word) : Option (Nat × Memory) :=
  m.resize (p.alloc 0) p.heap (growBytes p neededWords)

/-- The growth the request needs is refused by the allocator. -/
def Refused (m : Memory) (p : Process) (neededWords : Word) : Prop :=
  p.heapTop + neededWords > p.heapCapacity ∧ growReply m p neededWords = none

instance (m : Memory) (p : Process) (n : Word) : Decidable (Refused m p n) :=
  inferInstanceAs (Decidable (p.heapTop + n > p.heapCapacity ∧ growReply m p n = none))

/-- The growth is refused, and the process still has its block: `realloc` was asked for some
bytes. -/
def RefusedSafely (m : Memory) (p : Process) (neededWords : Word) : Prop :=
  Refused m p neededWords ∧ growBytes p neededWords ≠ 0

instance (m : Memory) (p : Process) (n : Word) : Decidable (RefusedSafely m p n) :=
  inferInstanceAs (Decidable (Refused m p n ∧ growBytes p n ≠ 0))

/-- **The three ways a request can go**: the words are there, the growth is refused, or the
block grows first. -/
theorem beamProcessAllocHeap_cases (m : Memory) (p : Process) (n : Word) :
    (p.heapTop + n ≤ p.heapCapacity ∧ beamProcessAllocHeap m p n = bumpHeap m p n) ∨
    (p.heapTop + n > p.heapCapacity ∧ growReply m p n = none ∧
      beamProcessAllocHeap m p n = (m.unresized p.heap (growBytes p n), p.asked, none)) ∨
    (p.heapTop + n > p.heapCapacity ∧ ∃ newHeap m', growReply m p n = some (newHeap, m') ∧
      beamProcessAllocHeap m p n = bumpHeap m'
        { p.asked with heap := newHeap, heapCapacity := p.heapCapacity * 2#64 + n } n) := by
  by_cases hg : p.heapTop + n > p.heapCapacity
  · rw [beamProcessAllocHeap, if_pos hg]
    cases hr : growReply m p n with
    | none =>
      rw [growReply, growBytes] at hr
      exact Or.inr (Or.inl ⟨hg, rfl, by simp only [Memory.realloc, hr]; rfl⟩)
    | some r =>
      rw [growReply, growBytes] at hr
      exact Or.inr (Or.inr ⟨hg, r.1, r.2, rfl, by simp only [Memory.realloc, hr]; rfl⟩)
  · exact Or.inl ⟨BitVec.not_lt.mp hg, by rw [beamProcessAllocHeap, if_neg hg]⟩

/-- A refused request changes nothing in the process but the allocator. -/
theorem allocHeap_of_refused {m : Memory} {p : Process} {n : Word} (hr : Refused m p n) :
    beamProcessAllocHeap m p n = (m.unresized p.heap (growBytes p n), p.asked, none) := by
  rcases beamProcessAllocHeap_cases m p n with ⟨hn, _⟩ | ⟨_, _, h⟩ | ⟨_, _, _, hs, _⟩
  · exact absurd hn (BitVec.not_le.mpr hr.1)
  · exact h
  · rw [hr.2] at hs; cases hs

theorem allocHeap_of_refusedSafely {m : Memory} {p : Process} {n : Word}
    (hr : RefusedSafely m p n) : beamProcessAllocHeap m p n = (m, p.asked, none) := by
  rw [allocHeap_of_refused hr.1, Memory.unresized_of_ne hr.2]

/-- The heap block of a process: live, of the capacity the process believes in, and readable. -/
structure HeapOk (m : Memory) (p : Process) : Prop where
  nonnull : p.heap ≠ 0
  aligned : p.heap % 8 = 0
  inside : p.heap + 8 * p.heapCapacity.toNat ≤ addressSpace
  block : m.block p.heap = some p.heapCapacity.toNat
  readable : ∀ i < p.heapCapacity.toNat, (m.cell (p.heap + 8 * i)).isSome
  top : p.heapTop.toNat ≤ p.heapCapacity.toNat

/-- A new process has its heap block, unless the byte size of the block wraps around. -/
theorem heapOk_create {m₀ m : Memory} {pid : BitVec 32} {words : Word} {alloc : Nat → Reply}
    {mailboxAlloc : Nat → Bool} {p : Process}
    (h : beamProcessCreate m₀ pid words alloc mailboxAlloc = some (m, p))
    (hsize : (initialCapacity words).toNat < 2 ^ 61) : HeapOk m p := by
  obtain ⟨hm, hcap, htop, _⟩ := beamProcessCreate_eq_some h
  obtain ⟨pl, _, _, hfree, rfl⟩ := Memory.malloc_eq_some hm
  rw [wordBytes_div hsize, ← hcap] at hfree ⊢
  refine ⟨hfree.1, hfree.2.1, hfree.2.2.1, Function.update_self _ _ _, fun i hi => ?_, ?_⟩
  · rw [Memory.cell_map_slot hi]
    rfl
  · rw [htop]
    exact Nat.zero_le _

/-- A new process with a heap of four words. -/
def freshProcess : Process where
  pid := 1#32
  heap := 4096
  heapCapacity := 4#64
  heapTop := 0#64
  stackTop := 4#64
  mailbox := Mailbox.create fun _ => true
  frame := Frame.zero
  alloc n := some (zeroed (4096 * (n + 3)))

/-- The memory it is created in. -/
def freshMemory : Memory := Memory.empty.map 4096 4 fun _ => 0#64

example : beamProcessCreate Memory.empty 1#32 4#64 (fun n => some (zeroed (4096 * n)))
      (fun _ => true) = some (freshMemory, freshProcess) := rfl

theorem beamMakeTuple_proc {m m' : Memory} {p p' : Process} {arity : Word}
    {elements : Option (List Eterm)} {t : Eterm}
    (h : beamMakeTuple m p arity elements = some (m', p', t)) :
    p' = (beamProcessAllocHeap m p (arity + 1#64)).2.1 := by
  unfold beamMakeTuple at h
  split at h
  · rename_i ha
    cases h
    rw [ha]
  · rename_i ha
    simp only [Option.bind_eq_some_iff, Option.map_eq_some_iff, Prod.mk.injEq] at h
    obtain ⟨_, _, _, _, _, _, _, rfl, _⟩ := h
    rw [ha]

theorem beamMakeList_proc {m m' : Memory} {p p' : Process} {head tail t : Eterm}
    (h : beamMakeList m p head tail = some (m', p', t)) :
    p' = (beamProcessAllocHeap m p 2#64).2.1 := by
  unfold beamMakeList at h
  split at h
  · rename_i ha
    cases h
    rw [ha]
  · rename_i ha
    simp only [Option.map_eq_some_iff, Prod.mk.injEq] at h
    obtain ⟨_, _, _, rfl, _⟩ := h
    rw [ha]

theorem beamProcessStackPush_cases {m m' : Memory} {p p' : Process} {t : Eterm} {r : Result}
    (h : beamProcessStackPush m p t = some (m', p', r)) :
    (m' = m ∧ p' = p ∧ r ≠ .ok) ∨
    (p.heapTop < p.stackTop ∧ p' = { p with stackTop := p.stackTop - 1#64 } ∧ r = .ok ∧
      m.write (p.heap + 8 * (p.stackTop - 1#64).toNat) t = some m') := by
  unfold beamProcessStackPush at h
  split at h
  · cases h; exact Or.inl ⟨rfl, rfl, by decide⟩
  · split at h
    · cases h; exact Or.inl ⟨rfl, rfl, by decide⟩
    · rename_i hs
      obtain ⟨m₁, hw, he⟩ := Option.map_eq_some_iff.mp h
      cases he
      exact Or.inr ⟨BitVec.not_le.mp hs, rfl, rfl, hw⟩

theorem beamProcessStackPop_cases {m : Memory} {p p' : Process} {r : Except Result Eterm}
    (h : beamProcessStackPop m p = some (p', r)) :
    (p' = p ∧ ∃ e, r = .error e) ∨
    (p.stackTop < p.heapCapacity ∧ p' = { p with stackTop := p.stackTop + 1#64 } ∧
      ∃ t, r = .ok t ∧ m.cell (p.heap + 8 * p.stackTop.toNat) = some t) := by
  unfold beamProcessStackPop at h
  split at h
  · cases h; exact Or.inl ⟨rfl, _, rfl⟩
  · split at h
    · cases h; exact Or.inl ⟨rfl, _, rfl⟩
    · rename_i hs
      obtain ⟨t, hc, he⟩ := Option.map_eq_some_iff.mp h
      cases he
      exact Or.inr ⟨BitVec.not_le.mp hs, rfl, t, rfl, hc⟩

/-- What the operations on the stack return. -/
def StackResult (r : Result) : Prop :=
  r = .ok ∨ r = .errInvalidArg ∨ r = .errNoMemory ∨ r = .errBadarg

theorem StackResult.ne_halt {r : Result} (h : StackResult r) : r ≠ .errHalt := by
  rcases h with rfl | rfl | rfl | rfl <;> exact Result.noConfusion

theorem StackResult.ne_notFound {r : Result} (h : StackResult r) : r ≠ .errNotFound := by
  rcases h with rfl | rfl | rfl | rfl <;> exact Result.noConfusion

/-- At most the stack pointer, the continuation pointer and what the words hold have changed. -/
structure StackMoved (m : Memory) (p : Process) (m' : Memory) (p' : Process) : Prop where
  shape : m.SameShape m'
  proc : p' = { p with stackTop := p'.stackTop, frame := { p.frame with cp := p'.frame.cp } }

section StackMoved

variable {m m' m'' : Memory} {p p' p'' : Process}

theorem StackMoved.refl (m : Memory) (p : Process) : StackMoved m p m p := ⟨.refl m, rfl⟩

theorem StackMoved.trans (h : StackMoved m p m' p') (h' : StackMoved m' p' m'' p'') :
    StackMoved m p m'' p'' :=
  ⟨h.shape.trans h'.shape, by rw [h'.proc, h.proc]⟩

theorem StackMoved.mailbox (h : StackMoved m p m' p') : p'.mailbox = p.mailbox := by rw [h.proc]

theorem StackMoved.frame (h : StackMoved m p m' p') :
    p'.frame = { p.frame with cp := p'.frame.cp } := congrArg Process.frame h.proc

/-- **A push** stores a word at most, and says why it refuses. -/
theorem beamProcessStackPush_moved {t : Eterm} {r : Memory × Process × Result}
    (h : beamProcessStackPush m p t = some r) : StackMoved m p r.1 r.2.1 ∧ StackResult r.2.2 := by
  unfold beamProcessStackPush at h
  split at h
  · cases h; exact ⟨.refl m p, Or.inr (Or.inl rfl)⟩
  · split at h
    · cases h; exact ⟨.refl m p, Or.inr (Or.inr (Or.inl rfl))⟩
    · obtain ⟨m₁, hw, rfl⟩ := Option.map_eq_some_iff.mp h
      exact ⟨⟨.of_write hw, rfl⟩, Or.inl rfl⟩

/-- **A pop** stores nothing, and says why it refuses. -/
theorem beamProcessStackPop_moved {r : Process × Except Result Eterm}
    (h : beamProcessStackPop m p = some r) :
    StackMoved m p m r.1 ∧ ∀ res, r.2 = .error res → StackResult res := by
  unfold beamProcessStackPop at h
  split at h
  · cases h; exact ⟨.refl m p, fun _ he => by cases he; exact Or.inr (Or.inl rfl)⟩
  · split at h
    · cases h; exact ⟨.refl m p, fun _ he => by cases he; exact Or.inr (Or.inr (Or.inr rfl))⟩
    · obtain ⟨t, _, rfl⟩ := Option.map_eq_some_iff.mp h
      exact ⟨⟨.refl m, rfl⟩, fun _ he => by cases he⟩

end StackMoved

/-! ### The frame is left alone -/

theorem beamProcessAllocHeap_frame (m : Memory) (p : Process) (n : Word) :
    (beamProcessAllocHeap m p n).2.1.frame = p.frame := by
  rcases beamProcessAllocHeap_cases m p n with ⟨_, h⟩ | ⟨_, _, h⟩ | ⟨_, _, _, _, h⟩ <;>
    rw [h] <;> rfl

end BeamModular
