import BeamModular.Lib.Run
import BeamModular.Scheduler.Process

/-!
# The heap and the stack in one block

The heap grows up and the stack grows down in the same block of words.  A push
stops at the heap, but `beam_process_alloc_heap` stops at the block's capacity and
not at the stack: a request that fits into the block may take words the stack
holds, and one that does not fit grows the block and leaves `stack_top` where it
was.

`Isolated` is what the two ends should keep: `heap_top ≤ stack_top ≤ heap_capacity`
and no word handed out by the heap is a live stack slot.  `Fits` is when an
operation keeps it: the words asked for lie below the stack, or the growth they
need is refused.  `isolated_of_run` says that every run of fitting operations is
isolated in every state, and that the first operation that does not fit breaks it.
-/

namespace BeamModular

/-- The operations that move the two ends. -/
inductive HeapOp
  | allocHeap (neededWords : Word)
  | makeTuple (arity : Word) (elements : Option (List Eterm))
  | makeList (head tail : Eterm)
  | push (term : Eterm)
  | pop

/-- A process with its memory, and the words its heap has handed out so far, each block as its
first index and its length. -/
structure HeapState where
  mem : Memory
  proc : Process
  handed : List (Nat × Nat)

/-- The block `beam_process_alloc_heap` hands out, if it hands one out. -/
def handedOut (m : Memory) (p : Process) (neededWords : Word) : List (Nat × Nat) :=
  match (beamProcessAllocHeap m p neededWords).2.2 with
  | none => []
  | some _ => [(p.heapTop.toNat, neededWords.toNat)]

/-- The words an operation asks the heap for. -/
def HeapOp.request : HeapOp → Option Word
  | .allocHeap n => some n
  | .makeTuple arity _ => some (arity + 1#64)
  | .makeList _ _ => some 2#64
  | .push _ => none
  | .pop => none

/-- One operation on the process. -/
def HeapState.step (s : HeapState) : HeapOp → Option HeapState
  | .allocHeap n =>
    let r := beamProcessAllocHeap s.mem s.proc n
    some ⟨r.1, r.2.1, handedOut s.mem s.proc n ++ s.handed⟩
  | .makeTuple arity elements =>
    (beamMakeTuple s.mem s.proc arity elements).map fun r =>
      ⟨r.1, r.2.1, handedOut s.mem s.proc (arity + 1#64) ++ s.handed⟩
  | .makeList head tail =>
    (beamMakeList s.mem s.proc head tail).map fun r =>
      ⟨r.1, r.2.1, handedOut s.mem s.proc 2#64 ++ s.handed⟩
  | .push t => (beamProcessStackPush s.mem s.proc t).map fun r => ⟨r.1, r.2.1, s.handed⟩
  | .pop => (beamProcessStackPop s.mem s.proc).map fun r => ⟨s.mem, r.1, s.handed⟩

/-- The ends are in order and no word of the heap is a live stack slot. -/
def Isolated (s : HeapState) : Prop :=
  s.proc.heapTop.toNat ≤ s.proc.stackTop.toNat ∧
  s.proc.stackTop.toNat ≤ s.proc.heapCapacity.toNat ∧
  ∀ b ∈ s.handed, ∀ i, b.1 ≤ i → i < b.1 + b.2 →
    ¬ (s.proc.stackTop.toNat ≤ i ∧ i < s.proc.heapCapacity.toNat)

/-- The words an operation asks for lie below the stack, or their growth is refused. -/
def Fits (s : HeapState) (op : HeapOp) : Prop :=
  match op.request with
  | none => True
  | some n => s.proc.heapTop.toNat + n.toNat ≤ s.proc.stackTop.toNat ∨ Refused s.mem s.proc n

instance (s : HeapState) (op : HeapOp) : Decidable (Fits s op) :=
  show Decidable (match op.request with
    | none => True
    | some _ => _ ∨ _) from
  match op.request with
  | none => .isTrue trivial
  | some n => inferInstanceAs (Decidable
      (s.proc.heapTop.toNat + n.toNat ≤ s.proc.stackTop.toNat ∨ Refused s.mem s.proc n))

/-! ### One step -/

/-- The invariant of fitting runs: everything handed out lies below `heap_top`. -/
def EndsApart (s : HeapState) : Prop :=
  s.proc.heapTop.toNat ≤ s.proc.stackTop.toNat ∧
  s.proc.stackTop.toNat ≤ s.proc.heapCapacity.toNat ∧
  ∀ b ∈ s.handed, b.1 + b.2 ≤ s.proc.heapTop.toNat

theorem EndsApart.isolated {s : HeapState} (h : EndsApart s) : Isolated s := by
  refine ⟨h.1, h.2.1, fun b hb i _ hlt hlive => ?_⟩
  have := h.2.2 b hb
  have := h.1
  omega

theorem allocHeap_of_below {m : Memory} {p : Process} {n : Word}
    (hfit : p.heapTop.toNat + n.toNat ≤ p.stackTop.toNat)
    (hcap : p.stackTop.toNat ≤ p.heapCapacity.toNat) :
    beamProcessAllocHeap m p n = bumpHeap m p n ∧
      (p.heapTop + n).toNat = p.heapTop.toNat + n.toNat := by
  have hsum : (p.heapTop + n).toNat = p.heapTop.toNat + n.toNat := by
    rw [BitVec.toNat_add, Nat.mod_eq_of_lt]
    have := p.stackTop.isLt
    omega
  refine ⟨?_, hsum⟩
  rcases beamProcessAllocHeap_cases m p n with ⟨_, h⟩ | ⟨hg, _⟩ | ⟨hg, _⟩
  · exact h
  · rw [gt_iff_lt, BitVec.lt_def] at hg; omega
  · rw [gt_iff_lt, BitVec.lt_def] at hg; omega

theorem endsApart_alloc {s : HeapState} {n : Word} (h : EndsApart s)
    (hfit : s.proc.heapTop.toNat + n.toNat ≤ s.proc.stackTop.toNat ∨ Refused s.mem s.proc n)
    (m : Memory) :
    EndsApart ⟨m, (beamProcessAllocHeap s.mem s.proc n).2.1,
      handedOut s.mem s.proc n ++ s.handed⟩ := by
  rcases hfit with hfit | hr
  · obtain ⟨ha, hsum⟩ := allocHeap_of_below (m := s.mem) hfit h.2.1
    rw [handedOut, ha]
    refine ⟨by simpa [bumpHeap, hsum] using hfit, h.2.1, ?_⟩
    intro b hb
    change b.1 + b.2 ≤ (s.proc.heapTop + n).toNat
    rcases List.mem_cons.mp hb with rfl | hb
    · rw [hsum]
    · have := h.2.2 b hb
      omega
  · rw [handedOut, allocHeap_of_refused hr]
    exact h

theorem endsApart_step {s s' : HeapState} {op : HeapOp} (h : EndsApart s) (hfit : Fits s op)
    (hs : s.step op = some s') : EndsApart s' := by
  cases op with
  | allocHeap n =>
    cases hs
    exact endsApart_alloc h hfit _
  | makeTuple arity elements =>
    obtain ⟨⟨m, p, t⟩, hm, rfl⟩ := Option.map_eq_some_iff.mp hs
    rw [beamMakeTuple_proc hm]
    exact endsApart_alloc h hfit _
  | makeList head tail =>
    obtain ⟨⟨m, p, t⟩, hm, rfl⟩ := Option.map_eq_some_iff.mp hs
    rw [beamMakeList_proc hm]
    exact endsApart_alloc h hfit _
  | push t =>
    obtain ⟨⟨m, p, r⟩, hp, rfl⟩ := Option.map_eq_some_iff.mp hs
    rcases beamProcessStackPush_cases hp with ⟨_, rfl, _⟩ | ⟨hlt, rfl, _⟩
    · exact h
    · obtain ⟨h1, h2, h3⟩ := h
      have hpred := toNat_sub_one_of_lt hlt
      rw [BitVec.lt_def] at hlt
      exact ⟨by simp only [hpred]; omega, by simp only [hpred]; omega, h3⟩
  | pop =>
    obtain ⟨⟨p, r⟩, hp, rfl⟩ := Option.map_eq_some_iff.mp hs
    rcases beamProcessStackPop_cases hp with ⟨rfl, _⟩ | ⟨hlt, rfl, _⟩
    · exact h
    · obtain ⟨h1, h2, h3⟩ := h
      have hsucc := toNat_add_one_of_lt hlt
      rw [BitVec.lt_def] at hlt
      exact ⟨by simp only [hsucc]; omega, by simp only [hsucc]; omega, h3⟩

/-- The request does not wrap around in 64 bits. -/
def NoWrap (s : HeapState) (op : HeapOp) : Prop :=
  ∀ n, op.request = some n → s.proc.heapTop.toNat + n.toNat < addressSpace

theorem allocHeap_granted {m : Memory} {p : Process} {n : Word}
    (hgrant : ¬ Refused m p n) (hwrap : p.heapTop.toNat + n.toNat < addressSpace) :
    (beamProcessAllocHeap m p n).2.1.heapTop.toNat = p.heapTop.toNat + n.toNat ∧
      (beamProcessAllocHeap m p n).2.1.stackTop = p.stackTop := by
  have hsum : (p.heapTop + n).toNat = p.heapTop.toNat + n.toNat := by
    rw [BitVec.toNat_add, Nat.mod_eq_of_lt hwrap]
  rcases beamProcessAllocHeap_cases m p n with ⟨_, h⟩ | ⟨hg, hr, _⟩ | ⟨_, _, _, _, h⟩
  · rw [h]; exact ⟨hsum, rfl⟩
  · exact absurd ⟨hg, hr⟩ hgrant
  · rw [h]; exact ⟨hsum, rfl⟩

/-- **A granted request that does not fit puts `heap_top` above `stack_top`.** -/
theorem not_isolated_of_not_fits {s s' : HeapState} {op : HeapOp} (hfit : ¬ Fits s op)
    (hwrap : NoWrap s op) (hs : s.step op = some s') : ¬ Isolated s' := by
  obtain ⟨n, hn, habove, hgrant⟩ : ∃ n, op.request = some n ∧
      s.proc.stackTop.toNat < s.proc.heapTop.toNat + n.toNat ∧ ¬ Refused s.mem s.proc n := by
    unfold Fits at hfit
    split at hfit
    · exact absurd trivial hfit
    · rename_i n hn
      push Not at hfit
      exact ⟨n, hn, hfit.1, hfit.2⟩
  obtain ⟨htop, hstack⟩ := allocHeap_granted hgrant (hwrap n hn)
  have hproc : s'.proc = (beamProcessAllocHeap s.mem s.proc n).2.1 := by
    cases op with
    | allocHeap k => cases hn; cases hs; rfl
    | makeTuple arity elements =>
      cases hn
      obtain ⟨⟨m, p, t⟩, hm, rfl⟩ := Option.map_eq_some_iff.mp hs
      exact beamMakeTuple_proc hm
    | makeList head tail =>
      cases hn
      obtain ⟨⟨m, p, t⟩, hm, rfl⟩ := Option.map_eq_some_iff.mp hs
      exact beamMakeList_proc hm
    | push t => cases hn
    | pop => cases hn
  rintro ⟨hle, _⟩
  rw [hproc, htop, hstack] at hle
  omega

/-! ### Every run -/

theorem endsApart_create {m₀ m : Memory} {pid : BitVec 32} {words : Word} {alloc : Nat → Reply}
    {mailboxAlloc : Nat → Bool} {p : Process}
    (h : beamProcessCreate m₀ pid words alloc mailboxAlloc = some (m, p)) :
    EndsApart ⟨m, p, []⟩ := by
  obtain ⟨_, hcap, htop, hstack⟩ := beamProcessCreate_eq_some h
  refine ⟨?_, ?_, fun b hb => absurd hb (by simp)⟩
  · simp only [htop]; exact Nat.zero_le _
  · simp only [hstack, hcap]; exact le_refl _

/-- **Isolation of heap and stack.**  From a new process, a run whose requests all lie below the
stack, or need a growth that is refused, is isolated in every state it reaches; and from any
state of any run, a granted request that does not lie below the stack is the end of it. -/
theorem isolated_of_run {m₀ m : Memory} {pid : BitVec 32} {words : Word} {alloc : Nat → Reply}
    {mailboxAlloc : Nat → Bool} {p : Process}
    (hc : beamProcessCreate m₀ pid words alloc mailboxAlloc = some (m, p)) (ops : List HeapOp) :
    (Along HeapState.step Fits ⟨m, p, []⟩ ops →
      ∀ pre s, pre <+: ops → run HeapState.step ⟨m, p, []⟩ pre = some s → Isolated s) ∧
    (∀ s op s', run HeapState.step ⟨m, p, []⟩ ops = some s → ¬ Fits s op → NoWrap s op →
      s.step op = some s' → ¬ Isolated s') := by
  refine ⟨?_, fun s op s' _ hfit hwrap hs => not_isolated_of_not_fits hfit hwrap hs⟩
  rintro hfit pre s ⟨rest, rfl⟩ hr
  have hinv : EndsApart s := run_induct EndsApart
    (fun _ _ _ hi hok hs => endsApart_step hi hok hs) (endsApart_create hc) hfit.of_append hr
  exact hinv.isolated

/-- A new process with a heap of four words, and its memory. -/
def fourWords : Option (Memory × Process) :=
  beamProcessCreate Memory.empty 1#32 4#64 (offering 4096) fun _ => true

/-- A push, a request below the pushed word, and a pop. -/
theorem isolated_of_run_fourWords : ∃ r s, fourWords = some r ∧
    run HeapState.step ⟨r.1, r.2, []⟩ [.push 7#64, .allocHeap 3#64, .pop] = some s ∧
      Isolated s := by
  obtain ⟨r, hr⟩ : ∃ r, fourWords = some r := ⟨_, rfl⟩
  obtain ⟨s, hs⟩ := Option.isSome_iff_exists.mp
    (show (run HeapState.step ⟨r.1, r.2, []⟩ [.push 7#64, .allocHeap 3#64, .pop]).isSome by
      cases hr; decide)
  exact ⟨r, s, hr, hs, (isolated_of_run hr _).1 (by cases hr; decide) _ s (List.prefix_refl _) hs⟩

/-- **One pushed word and a request for the whole block**: the heap takes the word the stack
holds. -/
theorem heap_takes_stack_slot : ∃ r s, fourWords = some r ∧
    run HeapState.step ⟨r.1, r.2, []⟩ [.push 7#64, .allocHeap 4#64] = some s ∧
      ¬ Isolated s := by
  obtain ⟨r, hr⟩ : ∃ r, fourWords = some r := ⟨_, rfl⟩
  obtain ⟨s, hs, htop⟩ := Option.map_eq_some_iff.mp
    (show (run HeapState.step ⟨r.1, r.2, []⟩ [.push 7#64, .allocHeap 4#64]).map
      (fun s => (s.proc.heapTop, s.proc.stackTop)) = some (4#64, 3#64) by cases hr; decide)
  refine ⟨r, s, hr, hs, fun h => ?_⟩
  have hle := h.1
  rw [(Prod.mk.inj htop).1, (Prod.mk.inj htop).2] at hle
  exact absurd hle (by decide)

end BeamModular
