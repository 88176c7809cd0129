import BeamModular.Lib.Run
import BeamModular.Scheduler.Growth

/-!
# The stack of a process

A stack keeps what was pushed and gives it back in the other order.  Here the stack
shares its block with the heap, and four things the heap does reach it.  A growth
raises `heap_capacity`, which is what a pop compares `stack_top` with to find the
stack empty, and leaves `stack_top` alone; `beam_process_alloc_heap` may hand out a
word the stack holds, and the caller then stores into it; the byte size of a block
may wrap around, and a growth that is asked for no bytes and gets none has lost the
block; and the injected `realloc` may copy nothing, as the arena's does.

`outstanding` is the stack as its users see it, the values pushed and not yet
popped.  `StackHolds bottom s` says that they lie in the block from `stack_top` up
to `bottom`, the capacity the process began with.  `LifoOk` is when an operation
keeps to that: a pop finds a value outstanding or a block that never grew, a growth
does not wrap and copies, a store leaves the live slots alone.  `popsLast_of_run` says that
such a run never gets stuck and all its pops are last in, first out, and that after
it a pop is so exactly if a value is outstanding or the block never grew.
-/

namespace BeamModular

/-- The operations on the block; `store` is the caller's use of a word the heap handed out. -/
inductive StackOp
  | push (term : Eterm)
  | pop
  | allocHeap (neededWords : Word)
  | store (i : Nat) (value : Word)

/-- A process with its memory, and the values pushed and not yet popped, the last one first. -/
structure StackState where
  mem : Memory
  proc : Process
  outstanding : List Eterm

/-- One operation. -/
def StackState.step (s : StackState) : StackOp → Option StackState
  | .push t => (beamProcessStackPush s.mem s.proc t).map fun r =>
      ⟨r.1, r.2.1, if r.2.2 = .ok then t :: s.outstanding else s.outstanding⟩
  | .pop => (beamProcessStackPop s.mem s.proc).map fun r =>
      ⟨s.mem, r.1, match r.2 with
        | .ok _ => s.outstanding.tail
        | .error _ => s.outstanding⟩
  | .allocHeap n =>
    let r := beamProcessAllocHeap s.mem s.proc n
    some ⟨r.1, r.2.1, s.outstanding⟩
  | .store i v => (s.mem.write (s.proc.heap + 8 * i) v).map fun m => ⟨m, s.proc, s.outstanding⟩

/-- What a pop of a stack answers. -/
def lastPushed : List Eterm → Except Result Eterm
  | [] => .error .errBadarg
  | t :: _ => .ok t

/-- A pop gives the last value outstanding, and `BEAM_ERR_BADARG` if there is none. -/
def PopsLast (s : StackState) : Prop :=
  (beamProcessStackPop s.mem s.proc).map Prod.snd = some (lastPushed s.outstanding)

/-- The operation keeps to the stack: a pop finds a value or a block of the first capacity; a
growth is refused and leaves the block, or it does not wrap around and `realloc` copies what is
outstanding; a store is into the heap and into no live slot. -/
def LifoOk (bottom : Word) (s : StackState) : StackOp → Prop
  | .push _ => True
  | .pop => s.outstanding ≠ [] ∨ s.proc.heapCapacity = bottom
  | .allocHeap n => s.proc.heapTop + n ≤ s.proc.heapCapacity ∨ RefusedSafely s.mem s.proc n ∨
      (s.proc.heapCapacity.toNat * 2 + n.toNat < 2 ^ 61 ∧
        (s.outstanding = [] ∨ (s.proc.alloc 0).Copying))
  | .store i _ => i < s.proc.heapTop.toNat ∧
      ¬ (s.proc.stackTop.toNat ≤ i ∧ i < s.proc.stackTop.toNat + s.outstanding.length)

instance (bottom : Word) (s : StackState) (op : StackOp) : Decidable (LifoOk bottom s op) :=
  match op with
  | .push _ => .isTrue trivial
  | .pop => inferInstanceAs (Decidable (_ ∨ _))
  | .allocHeap _ => inferInstanceAs (Decidable (_ ∨ _ ∨ (_ ∧ (_ ∨ _))))
  | .store _ _ => inferInstanceAs (Decidable (_ ∧ ¬ (_ ∧ _)))

/-! ### The stack in the block -/

/-- The values outstanding lie in the block from `stack_top` up to `bottom`. -/
structure StackHolds (bottom : Word) (s : StackState) : Prop where
  ok : HeapOk s.mem s.proc
  depth : s.proc.stackTop.toNat + s.outstanding.length = bottom.toNat
  within : bottom.toNat ≤ s.proc.heapCapacity.toNat
  slots : ∀ i < s.outstanding.length,
    s.mem.cell (s.proc.heap + 8 * (s.proc.stackTop.toNat + i)) = s.outstanding[i]?

theorem stackHolds_create {m₀ m : Memory} {pid : BitVec 32} {words : Word} {alloc : Nat → Reply}
    {mailboxAlloc : Nat → Bool} {p : Process}
    (h : beamProcessCreate m₀ pid words alloc mailboxAlloc = some (m, p))
    (hsize : (initialCapacity words).toNat < 2 ^ 61) :
    StackHolds p.heapCapacity ⟨m, p, []⟩ := by
  obtain ⟨_, hcap, _, hstack⟩ := beamProcessCreate_eq_some h
  refine ⟨heapOk_create h hsize, ?_, le_refl _, fun i hi => absurd hi (Nat.not_lt_zero i)⟩
  simp only [hcap, hstack, List.length_nil, Nat.add_zero]

theorem StackHolds.pop_eq {bottom : Word} {s : StackState} (h : StackHolds bottom s) :
    beamProcessStackPop s.mem s.proc =
      if s.proc.stackTop ≥ s.proc.heapCapacity then some (s.proc, .error .errBadarg)
      else (s.mem.cell (s.proc.heap + 8 * s.proc.stackTop.toNat)).map fun t =>
        ({ s.proc with stackTop := s.proc.stackTop + 1#64 }, .ok t) := by
  rw [beamProcessStackPop, if_neg h.ok.nonnull]

theorem StackHolds.pop_cons {bottom : Word} {s : StackState} {t : Eterm} {ts : List Eterm}
    (h : StackHolds bottom s) (ho : s.outstanding = t :: ts) :
    s.proc.stackTop < s.proc.heapCapacity ∧ beamProcessStackPop s.mem s.proc =
      some ({ s.proc with stackTop := s.proc.stackTop + 1#64 }, .ok t) := by
  have hdepth := h.depth
  have hwithin := h.within
  have hslot := h.slots 0 (by rw [ho]; exact Nat.succ_pos _)
  rw [ho, List.length_cons] at hdepth
  rw [ho, Nat.add_zero, List.getElem?_cons_zero] at hslot
  have hlt : s.proc.stackTop < s.proc.heapCapacity := by
    rw [BitVec.lt_def]
    omega
  refine ⟨hlt, ?_⟩
  rw [h.pop_eq, if_neg (BitVec.not_le.mpr hlt), hslot]
  rfl

/-- A pop with nothing outstanding finds the stack empty if the block never grew, and a word that
was never pushed otherwise. -/
theorem StackHolds.pop_nil {bottom : Word} {s : StackState} (h : StackHolds bottom s)
    (ho : s.outstanding = []) :
    (s.proc.heapCapacity = bottom →
      beamProcessStackPop s.mem s.proc = some (s.proc, .error .errBadarg)) ∧
    (s.proc.heapCapacity ≠ bottom →
      ∃ p t, beamProcessStackPop s.mem s.proc = some (p, .ok t)) := by
  have hdepth := h.depth
  have hwithin := h.within
  rw [ho, List.length_nil, Nat.add_zero] at hdepth
  refine ⟨fun hcap => ?_, fun hcap => ?_⟩
  · rw [h.pop_eq, if_pos]
    rw [ge_iff_le, BitVec.le_def, hcap]
    omega
  · have hne : s.proc.heapCapacity.toNat ≠ bottom.toNat := fun he =>
      hcap (BitVec.eq_of_toNat_eq he)
    have hlt : s.proc.stackTop.toNat < s.proc.heapCapacity.toNat := by omega
    obtain ⟨t, ht⟩ := Option.isSome_iff_exists.mp (h.ok.readable _ hlt)
    refine ⟨{ s.proc with stackTop := s.proc.stackTop + 1#64 }, t, ?_⟩
    rw [h.pop_eq, if_neg (BitVec.not_le.mpr (BitVec.lt_def.mpr hlt)), ht]
    rfl

/-- **When a pop is last in, first out.** -/
theorem StackHolds.popsLast_iff {bottom : Word} {s : StackState} (h : StackHolds bottom s) :
    PopsLast s ↔ LifoOk bottom s .pop := by
  unfold PopsLast
  cases ho : s.outstanding with
  | nil =>
    obtain ⟨hsame, hgrown⟩ := h.pop_nil ho
    by_cases hcap : s.proc.heapCapacity = bottom
    · rw [hsame hcap]
      exact iff_of_true rfl (Or.inr hcap)
    · obtain ⟨p, t, hp⟩ := hgrown hcap
      rw [hp]
      refine iff_of_false (fun he => by cases he) fun hok => ?_
      exact hok.elim (fun hne => hne ho) hcap
  | cons t ts =>
    rw [(h.pop_cons ho).2]
    exact iff_of_true rfl (Or.inl (by rw [ho]; exact List.cons_ne_nil t ts))

/-! ### One operation -/

theorem HeapOk.write {m : Memory} {p : Process} (h : HeapOk m p) {i : Nat} (v : Word)
    (hi : i < p.heapCapacity.toNat) :
    ∃ m', m.write (p.heap + 8 * i) v = some m' ∧ HeapOk m' p ∧
      m'.cell (p.heap + 8 * i) = some v ∧
      ∀ j ≠ i, m'.cell (p.heap + 8 * j) = m.cell (p.heap + 8 * j) := by
  have hw := Memory.write_of_isSome v (h.readable i hi)
  have hchanged := Memory.ChangedIn.of_write hw
  refine ⟨_, hw, ?_, (Memory.cell_write hw _).trans (if_pos rfl), fun j hj => ?_⟩
  · exact { h with
      block := (congrFun hchanged.block _).trans h.block
      readable := fun j hj => hchanged.readable _ (h.readable j hj) }
  · exact hchanged.cell_eq (by omega)

theorem StackHolds.store {bottom : Word} {s : StackState} {i : Nat} {v : Word}
    (h : StackHolds bottom s) (hok : LifoOk bottom s (.store i v)) :
    ∃ s', s.step (.store i v) = some s' ∧ StackHolds bottom s' := by
  have htop := h.ok.top
  obtain ⟨hi, hlive⟩ := hok
  obtain ⟨m', hw, hok', _, hsame⟩ := h.ok.write v (i := i) (by omega)
  refine ⟨⟨m', s.proc, s.outstanding⟩, ?_, hok', h.depth, h.within, fun j hj => ?_⟩
  · rw [StackState.step, hw]
    rfl
  · dsimp only at hj ⊢
    rw [hsame _ (by omega)]
    exact h.slots j hj

theorem StackHolds.push {bottom : Word} {s : StackState} (t : Eterm) (h : StackHolds bottom s) :
    ∃ s', s.step (.push t) = some s' ∧ StackHolds bottom s' := by
  have hdepth := h.depth
  have hwithin := h.within
  by_cases hfull : s.proc.stackTop ≤ s.proc.heapTop
  · have hpush : beamProcessStackPush s.mem s.proc t = some (s.mem, s.proc, .errNoMemory) := by
      rw [beamProcessStackPush, if_neg h.ok.nonnull, if_pos hfull]
    exact ⟨s, by rw [StackState.step, hpush]; rfl, h⟩
  · have hlt := BitVec.not_le.mp hfull
    have hpred := toNat_sub_one_of_lt hlt
    rw [BitVec.lt_def] at hlt
    obtain ⟨m', hw, hok', hcell, hsame⟩ := h.ok.write t (i := (s.proc.stackTop - 1#64).toNat)
      (by omega)
    have hpush : beamProcessStackPush s.mem s.proc t =
        some (m', { s.proc with stackTop := s.proc.stackTop - 1#64 }, .ok) := by
      rw [beamProcessStackPush, if_neg h.ok.nonnull, if_neg hfull]
      dsimp only
      rw [hw]
      rfl
    refine ⟨⟨m', { s.proc with stackTop := s.proc.stackTop - 1#64 }, t :: s.outstanding⟩, ?_,
      { hok' with }, ?_, hwithin, fun i hi => ?_⟩
    · rw [StackState.step, hpush]
      rfl
    · simp only [hpred, List.length_cons]
      omega
    · cases i with
      | zero => exact hcell
      | succ i =>
        simp only [List.length_cons] at hi ⊢
        rw [hsame _ (by omega), List.getElem?_cons_succ, ← h.slots i (by omega), hpred]
        exact congrArg s.mem.cell (by omega)

theorem StackHolds.pop {bottom : Word} {s : StackState} (h : StackHolds bottom s)
    (hok : LifoOk bottom s .pop) : ∃ s', s.step .pop = some s' ∧ StackHolds bottom s' := by
  cases ho : s.outstanding with
  | nil =>
    have hcap := hok.resolve_left (fun hne => hne ho)
    exact ⟨s, by rw [StackState.step, (h.pop_nil ho).1 hcap]; rfl, h⟩
  | cons t ts =>
    obtain ⟨hlt, hpop⟩ := h.pop_cons ho
    have hsucc := toNat_add_one_of_lt hlt
    have hdepth := h.depth
    rw [ho, List.length_cons] at hdepth
    refine ⟨⟨s.mem, { s.proc with stackTop := s.proc.stackTop + 1#64 }, ts⟩, ?_, { h.ok with }, ?_,
      h.within, fun i hi => ?_⟩
    · rw [StackState.step, hpop, ho]
      rfl
    · simp only [hsucc]
      omega
    · dsimp only at hi ⊢
      have hslot := h.slots (i + 1) (by rw [ho, List.length_cons]; omega)
      rw [ho, List.getElem?_cons_succ] at hslot
      rw [← hslot, hsucc]
      exact congrArg s.mem.cell (by omega)

theorem StackHolds.allocHeap {bottom : Word} {s : StackState} {n : Word}
    (h : StackHolds bottom s) (hok : LifoOk bottom s (.allocHeap n)) :
    ∃ s', s.step (.allocHeap n) = some s' ∧ StackHolds bottom s' := by
  refine ⟨_, rfl, ?_⟩
  have hdepth := h.depth
  have hwithin := h.within
  rcases beamProcessAllocHeap_cases s.mem s.proc n with
    ⟨hle, ha⟩ | ⟨hg, hr, _⟩ | ⟨hg, newHeap, m', hr, ha⟩
  · rw [ha]
    exact ⟨{ h.ok with top := BitVec.le_def.mp hle }, hdepth, hwithin, h.slots⟩
  · have hsafe : RefusedSafely s.mem s.proc n := by
      rcases hok.resolve_left (BitVec.not_le.mpr hg) with hsafe | ⟨hwrap, _⟩
      · exact hsafe
      · exact h.ok.refusedSafely hwrap ⟨hg, hr⟩
    rw [allocHeap_of_refusedSafely hsafe]
    exact ⟨{ h.ok with }, hdepth, hwithin, h.slots⟩
  · obtain ⟨hwrap, hcopies⟩ : s.proc.heapCapacity.toNat * 2 + n.toNat < 2 ^ 61 ∧
        (s.outstanding = [] ∨ (s.proc.alloc 0).Copying) := by
      rcases hok.resolve_left (BitVec.not_le.mpr hg) with hrefused | hgrow
      · rw [hrefused.1.2] at hr
        cases hr
      · exact hgrow
    obtain ⟨hok', hcap⟩ := growHeap_ok h.ok hwrap hr
    rw [ha]
    refine ⟨hok', hdepth, le_trans hwithin hcap, fun i hi => ?_⟩
    rw [← h.slots i hi]
    have hlive := hcopies.resolve_left (List.ne_nil_of_length_pos (Nat.zero_lt_of_lt hi))
    exact growHeap_keeps h.ok hwrap hlive hr (s.proc.stackTop.toNat + i)
      (by dsimp only at hi; omega)

/-- **An operation that keeps to the stack is defined and keeps the stack in its place.** -/
theorem StackHolds.step {bottom : Word} {s : StackState} {op : StackOp} (h : StackHolds bottom s)
    (hok : LifoOk bottom s op) : ∃ s', s.step op = some s' ∧ StackHolds bottom s' := by
  cases op with
  | push t => exact h.push t
  | pop => exact h.pop hok
  | allocHeap n => exact h.allocHeap hok
  | store i v => exact h.store hok

/-! ### Every run -/

/-- **The stack is last in, first out.**  A run from a new process whose operations keep to the
stack never gets stuck, and all its pops answer as a stack does; in the state it reaches, a pop
does so exactly if a value is outstanding or the block never grew. -/
theorem popsLast_of_run {m₀ m : Memory} {pid : BitVec 32} {words : Word} {alloc : Nat → Reply}
    {mailboxAlloc : Nat → Bool} {p : Process}
    (hc : beamProcessCreate m₀ pid words alloc mailboxAlloc = some (m, p))
    (hsize : (initialCapacity words).toNat < 2 ^ 61) (ops : List StackOp)
    (hok : Along StackState.step (LifoOk p.heapCapacity) ⟨m, p, []⟩ ops) :
    Along StackState.step (fun s op => op = .pop → PopsLast s) ⟨m, p, []⟩ ops ∧
    ∃ s, run StackState.step ⟨m, p, []⟩ ops = some s ∧
      (PopsLast s ↔ s.outstanding ≠ [] ∨ s.proc.heapCapacity = p.heapCapacity) := by
  have hstep : ∀ s op, StackHolds p.heapCapacity s → LifoOk p.heapCapacity s op →
      (op = .pop → PopsLast s) ∧ ∃ s', s.step op = some s' ∧ StackHolds p.heapCapacity s' := by
    intro s op hs hop
    refine ⟨?_, hs.step hop⟩
    rintro rfl
    exact hs.popsLast_iff.mpr hop
  obtain ⟨hpops, s, hr, hs⟩ := run_total (StackHolds p.heapCapacity) hstep
    (stackHolds_create hc hsize) hok
  exact ⟨hpops, s, hr, hs.popsLast_iff⟩

/-- Two values come back in the other order, with a growth between the pushes and the pops. -/
theorem popsLast_of_run_fourWords : ∃ r s, growingInto 4096 = some r ∧
    run StackState.step ⟨r.1, r.2, []⟩ [.push 7#64, .push 8#64, .allocHeap 5#64, .pop] = some s ∧
      s.outstanding = [7#64] ∧ PopsLast s := by
  obtain ⟨r, hr⟩ : ∃ r, growingInto 4096 = some r := ⟨_, rfl⟩
  obtain ⟨_, s, hs, hiff⟩ := popsLast_of_run hr (by decide)
    [.push 7#64, .push 8#64, .allocHeap 5#64, .pop] (by cases hr; decide +kernel)
  have hout : (run StackState.step ⟨r.1, r.2, []⟩
      [.push 7#64, .push 8#64, .allocHeap 5#64, .pop]).map (·.outstanding) = some [7#64] := by
    cases hr
    decide +kernel
  rw [hs] at hout
  have hone : s.outstanding = [7#64] := Option.some.inj hout
  exact ⟨r, s, hr, hs, hone, hiff.mpr (Or.inl (by rw [hone]; exact List.cons_ne_nil _ _))⟩

/-- **A pop of the empty stack succeeds once the heap has grown.** -/
theorem grown_empty_stack_pops : ∃ r s, growingInto 4096 = some r ∧
    run StackState.step ⟨r.1, r.2, []⟩ [.allocHeap 5#64] = some s ∧ s.outstanding = [] ∧
      (beamProcessStackPop s.mem s.proc).map Prod.snd ≠ some (.error .errBadarg) := by
  obtain ⟨r, hr⟩ : ∃ r, growingInto 4096 = some r := ⟨_, rfl⟩
  obtain ⟨s, hs, hout⟩ := Option.map_eq_some_iff.mp
    (show (run StackState.step ⟨r.1, r.2, []⟩ [.allocHeap 5#64]).map (fun s =>
      (s.outstanding, (beamProcessStackPop s.mem s.proc).map fun q => q.2.toOption)) =
        some ([], some (some 0#64)) by cases hr; decide +kernel)
  obtain ⟨hnil, hpop⟩ := Prod.mk.inj hout
  refine ⟨r, s, hr, hs, hnil, fun he => ?_⟩
  obtain ⟨q, hq, hq2⟩ := Option.map_eq_some_iff.mp he
  rw [hq, Option.map_some, hq2] at hpop
  cases hpop

end BeamModular
