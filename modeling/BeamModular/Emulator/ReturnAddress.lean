import BeamModular.Emulator.Emu
import BeamModular.Lib.Run
import BeamModular.Memory.Gc

/-!
# Return addresses on the stack

`ALLOCATE` pushes the continuation pointer, an index into the code, as a bare word
among the terms of the stack.  The collector takes every word of the stack for a term.
Whether a saved return address comes through a collection is therefore a matter of its
two low bits.

`Traced` keeps, beside the machine, the slots in which `ALLOCATE` has put a continuation
pointer that is still there.  A run is any list of instructions executed one after the
other, whatever the control flow between them; every call of the interpreter is such a
run (`beamEmuLoop_run`).  `returnAddresses_of_run` is the result: where every pointer
that was pushed is `Untagged`, the collector reads nothing through any of them and,
where the copies fit beside the stack, leaves them in place.
-/

namespace BeamModular

/-- The collector takes the word neither for a list nor for a boxed term; 2 is a null pointer,
which it does not follow. -/
def Untagged (cp : BitVec 32) : Prop := cp.toNat % 4 ≠ 1 ∧ (cp.toNat % 4 = 2 → cp.toNat = 2)

instance (cp : BitVec 32) : Decidable (Untagged cp) :=
  inferInstanceAs (Decidable (cp.toNat % 4 ≠ 1 ∧ (cp.toNat % 4 = 2 → cp.toNat = 2)))

/-- A continuation pointer as it stands on the stack. -/
def cpWord (cp : BitVec 32) : Eterm := cp.setWidth 64

/-! ### Runs -/

/-- A machine and the saved continuation pointers of one of its processes, by slot. -/
structure Traced where
  mach : Machine
  saved : List (Nat × BitVec 32)

/-- The slot is live and holds the pointer. -/
def OnStack (m : Memory) (p : Process) (x : Nat × BitVec 32) : Prop :=
  p.stackTop.toNat ≤ x.1 ∧ x.1 < p.heapCapacity.toNat ∧
    m.cell (p.heap + 8 * x.1) = some (cpWord x.2)

instance (m : Memory) (p : Process) (x : Nat × BitVec 32) : Decidable (OnStack m p x) :=
  inferInstanceAs (Decidable (p.stackTop.toNat ≤ x.1 ∧ x.1 < p.heapCapacity.toNat ∧
    m.cell (p.heap + 8 * x.1) = some (cpWord x.2)))

/-- Where an instruction saves the continuation pointer. -/
def savedBy (instr : Instruction) (p : Process) : List (Nat × BitVec 32) :=
  if instr.opcode = .allocate then [((p.stackTop - 1#64).toNat, p.frame.cp)] else []

/-- The process executes the instruction at `ip`. -/
def Traced.step (code : List Instruction) (self : ProcId) (s : Traced) (ip : Nat) :
    Option Traced :=
  code[ip]?.bind fun instr =>
    (s.mach.exec code self instr ip).map fun r =>
      ⟨r.1, (savedBy instr (s.mach.procs self) ++ s.saved).filter fun x =>
        OnStack r.1.mem (r.1.procs self) x⟩

/-- An `ALLOCATE` at `ip` saves an untagged pointer. -/
def SavesUntagged (code : List Instruction) (self : ProcId) (s : Traced) (ip : Nat) : Prop :=
  ∀ instr ∈ code[ip]?, instr.opcode = .allocate → Untagged (s.mach.procs self).frame.cp

instance (code : List Instruction) (self : ProcId) (s : Traced) (ip : Nat) :
    Decidable (SavesUntagged code self s ip) :=
  inferInstanceAs (Decidable (∀ instr ∈ code[ip]?, instr.opcode = .allocate →
    Untagged (s.mach.procs self).frame.cp))

/-! ### One word -/

theorem toNat_cpWord (cp : BitVec 32) : (cpWord cp).toNat = cp.toNat := by
  rw [cpWord, BitVec.toNat_setWidth]
  exact Nat.mod_eq_of_lt (by have := cp.isLt; omega)

theorem Untagged.leaf {cp : BitVec 32} (h : Untagged cp) (m : Memory) :
    beamIsList (cpWord cp) = false ∧ beamIsTuple m (cpWord cp) = some false := by
  constructor
  · rw [Bool.eq_false_iff, Ne, beamIsList_iff, toNat_cpWord]
    exact h.1
  · by_cases hb : cp.toNat % 4 = 2
    · have h2 : cpWord cp = 2#64 := BitVec.eq_of_toNat_eq (by rw [toNat_cpWord, h.2 hb]; rfl)
      rw [h2]
      rfl
    · exact beamIsTuple_of_not_boxed (by rwa [toNat_cpWord])

/-- The copy of an untagged word is the word, in every memory: nothing is read through it. -/
theorem Untagged.gcCopyTerm_eq {cp : BitVec 32} (h : Untagged cp) (toSpace depth : Nat)
    (toCap : Word) (m : Memory) (top : Word) :
    gcCopyTerm toSpace toCap (depth + 1) m top (cpWord cp) = some (m, top, cpWord cp) := by
  obtain ⟨hl, ht⟩ := h.leaf m
  exact gcCopyTerm_leaf hl ht

/-- **The collector reads nothing through a word exactly when the word is untagged**, as long as
there is room for a list cell. -/
theorem gcCopyTerm_keeps_iff {toSpace depth : Nat} {toCap top : Word} (cp : BitVec 32)
    (hroom : ¬ top + 2#64 > toCap) :
    (∀ m, gcCopyTerm toSpace toCap (depth + 1) m top (cpWord cp) = some (m, top, cpWord cp)) ↔
      Untagged cp := by
  constructor
  · intro h
    have hempty := h Memory.empty
    constructor
    · intro h1
      have hl : beamIsList (cpWord cp) = true := beamIsList_iff.mpr (by rwa [toNat_cpWord])
      have hread : beamListHead Memory.empty (cpWord cp) = none := by
        rw [beamListHead, if_pos hl]
        rfl
      rw [gcCopyTerm_list hl, if_neg hroom, hread] at hempty
      cases hempty
    · intro h2
      by_contra hne
      have hb : (cpWord cp).toNat % 4 = 2 := by rwa [toNat_cpWord]
      obtain ⟨hi1, hi2, hi3, -⟩ := not_immediate_of_boxed hb
      have haddr : addrOf (cpWord cp) ≠ 0 := by
        rw [addrOf_eq, toNat_cpWord]
        omega
      have hread : beamIsTuple Memory.empty (cpWord cp) = none := by
        rw [beamIsTuple_of_boxed hb haddr]
        rfl
      rw [gcCopyTerm, hi1, hi2, hi3, if_neg (by decide), hread] at hempty
      cases hempty
  · exact fun h m => h.gcCopyTerm_eq toSpace depth toCap m top

/-! ### Every run -/

section Run

variable {code : List Instruction} {self : ProcId}

/-- The saved pointers are where they were put, and none of them looks like a pointer. -/
def SavedOk (self : ProcId) (s : Traced) : Prop :=
  ∀ x ∈ s.saved, OnStack s.mach.mem (s.mach.procs self) x ∧ Untagged x.2

theorem savedOk_step {s s' : Traced} {ip : Nat} (h : SavedOk self s)
    (hok : SavesUntagged code self s ip) (hs : s.step code self ip = some s') :
    SavedOk self s' := by
  obtain ⟨instr, hi, h2⟩ := Option.bind_eq_some_iff.mp hs
  obtain ⟨r, _, rfl⟩ := Option.map_eq_some_iff.mp h2
  intro x hx
  obtain ⟨hmem, hon⟩ := List.mem_filter.mp hx
  refine ⟨of_decide_eq_true hon, ?_⟩
  rcases List.mem_append.mp hmem with hnew | hold
  · unfold savedBy at hnew
    split at hnew
    · rename_i hop
      rw [List.mem_singleton] at hnew
      rw [hnew]
      exact hok instr hi hop
    · exact absurd hnew List.not_mem_nil
  · exact (h x hold).2

theorem Shows.eq_imm {m : Memory} {w : Eterm} {t : Term} (h : Shows m w t)
    (hl : beamIsList w = false) (ht : beamIsTuple m w = some false) : t = .imm w := by
  cases t with
  | imm v => rw [h.1]
  | cons _ _ => exact absurd h.1 (by rw [hl]; decide)
  | tuple _ _ => exact absurd h.1 (by rw [ht]; simp)

/-- **Saved return addresses and collection.**  Take any run in which every `ALLOCATE` saves an
untagged continuation pointer, and any pointer it has left on the stack.  A collection reads
nothing through it; and a collection whose roots can be read, whose copies fit and whose new block
is granted returns `BEAM_OK` with the pointer in its slot. -/
theorem returnAddresses_of_run {mach : Machine} {ips : List Nat} {s : Traced}
    (hok : Along (Traced.step code self) (SavesUntagged code self) ⟨mach, []⟩ ips)
    (hrun : run (Traced.step code self) ⟨mach, []⟩ ips = some s) {slot : Nat} {cp : BitVec 32}
    (hsaved : (slot, cp) ∈ s.saved) :
    (∀ toSpace toCap depth m top, gcCopyTerm toSpace toCap (depth + 1) m top (cpWord cp) =
      some (m, top, cpWord cp)) ∧
    ∀ r : Roots, HeapOk s.mach.mem (s.mach.procs self) → r.Shown s.mach.mem (s.mach.procs self) →
      r.Fit (s.mach.procs self) →
      (s.mach.mem.malloc ((s.mach.procs self).alloc 0)
        (wordBytes (s.mach.procs self).heapCapacity)).isSome →
      ∃ m' p', beamGcCollectProcess s.mach.mem (s.mach.procs self) = some (m', p', .ok) ∧
        m'.cell (p'.heap + 8 * slot) =
          s.mach.mem.cell ((s.mach.procs self).heap + 8 * slot) := by
  have hinv : SavedOk self s := run_induct (SavedOk self)
    (fun _ _ _ hi ho hs => savedOk_step hi ho hs)
    (fun x hx => absurd hx List.not_mem_nil) hok hrun
  obtain ⟨⟨hlive, hcap, hword⟩, hun⟩ := hinv (slot, cp) hsaved
  refine ⟨fun toSpace toCap depth m top => hun.gcCopyTerm_eq toSpace depth toCap m top,
    fun r hheap hshown hfit hgrant => ?_⟩
  obtain ⟨m', p', hc, hcol⟩ := collect_spec hheap hshown hgrant
  refine ⟨m', p', hc, ?_⟩
  obtain ⟨w, hw, hshows⟩ := hshown.2 slot hlive hcap
  obtain ⟨w', hw', hl⟩ := (hcol.complete hfit).2.2 slot hlive hcap
  -- the slot's tree is the word itself, and so is its copy
  rw [hword] at hw
  cases hw
  have hleaf := hun.leaf s.mach.mem
  rw [hshows.eq_imm hleaf.1 hleaf.2] at hl
  have heq : w' = cpWord cp := hl
  rw [hw', hword, heq]

/-- **Every call of the interpreter is a run** of the instructions in its trace; what it does
besides is to write the process's saved `ip`. -/
theorem beamEmuLoop_run : ∀ (fuel : Nat) {w : World} {ip : Nat} {sl : Slice},
    beamEmuLoop code self fuel w ip = some sl → ∀ saved, ∃ s,
      run (Traced.step code self) ⟨w.toMachine, saved⟩ sl.trace = some s ∧
      sl.world.mem = s.mach.mem ∧
      sl.world.procs self = (s.mach.procs self).setIp (sl.world.procs self).frame.ip := by
  intro fuel
  induction fuel with
  | zero => intro w ip sl h; cases h
  | succ fuel ih =>
    intro w ip sl h saved
    rw [beamEmuLoop] at h
    cases hi : code[ip]? with
    | none =>
      rw [hi] at h
      cases h
      refine ⟨⟨w.toMachine, saved⟩, rfl, rfl, ?_⟩
      show Function.update w.procs self _ self = _
      rw [Function.update_self]
      show _ = (w.procs self).setIp (Function.update w.procs self _ self).frame.ip
      rw [Function.update_self]
      rfl
    | some instr =>
      rw [hi] at h
      dsimp only at h
      split at h
      · cases h
        exact ⟨⟨w.toMachine, saved⟩, rfl, rfl, rfl⟩
      · obtain ⟨r, hr, h2⟩ := Option.bind_eq_some_iff.mp h
        have hstep : ∀ saved, ∃ saved', Traced.step code self ⟨w.toMachine, saved⟩ ip =
            some ⟨r.1, saved'⟩ := fun saved => by
          have hr' : w.toMachine.exec code self instr ip = some r := hr
          rw [Traced.step, hi, Option.bind_some, hr']
          exact ⟨_, rfl⟩
        obtain ⟨saved', hs⟩ := hstep saved
        split at h2
        · obtain ⟨sl', hsl, rfl⟩ := Option.map_eq_some_iff.mp h2
          obtain ⟨s, hrun, hm, hp⟩ := ih hsl saved'
          refine ⟨s, ?_, hm, hp⟩
          show run _ _ (ip :: sl'.trace) = some s
          rw [run, hs]
          exact hrun
        · cases h2
          refine ⟨⟨r.1, saved'⟩, by rw [run, hs]; rfl, ?_⟩
          rename_i state out _
          cases state <;> exact ⟨rfl, rfl⟩

end Run

/-- A call from index 2 of the code: the return address is 3. -/
def calledFromTwo : List Instruction :=
  [⟨.label, 0#32, 0#32, 0#32, 0#64, none, none, 0⟩, ⟨.label, 1#32, 0#32, 0#32, 0#64, none, none, 0⟩,
    ⟨.call, 3#32, 0#32, 0#32, 0#64, none, none, 0⟩,
    ⟨.allocate, 1#32, 0#32, 0#32, 0#64, none, none, 0⟩]

theorem returnAddresses_of_run_calledFromTwo : ∃ s m' p',
    run (Traced.step calledFromTwo 0) ⟨freshMachine, []⟩ [0, 1, 2, 3] = some s ∧
    s.saved = [(3, 3#32)] ∧
    beamGcCollectProcess s.mach.mem (s.mach.procs 0) = some (m', p', .ok) ∧
    m'.cell (p'.heap + 24) = some 3#64 := by
  obtain ⟨s, hr⟩ : ∃ s, run (Traced.step calledFromTwo 0) ⟨freshMachine, []⟩ [0, 1, 2, 3] =
      some s := ⟨_, rfl⟩
  have hsaved : s.saved = [(3, 3#32)] := by
    cases hr
    decide +kernel
  have hx : ∀ i, (s.mach.procs 0).frame.xRegs i = 0#64 := by
    cases hr
    exact fun _ => rfl
  obtain ⟨-, hkept⟩ := returnAddresses_of_run (by decide +kernel) hr
    (show (3, 3#32) ∈ s.saved by rw [hsaved]; exact List.mem_singleton_self _)
  obtain ⟨m', p', hc, hw⟩ := hkept
    ⟨fun _ => .imm 0#64, fun i => .imm (if i = 3 then 3#64 else 0#64)⟩
    (by cases hr; exact ⟨by decide, by decide, by decide, rfl, by decide, by decide⟩)
    ⟨fun i => by rw [hx i]; exact ⟨rfl, by decide, rfl⟩, by
      intro i h1 h2
      have hcase : i = 2 ∨ i = 3 := by
        have h1' : 2 ≤ i := by cases hr; exact h1
        have h2' : i < 4 := by cases hr; exact h2
        omega
      rcases hcase with rfl | rfl <;> cases hr <;> exact ⟨_, rfl, rfl, by decide, rfl⟩⟩
    (by cases hr; unfold Roots.Fit; decide +kernel) (by cases hr; decide)
  refine ⟨s, m', p', hr, hsaved, hc, hw.trans ?_⟩
  cases hr
  decide

/-- A call from the first instruction: the return address is 1, a list at address 0. -/
def calledFromZero : List Instruction :=
  [⟨.call, 1#32, 0#32, 0#32, 0#64, none, none, 0⟩,
    ⟨.allocate, 0#32, 0#32, 0#32, 0#64, none, none, 0⟩]

/-- **A return address is followed**: the collection reads at address 0. -/
theorem calledFromZero_followed : ∃ s,
    run (Traced.step calledFromZero 0) ⟨freshMachine, []⟩ [0, 1] = some s ∧
    s.saved = [(3, 1#32)] ∧ HeapOk s.mach.mem (s.mach.procs 0) ∧
    (s.mach.mem.malloc ((s.mach.procs 0).alloc 0)
      (wordBytes (s.mach.procs 0).heapCapacity)).isSome ∧
    s.mach.mem.cell 0 = none ∧ beamGcCollectProcess s.mach.mem (s.mach.procs 0) = none := by
  obtain ⟨s, hr⟩ : ∃ s, run (Traced.step calledFromZero 0) ⟨freshMachine, []⟩ [0, 1] =
      some s := ⟨_, rfl⟩
  refine ⟨s, hr, ?_⟩
  cases hr
  refine ⟨by decide +kernel, ⟨by decide, by decide, by decide, rfl, by decide, by decide⟩,
    by decide, rfl, ?_⟩
  rw [← Option.isNone_iff_eq_none]
  decide +kernel

end BeamModular
