import BeamModular.Emulator.Arithmetic
import BeamModular.Emulator.Footprint

/-!
# Stack frames

`ALLOCATE` pushes the continuation pointer and then its words one at a time;
`DEALLOCATE` and `CALL_LAST` pop words one at a time and then the continuation
pointer.  Each push and each pop may be refused, and what the earlier ones did stays.
`execAllocate_spec` and `execDropFrame_spec` say how far an instruction gets: as many
words as there is room for (`Process.room`), or as many as the block still has
(`Process.depth`).

An instruction that fails leaves the stack as it was exactly if its first push or pop
is refused (`failsWhole_iff`); in all other failures part of the frame stays.
-/

namespace BeamModular

/-- The words between the heap and the stack. -/
def Process.room (p : Process) : Nat := p.stackTop.toNat - p.heapTop.toNat

/-- The words between `stack_top` and the end of the block. -/
def Process.depth (p : Process) : Nat := p.heapCapacity.toNat - p.stackTop.toNat

/-- The stack has grown by `k` words, and nothing else has happened. -/
structure Pushed (k : Nat) (m : Memory) (p : Process) (m' : Memory) (p' : Process) : Prop where
  proc : p' = { p with stackTop := p'.stackTop }
  top : p'.stackTop.toNat + k = p.stackTop.toNat
  mem : Memory.ChangedIn p.heap p'.stackTop.toNat p.stackTop.toNat m m'

/-- The stack has shrunk by `k` words, and only the continuation pointer may differ besides. -/
structure Popped (k : Nat) (p p' : Process) : Prop where
  proc : p' = { p with stackTop := p'.stackTop, frame := { p.frame with cp := p'.frame.cp } }
  top : p'.stackTop.toNat = p.stackTop.toNat + k

section

variable {code : List Instruction} {instr : Instruction} {m m' m'' : Memory} {p p' p'' : Process}
  {ip : Nat} {e : Effect} {k k' : Nat}

/-! ### Pushes -/

theorem Pushed.refl (m : Memory) (p : Process) : Pushed 0 m p m p :=
  ⟨rfl, rfl, Memory.ChangedIn.refl _ _ _ _⟩

theorem Pushed.heap (h : Pushed k m p m' p') : p'.heap = p.heap := by rw [h.proc]

theorem Pushed.frame (h : Pushed k m p m' p') : p'.frame = p.frame := by rw [h.proc]

theorem Pushed.room (h : Pushed k m p m' p') : p'.room = p.room - k := by
  have htop := h.top
  have hheap : p'.heapTop = p.heapTop := by rw [h.proc]
  rw [Process.room, Process.room, hheap]
  omega

theorem Pushed.trans (h : Pushed k m p m' p') (h' : Pushed k' m' p' m'' p'') :
    Pushed (k + k') m p m'' p'' := by
  have htop := h.top
  have htop' := h'.top
  have hmem' := h'.mem
  rw [h.heap] at hmem'
  refine ⟨?_, by omega, ?_⟩
  · rw [h'.proc, h.proc]
  · exact (h.mem.mono (by omega) (Nat.le_refl _)).trans (hmem'.mono (Nat.le_refl _) (by omega))

theorem beamProcessStackPush_spec {t : Eterm} {r : Result} (hp : p.heap ≠ 0)
    (h : beamProcessStackPush m p t = some (m', p', r)) :
    (0 < p.room ∧ r = .ok ∧ Pushed 1 m p m' p' ∧
      m'.cell (p.heap + 8 * p'.stackTop.toNat) = some t) ∨
    (p.room = 0 ∧ r = .errNoMemory ∧ m' = m ∧ p' = p) := by
  by_cases hfull : p.stackTop ≤ p.heapTop
  · rw [beamProcessStackPush, if_neg hp, if_pos hfull] at h
    cases h
    rw [BitVec.le_def] at hfull
    exact Or.inr ⟨by rw [Process.room]; omega, rfl, rfl, rfl⟩
  · have hlt := BitVec.not_le.mp hfull
    have hpred := toNat_sub_one_of_lt hlt
    rw [beamProcessStackPush, if_neg hp, if_neg hfull] at h
    obtain ⟨m₁, hw, he⟩ := Option.map_eq_some_iff.mp h
    cases he
    rw [BitVec.lt_def] at hlt
    refine Or.inl ⟨by rw [Process.room]; omega, rfl, ⟨rfl, ?_, ?_⟩, ?_⟩
    · dsimp only
      omega
    · exact (Memory.ChangedIn.of_write hw).mono (Nat.le_refl _) (by rw [hpred]; omega)
    · exact (Memory.cell_write hw _).trans (if_pos rfl)

/-- **How far the pushes of a frame get**: all the words, or all the room there is. -/
theorem pushWords_spec (words : Nat) : ∀ {m : Memory} {p : Process} {r : Memory × Process × Result},
    p.heap ≠ 0 → pushWords words m p = some r →
      Pushed (min words p.room) m p r.1 r.2.1 ∧
        r.2.2 = if words ≤ p.room then .ok else .errNoMemory := by
  induction words with
  | zero =>
    intro m p r _ h
    cases h
    rw [Nat.zero_min, if_pos (Nat.zero_le _)]
    exact ⟨Pushed.refl m p, rfl⟩
  | succ words ih =>
    intro m p r hp h
    obtain ⟨⟨m₁, p₁, res⟩, h1, h2⟩ := Option.bind_eq_some_iff.mp h
    rcases beamProcessStackPush_spec hp h1 with ⟨hroom, rfl, hpush, _⟩ | ⟨hroom, rfl, rfl, rfl⟩
    · obtain ⟨hrest, hres⟩ := ih (by rw [hpush.heap]; exact hp) h2
      have hroom' := hpush.room
      dsimp only at hrest hres
      refine ⟨?_, ?_⟩
      · rw [show min (words + 1) p.room = 1 + min words p₁.room by omega]
        exact hpush.trans hrest
      · rw [hres]
        split <;> split <;> first | rfl | omega
    · cases h2
      rw [hroom, Nat.min_zero, if_neg (by omega)]
      exact ⟨Pushed.refl _ _, rfl⟩

/-- **`ALLOCATE`** pushes a whole frame with the continuation pointer in its highest word, or fills
the room there is and fails. -/
theorem execAllocate_spec (hp : p.heap ≠ 0) (h : execAllocate instr m p ip = some e) :
    (instr.arg1.toNat + 1 ≤ p.room ∧ e.next = .goto (ip + 1) ∧ e.event = none ∧
      Pushed (instr.arg1.toNat + 1) m p e.mem e.proc ∧
      e.mem.cell (p.heap + 8 * (p.stackTop.toNat - 1)) = some (p.frame.cp.setWidth 64)) ∨
    (p.room < instr.arg1.toNat + 1 ∧ e.next = .ret .errNoMemory none none ∧
      Pushed p.room m p e.mem e.proc) := by
  obtain ⟨⟨m₁, p₁, res⟩, h1, h2⟩ := Option.bind_eq_some_iff.mp h
  rcases beamProcessStackPush_spec hp h1 with ⟨hroom, rfl, hpush, hcp⟩ | ⟨hroom, rfl, rfl, rfl⟩
  · obtain ⟨⟨m₂, p₂, res₂⟩, h3, rfl⟩ := Option.map_eq_some_iff.mp h2
    obtain ⟨hrest, hres⟩ := pushWords_spec _ (by rw [hpush.heap]; exact hp) h3
    have hroom' := hpush.room
    have htop := hpush.top
    have hboth := hpush.trans hrest
    dsimp only at hboth hres hcp h3 ⊢
    subst hres
    by_cases hfit : instr.arg1.toNat ≤ p₁.room
    · rw [if_pos hfit, if_pos rfl]
      rw [Nat.min_eq_left hfit, Nat.add_comm] at hboth
      refine Or.inl ⟨by omega, rfl, rfl, hboth, ?_⟩
      -- the zeros lie below the continuation pointer
      have hmem := hrest.mem
      rw [hpush.heap] at hmem
      rw [show p.stackTop.toNat - 1 = p₁.stackTop.toNat by omega,
        ← hcp]
      exact hmem.cell_eq (Or.inr (Nat.le_refl _))
    · rw [if_neg hfit, if_neg (by decide)]
      rw [Nat.min_eq_right (by omega), show 1 + p₁.room = p.room by omega] at hboth
      exact Or.inr ⟨by omega, rfl, hboth⟩
  · cases h2
    rw [hroom]
    exact Or.inr ⟨by omega, rfl, Pushed.refl _ _⟩

theorem execAllocate_of_null (hp : p.heap = 0) :
    execAllocate instr m p ip = some (.fail m p .errInvalidArg) := by
  rw [execAllocate, beamProcessStackPush, if_pos hp]
  rfl

/-! ### Pops -/

theorem Popped.depth (h : Popped k p p') : p'.depth = p.depth - k := by
  have htop := h.top
  have hcap : p'.heapCapacity = p.heapCapacity := by rw [h.proc]
  rw [Process.depth, Process.depth, hcap]
  omega

theorem Popped.trans (h : Popped k p p') (h' : Popped k' p' p'') : Popped (k + k') p p'' := by
  have htop := h.top
  have htop' := h'.top
  exact ⟨by rw [h'.proc, h.proc], by omega⟩

theorem beamProcessStackPop_spec {r : Except Result Eterm} (hp : p.heap ≠ 0)
    (h : beamProcessStackPop m p = some (p', r)) :
    (0 < p.depth ∧ p'.frame = p.frame ∧ Popped 1 p p' ∧
      ∃ t, r = .ok t ∧ m.cell (p.heap + 8 * p.stackTop.toNat) = some t) ∨
    (p.depth = 0 ∧ r = .error .errBadarg ∧ p' = p) := by
  by_cases hend : p.stackTop ≥ p.heapCapacity
  · rw [beamProcessStackPop, if_neg hp, if_pos hend] at h
    cases h
    rw [ge_iff_le, BitVec.le_def] at hend
    exact Or.inr ⟨by rw [Process.depth]; omega, rfl, rfl⟩
  · have hlt := BitVec.not_le.mp hend
    have hsucc := toNat_add_one_of_lt hlt
    rw [beamProcessStackPop, if_neg hp, if_neg hend] at h
    obtain ⟨t, hc, he⟩ := Option.map_eq_some_iff.mp h
    cases he
    rw [BitVec.lt_def] at hlt
    exact Or.inl ⟨by rw [Process.depth]; omega, rfl, ⟨rfl, hsucc⟩, t, rfl, hc⟩

/-- **How far the pops of a frame get**: the words and the continuation pointer, or all that is left
of the block. -/
theorem popFrame_spec (words : Nat) : ∀ {p : Process} {r : Process × Result},
    p.heap ≠ 0 → popFrame m words p = some r →
      (words + 1 ≤ p.depth ∧ r.2 = .ok ∧ Popped (words + 1) p r.1 ∧
        ∃ t, m.cell (p.heap + 8 * (p.stackTop.toNat + words)) = some t ∧
          r.1.frame.cp = t.setWidth 32) ∨
      (p.depth < words + 1 ∧ r.2 = .errBadarg ∧ Popped p.depth p r.1 ∧
        r.1.frame.cp = p.frame.cp) := by
  induction words with
  | zero =>
    intro p r hp h
    obtain ⟨⟨p₁, res⟩, h1, rfl⟩ := Option.map_eq_some_iff.mp h
    rcases beamProcessStackPop_spec hp h1 with
      ⟨hdepth, hframe, hpop, t, rfl, hc⟩ | ⟨hdepth, rfl, rfl⟩
    · refine Or.inl ⟨by omega, rfl, ⟨?_, hpop.top⟩, t, hc, rfl⟩
      dsimp only
      rw [hpop.proc]
      rfl
    · rw [hdepth]
      exact Or.inr ⟨by omega, rfl, ⟨rfl, rfl⟩, rfl⟩
  | succ words ih =>
    intro p r hp h
    obtain ⟨⟨p₁, res⟩, h1, h2⟩ := Option.bind_eq_some_iff.mp h
    rcases beamProcessStackPop_spec hp h1 with
      ⟨hdepth, hframe, hpop, t, rfl, _⟩ | ⟨hdepth, rfl, rfl⟩
    · have hdepth' := hpop.depth
      have htop := hpop.top
      have hheap : p₁.heap = p.heap := by rw [hpop.proc]
      dsimp only at h2
      rcases ih (by rw [hheap]; exact hp) h2 with
        ⟨hle, hres, hrest, t', hc, hcp⟩ | ⟨hlt, hres, hrest, hcp⟩
      · refine Or.inl ⟨by omega, hres, ?_, t', ?_, hcp⟩
        · rw [show words + 1 + 1 = 1 + (words + 1) by omega]
          exact hpop.trans hrest
        · rw [← hc, hheap, htop]
          exact congrArg m.cell (by omega)
      · refine Or.inr ⟨by omega, hres, ?_, by rw [hcp, hframe]⟩
        rw [show p.depth = 1 + p₁.depth by omega]
        exact hpop.trans hrest
    · cases h2
      rw [hdepth]
      exact Or.inr ⟨by omega, rfl, ⟨rfl, rfl⟩, rfl⟩

/-- **`DEALLOCATE` and `CALL_LAST`** take a whole frame off and its continuation pointer with it, or
take what there is and fail. -/
theorem execDropFrame_spec {words : BitVec 32} {target : Nat} (hp : p.heap ≠ 0)
    (h : execDropFrame m p words target = some e) :
    (words.toNat + 1 ≤ p.depth ∧ e.mem = m ∧ e.next = .goto target ∧ e.event = none ∧
      Popped (words.toNat + 1) p e.proc ∧
      ∃ t, m.cell (p.heap + 8 * (p.stackTop.toNat + words.toNat)) = some t ∧
        e.proc.frame.cp = t.setWidth 32) ∨
    (p.depth < words.toNat + 1 ∧ e.mem = m ∧ e.next = .ret .errBadarg none none ∧
      Popped p.depth p e.proc ∧ e.proc.frame.cp = p.frame.cp) := by
  obtain ⟨⟨p₁, res⟩, hr, rfl⟩ := Option.map_eq_some_iff.mp h
  rcases popFrame_spec _ hp hr with ⟨hle, hres, hpop, hcp⟩ | ⟨hlt, hres, hpop, hcp⟩
  · dsimp only at hres
    subst hres
    exact Or.inl ⟨hle, rfl, rfl, rfl, hpop, hcp⟩
  · dsimp only at hres
    subst hres
    exact Or.inr ⟨hlt, rfl, rfl, hpop, hcp⟩

theorem execDropFrame_of_null {words : BitVec 32} {target : Nat} (hp : p.heap = 0) :
    execDropFrame m p words target = some (.fail m p .errInvalidArg) := by
  have hpop : beamProcessStackPop m p = some (p, .error .errInvalidArg) := if_pos hp
  rw [execDropFrame]
  cases words.toNat with
  | zero => rw [popFrame, hpop]; rfl
  | succ words => rw [popFrame, hpop]; rfl

/-! ### All or nothing -/

/-- The stack top, the live words of the stack and the continuation pointer are as they were. -/
structure StackKept (m : Memory) (p : Process) (m' : Memory) (p' : Process) : Prop where
  top : p'.stackTop = p.stackTop
  words : ∀ i, p.stackTop.toNat ≤ i → i < p.heapCapacity.toNat →
    m'.cell (p'.heap + 8 * i) = m.cell (p.heap + 8 * i)
  cp : p'.frame.cp = p.frame.cp

/-- If the instruction fails, it leaves the stack as it was. -/
def FailsWhole (m : Memory) (p : Process) (e : Effect) : Prop :=
  e.Fails → StackKept m p e.mem e.proc

/-- A frame of `words` words goes onto the stack as a whole or not at all: the first push is already
refused, or there is room for the frame. -/
def PushesWhole (p : Process) (words : BitVec 32) : Prop :=
  p.heap = 0 ∨ p.room = 0 ∨ words.toNat + 1 ≤ p.room

/-- The same for a frame that comes off. -/
def PopsWhole (p : Process) (words : BitVec 32) : Prop :=
  p.heap = 0 ∨ p.depth = 0 ∨ words.toNat + 1 ≤ p.depth

/-- The frame the instruction pushes or pops goes as a whole or not at all. -/
def Instruction.WholeFrame (instr : Instruction) (p : Process) : Prop :=
  match instr.opcode with
  | .allocate => PushesWhole p instr.arg1
  | .deallocate => PopsWhole p instr.arg1
  | .callLast => PopsWhole p instr.arg2
  | _ => True

theorem StackKept.refl (m : Memory) (p : Process) : StackKept m p m p :=
  ⟨rfl, fun _ _ _ => rfl, rfl⟩

theorem failsWhole_of_goto {ip' : Nat} (hn : e.next = .goto ip') : FailsWhole m p e := by
  rintro ⟨_, _, _, hr, _⟩
  rw [hn] at hr
  cases hr

theorem fails_of_ret {res : Result} (hn : e.next = .ret res none none) (hf : res.Fails) : e.Fails :=
  ⟨res, none, none, hn, hf⟩

theorem Pushed.stackKept_iff (h : Pushed k m p m' p') : StackKept m p m' p' ↔ k = 0 := by
  have htop := h.top
  constructor
  · intro hkept
    rw [hkept.top] at htop
    omega
  · rintro rfl
    refine ⟨BitVec.eq_of_toNat_eq (by omega), fun i hi _ => ?_, by rw [h.frame]⟩
    rw [h.heap]
    exact h.mem.cell_eq (Or.inr hi)

theorem Popped.stackKept_iff (h : Popped k p p') (hcp : p'.frame.cp = p.frame.cp) :
    StackKept m p m p' ↔ k = 0 := by
  have htop := h.top
  constructor
  · intro hkept
    rw [hkept.top] at htop
    omega
  · rintro rfl
    refine ⟨BitVec.eq_of_toNat_eq htop, fun i _ _ => ?_, hcp⟩
    rw [h.proc]

theorem execAllocate_failsWhole_iff (h : execAllocate instr m p ip = some e) :
    FailsWhole m p e ↔ PushesWhole p instr.arg1 := by
  by_cases hp : p.heap = 0
  · rw [execAllocate_of_null hp] at h
    cases h
    exact iff_of_true (fun _ => StackKept.refl m p) (Or.inl hp)
  rcases execAllocate_spec hp h with ⟨hfit, hn, _⟩ | ⟨hlt, hn, hpush⟩
  · exact iff_of_true (failsWhole_of_goto hn) (Or.inr (Or.inr hfit))
  · constructor
    · intro hwhole
      exact Or.inr (Or.inl (hpush.stackKept_iff.mp (hwhole (fails_of_ret hn (by decide)))))
    · rintro (hnull | hroom | hfit)
      · exact absurd hnull hp
      · exact fun _ => hpush.stackKept_iff.mpr hroom
      · omega

theorem execDropFrame_failsWhole_iff {words : BitVec 32} {target : Nat}
    (h : execDropFrame m p words target = some e) : FailsWhole m p e ↔ PopsWhole p words := by
  by_cases hp : p.heap = 0
  · rw [execDropFrame_of_null hp] at h
    cases h
    exact iff_of_true (fun _ => StackKept.refl m p) (Or.inl hp)
  rcases execDropFrame_spec hp h with ⟨hfit, _, hn, _⟩ | ⟨hlt, hm, hn, hpop, hcp⟩
  · exact iff_of_true (failsWhole_of_goto hn) (Or.inr (Or.inr hfit))
  · rw [FailsWhole, hm, hpop.stackKept_iff hcp]
    constructor
    · intro hwhole
      exact Or.inr (Or.inl (hwhole (fails_of_ret hn (by decide))))
    · rintro (hnull | hdepth | hfit)
      · exact absurd hnull hp
      · exact fun _ => hdepth
      · omega

/-- **When a frame instruction is all or nothing**: in any state, a failing `ALLOCATE`, `DEALLOCATE`
or `CALL_LAST` leaves the stack top, the live words and the continuation pointer alone exactly if
its frame goes as a whole or not at all. -/
theorem failsWhole_iff (h : execInstr code instr m p ip = some e)
    (hop : instr.opcode = .allocate ∨ instr.opcode = .deallocate ∨ instr.opcode = .callLast) :
    FailsWhole m p e ↔ instr.WholeFrame p := by
  rw [execInstr] at h
  rw [Instruction.WholeFrame]
  rcases hop with hop | hop | hop <;> rw [hop] at h ⊢
  · exact execAllocate_failsWhole_iff h
  · exact execDropFrame_failsWhole_iff h
  · exact execDropFrame_failsWhole_iff h

end

/-- Two words of heap and two of stack: there is no room between them. -/
def fullProcess : Process := { freshProcess with heapTop := 2#64, stackTop := 2#64 }

/-- Already the continuation pointer is refused. -/
theorem failsWhole_fullProcess : ∃ e,
    execInstr [] { opcode := .allocate, arg1 := 3#32 } freshMemory fullProcess 0 = some e ∧
      e.Fails ∧ FailsWhole freshMemory fullProcess e := by
  obtain ⟨e, he, hn⟩ := Option.map_eq_some_iff.mp
    (show (execInstr [] { opcode := .allocate, arg1 := 3#32 } freshMemory fullProcess 0).map
      Effect.next = some (.ret .errNoMemory none none) by decide +kernel)
  exact ⟨e, he, fails_of_ret hn (by decide),
    (failsWhole_iff he (Or.inl rfl)).mpr (Or.inr (Or.inl rfl))⟩

/-- **A frame too large for the stack fills it before it fails.** -/
theorem allocateFour_not_failsWhole : ∃ e,
    execInstr [] { opcode := .allocate, arg1 := 4#32 } freshMemory freshProcess 0 = some e ∧
      ¬ FailsWhole freshMemory freshProcess e := by
  obtain ⟨e, he, hout⟩ := Option.map_eq_some_iff.mp
    (show (execInstr [] { opcode := .allocate, arg1 := 4#32 } freshMemory freshProcess 0).map
      (fun e => (e.next, e.proc.stackTop)) = some (.ret .errNoMemory none none, 0#64) by
        decide +kernel)
  obtain ⟨hn, htop⟩ := Prod.mk.inj hout
  refine ⟨e, he, fun hwhole => ?_⟩
  have hkept := (hwhole (fails_of_ret hn (by decide))).top
  rw [htop] at hkept
  cases hkept

end BeamModular
