import BeamModular.Emulator.Frames
import BeamModular.Emulator.Suspend

/-!
# Tail calls

A body between `ALLOCATE` and `CALL_LAST` may push and pop frames of its own and call
other functions, which overwrite the continuation pointer.  As long as it allocates no
heap, raises nothing and never pops past the stack top it found, every word of the block
from that stack top on is what it was (`execInstr_aboveKept` for one instruction,
`StepsWith.aboveKept` for a run).  The saved continuation pointer is one of these words,
so `CALL_LAST` gives the caller's pointer back and leaves the outer frames alone
(`TailCall.stackKept`); `tailCalls_constantStack` adds that neither `ALLOCATE` nor
`CALL_LAST` gets stuck, and repeats the iteration any number of times.
-/

namespace BeamModular

/-! ### Runs with a condition on each instruction -/

/-- A run of `n` instructions, each followed by another one; `Ok` is a condition on every
instruction and the machine it leaves. -/
inductive StepsWith (Ok : Instruction → Machine → Prop) (code : List Instruction) (self : ProcId) :
    Nat → Machine → Nat → Machine → Nat → Prop
  | done (s : Machine) (ip : Nat) : StepsWith Ok code self 0 s ip s ip
  | step {n ip ip₁ ip' : Nat} {s s₁ s' : Machine} {instr : Instruction} {event : Option Event}
      (hc : code[ip]? = some instr) (hx : s.exec code self instr ip = some (s₁, event, .goto ip₁))
      (hok : Ok instr s₁) (rest : StepsWith Ok code self n s₁ ip₁ s' ip') :
      StepsWith Ok code self (n + 1) s ip s' ip'

/-- A run of `n` instructions. -/
abbrev Steps (code : List Instruction) (self : ProcId) :=
  StepsWith (fun _ _ => True) code self

/-- The instruction neither allocates heap nor raises, and the stack top stays at or below
`floor`. -/
def InBody (self : ProcId) (floor : Nat) (instr : Instruction) (s : Machine) : Prop :=
  instr.opcode ≠ .makeFun2 ∧ instr.opcode ≠ .raise ∧ (s.procs self).stackTop.toNat ≤ floor

/-- A body: a run that neither allocates heap nor raises and never pops past the stack top it
started with. -/
def Body (code : List Instruction) (self : ProcId) (n : Nat) (s : Machine) (ip : Nat) (s' : Machine)
    (ip' : Nat) : Prop :=
  StepsWith (InBody self (s.procs self).stackTop.toNat) code self n s ip s' ip'

section

variable {code : List Instruction} {self : ProcId} {instr : Instruction} {m m' m'' : Memory}
  {p p' p'' : Process} {s s' s'' : Machine} {ip ip' ip'' n n' floor : Nat} {e : Effect}
  {Ok Ok' : Instruction → Machine → Prop}

theorem StepsWith.mono (hmono : ∀ instr s, Ok instr s → Ok' instr s)
    (h : StepsWith Ok code self n s ip s' ip') : StepsWith Ok' code self n s ip s' ip' := by
  induction h with
  | done s ip => exact .done s ip
  | step hc hx hok _ ih => exact .step hc hx (hmono _ _ hok) ih

theorem StepsWith.steps (h : StepsWith Ok code self n s ip s' ip') :
    Steps code self n s ip s' ip' := h.mono fun _ _ _ => trivial

theorem StepsWith.trans (h : StepsWith Ok code self n s ip s' ip')
    (h' : StepsWith Ok code self n' s' ip' s'' ip'') :
    StepsWith Ok code self (n + n') s ip s'' ip'' := by
  induction h with
  | done s ip =>
    rw [Nat.zero_add]
    exact h'
  | step hc hx hok _ ih =>
    rw [Nat.succ_add]
    exact .step hc hx hok (ih h')

theorem Steps.one {event : Option Event} (hc : code[ip]? = some instr)
    (hx : s.exec code self instr ip = some (s', event, .goto ip')) :
    Steps code self 1 s ip s' ip' :=
  .step hc hx trivial (.done s' ip')

/-- A call of the interpreter that stands at `ip` with more than `n` reductions goes on at `ip'`
with the machine `s'`, `n` reductions fewer and the run in its trace. -/
def RunsOn (code : List Instruction) (self : ProcId) (n : Nat) (s : Machine) (ip : Nat)
    (s' : Machine) (ip' : Nat) : Prop :=
  ∀ sched : ProcId → SchedInfo, (n : Int) < (sched self).reductions → ∃ trace events, ∀ fuel,
    beamEmuLoop code self (fuel + n) ⟨s, sched⟩ ip
      = (beamEmuLoop code self fuel ⟨s', World.spend sched self n⟩ ip').map fun sl =>
          { sl with
            trace := trace ++ sl.trace
            events := events ++ sl.events
            turns := sl.turns + n }

/-- **Enough reductions** carry a call through the run. -/
theorem StepsWith.runsOn (h : StepsWith Ok code self n s ip s' ip') :
    RunsOn code self n s ip s' ip' := by
  induction h with
  | done s ip =>
    intro sched _
    refine ⟨[], [], fun fuel => ?_⟩
    rw [Nat.add_zero, Nat.cast_zero, World.spend_zero]
    simp
  | @step n ip ip₁ ip' s s₁ s' instr event hc hx _ _ ih =>
    intro sched hred
    have hred' : (n : Int) < (World.spend sched self 1 self).reductions := by
      rw [World.spend, Function.update_self]
      dsimp only
      omega
    obtain ⟨trace, events, hrest⟩ := ih (World.spend sched self 1) hred'
    refine ⟨ip :: trace, event.toList ++ events, fun fuel => ?_⟩
    have hone : World.reductions ⟨s, World.spend sched self 1⟩ self
        = (sched self).reductions - 1 := by
      simp [World.reductions, World.spend]
    rw [← Nat.add_assoc, beamEmuLoop, hc]
    simp only [World.consumeReductions_mk, hone]
    rw [if_neg (by omega), hx, Option.bind_some]
    dsimp only
    rw [hrest fuel, World.spend_spend, Option.map_map, Nat.cast_succ, Int.add_comm]
    congr 1
    funext sl
    simp [Slice.cons, Function.comp, Nat.add_assoc]

/-! ### The words above a floor -/

/-- The block and the heap's top are as they were, and so is every word of the block from `floor`
on. -/
structure AboveKept (floor : Nat) (m : Memory) (p : Process) (m' : Memory) (p' : Process) :
    Prop where
  heap : p'.heap = p.heap
  capacity : p'.heapCapacity = p.heapCapacity
  heapTop : p'.heapTop = p.heapTop
  mem : Memory.ChangedIn p.heap 0 floor m m'

theorem AboveKept.refl (floor : Nat) (m : Memory) (p : Process) : AboveKept floor m p m p :=
  ⟨rfl, rfl, rfl, Memory.ChangedIn.refl _ _ _ _⟩

theorem AboveKept.trans (h : AboveKept floor m p m' p') (h' : AboveKept floor m' p' m'' p'') :
    AboveKept floor m p m'' p'' := by
  have hmem' := h'.mem
  rw [h.heap] at hmem'
  exact ⟨h'.heap.trans h.heap, h'.capacity.trans h.capacity, h'.heapTop.trans h.heapTop,
    h.mem.trans hmem'⟩

theorem AboveKept.mono {floor' : Nat} (h : AboveKept floor m p m' p') (hle : floor ≤ floor') :
    AboveKept floor' m p m' p' :=
  { h with mem := h.mem.mono (Nat.le_refl _) hle }

theorem AboveKept.cell_eq (h : AboveKept floor m p m' p') {i : Nat} (hi : floor ≤ i) :
    m'.cell (p.heap + 8 * i) = m.cell (p.heap + 8 * i) :=
  h.mem.cell_eq (Or.inr hi)

theorem AboveKept.heapOk (h : AboveKept floor m p m' p') (hok : HeapOk m p) : HeapOk m' p' := by
  refine ⟨?_, ?_, ?_, ?_, ?_, ?_⟩
  · rw [h.heap]; exact hok.nonnull
  · rw [h.heap]; exact hok.aligned
  · rw [h.heap, h.capacity]; exact hok.inside
  · rw [h.heap, h.capacity, h.mem.block]; exact hok.block
  · intro i hi
    rw [h.capacity] at hi
    rw [h.heap]
    exact h.mem.readable _ (hok.readable i hi)
  · rw [h.heapTop, h.capacity]; exact hok.top

theorem Pushed.aboveKept {k : Nat} (h : Pushed k m p m' p') :
    AboveKept p.stackTop.toNat m p m' p' :=
  ⟨h.heap, by rw [h.proc], by rw [h.proc], h.mem.mono (Nat.zero_le _) (Nat.le_refl _)⟩

theorem aboveKept_of_same (hm : m' = m) (hheap : p'.heap = p.heap)
    (hcap : p'.heapCapacity = p.heapCapacity) (htop : p'.heapTop = p.heapTop) :
    AboveKept floor m p m' p' := by
  rw [hm]
  exact ⟨hheap, hcap, htop, Memory.ChangedIn.refl _ _ _ _⟩

theorem execLoopRec_aboveKept (h : execLoopRec code instr m p ip = some e) :
    AboveKept floor m p e.mem e.proc := by
  obtain ⟨r, _, rfl⟩ := Option.map_eq_some_iff.mp h
  split
  · dsimp only
    split <;> exact aboveKept_of_same rfl rfl rfl rfl
  · exact aboveKept_of_same rfl rfl rfl rfl

theorem execTryEnd_aboveKept (h : execTryEnd m p ip = some e) :
    AboveKept floor m p e.mem e.proc := by
  unfold execTryEnd at h
  split at h
  · cases h; exact aboveKept_of_same rfl rfl rfl rfl
  · cases h; exact aboveKept_of_same rfl rfl rfl rfl
  · obtain ⟨prev, _, rfl⟩ := Option.map_eq_some_iff.mp h
    exact aboveKept_of_same rfl rfl rfl rfl

theorem execDropFrame_aboveKept {words : BitVec 32} {target : Nat} (hp : p.heap ≠ 0)
    (h : execDropFrame m p words target = some e) : AboveKept floor m p e.mem e.proc := by
  rcases execDropFrame_spec hp h with ⟨_, hm, _, _, hpop, _⟩ | ⟨_, hm, _, hpop, _⟩ <;>
    exact aboveKept_of_same hm (by rw [hpop.proc]) (by rw [hpop.proc]) (by rw [hpop.proc])

/-- **One instruction that neither allocates heap nor raises** writes below the stack top only. -/
theorem execInstr_aboveKept (hp : p.heap ≠ 0) (h : execInstr code instr m p ip = some e)
    (hheap : instr.opcode ≠ .makeFun2) (hraise : instr.opcode ≠ .raise) :
    AboveKept p.stackTop.toNat m p e.mem e.proc := by
  cases hl : instr.opcode.Light with
  | true =>
    have hlight := execInstr_light h hl
    exact aboveKept_of_same hlight.mem (by rw [hlight.proc]) (by rw [hlight.proc])
      (by rw [hlight.proc])
  | false =>
    rw [execInstr] at h
    cases hop : instr.opcode <;> simp only [hop, Opcode.Light, reduceCtorEq] at h hl
    case makeFun2 => exact absurd hop hheap
    case «raise» => exact absurd hop hraise
    case allocate =>
      rcases execAllocate_spec hp h with ⟨_, _, _, hpush, _⟩ | ⟨_, _, hpush⟩
      · exact hpush.aboveKept
      · exact hpush.aboveKept
    case deallocate => exact execDropFrame_aboveKept hp h
    case callLast => exact execDropFrame_aboveKept hp h
    case send =>
      cases h
      unfold execSend
      split <;> exact aboveKept_of_same rfl rfl rfl rfl
    case loopRec => exact execLoopRec_aboveKept h
    case removeMessage =>
      obtain ⟨r, _, rfl⟩ := Option.map_eq_some_iff.mp h
      exact aboveKept_of_same rfl rfl rfl rfl
    case loopRecEnd =>
      obtain ⟨r, _, rfl⟩ := Option.map_eq_some_iff.mp h
      exact aboveKept_of_same rfl rfl rfl rfl
    case wait => cases h; exact aboveKept_of_same rfl rfl rfl rfl
    case «try» =>
      cases h
      unfold execTry
      split <;> exact aboveKept_of_same rfl rfl rfl rfl
    case «catch» =>
      cases h
      unfold execTry
      split <;> exact aboveKept_of_same rfl rfl rfl rfl
    case tryEnd => exact execTryEnd_aboveKept h

theorem exec_aboveKept {event : Option Event} {next : Next} (hp : (s.procs self).heap ≠ 0)
    (h : s.exec code self instr ip = some (s', event, next)) (hheap : instr.opcode ≠ .makeFun2)
    (hraise : instr.opcode ≠ .raise) :
    AboveKept (s.procs self).stackTop.toNat s.mem (s.procs self) s'.mem (s'.procs self) := by
  obtain ⟨e, he, h2⟩ := Option.bind_eq_some_iff.mp h
  obtain ⟨s₁, hs, hr⟩ := Option.map_eq_some_iff.mp h2
  cases hr
  obtain ⟨hm, hproc⟩ := perform_same hs self
  have hkept := execInstr_aboveKept hp he hheap hraise
  dsimp only at hm hproc
  rw [Function.update_self] at hproc
  rw [hm, hproc]
  exact ⟨hkept.heap, hkept.capacity, hkept.heapTop, hkept.mem⟩

/-- **A run that stays below a floor** keeps every word from the floor on, frames it pushes and pops
and functions it calls included. -/
theorem StepsWith.aboveKept (h : StepsWith (InBody self floor) code self n s ip s' ip') :
    (s.procs self).heap ≠ 0 → (s.procs self).stackTop.toNat ≤ floor →
      AboveKept floor s.mem (s.procs self) s'.mem (s'.procs self) := by
  induction h with
  | done s ip => exact fun _ _ => AboveKept.refl _ _ _
  | step hc hx hok _ ih =>
    intro hp hstack
    obtain ⟨hheap, hraise, hfloor⟩ := hok
    have hone := (exec_aboveKept hp hx hheap hraise).mono hstack
    exact hone.trans (ih (by rw [hone.heap]; exact hp) hfloor)

/-! ### Frames that fit -/

theorem beamProcessStackPush_defined (hok : HeapOk m p)
    (hstack : p.stackTop.toNat ≤ p.heapCapacity.toNat) (t : Eterm) :
    ∃ r, beamProcessStackPush m p t = some r := by
  rw [beamProcessStackPush, if_neg hok.nonnull]
  split
  · exact ⟨_, rfl⟩
  · rename_i hfull
    have hlt := BitVec.not_le.mp hfull
    have hpred := toNat_sub_one_of_lt hlt
    rw [BitVec.lt_def] at hlt
    obtain ⟨m₁, hw, _⟩ := hok.write t (i := (p.stackTop - 1#64).toNat) (by omega)
    dsimp only
    rw [hw]
    exact ⟨_, rfl⟩

theorem pushWords_defined (words : Nat) : ∀ {m : Memory} {p : Process}, HeapOk m p →
    p.stackTop.toNat ≤ p.heapCapacity.toNat → ∃ r, pushWords words m p = some r := by
  induction words with
  | zero => exact fun _ _ => ⟨_, rfl⟩
  | succ words ih =>
    intro m p hok hstack
    obtain ⟨⟨m₁, p₁, res⟩, h1⟩ := beamProcessStackPush_defined hok hstack 0#64
    rw [pushWords, h1, Option.bind_some]
    rcases beamProcessStackPush_spec hok.nonnull h1 with ⟨_, rfl, hpush, _⟩ | ⟨_, rfl, _, _⟩
    · have htop := hpush.top
      have hcap := hpush.aboveKept.capacity
      exact ih (p := p₁) (hpush.aboveKept.heapOk hok) (by rw [hcap]; omega)
    · exact ⟨_, rfl⟩

theorem execAllocate_defined (instr : Instruction) (ip : Nat) (hok : HeapOk m p)
    (hstack : p.stackTop.toNat ≤ p.heapCapacity.toNat) :
    ∃ e, execAllocate instr m p ip = some e := by
  obtain ⟨⟨m₁, p₁, res⟩, h1⟩ := beamProcessStackPush_defined hok hstack (p.frame.cp.setWidth 64)
  rw [execAllocate, h1, Option.bind_some]
  rcases beamProcessStackPush_spec hok.nonnull h1 with ⟨_, rfl, hpush, _⟩ | ⟨_, rfl, _, _⟩
  · have htop := hpush.top
    have hcap := hpush.aboveKept.capacity
    obtain ⟨r, hr⟩ := pushWords_defined instr.arg1.toNat (hpush.aboveKept.heapOk hok)
      (by rw [hcap]; omega)
    dsimp only
    rw [hr]
    exact ⟨_, rfl⟩
  · exact ⟨_, rfl⟩

theorem beamProcessStackPop_defined (hok : HeapOk m p) : ∃ r, beamProcessStackPop m p = some r := by
  rw [beamProcessStackPop, if_neg hok.nonnull]
  split
  · exact ⟨_, rfl⟩
  · rename_i hend
    have hlt := BitVec.not_le.mp hend
    rw [BitVec.lt_def] at hlt
    obtain ⟨t, ht⟩ := Option.isSome_iff_exists.mp (hok.readable _ hlt)
    rw [ht]
    exact ⟨_, rfl⟩

theorem popFrame_defined (words : Nat) : ∀ {p : Process}, HeapOk m p →
    ∃ r, popFrame m words p = some r := by
  induction words with
  | zero =>
    intro p hok
    obtain ⟨r, hr⟩ := beamProcessStackPop_defined hok
    rw [popFrame, hr]
    exact ⟨_, rfl⟩
  | succ words ih =>
    intro p hok
    obtain ⟨⟨p₁, res⟩, hr⟩ := beamProcessStackPop_defined hok
    rw [popFrame, hr, Option.bind_some]
    rcases beamProcessStackPop_spec hok.nonnull hr with ⟨_, _, hpop, t, rfl, _⟩ | ⟨_, rfl, _⟩
    · refine ih (p := p₁) ?_
      rw [hpop.proc]
      exact { hok with }
    · exact ⟨_, rfl⟩

/-- **A frame comes off as it went on**: a body that kept the words from the frame's lowest one on
and is back at that word has left the continuation pointer in the highest one. -/
theorem popFrame_restores {words : Nat} {m₁ m₂ : Memory} {p₁ p₂ : Process} (hok : HeapOk m p)
    (hstack : p.stackTop.toNat ≤ p.heapCapacity.toNat) (hpush : Pushed (words + 1) m p m₁ p₁)
    (hcp : m₁.cell (p.heap + 8 * (p.stackTop.toNat - 1)) = some (p.frame.cp.setWidth 64))
    (hbody : AboveKept p₁.stackTop.toNat m₁ p₁ m₂ p₂) (hback : p₂.stackTop = p₁.stackTop) :
    ∃ p₃, popFrame m₂ words p₂ = some (p₃, .ok) ∧ p₃.stackTop = p.stackTop ∧
      p₃.frame.cp = p.frame.cp ∧ AboveKept p.stackTop.toNat m p m₂ p₃ := by
  have htop := hpush.top
  have hkept := hpush.aboveKept.trans (hbody.mono (by omega))
  have hok₂ := hkept.heapOk hok
  obtain ⟨⟨p₃, res⟩, hr⟩ := popFrame_defined words hok₂
  have hdepth : words + 1 ≤ p₂.depth := by
    rw [Process.depth, hkept.capacity, hback]
    omega
  rcases popFrame_spec words hok₂.nonnull hr with ⟨_, hres, hpop, t, ht, hcp₃⟩ | ⟨hlt, _⟩
  · dsimp only at hres hpop hcp₃
    have hptop := hpop.top
    rw [hback] at hptop
    -- the word popped last is the one that was pushed first
    have hword : some t = some (p.frame.cp.setWidth 64) := by
      rw [← ht, ← hcp, hkept.heap, hback, ← hpush.heap, hbody.cell_eq (by omega)]
      exact congrArg m₁.cell (by omega)
    refine ⟨p₃, by rw [hr, ← hres], BitVec.eq_of_toNat_eq (by omega), ?_, ?_⟩
    · rw [hcp₃, Option.some.inj hword, BitVec.setWidth_setWidth_of_le _ (by decide),
        BitVec.setWidth_eq]
    · refine hkept.trans ?_
      exact aboveKept_of_same rfl (by rw [hpop.proc]) (by rw [hpop.proc]) (by rw [hpop.proc])
  · omega

theorem AboveKept.stackKept (h : AboveKept p.stackTop.toNat m p m' p')
    (htop : p'.stackTop = p.stackTop) (hcp : p'.frame.cp = p.frame.cp) : StackKept m p m' p' :=
  ⟨htop, fun i hi _ => by rw [h.heap]; exact h.cell_eq hi, hcp⟩

theorem AboveKept.room (h : AboveKept floor m p m' p') (htop : p'.stackTop = p.stackTop) :
    p'.room = p.room := by
  rw [Process.room, Process.room, htop, h.heapTop]

/-! ### One tail call -/

theorem exec_allocate (code : List Instruction) (instr : Instruction) (ip : Nat)
    (hok : HeapOk s.mem (s.procs self))
    (hstack : (s.procs self).stackTop.toNat ≤ (s.procs self).heapCapacity.toNat)
    (hop : instr.opcode = .allocate) (hroom : instr.arg1.toNat + 1 ≤ (s.procs self).room) :
    ∃ s₁, s.exec code self instr ip = some (s₁, none, .goto (ip + 1)) ∧
      Pushed (instr.arg1.toNat + 1) s.mem (s.procs self) s₁.mem (s₁.procs self) := by
  obtain ⟨e, he⟩ := execAllocate_defined instr ip hok hstack
  have hexec : execInstr code instr s.mem (s.procs self) ip = some e := by
    rw [execInstr, hop]
    exact he
  rcases execAllocate_spec hok.nonnull he with ⟨_, hn, hev, hpush, _⟩ | ⟨hlt, _⟩
  · have hquiet := exec_quiet hexec fun _ _ h => by rw [hev] at h; cases h
    rw [hn, hev] at hquiet
    refine ⟨_, hquiet, ?_⟩
    dsimp only
    rw [Function.update_self]
    exact hpush
  · omega

/-- **`ALLOCATE`, a body and the end of the frame**: whichever instruction drops the frame, it
leaves the same machine, with the stack as it was before `ALLOCATE`. -/
theorem frame_restored {alloc : Instruction} {s₁ s₂ : Machine} {k ip₁ ip₂ : Nat}
    (hok : HeapOk s.mem (s.procs self))
    (hstack : (s.procs self).stackTop.toNat ≤ (s.procs self).heapCapacity.toNat)
    (hop : alloc.opcode = .allocate)
    (hx : s.exec code self alloc ip = some (s₁, none, .goto ip'))
    (hbody : Body code self k s₁ ip₁ s₂ ip₂)
    (hback : (s₂.procs self).stackTop = (s₁.procs self).stackTop) :
    ∃ s₃ : Machine, (s₃.procs self).stackTop = (s.procs self).stackTop ∧
      (s₃.procs self).frame.cp = (s.procs self).frame.cp ∧
      AboveKept (s.procs self).stackTop.toNat s.mem (s.procs self) s₃.mem (s₃.procs self) ∧
      ∀ (drop : Instruction) (i target : Nat),
        execInstr code drop s₂.mem (s₂.procs self) i
          = execDropFrame s₂.mem (s₂.procs self) alloc.arg1 target →
        s₂.exec code self drop i = some (s₃, none, .goto target) := by
  obtain ⟨e, he, h2⟩ := Option.bind_eq_some_iff.mp hx
  obtain ⟨s₁', hs, hr⟩ := Option.map_eq_some_iff.mp h2
  obtain ⟨rfl, hev, hn⟩ : s₁' = s₁ ∧ e.event = none ∧ e.next = .goto ip' := by
    simpa using hr
  rw [hev] at hs
  cases hs
  rw [execInstr, hop] at he
  rcases execAllocate_spec hok.nonnull he with ⟨_, _, _, hpush, hcp⟩ | ⟨_, hn', _⟩
  · dsimp only at hback
    have hkept := hbody.aboveKept
    dsimp only at hkept
    rw [Function.update_self] at hback hkept
    have hbody' := hkept (by rw [hpush.heap]; exact hok.nonnull) (Nat.le_refl _)
    obtain ⟨p₃, hpop, htop, hcp₃, habove⟩ := popFrame_restores hok hstack hpush hcp hbody' hback
    refine ⟨⟨s₂.mem, Function.update s₂.procs self p₃⟩, ?_⟩
    dsimp only
    rw [Function.update_self]
    refine ⟨htop, hcp₃, habove, fun drop i target hdrop => ?_⟩
    rw [execDropFrame, hpop, Option.map_some] at hdrop
    exact exec_goto hdrop
  · rw [hn] at hn'
    cases hn'

/-! ### Any number of tail calls -/

/-- A tail call: `ALLOCATE n`, a body that comes back to its stack top, and `CALL_LAST t n`. -/
inductive TailCall (code : List Instruction) (self : ProcId) :
    Nat → Machine → Nat → Machine → Nat → Prop
  | mk {k ip ip₂ ip' : Nat} {s s₁ s₂ s' : Machine} {alloc last : Instruction}
      (halloc : code[ip]? = some alloc) (hallocOp : alloc.opcode = .allocate)
      (hx : s.exec code self alloc ip = some (s₁, none, .goto (ip + 1)))
      (hbody : Body code self k s₁ (ip + 1) s₂ ip₂)
      (hback : (s₂.procs self).stackTop = (s₁.procs self).stackTop)
      (hlast : code[ip₂]? = some last) (hlastOp : last.opcode = .callLast)
      (hwords : last.arg2 = alloc.arg1)
      (hx' : s₂.exec code self last ip₂ = some (s', none, .goto ip')) :
      TailCall code self (1 + (k + 1)) s ip s' ip'

/-- `k` tail calls one after the other, each with a frame, a body and a target of its own. -/
inductive TailCalls (code : List Instruction) (self : ProcId) :
    Nat → Nat → Machine → Nat → Machine → Nat → Prop
  | done (s : Machine) (ip : Nat) : TailCalls code self 0 0 s ip s ip
  | next {k n n' ip ip₁ ip' : Nat} {s s₁ s' : Machine} (first : TailCall code self n s ip s₁ ip₁)
      (rest : TailCalls code self k n' s₁ ip₁ s' ip') :
      TailCalls code self (k + 1) (n + n') s ip s' ip'

theorem TailCall.steps (h : TailCall code self n s ip s' ip') : Steps code self n s ip s' ip' := by
  obtain ⟨halloc, _, hx, hbody, _, hlast, _, _, hx'⟩ := h
  exact (Steps.one halloc hx).trans (hbody.steps.trans (Steps.one hlast hx'))

theorem TailCall.stackKept (h : TailCall code self n s ip s' ip')
    (hok : HeapOk s.mem (s.procs self))
    (hstack : (s.procs self).stackTop.toNat ≤ (s.procs self).heapCapacity.toNat) :
    (s'.procs self).stackTop = (s.procs self).stackTop ∧
      (s'.procs self).frame.cp = (s.procs self).frame.cp ∧
      AboveKept (s.procs self).stackTop.toNat s.mem (s.procs self) s'.mem (s'.procs self) := by
  obtain @⟨k, _, ip₂, _, _, s₁, s₂, _, alloc, last, _, hop, hx, hbody, hback, _, hlastOp, hwords,
    hx'⟩ := h
  obtain ⟨s₃, htop, hcp, hkept, hdrop⟩ := frame_restored hok hstack hop hx hbody hback
  have hlast := hdrop last ip₂ last.arg1.toNat (by rw [execInstr, hlastOp, hwords])
  rw [hlast] at hx'
  cases hx'
  exact ⟨htop, hcp, hkept⟩

theorem TailCalls.steps {k : Nat} (h : TailCalls code self k n s ip s' ip') :
    Steps code self n s ip s' ip' := by
  induction h with
  | done s ip => exact .done s ip
  | next first _ ih => exact first.steps.trans ih

theorem TailCalls.stackKept {k : Nat} (h : TailCalls code self k n s ip s' ip') :
    HeapOk s.mem (s.procs self) →
    (s.procs self).stackTop.toNat ≤ (s.procs self).heapCapacity.toNat →
    (s'.procs self).stackTop = (s.procs self).stackTop ∧
      (s'.procs self).frame.cp = (s.procs self).frame.cp ∧
      AboveKept (s.procs self).stackTop.toNat s.mem (s.procs self) s'.mem (s'.procs self) := by
  induction h with
  | done s ip => exact fun _ _ => ⟨rfl, rfl, AboveKept.refl _ _ _⟩
  | next first _ ih =>
    intro hok hstack
    obtain ⟨htop, hcp, hkept⟩ := first.stackKept hok hstack
    obtain ⟨htop', hcp', hkept'⟩ := ih (hkept.heapOk hok)
      (by rw [htop, hkept.capacity]; exact hstack)
    rw [htop] at hkept'
    exact ⟨htop'.trans htop, hcp'.trans hcp, hkept.trans hkept'⟩

theorem exec_return (code : List Instruction) (self : ProcId) (s : Machine) (ip : Nat)
    (hop : instr.opcode = .return) :
    s.exec code self instr ip = some (s, none, .goto (s.procs self).frame.cp.toNat) := by
  have he : execInstr code instr s.mem (s.procs self) ip
      = some (.goto s.mem (s.procs self) (s.procs self).frame.cp.toNat) := by
    rw [execInstr, hop]
  rw [exec_goto he, Function.update_eq_self]

/-- **Tail calls run in constant stack.**  Where there is room for a frame, `ALLOCATE` succeeds, and
after any body `CALL_LAST` leaves the stack as it was before `ALLOCATE` and goes to its target, with
the machine that `DEALLOCATE` leaves for a jump.  After any number of such calls the stack and the
room are what they were, and a `RETURN` goes to the first caller.  Enough reductions carry a call of
the interpreter through all of it. -/
theorem tailCalls_constantStack (hok : HeapOk s.mem (s.procs self))
    (hstack : (s.procs self).stackTop.toNat ≤ (s.procs self).heapCapacity.toNat) :
    (∀ alloc : Instruction, code[ip]? = some alloc → alloc.opcode = .allocate →
      alloc.arg1.toNat + 1 ≤ (s.procs self).room →
      ∃ s₁, s.exec code self alloc ip = some (s₁, none, .goto (ip + 1)) ∧
        ∀ k s₂ ip₂, Body code self k s₁ (ip + 1) s₂ ip₂ →
          (s₂.procs self).stackTop = (s₁.procs self).stackTop →
          ∃ s₃, StackKept s.mem (s.procs self) s₃.mem (s₃.procs self) ∧
            (∀ last : Instruction, last.opcode = .callLast → last.arg2 = alloc.arg1 →
              s₂.exec code self last ip₂ = some (s₃, none, .goto last.arg1.toNat) ∧
              (code[ip₂]? = some last → RunsOn code self (k + 2) s ip s₃ last.arg1.toNat)) ∧
            ∀ drop : Instruction, drop.opcode = .deallocate → drop.arg1 = alloc.arg1 →
              s₂.exec code self drop ip₂ = some (s₃, none, .goto (ip₂ + 1)) ∧
              (code[ip₂]? = some drop → ∀ jump t, code[ip₂ + 1]? = some jump →
                s₃.exec code self jump (ip₂ + 1) = some (s₃, none, .goto t) →
                RunsOn code self (k + 3) s ip s₃ t)) ∧
    ∀ k n s' ip', TailCalls code self k n s ip s' ip' →
      StackKept s.mem (s.procs self) s'.mem (s'.procs self) ∧
      (s'.procs self).room = (s.procs self).room ∧ RunsOn code self n s ip s' ip' ∧
      ∀ ret, code[ip']? = some ret → ret.opcode = .return →
        RunsOn code self (n + 1) s ip s' (s.procs self).frame.cp.toNat := by
  refine ⟨fun alloc halloc hop hroom => ?_, fun k n s' ip' h => ?_⟩
  · obtain ⟨s₁, hx, _⟩ := exec_allocate code alloc ip hok hstack hop hroom
    refine ⟨s₁, hx, fun k s₂ ip₂ hbody hback => ?_⟩
    obtain ⟨s₃, htop, hcp, hkept, hdrop⟩ := frame_restored hok hstack hop hx hbody hback
    have hsteps : Steps code self (1 + k) s ip s₂ ip₂ := (Steps.one halloc hx).trans hbody.steps
    refine ⟨s₃, hkept.stackKept htop hcp, fun last hlastOp hwords => ?_,
      fun drop hdropOp hwords => ?_⟩
    · have hx' := hdrop last ip₂ last.arg1.toNat (by rw [execInstr, hlastOp, hwords])
      refine ⟨hx', fun hlast => ?_⟩
      rw [Nat.add_comm k 2]
      have hall := hsteps.trans (Steps.one hlast hx')
      rw [show 1 + k + 1 = 2 + k by omega] at hall
      exact hall.runsOn
    · have hx' := hdrop drop ip₂ (ip₂ + 1) (by rw [execInstr, hdropOp, hwords])
      refine ⟨hx', fun hdropAt jump t hjump hxj => ?_⟩
      have hall := hsteps.trans ((Steps.one hdropAt hx').trans (Steps.one hjump hxj))
      rw [show 1 + k + (1 + 1) = k + 3 by omega] at hall
      exact hall.runsOn
  · obtain ⟨htop, hcp, hkept⟩ := h.stackKept hok hstack
    refine ⟨hkept.stackKept htop hcp, hkept.room htop, h.steps.runsOn, fun ret hret hop => ?_⟩
    have hx := exec_return code self s' ip' hop
    rw [hcp] at hx
    exact (h.steps.trans (Steps.one hret hx)).runsOn

end

/-- A loop that calls itself with a frame of one word, around a body that pushes and pops
another. -/
def tailLoop : List Instruction :=
  [{ opcode := .allocate, arg1 := 1#32 }, { opcode := .allocate, arg1 := 0#32 },
    { opcode := .deallocate, arg1 := 0#32 }, { opcode := .callLast, arg1 := 0#32, arg2 := 1#32 }]

theorem heapOk_fresh : HeapOk freshMemory freshProcess := by
  refine ⟨by decide, by decide, by decide, by decide, by decide, by decide⟩

theorem tailLoop_turn {s : Machine} (hok : HeapOk s.mem (s.procs 0))
    (hstack : (s.procs 0).stackTop.toNat ≤ (s.procs 0).heapCapacity.toNat)
    (hroom : 3 ≤ (s.procs 0).room) : ∃ s', TailCall tailLoop 0 4 s 0 s' 0 := by
  obtain ⟨s₁, h0, hpush⟩ := exec_allocate tailLoop { opcode := .allocate, arg1 := 1#32 } 0 hok
    hstack rfl (Nat.le_trans (by decide) hroom)
  have hkept := hpush.aboveKept
  have hok₁ := hkept.heapOk hok
  have hstack₁ : (s₁.procs 0).stackTop.toNat ≤ (s₁.procs 0).heapCapacity.toNat := by
    rw [hkept.capacity]
    have := hpush.top
    omega
  have hroom₁ : 1 ≤ (s₁.procs 0).room := by
    rw [hpush.room]
    exact Nat.le_sub_of_add_le hroom
  obtain ⟨s₂, h1, hpush₁⟩ := exec_allocate tailLoop { opcode := .allocate, arg1 := 0#32 } 1 hok₁
    hstack₁ rfl hroom₁
  have hdown : (s₂.procs 0).stackTop.toNat ≤ (s₁.procs 0).stackTop.toNat := by
    have := hpush₁.top
    omega
  -- the inner frame comes off after an empty body, the outer one after the inner one
  obtain ⟨s₃, hback, _, _, hdrop₁⟩ := frame_restored hok₁ hstack₁ rfl h1
    (show Body tailLoop 0 0 s₂ 2 s₂ 2 from .done s₂ 2) rfl
  have h2 := hdrop₁ { opcode := .deallocate, arg1 := 0#32 } 2 3 rfl
  have hbody : Body tailLoop 0 2 s₁ 1 s₃ 3 := .step rfl h1 ⟨by decide, by decide, hdown⟩
    (.step rfl h2 ⟨by decide, by decide, by rw [hback]⟩ (.done s₃ 3))
  obtain ⟨s', _, _, _, hdrop⟩ := frame_restored hok hstack rfl h0 hbody hback
  have h3 := hdrop { opcode := .callLast, arg1 := 0#32, arg2 := 1#32 } 3 0 rfl
  exact ⟨s', .mk rfl rfl h0 hbody hback rfl rfl rfl h3⟩

theorem tailLoop_turns (k : Nat) : ∀ {s : Machine}, HeapOk s.mem (s.procs 0) →
    (s.procs 0).stackTop.toNat ≤ (s.procs 0).heapCapacity.toNat → 3 ≤ (s.procs 0).room →
      ∃ s', TailCalls tailLoop 0 k (4 * k) s 0 s' 0 := by
  induction k with
  | zero => exact fun _ _ _ => ⟨_, .done _ _⟩
  | succ k ih =>
    intro s hok hstack hroom
    obtain ⟨s₁, hturn⟩ := tailLoop_turn hok hstack hroom
    obtain ⟨htop, _, hkept⟩ := hturn.stackKept hok hstack
    obtain ⟨s', hrest⟩ := ih (hkept.heapOk hok) (by rw [htop, hkept.capacity]; exact hstack)
      (by rw [hkept.room htop]; exact hroom)
    rw [Nat.mul_succ, Nat.add_comm (4 * k)]
    exact ⟨s', .next hturn hrest⟩

/-- A million turns of the loop leave the stack of four words as it was. -/
theorem tailCalls_constantStack_tailLoop : ∃ s',
    TailCalls tailLoop 0 1000000 4000000 freshMachine 0 s' 0 ∧
      StackKept freshMemory freshProcess s'.mem (s'.procs 0) := by
  obtain ⟨s', hs'⟩ :=
    tailLoop_turns 1000000 (s := freshMachine) heapOk_fresh (by decide) (by decide)
  exact ⟨s', hs', ((tailCalls_constantStack heapOk_fresh (by decide)).2 _ _ s' 0 hs').1⟩

end BeamModular
