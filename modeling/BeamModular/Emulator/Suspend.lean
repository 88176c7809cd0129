import BeamModular.Emulator.Receive
import BeamModular.Emulator.Budget

/-!
# A receive without a match

The receive loop as the compiler lays it out: `LABEL r`, `LOOP_REC`, the tests, and
for a message that fails one of them `LABEL e`, `LOOP_REC_END r`; an empty mailbox
leads to `LABEL w`, `WAIT`.

After the last message the cursor is null, and `beam_mailbox_peek_save` takes a null
cursor for one that has not started.  So the loop begins again at the oldest message
and never comes to `WAIT` unless there is no message at all.  `InLoop` is the
invariant: the process is at one of the loop's instructions, with all its messages.
`suspends_iff_empty` draws the conclusion.
-/

namespace BeamModular

/-- A test of the interpreter on X registers. -/
inductive TestOp
  | isEqExact (r1 r2 : Fin numXRegisters)
  | isNeExact (r1 r2 : Fin numXRegisters)
  | isTuple (r1 : Fin numXRegisters)
  | isList (r1 : Fin numXRegisters)
  deriving DecidableEq, Repr

namespace TestOp

/-- The instruction that makes the test and jumps to `fail` when it does not hold. -/
def instruction (fail : BitVec 32) : TestOp → Instruction
  | isEqExact r1 r2 => { opcode := .testIsEqExact, arg1 := fail, arg2 := BitVec.ofNat 32 r1.val,
                         arg3 := BitVec.ofNat 32 r2.val }
  | isNeExact r1 r2 => { opcode := .testIsNeExact, arg1 := fail, arg2 := BitVec.ofNat 32 r1.val,
                         arg3 := BitVec.ofNat 32 r2.val }
  | isTuple r1 => { opcode := .testIsTuple, arg1 := fail, arg2 := BitVec.ofNat 32 r1.val }
  | isList r1 => { opcode := .testIsList, arg1 := fail, arg2 := BitVec.ofNat 32 r1.val }

/-- Whether the test holds; there is no result where it would read outside the live blocks. -/
def holds (m : Memory) (regs : Args) : TestOp → Option Bool
  | isEqExact r1 r2 => some (regs r1 == regs r2)
  | isNeExact r1 r2 => some (regs r1 != regs r2)
  | isTuple r1 => beamIsTuple m (regs r1)
  | isList r1 => some (beamIsList (regs r1) || beamIsNil (regs r1))

/-- Whether all tests hold, up to the first that does not. -/
def allHold (m : Memory) (regs : Args) : List TestOp → Option Bool
  | [] => some true
  | t :: ts => (t.holds m regs).bind fun b => if b then allHold m regs ts else some false

theorem exec_eq (code : List Instruction) (fail : BitVec 32) (m : Memory) (p : Process) (ip : Nat)
    (t : TestOp) : execInstr code (t.instruction fail) m p ip
      = (t.holds m p.frame.xRegs).map (execTest code (t.instruction fail) m p ip) := by
  cases t with
  | isEqExact r1 r2 =>
    simp [execInstr, instruction, execTestExact, xReg_ofNat, holds, Process.x]
  | isNeExact r1 r2 =>
    simp [execInstr, instruction, execTestExact, xReg_ofNat, holds, Process.x, bne]
  | isTuple r1 => simp [execInstr, instruction, execTestIsTuple, xReg_ofNat, holds, Process.x]
  | isList r1 => simp [execInstr, instruction, execTestIsList, xReg_ofNat, holds, Process.x]

@[simp] theorem instruction_arg1 (t : TestOp) (fail : BitVec 32) :
    (t.instruction fail).arg1 = fail := by
  cases t <;> rfl

end TestOp

/-- Code with a receive loop: where its labels stand and what follows them. -/
structure ReceiveLoop where
  code : List Instruction
  r : BitVec 32
  e : BitVec 32
  w : BitVec 32
  dst : Fin numXRegisters
  tests : List TestOp
  start : Nat
  failed : Nat
  empty : Nat
  label_r : findLabel code r.toNat = some start
  label_e : findLabel code e.toNat = some failed
  label_w : findLabel code w.toNat = some empty
  loopRec : code[start + 1]?.map (fun i => (i.opcode, i.arg1, i.arg2))
    = some (.loopRec, w, BitVec.ofNat 32 dst.val)
  test : ∀ k (h : k < tests.length), code[start + 2 + k]? = some (tests[k].instruction e)
  loopRecEnd : code[failed + 1]?.map (fun i => (i.opcode, i.arg1)) = some (.loopRecEnd, r)
  wait : code[empty + 1]?.map (fun i => i.opcode) = some .wait

/-- The message passes the tests of the loop, with the other registers as they are. -/
def ReceiveLoop.matchesMsg (loop : ReceiveLoop) (m : Memory) (regs : Args) (msg : Eterm) :
    Option Bool :=
  TestOp.allHold m (Function.update regs loop.dst msg) loop.tests

/-- **The receive suspends**: with enough reductions, one call of the interpreter looks at each
message once and ends in `WAIT`, with the process waiting and its mailbox as it was. -/
def Suspends (code : List Instruction) (self : ProcId) (s : Machine) (sched : ProcId → SchedInfo) :
    Prop :=
  ∃ enough : Int, ∀ reductions ≥ enough, ∃ sl,
    beamEmuExecuteCode code self (World.setReductions ⟨s, sched⟩ self reductions) = some sl ∧
      sl.res = .ok ∧ (sl.world.sched self).state = .waiting ∧
      sl.events = (s.procs self).mailbox.messages.map (fun x => .examined x.2) ∧
      (sl.world.procs self).mailbox.messages = (s.procs self).mailbox.messages

/-! ### One instruction of the loop -/

variable {loop : ReceiveLoop} {self : ProcId} {s : Machine}

theorem findLabel_spec {code : List Instruction} {lbl i : Nat} (h : findLabel code lbl = some i) :
    ∃ instr, code[i]? = some instr ∧ instr.opcode = .label := by
  obtain ⟨hlt, hp, _⟩ := List.findIdx?_eq_some_iff_getElem.mp h
  exact ⟨code[i], List.getElem?_eq_getElem hlt, (decide_eq_true_iff.mp hp).1⟩

theorem exec_quiet {code : List Instruction} {instr : Instruction} {ip : Nat} {e : Effect}
    (h : execInstr code instr s.mem (s.procs self) ip = some e)
    (hquiet : ∀ target msg, e.event ≠ some (.sent target msg)) :
    s.exec code self instr ip
      = some (⟨e.mem, Function.update s.procs self e.proc⟩, e.event, e.next) := by
  rw [Machine.exec, h, Option.bind_some]
  have hp : ∀ s' : Machine, s'.perform e.event = some s' := by
    intro s'
    unfold Machine.perform
    split
    · rename_i target msg he
      exact absurd he (hquiet target msg)
    · rfl
  rw [hp]
  rfl

theorem exec_goto {code : List Instruction} {instr : Instruction} {ip ip' : Nat} {p' : Process}
    (h : execInstr code instr s.mem (s.procs self) ip = some (.goto s.mem p' ip')) :
    s.exec code self instr ip
      = some (⟨s.mem, Function.update s.procs self p'⟩, none, .goto ip') :=
  exec_quiet h (fun _ _ he => by cases he)

theorem exec_wait (code : List Instruction) (self : ProcId) (s : Machine) (ip : Nat)
    {instr : Instruction} (hop : instr.opcode = .wait) :
    s.exec code self instr ip
      = some (⟨s.mem, Function.update s.procs self ((s.procs self).setIp ip)⟩, none,
          .ret .ok (some .waiting) none) := by
  have he : execInstr code instr s.mem (s.procs self) ip
      = some (execWait s.mem (s.procs self) ip) := by rw [execInstr, hop]
  exact exec_quiet he (fun _ _ h => by cases h)

/-! ### The loop never ends -/

/-- The instruction of the loop a process stands at; at a test, the tests that are left do not all
hold. -/
inductive LoopPos (loop : ReceiveLoop) (m : Memory) (regs : Args) : Nat → Prop
  | atStart : LoopPos loop m regs loop.start
  | atLoopRec : LoopPos loop m regs (loop.start + 1)
  | atTest (k : Nat) (left : TestOp.allHold m regs (loop.tests.drop k) = some false) :
      LoopPos loop m regs (loop.start + 2 + k)
  | atFailed : LoopPos loop m regs loop.failed
  | atLoopRecEnd : LoopPos loop m regs (loop.failed + 1)

/-- The process is in the loop, with the messages `L`; only the message register has changed. -/
structure InLoop (loop : ReceiveLoop) (proc : ProcId) (m : Memory) (regs : Args)
    (L : List (Nat × Eterm)) (s : Machine) (ip : Nat) : Prop where
  mem : s.mem = m
  others : ∀ i, i ≠ loop.dst → (s.procs proc).x i = regs i
  view : ∃ before after, (s.procs proc).mailbox.View before after ∧ before ++ after = L
  pos : LoopPos loop m (s.procs proc).frame.xRegs ip

section Forever

variable {m : Memory} {regs : Args} {L : List (Nat × Eterm)} {ip : Nat}

theorem InLoop.of_update {p' : Process} {ip' : Nat} (hmem : s.mem = m)
    (hothers : ∀ i, i ≠ loop.dst → p'.x i = regs i)
    (hview : ∃ before after, p'.mailbox.View before after ∧ before ++ after = L)
    (hpos : LoopPos loop m p'.frame.xRegs ip') :
    InLoop loop self m regs L ⟨s.mem, Function.update s.procs self p'⟩ ip' := by
  refine ⟨hmem, ?_, ?_, ?_⟩ <;> dsimp only <;> rw [Function.update_self]
  · exact hothers
  · exact hview
  · exact hpos

theorem InLoop.regs_setX (h : InLoop loop self m regs L s ip) (v : Eterm) :
    Function.update (s.procs self).frame.xRegs loop.dst v = Function.update regs loop.dst v := by
  funext i
  rw [Function.update_apply, Function.update_apply]
  split
  · rfl
  · exact h.others i ‹_›

theorem InLoop.examine (h : InLoop loop self m regs L s ip) {mb : Mailbox} {x : Nat × Eterm}
    {before after : List (Nat × Eterm)} (hv : mb.View before after) (hL : before ++ after = L)
    (hx : loop.matchesMsg m regs x.2 = some false) :
    InLoop loop self m regs L
      ⟨s.mem, Function.update s.procs self
        (Process.setX { s.procs self with mailbox := mb } loop.dst x.2)⟩ (loop.start + 1 + 1) := by
  refine InLoop.of_update h.mem (fun i hi => ?_) ⟨before, after, hv, hL⟩ (.atTest 0 ?_)
  · rw [← h.others i hi]
    exact Function.update_of_ne hi _ _
  · rw [List.drop_zero]
    show TestOp.allHold m (Function.update (s.procs self).frame.xRegs loop.dst x.2) loop.tests = _
    rw [h.regs_setX]
    exact hx

/-- The next instruction is one of the loop and leads to another one of the loop. -/
def GoesOn (loop : ReceiveLoop) (proc : ProcId) (m : Memory) (regs : Args)
    (L : List (Nat × Eterm)) (s : Machine) (ip : Nat) : Prop :=
  ∃ instr r ip', loop.code[ip]? = some instr ∧ s.exec loop.code proc instr ip = some r ∧
    r.2.2 = .goto ip' ∧ InLoop loop proc m regs L r.1 ip'

theorem InLoop.goesOn_goto (h : InLoop loop self m regs L s ip) {instr : Instruction} {ip' : Nat}
    (hc : loop.code[ip]? = some instr)
    (he : execInstr loop.code instr s.mem (s.procs self) ip = some (.goto s.mem (s.procs self) ip'))
    (hpos : LoopPos loop m (s.procs self).frame.xRegs ip') : GoesOn loop self m regs L s ip :=
  ⟨instr, _, _, hc, exec_goto he, rfl, .of_update h.mem h.others h.view hpos⟩

theorem InLoop.goesOn_label (h : InLoop loop self m regs L s ip) {lbl : Nat}
    (hl : findLabel loop.code lbl = some ip)
    (hpos : LoopPos loop m (s.procs self).frame.xRegs (ip + 1)) :
    GoesOn loop self m regs L s ip := by
  obtain ⟨instr, hc, hop⟩ := findLabel_spec hl
  exact h.goesOn_goto hc (by rw [execInstr, hop]) hpos

/-- `LOOP_REC` puts a message into the register, the first one again behind the last. -/
theorem InLoop.goesOn_loopRec (hne : L ≠ [])
    (hnone : ∀ x ∈ L, loop.matchesMsg m regs x.2 = some false)
    (h : InLoop loop self m regs L s (loop.start + 1)) :
    GoesOn loop self m regs L s (loop.start + 1) := by
  obtain ⟨before, after, hv, hL⟩ := h.view
  obtain ⟨instr, hc, hi⟩ := Option.map_eq_some_iff.mp loop.loopRec
  simp only [Prod.mk.injEq] at hi
  obtain ⟨hop, _, hdst⟩ := hi
  have hreg : xReg instr.arg2 = some loop.dst := by rw [hdst, xReg_ofNat]
  have hexec : execInstr loop.code instr s.mem (s.procs self) (loop.start + 1)
      = execLoopRec loop.code instr s.mem (s.procs self) (loop.start + 1) := by
    rw [execInstr, hop]
  cases after with
  | cons x after =>
    have he := hexec.trans (execLoopRec_view hv hreg)
    exact ⟨instr, _, _, hc, exec_quiet he (fun _ _ hc => by cases hc), rfl,
      h.examine hv hL (hnone x (hL ▸ by simp))⟩
  | nil =>
    -- past the last message: the search begins again
    cases before with
    | nil => exact absurd hL.symm hne
    | cons x before =>
      have he := hexec.trans (execLoopRec_restart hv hreg)
      exact ⟨instr, _, _, hc, exec_quiet he (fun _ _ hc => by cases hc), rfl,
        h.examine (Mailbox.resetSaveCursor_view hv) (by simpa using hL)
          (hnone x (hL ▸ by simp))⟩

/-- A test that holds leads to the next one.  Some test that is left fails. -/
theorem InLoop.goesOn_test {k : Nat} (h : InLoop loop self m regs L s (loop.start + 2 + k))
    (hleft : TestOp.allHold m (s.procs self).frame.xRegs (loop.tests.drop k) = some false) :
    GoesOn loop self m regs L s (loop.start + 2 + k) := by
  have hk : k < loop.tests.length := by
    by_contra hge
    rw [List.drop_eq_nil_of_le (by omega)] at hleft
    cases hleft
  rw [List.drop_eq_getElem_cons hk, TestOp.allHold] at hleft
  obtain ⟨b, hb, hrest⟩ := Option.bind_eq_some_iff.mp hleft
  have he := TestOp.exec_eq loop.code loop.e s.mem (s.procs self) (loop.start + 2 + k) loop.tests[k]
  rw [h.mem, hb, Option.map_some, execTest, TestOp.instruction_arg1] at he
  rw [← h.mem] at he
  cases b with
  | true => exact h.goesOn_goto (loop.test k hk) he (.atTest (k + 1) hrest)
  | false =>
    have hjump : jumpToLabel loop.code loop.e.toNat (loop.start + 2 + k) = loop.failed := by
      rw [jumpToLabel, loop.label_e, Option.getD_some]
    rw [if_neg (by decide), hjump] at he
    exact h.goesOn_goto (loop.test k hk) he .atFailed

theorem InLoop.goesOn_loopRecEnd (h : InLoop loop self m regs L s (loop.failed + 1)) :
    GoesOn loop self m regs L s (loop.failed + 1) := by
  obtain ⟨before, after, hv, hL⟩ := h.view
  obtain ⟨instr, hc, hi⟩ := Option.map_eq_some_iff.mp loop.loopRecEnd
  simp only [Prod.mk.injEq] at hi
  obtain ⟨hop, harg⟩ := hi
  have hjump : jumpToLabel loop.code instr.arg1.toNat (loop.failed + 1) = loop.start := by
    rw [harg, jumpToLabel, loop.label_r, Option.getD_some]
  have hexec : execInstr loop.code instr s.mem (s.procs self) (loop.failed + 1)
      = execLoopRecEnd loop.code instr s.mem (s.procs self) (loop.failed + 1) := by
    rw [execInstr, hop]
  cases after with
  | cons x after =>
    obtain ⟨mb, he, hv', _, _⟩ := execLoopRecEnd_view loop.code instr s.mem (loop.failed + 1) hv
    rw [hjump] at he
    exact ⟨instr, _, _, hc, exec_goto (hexec.trans he), rfl,
      .of_update h.mem h.others ⟨_, _, hv', by simpa using hL⟩ .atStart⟩
  | nil =>
    refine h.goesOn_goto hc ?_ .atStart
    rw [hexec, execLoopRecEnd, Mailbox.advanceSave_view_null hv, hjump]
    rfl

/-- **Every instruction of the loop leads to another one of the loop**, as long as there is a
message and none passes. -/
theorem inLoop_step (hne : L ≠ []) (hnone : ∀ x ∈ L, loop.matchesMsg m regs x.2 = some false)
    (h : InLoop loop self m regs L s ip) : GoesOn loop self m regs L s ip := by
  cases h.pos with
  | atStart => exact h.goesOn_label loop.label_r .atLoopRec
  | atLoopRec => exact h.goesOn_loopRec hne hnone
  | atTest k hleft => exact h.goesOn_test hleft
  | atFailed => exact h.goesOn_label loop.label_e .atLoopRecEnd
  | atLoopRecEnd => exact h.goesOn_loopRecEnd

/-- However many instructions it executes, the process is still in the loop. -/
theorem runFor_inLoop (hne : L ≠ []) (hnone : ∀ x ∈ L, loop.matchesMsg m regs x.2 = some false) :
    ∀ (n : Nat) {s : Machine} {ip : Nat}, InLoop loop self m regs L s ip →
      ∃ pr ip', s.runFor loop.code self n ip = some pr ∧ pr.status = .running ip' ∧
        ip' < loop.code.length := by
  intro n
  induction n with
  | zero =>
    intro s ip h
    obtain ⟨instr, _, _, hc, _⟩ := inLoop_step hne hnone h
    exact ⟨_, ip, rfl, rfl, (List.getElem?_eq_some_iff.mp hc).1⟩
  | succ n ih =>
    intro s ip h
    obtain ⟨instr, r, ip', hc, hx, hn, h'⟩ := inLoop_step hne hnone h
    obtain ⟨pr, ip'', hpr, hst, hlt⟩ := ih h'
    exact ⟨pr.cons ip r.2.1, ip'', by rw [Machine.runFor_goto hc hx hn, hpr]; rfl, hst, hlt⟩

end Forever

/-! ### An empty mailbox -/

/-- With no message the loop ends in `WAIT` after four instructions. -/
theorem runFor_empty (loop : ReceiveLoop) (hv : (s.procs self).mailbox.View [] []) (n : Nat) :
    ∃ pr, s.runFor loop.code self (n + 4) loop.start = some pr ∧
      pr.status = .returned .ok (some .waiting) none ∧ pr.events = [] ∧
      (pr.machine.procs self).mailbox.messages = [] := by
  obtain ⟨ir, hcr, hopr⟩ := findLabel_spec loop.label_r
  obtain ⟨iw, hcw, hopw⟩ := findLabel_spec loop.label_w
  obtain ⟨il, hcl, hi⟩ := Option.map_eq_some_iff.mp loop.loopRec
  simp only [Prod.mk.injEq] at hi
  obtain ⟨hopl, harg, _⟩ := hi
  obtain ⟨it, hct, hopt⟩ := Option.map_eq_some_iff.mp loop.wait
  have hjump : jumpToLabel loop.code il.arg1.toNat (loop.start + 1) = loop.empty := by
    rw [harg, jumpToLabel, loop.label_w, Option.getD_some]
  -- `LABEL r`
  have hx₁ : s.exec loop.code self ir loop.start = some (s, none, .goto (loop.start + 1)) := by
    have hx := exec_goto (show execInstr loop.code ir s.mem (s.procs self) loop.start
      = some (.goto s.mem (s.procs self) (loop.start + 1)) by rw [execInstr, hopr])
    rw [Function.update_eq_self] at hx
    exact hx
  -- `LOOP_REC` finds nothing
  let p₂ : Process :=
    { s.procs self with mailbox := (s.procs self).mailbox.resetSaveCursor.resetSaveCursor }
  let s₂ : Machine := ⟨s.mem, Function.update s.procs self p₂⟩
  have hp₂ : s₂.procs self = p₂ := Function.update_self _ _ _
  have hx₂ : s.exec loop.code self il (loop.start + 1) = some (s₂, none, .goto loop.empty) := by
    refine exec_goto ?_
    rw [execInstr, hopl]
    dsimp only
    rw [execLoopRec_empty hv, hjump]
  -- `LABEL w`
  have hx₃ : s₂.exec loop.code self iw loop.empty = some (s₂, none, .goto (loop.empty + 1)) := by
    have hx := exec_goto (show execInstr loop.code iw s₂.mem (s₂.procs self) loop.empty
      = some (.goto s₂.mem (s₂.procs self) (loop.empty + 1)) by rw [execInstr, hopw])
    rw [Function.update_eq_self] at hx
    exact hx
  -- `WAIT`
  have hx₄ := exec_wait loop.code self s₂ (loop.empty + 1) hopt
  refine ⟨_, by rw [Machine.runFor_goto hcr hx₁ rfl, Machine.runFor_goto hcl hx₂ rfl,
    Machine.runFor_goto hcw hx₃ rfl, Machine.runFor_ret hct hx₄ rfl]; rfl, rfl, rfl, ?_⟩
  have hview := Mailbox.resetSaveCursor_view (Mailbox.resetSaveCursor_view hv)
  simp only [Progress.cons, Function.update_self, Process.setIp, hp₂]
  exact hview.messages_eq

/-! ### Both together -/

theorem start_view (code : List Instruction) {before after : List (Nat × Eterm)}
    (hv : (s.procs self).mailbox.View before after) :
    ((s.start code self).procs self).mailbox.View before after := by
  simp only [Machine.start, Function.update_self, initCp_mailbox]
  exact hv

theorem ReceiveLoop.code_ne_nil (loop : ReceiveLoop) : loop.code ≠ [] := by
  obtain ⟨_, hc, _⟩ := findLabel_spec loop.label_r
  intro he
  rw [he] at hc
  cases hc

theorem reductions_setReductions (w : World) (self : ProcId) (r : Int) :
    ((w.setReductions self r).sched self).reductions = r := by
  simp [World.setReductions]

section Suspends

variable (loop)
variable {sched : ProcId → SchedInfo} {L : List (Nat × Eterm)}

/-- With messages and no match the process is cut in the loop, whatever its reductions. -/
theorem not_suspends (hip : (s.procs self).frame.ip = loop.start)
    (hv : (s.procs self).mailbox.View [] L)
    (hnone : ∀ x ∈ L, loop.matchesMsg s.mem (s.procs self).frame.xRegs x.2 = some false)
    (hne : L ≠ []) : ¬ Suspends loop.code self s sched := by
  rintro ⟨enough, hsus⟩
  obtain ⟨sl, hsl, _, hstate, _⟩ := hsus enough (le_refl _)
  have hin : InLoop loop self s.mem (s.procs self).frame.xRegs L
      (s.start loop.code self) loop.start := by
    refine ⟨rfl, fun i _ => ?_, ⟨[], L, start_view loop.code hv, rfl⟩, .atStart⟩
    simp only [Process.x, Machine.start, Function.update_self, initCp_xRegs]
  obtain ⟨pr, ip', hpr, hst, hlt⟩ := runFor_inLoop hne hnone (enough - 1).toNat hin
  rw [show World.setReductions ⟨s, sched⟩ self enough
      = ⟨s, (World.setReductions ⟨s, sched⟩ self enough).sched⟩ from rfl,
    beamEmuExecuteCode_eq loop.code_ne_nil, hip, reductions_setReductions, hpr,
    Option.map_some] at hsl
  cases hsl
  rw [(slice_cut self _ hst hlt).2.1] at hstate
  cases hstate

theorem suspends_of_empty (hip : (s.procs self).frame.ip = loop.start)
    (hv : (s.procs self).mailbox.View [] []) : Suspends loop.code self s sched := by
  refine ⟨5, fun r hr => ?_⟩
  obtain ⟨n, hn⟩ : ∃ n, (r - 1).toNat = n + 4 := ⟨(r - 1).toNat - 4, by omega⟩
  obtain ⟨pr, hpr, hst, hev, hmsgs⟩ := runFor_empty loop (start_view loop.code hv) n
  obtain ⟨hres, hstate, hm⟩ := slice_returned loop.code self
    (World.setReductions ⟨s, sched⟩ self r).sched hst
  refine ⟨pr.slice loop.code self (World.setReductions ⟨s, sched⟩ self r).sched, ?_, hres,
    hstate, ?_, ?_⟩
  · rw [show World.setReductions ⟨s, sched⟩ self r
      = ⟨s, (World.setReductions ⟨s, sched⟩ self r).sched⟩ from rfl,
      beamEmuExecuteCode_eq loop.code_ne_nil, hip, reductions_setReductions, hn, hpr]
    rfl
  · rw [slice_events, hev, hv.messages_eq]
    rfl
  · rw [hm, hmsgs, hv.messages_eq]
    rfl

/-- **A receive without a match suspends exactly when the mailbox is empty.**  With the cursor on
the oldest message and no message that passes the tests, the loop comes to `WAIT` if there is no
message; with messages it goes round for ever. -/
theorem suspends_iff_empty (hip : (s.procs self).frame.ip = loop.start)
    (hv : (s.procs self).mailbox.View [] L)
    (hnone : ∀ x ∈ L, loop.matchesMsg s.mem (s.procs self).frame.xRegs x.2 = some false) :
    Suspends loop.code self s sched ↔ L = [] := by
  constructor
  · intro hsus
    by_contra hne
    exact not_suspends loop hip hv hnone hne hsus
  · rintro rfl
    exact suspends_of_empty loop hip hv

end Suspends

/-- A receive of a list. -/
def receiveList : ReceiveLoop where
  code :=
    [{ opcode := .label, arg1 := 1#32 },
     { opcode := .loopRec, arg1 := 3#32, arg2 := 0#32 },
     { opcode := .testIsList, arg1 := 2#32, arg2 := 0#32 },
     { opcode := .removeMessage },
     { opcode := .halt },
     { opcode := .label, arg1 := 2#32 },
     { opcode := .loopRecEnd, arg1 := 1#32 },
     { opcode := .label, arg1 := 3#32 },
     { opcode := .wait }]
  r := 1#32
  e := 2#32
  w := 3#32
  dst := 0
  tests := [.isList 0]
  start := 0
  failed := 5
  empty := 7
  label_r := by decide
  label_e := by decide
  label_w := by decide
  loopRec := by decide
  test k h := by
    have hk : k = 0 := by simpa using h
    subst hk
    rfl
  loopRecEnd := by decide
  wait := by decide

theorem suspends_iff_empty_fresh :
    Suspends receiveList.code 0 freshMachine (fun _ => SchedInfo.create) :=
  (suspends_iff_empty receiveList (s := freshMachine) (L := []) rfl
    (Mailbox.view_create _) (fun x hx => absurd hx (by simp))).mpr rfl

/-- A mailbox with the integer 7 and the cursor on it. -/
def mailboxOfSeven : Mailbox where
  nodes := [some ⟨makeSmallInt 7#64, none⟩]
  head := some 0
  tail := some 0
  saveCursor := some 0
  savePrev := none
  atomicCount := 1
  count := 1
  alloc _ := true

/-- **One message that is not a list**, and the receive of a list never suspends. -/
theorem receiveList_loops :
    mailboxOfSeven.View [] [(0, makeSmallInt 7#64)] ∧
      receiveList.matchesMsg freshMemory freshProcess.frame.xRegs (makeSmallInt 7#64) = some false ∧
      ¬ Suspends receiveList.code 0
        ⟨freshMemory, fun _ => { freshProcess with mailbox := mailboxOfSeven }⟩
        (fun _ => SchedInfo.create) := by
  have hv : mailboxOfSeven.View [] [(0, makeSmallInt 7#64)] :=
    ⟨⟨rfl, none, rfl, rfl⟩, rfl, rfl, fun _ => rfl⟩
  have hm : receiveList.matchesMsg freshMemory freshProcess.frame.xRegs (makeSmallInt 7#64)
      = some false := by decide
  refine ⟨hv, hm, not_suspends receiveList (L := [(0, makeSmallInt 7#64)]) rfl hv ?_
    (by simp)⟩
  intro x hx
  rw [List.mem_singleton.mp hx]
  exact hm

end BeamModular
