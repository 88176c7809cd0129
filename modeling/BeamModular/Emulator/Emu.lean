import BeamModular.Emulator.Bif

/-!
# The interpreter

`src/emulator/beam_emu.c`: `beam_emu_execute_code` with all its instructions.

One instruction is a function of the code, the memory and the process it runs in
(`execInstr`); it cannot see the other processes and it cannot see the scheduler's
part of its own.  What it does to them is said in its `Effect`: the message it
sends, the message a receive looks at, the state it leaves the process in when it
returns.  The loop around it (`beamEmuLoop`) takes one reduction for each
instruction and delivers the messages.

A label operand names a `LABEL` for the instructions that jump through
`JUMP_TO_LABEL` and an index into the code for `CALL` and `CALL_LAST`, as in the
source.  An X register index that is not checked by the source and out of range has
no result, and neither has a read or a write outside the live blocks.  Signed
arithmetic wraps.
-/

namespace BeamModular

/-- A process, by the pointer that names it. -/
abbrev ProcId := Nat

/-- `beam_opcode_t`; `other` is a number the enumeration has no name for, which the decoder
can store all the same. -/
inductive Opcode
  | label
  | move
  | add
  | sub
  | mul
  | intDiv
  | allocate
  | deallocate
  | call
  | return
  | send
  | receive
  | matchTuple
  | getTupleElement
  | testIsEqExact
  | testIsNeExact
  | testIsTuple
  | testIsList
  | getList
  | selectVal
  | callExt
  | callLast
  | makeFun2
  | loopRec
  | loopRecEnd
  | removeMessage
  | wait
  | try
  | tryCase
  | catch
  | tryEnd
  | raise
  | tryCaseEnd
  | halt
  | other (code : Nat)
  deriving DecidableEq, Repr

/-- `struct beam_instruction`. -/
structure Instruction where
  opcode : Opcode
  arg1 : BitVec 32 := 0#32
  arg2 : BitVec 32 := 0#32
  arg3 : BitVec 32 := 0#32
  literal : Eterm := 0#64
  targetProc : Option ProcId := none
  extraArgs : Option (List Eterm) := none
  extraCount : Nat := 0
  deriving DecidableEq, Repr

/-- What a process does that can be seen from outside of it. -/
inductive Event
  | sent (target : ProcId) (msg : Eterm)
  | examined (msg : Eterm)
  deriving DecidableEq, Repr

/-- Where the interpreter goes after an instruction: to another one, or back to its caller with
a result, the state it sets and what it stores through `out_result`. -/
inductive Next
  | goto (ip : Nat)
  | ret (res : Result) (state : Option ProcState) (out : Option Eterm)
  deriving DecidableEq, Repr

/-- What one instruction does. -/
structure Effect where
  mem : Memory
  proc : Process
  event : Option Event
  next : Next

namespace Effect

def goto (m : Memory) (p : Process) (ip : Nat) : Effect := ⟨m, p, none, .goto ip⟩

def fail (m : Memory) (p : Process) (res : Result) : Effect := ⟨m, p, none, .ret res none none⟩

end Effect

/-! ### Registers, labels and the stack -/

/-- The register an operand names, if it is one. -/
def xReg (r : BitVec 32) : Option (Fin numXRegisters) :=
  if h : r.toNat < numXRegisters then some ⟨r.toNat, h⟩ else none

def Process.x (p : Process) (i : Fin numXRegisters) : Eterm := p.frame.xRegs i

def Process.setX (p : Process) (i : Fin numXRegisters) (v : Eterm) : Process :=
  { p with frame := { p.frame with xRegs := Function.update p.frame.xRegs i v } }

@[simp] theorem Process.x_setX_self (p : Process) (i : Fin numXRegisters) (v : Eterm) :
    (p.setX i v).x i = v := by
  simp [x, setX]

def Process.setCp (p : Process) (cp : BitVec 32) : Process :=
  { p with frame := { p.frame with cp := cp } }

def Process.setIp (p : Process) (ip : Nat) : Process := { p with frame := { p.frame with ip := ip } }

/-- The first `LABEL` of that number. -/
def findLabel (code : List Instruction) (lbl : Nat) : Option Nat :=
  code.findIdx? fun i => i.opcode = .label ∧ i.arg1.toNat = lbl

/-- `JUMP_TO_LABEL`: to the label, or nowhere when there is none. -/
def jumpToLabel (code : List Instruction) (lbl ip : Nat) : Nat := (findLabel code lbl).getD ip

/-- Push `words` zeros, up to the first push that is refused. -/
def pushWords : Nat → Memory → Process → Option (Memory × Process × Result)
  | 0, m, p => some (m, p, .ok)
  | words + 1, m, p =>
    (beamProcessStackPush m p 0#64).bind fun r =>
      if r.2.2 = .ok then pushWords words r.1 r.2.1 else some r

/-- Pop `words` words and then the continuation pointer, up to the first pop that is refused. -/
def popFrame (m : Memory) : Nat → Process → Option (Process × Result)
  | 0, p =>
    (beamProcessStackPop m p).map fun r =>
      match r.2 with
      | .error e => (r.1, e)
      | .ok cp => (r.1.setCp (cp.setWidth 32), .ok)
  | words + 1, p =>
    (beamProcessStackPop m p).bind fun r =>
      match r.2 with
      | .error e => some (r.1, e)
      | .ok _ => popFrame m words r.1

/-! ### The instructions -/

section

variable (code : List Instruction) (instr : Instruction) (m : Memory) (p : Process) (ip : Nat)

/-- `BEAM_OP_MOVE` stores the literal. -/
def execMove : Effect :=
  match xReg instr.arg2 with
  | some dst => .goto m (p.setX dst instr.literal) (ip + 1)
  | none => .goto m p (ip + 1)

/-- `BEAM_OP_ADD`, `BEAM_OP_SUB`, `BEAM_OP_MUL`. -/
def execArith (op : Word → Word → Word) : Effect :=
  match xReg instr.arg1, xReg instr.arg2, xReg instr.arg3 with
  | some r1, some r2, some dst =>
    .goto m (p.setX dst (makeSmallInt (op (etermToSmallInt (p.x r1)) (etermToSmallInt (p.x r2)))))
      (ip + 1)
  | _, _, _ => .goto m p (ip + 1)

/-- `BEAM_OP_INT_DIV`. -/
def execIntDiv : Effect :=
  match xReg instr.arg1, xReg instr.arg2, xReg instr.arg3 with
  | some r1, some r2, some dst =>
    let v1 := etermToSmallInt (p.x r1)
    let v2 := etermToSmallInt (p.x r2)
    if v2 = 0#64 then .fail m p .errBadarg
    else .goto m (p.setX dst (makeSmallInt (v1.sdiv v2))) (ip + 1)
  | _, _, _ => .goto m p (ip + 1)

/-- `BEAM_OP_ALLOCATE`. -/
def execAllocate : Option Effect :=
  (beamProcessStackPush m p (p.frame.cp.setWidth 64)).bind fun r =>
    if r.2.2 = .ok then
      (pushWords instr.arg1.toNat r.1 r.2.1).map fun r =>
        if r.2.2 = .ok then .goto r.1 r.2.1 (ip + 1) else .fail r.1 r.2.1 r.2.2
    else some (.fail r.1 r.2.1 r.2.2)

/-- `BEAM_OP_DEALLOCATE` and `BEAM_OP_CALL_LAST`: drop a frame and go on at `target`. -/
def execDropFrame (words : BitVec 32) (target : Nat) : Option Effect :=
  (popFrame m words.toNat p).map fun r =>
    if r.2 = .ok then .goto m r.1 target else .fail m r.1 r.2

/-- `BEAM_OP_SEND`. -/
def execSend : Effect :=
  match xReg instr.arg1, instr.targetProc with
  | some reg, some target => ⟨m, p, some (.sent target (p.x reg)), .goto (ip + 1)⟩
  | _, _ => .goto m p (ip + 1)

/-- `BEAM_OP_LOOP_REC`. -/
def execLoopRec : Option Effect :=
  p.mailbox.peekSave.map fun r =>
    match r.2 with
    | .ok msg =>
      let p := { p with mailbox := r.1 }
      let p := match xReg instr.arg2 with
        | some dst => p.setX dst msg
        | none => p
      ⟨m, p, some (.examined msg), .goto (ip + 1)⟩
    | .error _ =>
      .goto m { p with mailbox := r.1.resetSaveCursor } (jumpToLabel code instr.arg1.toNat ip)

/-- `BEAM_OP_REMOVE_MESSAGE`. -/
def execRemoveMessage : Option Effect :=
  p.mailbox.removeCurrent.map fun r => .goto m { p with mailbox := r.1 } (ip + 1)

/-- `BEAM_OP_LOOP_REC_END`. -/
def execLoopRecEnd : Option Effect :=
  p.mailbox.advanceSave.map fun mb =>
    .goto m { p with mailbox := mb } (jumpToLabel code instr.arg1.toNat ip)

/-- `BEAM_OP_WAIT`. -/
def execWait : Effect := ⟨m, p.setIp ip, none, .ret .ok (some .waiting) none⟩

/-- `BEAM_OP_TRY` and `BEAM_OP_CATCH`. -/
def execTry : Effect :=
  if h : p.frame.catchDepth < maxCatchDepth then
    let cf : CatchFrame := ⟨instr.arg1.toNat, p.stackTop, p.frame.cp⟩
    .goto m { p with frame := { p.frame with
      catchStack := Function.update p.frame.catchStack ⟨p.frame.catchDepth, h⟩ cf
      catchDepth := p.frame.catchDepth + 1
      catchIp := instr.arg1.toNat
      catchSp := p.stackTop } } (ip + 1)
  else .fail m p .errNoMemory

/-- The catch frame at a depth, if it is one of the array. -/
def catchAt (f : Frame) (depth : Nat) : Option CatchFrame :=
  if h : depth < maxCatchDepth then some (f.catchStack ⟨depth, h⟩) else none

/-- `BEAM_OP_TRY_END`. -/
def execTryEnd : Option Effect :=
  match p.frame.catchDepth with
  | 0 => some (.goto m p (ip + 1))
  | 1 => some (.goto m { p with frame := { p.frame with
      catchDepth := 0, catchIp := 0, catchSp := 0#64 } } (ip + 1))
  | depth + 2 => (catchAt p.frame depth).map fun prev =>
      .goto m { p with frame := { p.frame with
        catchDepth := depth + 1
        catchIp := prev.catchLabel
        catchSp := prev.catchStackTop } } (ip + 1)

/-- `BEAM_OP_RAISE`. -/
def execRaise : Option Effect :=
  let exc := match xReg instr.arg1 with
    | some r => p.x r
    | none => 0#64
  match p.frame.catchDepth with
  | 0 => some ⟨m, p, none, .ret .errException (some .exited) none⟩
  | depth + 1 => (catchAt p.frame depth).map fun cf =>
      let p := { p with stackTop := cf.catchStackTop
                        frame := { p.frame with catchDepth := depth } }
      .goto m (p.setX 0 exc) (jumpToLabel code cf.catchLabel ip)

/-- `BEAM_OP_MATCH_TUPLE`. -/
def execMatchTuple : Option Effect :=
  match xReg instr.arg1 with
  | none => some (.goto m p (ip + 1))
  | some src =>
    (beamIsTuple m (p.x src)).bind fun isTuple =>
      (beamTupleArity m (p.x src)).map fun arity =>
        if isTuple ∧ arity = instr.arg2.setWidth 64 then .goto m p (ip + 1)
        else .fail m p .errBadarg

/-- `BEAM_OP_GET_TUPLE_ELEMENT`. -/
def execGetTupleElement : Option Effect :=
  match xReg instr.arg1, xReg instr.arg3 with
  | some src, some dst =>
    (beamTupleElement m (p.x src) instr.arg2.toNat).map fun e => .goto m (p.setX dst e) (ip + 1)
  | _, _ => some (.goto m p (ip + 1))

/-- A test: on, or to the `LABEL` of the first operand. -/
def execTest (holds : Bool) : Effect :=
  if holds then .goto m p (ip + 1) else .goto m p (jumpToLabel code instr.arg1.toNat ip)

/-- `BEAM_OP_TEST_IS_EQ_EXACT` and `BEAM_OP_TEST_IS_NE_EXACT`. -/
def execTestExact (same : Bool) : Option Effect :=
  (xReg instr.arg2).bind fun r1 =>
    (xReg instr.arg3).map fun r2 => execTest code instr m p ip ((p.x r1 == p.x r2) == same)

/-- `BEAM_OP_TEST_IS_TUPLE`. -/
def execTestIsTuple : Option Effect :=
  (xReg instr.arg2).bind fun r1 => (beamIsTuple m (p.x r1)).map (execTest code instr m p ip)

/-- `BEAM_OP_TEST_IS_LIST`. -/
def execTestIsList : Option Effect :=
  (xReg instr.arg2).map fun r1 =>
    execTest code instr m p ip (beamIsList (p.x r1) || beamIsNil (p.x r1))

/-- `BEAM_OP_GET_LIST`. -/
def execGetList : Option Effect :=
  (xReg instr.arg1).bind fun src =>
    let list := p.x src
    if beamIsList list then
      (xReg instr.arg2).bind fun head => (beamListHead m list).bind fun h =>
        (xReg instr.arg3).bind fun tail => (beamListTail m list).map fun t =>
          .goto m ((p.setX head h).setX tail t) (ip + 1)
    else some (.fail m p .errBadarg)

/-- The jump table of `BEAM_OP_SELECT_VAL` from entry `k` on: the label of the first entry with
the value, if there is one. -/
def selectLabel (value : Eterm) (table : List Eterm) : Nat → Nat → Option (Option Nat)
  | 0, _ => some none
  | pairs + 1, k =>
    table[k]?.bind fun key =>
      if value = key then
        table[k + 1]?.map fun target : Eterm => some (target.setWidth 32).toNat
      else selectLabel value table pairs (k + 2)

/-- `BEAM_OP_SELECT_VAL`. -/
def execSelectVal : Option Effect :=
  let jump (lbl : Nat) : Effect := .goto m p (jumpToLabel code lbl ip)
  match instr.extraArgs with
  | none => some (jump instr.arg2.toNat)
  | some table =>
    if instr.extraCount ≥ 2 then
      (xReg instr.arg1).bind fun src =>
        (selectLabel (p.x src) table ((instr.extraCount + 1) / 2) 0).map fun found =>
          jump (found.getD instr.arg2.toNat)
    else some (jump instr.arg2.toNat)

/-- `BEAM_OP_CALL_EXT`. -/
def execCallExt : Option Effect :=
  (beamBifDispatch instr.arg1.toNat m p instr.arg2.toInt).map fun r =>
    match r with
    | .ok res => .goto m (p.setX 0 res) (ip + 1)
    | .error e => .fail m p e

/-- The loop of `BEAM_OP_MAKE_FUN2` from variable `fv` on: the first registers, and zeros behind
them. -/
def storeFreeVars (hp : Nat) : Nat → Nat → Memory → Option Memory
  | 0, _, m => some m
  | left + 1, fv, m =>
    let value := if h : fv < numXRegisters then p.x ⟨fv, h⟩ else 0#64
    (m.write (hp + 8 * (2#32 + BitVec.ofNat 32 fv).toNat) value).bind fun m =>
      storeFreeVars hp left (fv + 1) m

/-- `BEAM_OP_MAKE_FUN2`: sizes, header and indices are computed in 32 bits. -/
def execMakeFun2 : Option Effect :=
  let numFree := instr.arg2
  match beamProcessAllocHeap m p ((numFree + 2#32).setWidth 64) with
  | (m, p, none) => some (.fail m p .errNoMemory)
  | (m, p, some hp) =>
    let header : Word := ((numFree + 1#32) <<< 6).setWidth 64 ||| subtagTuple
    (m.writeAll hp [header, makeSmallInt (instr.arg1.setWidth 64)]).bind fun m =>
      (storeFreeVars p hp numFree.toNat 0 m).map fun m =>
        match xReg instr.arg3 with
        | some dst => .goto m (p.setX dst (tagAddr hp tagPrimaryBoxed)) (ip + 1)
        | none => .goto m p (ip + 1)

/-- The `switch` of `beam_emu_execute_code`. -/
def execInstr : Option Effect :=
  match instr.opcode with
  | .label => some (.goto m p (ip + 1))
  | .move => some (execMove instr m p ip)
  | .add => some (execArith instr m p ip (· + ·))
  | .sub => some (execArith instr m p ip (· - ·))
  | .mul => some (execArith instr m p ip (· * ·))
  | .intDiv => some (execIntDiv instr m p ip)
  | .allocate => execAllocate instr m p ip
  | .deallocate => execDropFrame m p instr.arg1 (ip + 1)
  | .call => some (.goto m (p.setCp (BitVec.ofNat 32 (ip + 1))) instr.arg1.toNat)
  | .callLast => execDropFrame m p instr.arg2 instr.arg1.toNat
  | .return => some (.goto m p p.frame.cp.toNat)
  | .send => some (execSend instr m p ip)
  | .loopRec => execLoopRec code instr m p ip
  | .removeMessage => execRemoveMessage m p ip
  | .loopRecEnd => execLoopRecEnd code instr m p ip
  | .wait => some (execWait m p ip)
  | .try | .catch => some (execTry instr m p ip)
  | .tryCase | .tryCaseEnd => some (.goto m p (ip + 1))
  | .tryEnd => execTryEnd m p ip
  | .raise => execRaise code instr m p ip
  | .matchTuple => execMatchTuple instr m p ip
  | .getTupleElement => execGetTupleElement instr m p ip
  | .testIsEqExact => execTestExact code instr m p ip true
  | .testIsNeExact => execTestExact code instr m p ip false
  | .testIsTuple => execTestIsTuple code instr m p ip
  | .testIsList => execTestIsList code instr m p ip
  | .getList => execGetList instr m p ip
  | .selectVal => execSelectVal code instr m p ip
  | .callExt => execCallExt instr m p ip
  | .makeFun2 => execMakeFun2 instr m p ip
  | .halt => some ⟨m, p, none, .ret .errHalt (some .exited) (some (p.x 0))⟩
  | .receive | .other _ => some (.fail m p .errBadarg)

end

/-! ### The loop -/

/-- The memory and the processes, as far as instructions reach. -/
structure Machine where
  mem : Memory
  procs : ProcId → Process

/-- A machine of new processes. -/
def freshMachine : Machine := ⟨freshMemory, fun _ => freshProcess⟩

/-- The machine and what the scheduler keeps of each process. -/
structure World extends Machine where
  sched : ProcId → SchedInfo

/-- `beam_message_send_to_process`. -/
def beamMessageSendToProcess (s : Machine) (receiver : ProcId) (msg : Eterm) :
    Option (Machine × Result) :=
  ((s.procs receiver).mailbox.enqueue msg).map fun r =>
    ({ s with procs :=
        Function.update s.procs receiver { s.procs receiver with mailbox := r.1 } }, r.2)

/-- Deliver what an instruction sends. -/
def Machine.perform (s : Machine) : Option Event → Option Machine
  | some (.sent target msg) => (beamMessageSendToProcess s target msg).map Prod.fst
  | _ => some s

/-- One instruction of the process `self`. -/
def Machine.exec (code : List Instruction) (self : ProcId) (s : Machine) (instr : Instruction)
    (ip : Nat) : Option (Machine × Option Event × Next) :=
  (execInstr code instr s.mem (s.procs self) ip).bind fun e =>
    (Machine.perform ⟨e.mem, Function.update s.procs self e.proc⟩ e.event).map fun s =>
      (s, e.event, e.next)

namespace World

/-- `beam_process_consume_reductions`. -/
def consumeReductions (w : World) (self : ProcId) (count : Int) : World :=
  let info := w.sched self
  { w with sched :=
      Function.update w.sched self { info with reductions := info.reductions - count } }

/-- `beam_process_set_reductions`. -/
def setReductions (w : World) (self : ProcId) (reductions : Int) : World :=
  { w with sched := Function.update w.sched self { w.sched self with reductions := reductions } }

/-- `beam_process_set_state`. -/
def setState (w : World) (self : ProcId) (state : ProcState) : World :=
  { w with sched := Function.update w.sched self { w.sched self with state := state } }

/-- The state an instruction returns in, when it sets one. -/
def returnIn (w : World) (self : ProcId) : Option ProcState → World
  | some state => w.setState self state
  | none => w

def reductions (w : World) (self : ProcId) : Int := (w.sched self).reductions

end World

/-- One call of `beam_emu_execute_code`: the world it leaves, its result, what it stored through
`out_result`, the instructions it executed and what they did, and the turns its loop made. -/
structure Slice where
  world : World
  res : Result
  out : Option Eterm
  trace : List Nat
  events : List Event
  turns : Nat

/-- The instruction at `ip` comes before the rest of the call. -/
def Slice.cons (ip : Nat) (event : Option Event) (sl : Slice) : Slice :=
  { sl with trace := ip :: sl.trace, events := event.toList ++ sl.events, turns := sl.turns + 1 }

/-- The `while` loop of `beam_emu_execute_code`. -/
def beamEmuLoop (code : List Instruction) (self : ProcId) : Nat → World → Nat → Option Slice
  | 0, _, _ => none
  | fuel + 1, w, ip =>
    match code[ip]? with
    | none =>
      let p := w.procs self
      some ⟨{ w with procs := Function.update w.procs self (p.setIp ip) }, .ok, some (p.x 0), [], [],
        0⟩
    | some instr =>
      let w := w.consumeReductions self 1
      -- `ip` lives in a local variable: the frame keeps the value it had at the call
      if w.reductions self ≤ 0 then some ⟨w.setState self .runnable, .ok, none, [], [], 1⟩
      else
        (w.toMachine.exec code self instr ip).bind fun r =>
          let w : World := ⟨r.1, w.sched⟩
          match r.2.2 with
          | .goto ip' => (beamEmuLoop code self fuel w ip').map (Slice.cons ip r.2.1)
          | .ret res state out => some ⟨w.returnIn self state, res, out, [ip], r.2.1.toList, 1⟩

/-- The continuation pointer of a process that has not started. -/
def Process.initCp (code : List Instruction) (p : Process) : Process :=
  if p.frame.cp = 0#32 ∧ p.frame.ip = 0 then p.setCp (BitVec.ofNat 32 code.length) else p

/-- `beam_emu_execute_code`.  Each turn of the loop takes a reduction, so the fuel is enough. -/
def beamEmuExecuteCode (code : List Instruction) (self : ProcId) (w : World) : Option Slice :=
  if code = [] then some ⟨w, .errInvalidArg, none, [], [], 0⟩
  else
    let p := (w.procs self).initCp code
    beamEmuLoop code self ((w.reductions self).toNat + 1)
      { w with procs := Function.update w.procs self p } p.frame.ip

/-! ### What every instruction keeps

No instruction but `WAIT` writes the frame's `ip`, and none but `WAIT` returns with
success: the others that return report an error or end the process. -/

/-- How an instruction other than `WAIT` may return. -/
def Stops (e : Effect) : Prop := ∀ res state out, e.next = .ret res state out →
  (state = none ∧ res.Fails) ∨ state = some .exited

/-- The frames differ in the registers and the continuation pointer only. -/
def Frame.SameBut (f g : Frame) : Prop := g = { f with xRegs := g.xRegs, cp := g.cp }

/-- What an instruction other than `WAIT` does to the saved `ip`, and how it may return. -/
structure Keeps (p : Process) (e : Effect) : Prop where
  ip : e.proc.frame.ip = p.frame.ip
  stops : Stops e

/-- The same of an instruction that has nothing to do with exceptions either. -/
structure KeepsFrame (p : Process) (e : Effect) : Prop where
  same : p.frame.SameBut e.proc.frame
  stops : Stops e

/-- Most instructions write registers and the continuation pointer and nothing else, and nobody
hears of them. -/
structure Light (m : Memory) (p : Process) (e : Effect) : Prop where
  mem : e.mem = m
  proc : e.proc = { p with frame := { p.frame with
    xRegs := e.proc.frame.xRegs, cp := e.proc.frame.cp } }
  event : e.event = none
  stops : Stops e

section Keeps

variable {code : List Instruction} {instr : Instruction} {m m' : Memory} {p p' : Process}
  {ip ip' : Nat} {e : Effect}

theorem KeepsFrame.keeps (h : KeepsFrame p e) : Keeps p e := by
  have hs := h.same
  unfold Frame.SameBut at hs
  exact ⟨by rw [hs], h.stops⟩

theorem stops_goto : Stops (.goto m' p' ip') := fun _ _ _ hn => by cases hn

theorem stops_fail {res : Result} (hres : res.Fails) : Stops (.fail m' p' res) :=
  fun _ _ _ hn => by cases hn; exact Or.inl ⟨rfl, hres⟩

theorem keeps_goto (h : p.frame.SameBut p'.frame) : KeepsFrame p (.goto m' p' ip') :=
  ⟨h, stops_goto⟩

theorem keeps_fail {res : Result} (h : p.frame.SameBut p'.frame) (hres : res.Fails) :
    KeepsFrame p (.fail m' p' res) := ⟨h, stops_fail hres⟩

theorem Light.keepsFrame (h : Light m p e) : KeepsFrame p e :=
  ⟨by unfold Frame.SameBut; rw [h.proc], h.stops⟩

theorem light_goto (hp : p' = { p with frame := { p.frame with
    xRegs := p'.frame.xRegs, cp := p'.frame.cp } }) : Light m p (.goto m p' ip') :=
  ⟨rfl, hp, rfl, stops_goto⟩

theorem light_fail {res : Result} (hres : res.Fails) : Light m p (.fail m p res) :=
  ⟨rfl, rfl, rfl, stops_fail hres⟩

theorem sameBut_of_eq {f g : Frame} (h : g = f) : f.SameBut g := by
  subst h
  rfl

/-- What the instructions for frames can do: move the stack, and go on or report what the stack
reported. -/
structure MovesStack (m : Memory) (p : Process) (e : Effect) : Prop where
  moved : StackMoved m p e.mem e.proc
  event : e.event = none
  next : (∃ ip', e.next = .goto ip') ∨
    ∃ res, e.next = .ret res none none ∧ res ≠ .ok ∧ StackResult res

theorem MovesStack.keepsFrame (h : MovesStack m p e) : KeepsFrame p e := by
  constructor
  · have hf := h.moved.frame
    unfold Frame.SameBut
    rw [hf]
  · intro res state out hn
    rcases h.next with ⟨ip', hg⟩ | ⟨res', hr, hok, hres⟩
    · rw [hg] at hn
      cases hn
    · rw [hr] at hn
      cases hn
      exact Or.inl ⟨rfl, hok, hres.ne_halt⟩

theorem pushWords_moved : ∀ (words : Nat) {m : Memory} {p : Process}
    {r : Memory × Process × Result}, pushWords words m p = some r →
      StackMoved m p r.1 r.2.1 ∧ StackResult r.2.2 := by
  intro words
  induction words with
  | zero => intro m p r h; cases h; exact ⟨.refl m p, Or.inl rfl⟩
  | succ words ih =>
    intro m p r h
    obtain ⟨r₁, h1, h2⟩ := Option.bind_eq_some_iff.mp h
    obtain ⟨hpush, hres⟩ := beamProcessStackPush_moved h1
    split at h2
    · obtain ⟨hrest, hres'⟩ := ih h2
      exact ⟨hpush.trans hrest, hres'⟩
    · cases h2; exact ⟨hpush, hres⟩

theorem popFrame_moved : ∀ (words : Nat) {p : Process} {r : Process × Result},
    popFrame m words p = some r → StackMoved m p m r.1 ∧ StackResult r.2 := by
  intro words
  induction words with
  | zero =>
    intro p r h
    obtain ⟨r₁, h1, h2⟩ := Option.map_eq_some_iff.mp h
    obtain ⟨hpop, hres⟩ := beamProcessStackPop_moved h1
    split at h2 <;> cases h2
    · exact ⟨hpop, hres _ ‹_›⟩
    · exact ⟨hpop.trans ⟨.refl m, rfl⟩, Or.inl rfl⟩
  | succ words ih =>
    intro p r h
    obtain ⟨r₁, h1, h2⟩ := Option.bind_eq_some_iff.mp h
    obtain ⟨hpop, hres⟩ := beamProcessStackPop_moved h1
    split at h2
    · cases h2; exact ⟨hpop, hres _ ‹_›⟩
    · obtain ⟨hrest, hres'⟩ := ih h2
      exact ⟨hpop.trans hrest, hres'⟩

theorem execAllocate_movesStack (h : execAllocate instr m p ip = some e) : MovesStack m p e := by
  obtain ⟨r₁, h1, h2⟩ := Option.bind_eq_some_iff.mp h
  obtain ⟨hpush, hres⟩ := beamProcessStackPush_moved h1
  split at h2
  · obtain ⟨r₂, h3, rfl⟩ := Option.map_eq_some_iff.mp h2
    obtain ⟨hrest, hres'⟩ := pushWords_moved _ h3
    split
    · exact ⟨hpush.trans hrest, rfl, Or.inl ⟨_, rfl⟩⟩
    · exact ⟨hpush.trans hrest, rfl, Or.inr ⟨_, rfl, ‹_›, hres'⟩⟩
  · cases h2
    exact ⟨hpush, rfl, Or.inr ⟨_, rfl, ‹_›, hres⟩⟩

theorem execDropFrame_movesStack {words : BitVec 32} {target : Nat}
    (h : execDropFrame m p words target = some e) : MovesStack m p e := by
  obtain ⟨r, hr, rfl⟩ := Option.map_eq_some_iff.mp h
  obtain ⟨hpop, hres⟩ := popFrame_moved _ hr
  split
  · exact ⟨hpop, rfl, Or.inl ⟨_, rfl⟩⟩
  · exact ⟨hpop, rfl, Or.inr ⟨_, rfl, ‹_›, hres⟩⟩

theorem execMove_light : Light m p (execMove instr m p ip) := by
  unfold execMove
  split <;> exact light_goto rfl

theorem execArith_light {op : Word → Word → Word} : Light m p (execArith instr m p ip op) := by
  unfold execArith
  split <;> exact light_goto rfl

theorem execIntDiv_light : Light m p (execIntDiv instr m p ip) := by
  unfold execIntDiv
  split
  · dsimp only
    split
    · exact light_fail (by decide)
    · exact light_goto rfl
  · exact light_goto rfl

theorem execSend_keeps : KeepsFrame p (execSend instr m p ip) := by
  unfold execSend
  split
  · exact ⟨rfl, fun _ _ _ hn => by cases hn⟩
  · exact keeps_goto rfl

theorem execTry_keeps : Keeps p (execTry instr m p ip) := by
  unfold execTry
  split
  · exact ⟨rfl, stops_goto⟩
  · exact ⟨rfl, stops_fail (by decide)⟩

theorem execTest_light {holds : Bool} : Light m p (execTest code instr m p ip holds) := by
  unfold execTest
  split <;> exact light_goto rfl

theorem execLoopRec_keeps (h : execLoopRec code instr m p ip = some e) : KeepsFrame p e := by
  obtain ⟨r, _, rfl⟩ := Option.map_eq_some_iff.mp h
  split
  · refine ⟨?_, fun _ _ _ hn => by cases hn⟩
    dsimp only
    split <;> rfl
  · exact keeps_goto rfl

theorem execTryEnd_keeps (h : execTryEnd m p ip = some e) : Keeps p e := by
  unfold execTryEnd at h
  split at h
  · cases h; exact ⟨rfl, stops_goto⟩
  · cases h; exact ⟨rfl, stops_goto⟩
  · obtain ⟨prev, _, rfl⟩ := Option.map_eq_some_iff.mp h
    exact ⟨rfl, stops_goto⟩

theorem execRaise_keeps (h : execRaise code instr m p ip = some e) : Keeps p e := by
  unfold execRaise at h
  dsimp only at h
  split at h
  · cases h
    exact ⟨rfl, fun _ _ _ hn => by cases hn; exact Or.inr rfl⟩
  · obtain ⟨cf, _, rfl⟩ := Option.map_eq_some_iff.mp h
    exact ⟨rfl, stops_goto⟩

theorem execMatchTuple_light (h : execMatchTuple instr m p ip = some e) : Light m p e := by
  unfold execMatchTuple at h
  split at h
  · cases h; exact light_goto rfl
  · obtain ⟨b, _, h2⟩ := Option.bind_eq_some_iff.mp h
    obtain ⟨a, _, rfl⟩ := Option.map_eq_some_iff.mp h2
    split
    · exact light_goto rfl
    · exact light_fail (by decide)

theorem execGetTupleElement_light (h : execGetTupleElement instr m p ip = some e) :
    Light m p e := by
  unfold execGetTupleElement at h
  split at h
  · obtain ⟨v, _, rfl⟩ := Option.map_eq_some_iff.mp h
    exact light_goto rfl
  · cases h; exact light_goto rfl

theorem execTestExact_light {same : Bool} (h : execTestExact code instr m p ip same = some e) :
    Light m p e := by
  obtain ⟨r1, _, h2⟩ := Option.bind_eq_some_iff.mp h
  obtain ⟨r2, _, rfl⟩ := Option.map_eq_some_iff.mp h2
  exact execTest_light

theorem execTestIsTuple_light (h : execTestIsTuple code instr m p ip = some e) : Light m p e := by
  obtain ⟨r1, _, h2⟩ := Option.bind_eq_some_iff.mp h
  obtain ⟨b, _, rfl⟩ := Option.map_eq_some_iff.mp h2
  exact execTest_light

theorem execTestIsList_light (h : execTestIsList code instr m p ip = some e) : Light m p e := by
  obtain ⟨r1, _, rfl⟩ := Option.map_eq_some_iff.mp h
  exact execTest_light

theorem execGetList_light (h : execGetList instr m p ip = some e) : Light m p e := by
  obtain ⟨src, _, h2⟩ := Option.bind_eq_some_iff.mp h
  dsimp only at h2
  split at h2
  · obtain ⟨head, _, h3⟩ := Option.bind_eq_some_iff.mp h2
    obtain ⟨hd, _, h4⟩ := Option.bind_eq_some_iff.mp h3
    obtain ⟨tail, _, h5⟩ := Option.bind_eq_some_iff.mp h4
    obtain ⟨tl, _, rfl⟩ := Option.map_eq_some_iff.mp h5
    exact light_goto rfl
  · cases h2; exact light_fail (by decide)

theorem execSelectVal_light (h : execSelectVal code instr m p ip = some e) : Light m p e := by
  unfold execSelectVal at h
  dsimp only at h
  split at h
  · cases h; exact light_goto rfl
  · split at h
    · obtain ⟨src, _, h2⟩ := Option.bind_eq_some_iff.mp h
      obtain ⟨found, _, rfl⟩ := Option.map_eq_some_iff.mp h2
      exact light_goto rfl
    · cases h; exact light_goto rfl

theorem execCallExt_light (h : execCallExt instr m p ip = some e) : Light m p e := by
  obtain ⟨r, hr, rfl⟩ := Option.map_eq_some_iff.mp h
  split
  · exact light_goto rfl
  · exact light_fail (beamBifDispatch_error hr)

theorem execMakeFun2_keeps (h : execMakeFun2 instr m p ip = some e) : KeepsFrame p e := by
  have hf := beamProcessAllocHeap_frame m p ((instr.arg2 + 2#32).setWidth 64)
  unfold execMakeFun2 at h
  dsimp only at h
  split at h
  · rename_i ha
    rw [ha] at hf
    cases h
    exact keeps_fail (sameBut_of_eq hf) (by decide)
  · rename_i ha
    rw [ha] at hf
    obtain ⟨m₁, _, h2⟩ := Option.bind_eq_some_iff.mp h
    obtain ⟨m₂, _, rfl⟩ := Option.map_eq_some_iff.mp h2
    dsimp only at hf
    split
    · exact keeps_goto (by rw [← hf]; rfl)
    · exact keeps_goto (sameBut_of_eq hf)

/-- The instructions that push or pop a catch frame. -/
def Opcode.Catches : Opcode → Bool
  | .try | .catch | .tryEnd | .raise => true
  | _ => false

/-- The instructions that are `Light`. -/
def Opcode.Light : Opcode → Bool
  | .allocate | .deallocate | .callLast | .makeFun2 => false
  | .send | .loopRec | .removeMessage | .loopRecEnd | .wait => false
  | .try | .catch | .tryEnd | .raise => false
  | _ => true

/-- **Most instructions only write registers.** -/
theorem execInstr_light (h : execInstr code instr m p ip = some e)
    (hl : instr.opcode.Light = true) : Light m p e := by
  rw [execInstr] at h
  cases hop : instr.opcode <;> simp only [hop, Opcode.Light, Bool.false_eq_true] at h hl
  case matchTuple => exact execMatchTuple_light h
  case getTupleElement => exact execGetTupleElement_light h
  case testIsEqExact => exact execTestExact_light h
  case testIsNeExact => exact execTestExact_light h
  case testIsTuple => exact execTestIsTuple_light h
  case testIsList => exact execTestIsList_light h
  case getList => exact execGetList_light h
  case selectVal => exact execSelectVal_light h
  case callExt => exact execCallExt_light h
  case move => cases h; exact execMove_light
  case add => cases h; exact execArith_light
  case sub => cases h; exact execArith_light
  case mul => cases h; exact execArith_light
  case intDiv => cases h; exact execIntDiv_light
  case halt => cases h; exact ⟨rfl, rfl, rfl, fun _ _ _ hn => by cases hn; exact Or.inr rfl⟩
  case receive => cases h; exact light_fail (by decide)
  case other => cases h; exact light_fail (by decide)
  all_goals cases h; exact light_goto rfl

/-- **Only `WAIT` and the instructions for exceptions write the frame** beyond the registers and the
continuation pointer. -/
theorem execInstr_keepsFrame (h : execInstr code instr m p ip = some e)
    (hw : instr.opcode ≠ .wait) (hc : instr.opcode.Catches = false) : KeepsFrame p e := by
  cases hl : instr.opcode.Light with
  | true => exact (execInstr_light h hl).keepsFrame
  | false =>
    rw [execInstr] at h
    cases hop : instr.opcode <;>
      simp only [hop, Opcode.Light, Opcode.Catches, reduceCtorEq] at h hc hl
    case wait => exact absurd hop hw
    case allocate => exact (execAllocate_movesStack h).keepsFrame
    case deallocate | callLast => exact (execDropFrame_movesStack h).keepsFrame
    case send => cases h; exact execSend_keeps
    case loopRec => exact execLoopRec_keeps h
    case removeMessage =>
      obtain ⟨r, _, rfl⟩ := Option.map_eq_some_iff.mp h
      exact keeps_goto rfl
    case loopRecEnd =>
      obtain ⟨r, _, rfl⟩ := Option.map_eq_some_iff.mp h
      exact keeps_goto rfl
    case makeFun2 => exact execMakeFun2_keeps h

/-- **Only `WAIT` saves the instruction pointer, and only `WAIT` returns with success.** -/
theorem execInstr_keeps (h : execInstr code instr m p ip = some e) (hw : instr.opcode ≠ .wait) :
    Keeps p e := by
  cases hc : instr.opcode.Catches with
  | false => exact (execInstr_keepsFrame h hw hc).keeps
  | true =>
    rw [execInstr] at h
    cases hop : instr.opcode <;> simp only [hop, Opcode.Catches, Bool.false_eq_true] at h hc
    case «try» => cases h; exact execTry_keeps
    case «catch» => cases h; exact execTry_keeps
    case tryEnd => exact execTryEnd_keeps h
    case raise => exact execRaise_keeps h

/-- **What a delivery can do**: nothing, or put a message into one mailbox. -/
theorem perform_cases {s s' : Machine} {event : Option Event} (h : s.perform event = some s') :
    ((∀ target msg, event ≠ some (.sent target msg)) ∧ s' = s) ∨
    ∃ target msg mb res, event = some (.sent target msg) ∧
      (s.procs target).mailbox.enqueue msg = some (mb, res) ∧
      s' = ⟨s.mem, Function.update s.procs target { s.procs target with mailbox := mb }⟩ := by
  unfold Machine.perform at h
  split at h
  · rename_i target msg
    obtain ⟨r, hr, rfl⟩ := Option.map_eq_some_iff.mp h
    obtain ⟨⟨mb, res⟩, hmb, rfl⟩ := Option.map_eq_some_iff.mp hr
    exact Or.inr ⟨target, msg, mb, res, rfl, hmb, rfl⟩
  · rename_i hno
    cases h
    exact Or.inl ⟨fun target msg he => hno target msg he, rfl⟩

/-- Delivering a message writes no memory and changes no process but for its mailbox. -/
theorem perform_same {s s' : Machine} {event : Option Event} (h : s.perform event = some s')
    (q : ProcId) :
    s'.mem = s.mem ∧ s'.procs q = { s.procs q with mailbox := (s'.procs q).mailbox } := by
  rcases perform_cases h with ⟨_, rfl⟩ | ⟨target, _, mb, _, _, _, rfl⟩
  · exact ⟨rfl, rfl⟩
  · refine ⟨rfl, ?_⟩
    dsimp only
    rw [Function.update_apply]
    split
    · rename_i hq
      rw [hq]
    · rfl

theorem perform_frame {s s' : Machine} {event : Option Event} (h : s.perform event = some s')
    (q : ProcId) : (s'.procs q).frame = (s.procs q).frame := by
  rw [(perform_same h q).2]

theorem exec_goto_ip {self : ProcId} {s : Machine} {r : Machine × Option Event × Next}
    (h : s.exec code self instr ip = some r) (hn : r.2.2 = .goto ip') :
    (r.1.procs self).frame.ip = (s.procs self).frame.ip := by
  obtain ⟨e, he, h2⟩ := Option.bind_eq_some_iff.mp h
  obtain ⟨s', hp, rfl⟩ := Option.map_eq_some_iff.mp h2
  have hw : instr.opcode ≠ .wait := by
    intro hop
    rw [execInstr, hop] at he
    cases he
    cases hn
  rw [perform_frame hp self]
  dsimp only
  rw [Function.update_self]
  exact (execInstr_keeps he hw).ip

/-- **An instruction that returns** suspends or ends its process, or reports an error. -/
theorem exec_ret_cases {self : ProcId} {s : Machine} {r : Machine × Option Event × Next}
    {res : Result} {state : Option ProcState} {out : Option Eterm}
    (h : s.exec code self instr ip = some r) (hn : r.2.2 = .ret res state out) :
    (state = none ∧ res.Fails) ∨ state = some .exited ∨ (state = some .waiting ∧ res = .ok) := by
  obtain ⟨e, he, h2⟩ := Option.bind_eq_some_iff.mp h
  obtain ⟨s', _, rfl⟩ := Option.map_eq_some_iff.mp h2
  by_cases hw : instr.opcode = .wait
  · rw [execInstr, hw] at he
    cases he
    cases hn
    exact Or.inr (Or.inr ⟨rfl, rfl⟩)
  · rcases (execInstr_keeps he hw).stops res state out hn with h | h
    · exact Or.inl h
    · exact Or.inr (Or.inl h)

end Keeps

end BeamModular
