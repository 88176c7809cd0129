import BeamModular.Core.Read
import BeamModular.Emulator.Budget

/-!
# An interpreter on terms

What the instructions of `beam_emu.c` are for, said without words, addresses and blocks.
The registers and the mailbox hold finite trees, the stack is a list, the catch frames are
a list of handlers, and of the heap only the number of words is left that lie between it
and the stack (`room`).  The machine has no memory, so nothing can dangle in it and nothing
can be shared.

The definitions are a statement of purpose, not a translation.  Where the words of the
source mean more than the trees (two compound terms are compared by address, a register
operand is not one, a closure does not fit) there is no result.  `Emulator.Mirror` relates
the two machines, and `Emulator.Faithful` shows that the interpreter of the source takes
every step that this one takes.
-/

namespace BeamModular

/-- A handler: its label, and how many words the stack had when it was installed. -/
structure Handler where
  label : Nat
  depth : Nat
  deriving DecidableEq, Repr

/-- A process as the machine on terms has it; the stack and the handlers begin with the newest. -/
structure TermProc where
  pid : BitVec 32
  regs : Fin numXRegisters → Term
  cp : BitVec 32
  ip : Nat
  stack : List Word
  handlers : List Handler
  passed : List Term
  ahead : List Term
  room : Nat

/-- What can be seen of a process from outside of it. -/
inductive TermEvent
  | sent (target : ProcId) (msg : Term)
  | examined (msg : Term)

/-- Where it goes after an instruction. -/
inductive TermNext
  | goto (ip : Nat)
  | ret (res : Result) (state : Option ProcState) (out : Option Term)

/-- What one instruction does. -/
structure TermEffect where
  proc : TermProc
  event : Option TermEvent
  next : TermNext

namespace TermEffect

def goto (p : TermProc) (ip : Nat) : TermEffect := ⟨p, none, .goto ip⟩

def fail (p : TermProc) (res : Result) : TermEffect := ⟨p, none, .ret res none none⟩

end TermEffect

namespace TermProc

/-- A new process with a heap of that many words. -/
def create (pid : BitVec 32) (words : Nat) : TermProc where
  pid := pid
  regs _ := .imm 0#64
  cp := 0#32
  ip := 0
  stack := []
  handlers := []
  passed := []
  ahead := []
  room := words

def set (p : TermProc) (i : Fin numXRegisters) (t : Term) : TermProc :=
  { p with regs := Function.update p.regs i t }

/-- A message arrives: it goes to the end. -/
def receive (p : TermProc) (msg : Term) : TermProc :=
  match p.ahead with
  | [] => { p with passed := p.passed ++ [msg] }
  | t :: ts => { p with ahead := t :: ts ++ [msg] }

/-- A receive starts again at the oldest message when it has none ahead. -/
def rewind (p : TermProc) : TermProc :=
  if p.ahead = [] then { p with passed := [], ahead := p.passed } else p

/-- The continuation pointer of a process that has not started. -/
def initCp (code : List Instruction) (p : TermProc) : TermProc :=
  if p.cp = 0#32 ∧ p.ip = 0 then { p with cp := BitVec.ofNat 32 code.length } else p

end TermProc

/-! ### The instructions -/

section

variable (code : List Instruction) (instr : Instruction) (p : TermProc) (ip : Nat)

/-- Store the literal. -/
def termMove : Option TermEffect :=
  match xReg instr.arg2 with
  | some dst =>
    if IsImmediate instr.literal then some (.goto (p.set dst (.imm instr.literal)) (ip + 1))
    else none
  | none => some (.goto p (ip + 1))

/-- Arithmetic on the words of two immediates. -/
def termArith (op : Word → Word → Word) : Option TermEffect :=
  match xReg instr.arg1, xReg instr.arg2, xReg instr.arg3 with
  | some r1, some r2, some dst =>
    (p.regs r1).word?.bind fun v1 => (p.regs r2).word?.map fun v2 =>
      .goto (p.set dst (.imm (makeSmallInt (op (etermToSmallInt v1) (etermToSmallInt v2))))) (ip + 1)
  | _, _, _ => some (.goto p (ip + 1))

def termIntDiv : Option TermEffect :=
  match xReg instr.arg1, xReg instr.arg2, xReg instr.arg3 with
  | some r1, some r2, some dst =>
    (p.regs r1).word?.bind fun v1 => (p.regs r2).word?.map fun v2 =>
      if etermToSmallInt v2 = 0#64 then .fail p .errBadarg
      else .goto (p.set dst (.imm (makeSmallInt ((etermToSmallInt v1).sdiv (etermToSmallInt v2)))))
        (ip + 1)
  | _, _, _ => some (.goto p (ip + 1))

/-- The stack with a frame of that many words on it, and the continuation pointer below them. -/
def TermProc.framed (words : Nat) : List Word :=
  List.replicate words 0#64 ++ p.cp.setWidth 64 :: p.stack

/-- Push a frame, or what there is room for. -/
def termAllocate : TermEffect :=
  let words := instr.arg1.toNat
  if words + 1 ≤ p.room then
    .goto { p with stack := p.framed words, room := p.room - (words + 1) } (ip + 1)
  else
    .fail { p with stack := (p.framed words).drop (words + 1 - p.room), room := 0 } .errNoMemory

/-- Drop a frame and take the continuation pointer below it, or drop what there is. -/
def termDropFrame (words target : Nat) : TermEffect :=
  match p.stack.drop words with
  | [] => .fail { p with stack := [], room := p.room + p.stack.length } .errBadarg
  | cp :: rest =>
    .goto { p with cp := cp.setWidth 32, stack := rest, room := p.room + (words + 1) } target

def termSend : TermEffect :=
  match xReg instr.arg1, instr.targetProc with
  | some reg, some target => ⟨p, some (.sent target (p.regs reg)), .goto (ip + 1)⟩
  | _, _ => .goto p (ip + 1)

/-- Look at the next message, or go to the label when there is none. -/
def termLoopRec : TermEffect :=
  let p := p.rewind
  match p.ahead with
  | [] => .goto p (jumpToLabel code instr.arg1.toNat ip)
  | msg :: _ =>
    let p := match xReg instr.arg2 with
      | some dst => p.set dst msg
      | none => p
    ⟨p, some (.examined msg), .goto (ip + 1)⟩

/-- Take the message that is looked at out of the mailbox. -/
def termRemoveMessage : TermEffect := .goto { p with ahead := p.ahead.tail } (ip + 1)

/-- Leave the message that is looked at where it is. -/
def termLoopRecEnd : TermEffect :=
  .goto { p with passed := p.passed ++ p.ahead.take 1, ahead := p.ahead.tail }
    (jumpToLabel code instr.arg1.toNat ip)

def termTry : TermEffect :=
  if p.handlers.length < maxCatchDepth then
    .goto { p with handlers := ⟨instr.arg1.toNat, p.stack.length⟩ :: p.handlers } (ip + 1)
  else .fail p .errNoMemory

/-- Go to the newest handler with the stack it was installed with; the words that are gone from that
stack do not come back. -/
def termRaise : Option TermEffect :=
  let exc := match xReg instr.arg1 with
    | some r => p.regs r
    | none => .imm 0#64
  match p.handlers with
  | [] => some ⟨p, none, .ret .errException (some .exited) none⟩
  | h :: hs =>
    if h.depth ≤ p.stack.length then
      let words := p.stack.length - h.depth
      let p := { p with stack := p.stack.drop words, room := p.room + words, handlers := hs }
      some (.goto (p.set 0 exc) (jumpToLabel code h.label ip))
    else none

def termMatchTuple : TermEffect :=
  match xReg instr.arg1 with
  | none => .goto p (ip + 1)
  | some src =>
    match p.regs src with
    | .tuple arity _ =>
      if arity = instr.arg2.toNat then .goto p (ip + 1) else .fail p .errBadarg
    | _ => .fail p .errBadarg

def termGetTupleElement : Option TermEffect :=
  match xReg instr.arg1, xReg instr.arg3 with
  | some src, some dst =>
    match p.regs src with
    | .tuple arity element =>
      if h : instr.arg2.toNat < arity then
        some (.goto (p.set dst (element ⟨instr.arg2.toNat, h⟩)) (ip + 1))
      else none
    | _ => some (.goto (p.set dst (.imm 0#64)) (ip + 1))
  | _, _ => some (.goto p (ip + 1))

/-- A test: on, or to the `LABEL` of the first operand. -/
def termTest (holds : Bool) : TermEffect :=
  if holds then .goto p (ip + 1) else .goto p (jumpToLabel code instr.arg1.toNat ip)

def termTestExact (same : Bool) : Option TermEffect :=
  (xReg instr.arg2).bind fun r1 => (xReg instr.arg3).bind fun r2 =>
    ((p.regs r1).same? (p.regs r2)).map fun b => termTest code instr p ip (b == same)

def termTestIsTuple : Option TermEffect :=
  (xReg instr.arg2).map fun r => termTest code instr p ip (p.regs r).isTuple

def termTestIsList : Option TermEffect :=
  (xReg instr.arg2).map fun r =>
    termTest code instr p ip ((p.regs r).isCons || (p.regs r).word? == some etermNil)

def termGetList : Option TermEffect :=
  (xReg instr.arg1).bind fun src =>
    match p.regs src with
    | .cons head tail =>
      (xReg instr.arg2).bind fun r1 => (xReg instr.arg3).map fun r2 =>
        .goto ((p.set r1 head).set r2 tail) (ip + 1)
    | _ => some (.fail p .errBadarg)

/-- Select by the word of an immediate. -/
def termSelectVal : Option TermEffect :=
  let jump (lbl : Nat) : TermEffect := .goto p (jumpToLabel code lbl ip)
  match instr.extraArgs with
  | none => some (jump instr.arg2.toNat)
  | some table =>
    if instr.extraCount ≥ 2 then
      (xReg instr.arg1).bind fun src => (p.regs src).word?.bind fun value =>
        (selectLabel value table ((instr.extraCount + 1) / 2) 0).map fun found =>
          jump (found.getD instr.arg2.toNat)
    else some (jump instr.arg2.toNat)

/-- A built-in function of two immediates. -/
def termBifArith (op : Word → Word → Word) (arity : Int) : Option Term :=
  if arity < 2 then some (.imm 0#64)
  else (p.regs 0).word?.bind fun v1 => (p.regs 1).word?.map fun v2 =>
    .imm (makeSmallInt (op (etermToSmallInt v1) (etermToSmallInt v2)))

/-- A built-in function of one term. -/
def termBif1 (f : Term → Eterm) (arity : Int) : Term :=
  .imm (if arity < 1 then 0#64 else f (p.regs 0))

def termBif (bifIndex : Nat) (arity : Int) : Option (Except Result Term) :=
  match bifIndex with
  | 0 => some (.ok (.imm ((p.pid <<< 4 ||| 15#32).setWidth 64)))
  | 1 => (termBifArith p (· + ·) arity).map .ok
  | 2 => (termBifArith p (· - ·) arity).map .ok
  | 3 => some (.ok (termBif1 p (fun t => bifBool (t.word?.any beamIsAtom)) arity))
  | 4 => some (.ok (termBif1 p (fun t => bifBool t.isTuple) arity))
  | 5 => some (.ok (termBif1 p (fun t => makeSmallInt (BitVec.ofNat 64 t.spine)) arity))
  | _ => some (.error .errNotFound)

def termCallExt : Option TermEffect :=
  (termBif p instr.arg1.toNat instr.arg2.toInt).map fun r =>
    match r with
    | .ok res => .goto (p.set 0 res) (ip + 1)
    | .error e => .fail p e

/-- The closure of a function: its index, the first registers, and zeros behind the last one. -/
def closure (index : BitVec 32) (numFree : Nat) : Term :=
  .tuple (numFree + 1) (Fin.cases (.imm (makeSmallInt (index.setWidth 64)))
    fun i => if h : i < numXRegisters then p.regs ⟨i, h⟩ else .imm 0#64)

/-- A closure has to fit, and so has its arity into a header of 32 bits. -/
def termMakeFun2 : Option TermEffect :=
  let numFree := instr.arg2.toNat
  if numFree + 1 < 2 ^ 26 ∧ numFree + 2 ≤ p.room then
    let fn := closure p instr.arg1 numFree
    let p := { p with room := p.room - (numFree + 2) }
    some <| match xReg instr.arg3 with
      | some dst => .goto (p.set dst fn) (ip + 1)
      | none => .goto p (ip + 1)
  else none

/-- One instruction. -/
def termInstr : Option TermEffect :=
  match instr.opcode with
  | .label | .tryCase | .tryCaseEnd => some (.goto p (ip + 1))
  | .move => termMove instr p ip
  | .add => termArith instr p ip (· + ·)
  | .sub => termArith instr p ip (· - ·)
  | .mul => termArith instr p ip (· * ·)
  | .intDiv => termIntDiv instr p ip
  | .allocate => some (termAllocate instr p ip)
  | .deallocate => some (termDropFrame p instr.arg1.toNat (ip + 1))
  | .callLast => some (termDropFrame p instr.arg2.toNat instr.arg1.toNat)
  | .call => some (.goto { p with cp := BitVec.ofNat 32 (ip + 1) } instr.arg1.toNat)
  | .return => some (.goto p p.cp.toNat)
  | .send => some (termSend instr p ip)
  | .loopRec => some (termLoopRec code instr p ip)
  | .removeMessage => some (termRemoveMessage p ip)
  | .loopRecEnd => some (termLoopRecEnd code instr p ip)
  | .wait => some ⟨{ p with ip := ip }, none, .ret .ok (some .waiting) none⟩
  | .try | .catch => some (termTry instr p ip)
  | .tryEnd => some (.goto { p with handlers := p.handlers.tail } (ip + 1))
  | .raise => termRaise code instr p ip
  | .matchTuple => some (termMatchTuple instr p ip)
  | .getTupleElement => termGetTupleElement instr p ip
  | .testIsEqExact => termTestExact code instr p ip true
  | .testIsNeExact => termTestExact code instr p ip false
  | .testIsTuple => termTestIsTuple code instr p ip
  | .testIsList => termTestIsList code instr p ip
  | .getList => termGetList instr p ip
  | .selectVal => termSelectVal code instr p ip
  | .callExt => termCallExt instr p ip
  | .makeFun2 => termMakeFun2 instr p ip
  | .halt => some ⟨p, none, .ret .errHalt (some .exited) (some (p.regs 0))⟩
  | .receive | .other _ => some (.fail p .errBadarg)

end

/-! ### Processes, and the calls of the scheduler -/

/-- The processes there are. -/
abbrev TermProcs := ProcId → Option TermProc

namespace TermProcs

/-- Deliver what an instruction sends; there has to be a receiver. -/
def deliver (s : TermProcs) : Option TermEvent → Option TermProcs
  | some (.sent target msg) =>
    (s target).map fun q => Function.update s target (some (q.receive msg))
  | _ => some s

/-- One instruction of the process `self`. -/
def exec (code : List Instruction) (self : ProcId) (s : TermProcs) (instr : Instruction) (ip : Nat) :
    Option (TermProcs × Option TermEvent × TermNext) :=
  (s self).bind fun p => (termInstr code instr p ip).bind fun e =>
    (deliver (Function.update s self (some e.proc)) e.event).map fun s => (s, e.event, e.next)

end TermProcs

/-- Where a run on terms stands. -/
inductive TermStatus
  | running (ip : Nat)
  | returned (res : Result) (state : Option ProcState) (out : Option Term)

/-- How far a run on terms has come. -/
structure TermProgress where
  procs : TermProcs
  status : TermStatus
  trace : List Nat
  events : List TermEvent

/-- The instruction at `ip` comes before the rest of the run. -/
def TermProgress.cons (ip : Nat) (event : Option TermEvent) (pr : TermProgress) : TermProgress :=
  { pr with trace := ip :: pr.trace, events := event.toList ++ pr.events }

/-- Execute up to `n` instructions from `ip` on. -/
def TermProcs.runFor (code : List Instruction) (self : ProcId) :
    Nat → TermProcs → Nat → Option TermProgress
  | 0, s, ip => some ⟨s, .running ip, [], []⟩
  | n + 1, s, ip =>
    match code[ip]? with
    | none => some ⟨s, .running ip, [], []⟩
    | some instr =>
      (s.exec code self instr ip).bind fun r =>
        match r.2.2 with
        | .goto ip' => (runFor code self n r.1 ip').map (TermProgress.cons ip r.2.1)
        | .ret res state out => some ⟨r.1, .returned res state out, [ip], r.2.1.toList⟩

/-- The processes on terms, and what the scheduler keeps of them. -/
structure TermWorld where
  procs : TermProcs
  sched : ProcId → SchedInfo

/-- One call of the interpreter: what it returns, what it passes out, and what it has executed. -/
structure TermSlice where
  world : TermWorld
  res : Result
  out : Option Term
  trace : List Nat
  events : List TermEvent

/-- The process enters a state. -/
def enters (sched : ProcId → SchedInfo) (self : ProcId) (state : ProcState) : ProcId → SchedInfo :=
  Function.update sched self { sched self with state := state }

/-- What the caller sees of a run: a cut, the end of the code, or a return. -/
def TermProgress.slice (code : List Instruction) (self : ProcId) (sched : ProcId → SchedInfo)
    (pr : TermProgress) : Option TermSlice :=
  let sched := World.spend sched self pr.trace.length
  match pr.status with
  | .running ip =>
    if ip < code.length then
      some ⟨⟨pr.procs, enters (World.spend sched self 1) self .runnable⟩, .ok, none, pr.trace,
        pr.events⟩
    else
      (pr.procs self).map fun p =>
        ⟨⟨Function.update pr.procs self (some { p with ip := ip }), sched⟩, .ok, some (p.regs 0),
          pr.trace, pr.events⟩
  | .returned res state out =>
    some ⟨⟨pr.procs, state.elim sched (enters sched self)⟩, res, out, pr.trace, pr.events⟩

/-- A call of the process `self`, which executes fewer instructions than it has reductions. -/
def TermWorld.call (code : List Instruction) (self : ProcId) (w : TermWorld) : Option TermSlice :=
  if code = [] then some ⟨w, .errInvalidArg, none, [], []⟩
  else
    (w.procs self).bind fun p =>
      (TermProcs.runFor code self ((w.sched self).reductions - 1).toNat
        (Function.update w.procs self (some (p.initCp code))) p.ip).bind
          (TermProgress.slice code self w.sched)

end BeamModular
