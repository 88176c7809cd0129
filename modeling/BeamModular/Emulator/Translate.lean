import BeamModular.Emulator.Budget
import BeamModular.Emulator.Decode

/-!
# Decoded programs

What a compiled program means, and whether the interpreter does it after decoding.

`Asm` is an instruction of a BEAM file and `Asm.exec` what it is for: a move copies
a value into a register, a call saves the return address and goes on at a `LABEL`,
a return goes back, and a `line` or a `test_heap` has no effect a program could see.
Nothing is said of running `func_info` and `int_code_end`; of all four it is asked
that the interpreter does not take them for something else.

`DecodedFrom` is what the decoder makes of each (`decode_asm`).  It shows where decoder
and interpreter disagree: the value of a move is stored in `arg1` and looked for in
`literal`; the label of a call is stored in `arg2` and an index looked for in `arg1`;
the numbers of `func_info`, `int_code_end` and `test_heap` are those of `MOVE`, `ADD`
and `TEST_IS_NE_EXACT`; a `line` keeps its number, 153, which the interpreter answers
with `BEAM_ERR_BADARG`.  `preserves_iff_kept` says which programs survive.
-/

namespace BeamModular

/-! ### The compiled program -/

/-- The source of a move: a small integer, an atom or a register. -/
inductive Operand
  | int (v : Int)
  | atom (n : Nat)
  | x (r : Fin numXRegisters)
  | y (r : Nat)
  deriving DecidableEq, Repr

/-- The destination of a move. -/
inductive Dest
  | x (r : Fin numXRegisters)
  | y (r : Nat)
  deriving DecidableEq, Repr

/-- An instruction of a code chunk.  The operands of `test_heap` may be a whole allocation list;
no one looks at them, and they stay bytes. -/
inductive Asm
  | label (l : Nat)
  | move (src : Operand) (dst : Dest)
  | call (arity l : Nat)
  | return
  | line (n : Nat)
  | funcInfo (module function arity : Nat)
  | intCodeEnd
  | testHeap (operands : List Byte)
  deriving DecidableEq, Repr

/-- The Y registers are the words of the frame, from the stack top on. -/
def Process.ySlot (p : Process) (r : Nat) : Nat := p.heap + 8 * (p.stackTop.toNat + r)

/-- The value of an operand. -/
def Operand.value (m : Memory) (p : Process) : Operand → Option Eterm
  | .int v => some (makeSmallInt (BitVec.ofInt 64 v))
  | .atom n => some (BitVec.ofNat 64 n <<< 4 ||| tagImmed1Atom)
  | .x r => some (p.x r)
  | .y r => m.cell (p.ySlot r)

/-- Store into a register. -/
def Dest.store (m : Memory) (p : Process) (v : Eterm) : Dest → Option (Memory × Process)
  | .x r => some (m, p.setX r v)
  | .y r => (m.write (p.ySlot r) v).map fun m => (m, p)

/-- Where a `LABEL` of that number stands. -/
def asmLabel (prog : List Asm) (l : Nat) : Option Nat := prog.findIdx? fun a => a = .label l

/-- What an instruction is for; nothing is said of `func_info` and `int_code_end`. -/
def Asm.exec (prog : List Asm) (m : Memory) (p : Process) (ip : Nat) :
    Asm → Option (Memory × Process × Nat)
  | .label _ => some (m, p, ip + 1)
  | .move src dst =>
    (src.value m p).bind fun v => (dst.store m p v).map fun r => (r.1, r.2, ip + 1)
  | .call _ l => (asmLabel prog l).map fun i => (m, p.setCp (BitVec.ofNat 32 (ip + 1)), i)
  | .return => some (m, p, p.frame.cp.toNat)
  | .line _ | .testHeap _ => some (m, p, ip + 1)
  | .funcInfo _ _ _ | .intCodeEnd => none

/-- An instruction that the interpreter must not take for one of its own. -/
def Asm.Silent : Asm → Prop
  | .line _ | .funcInfo _ _ _ | .intCodeEnd | .testHeap _ => True
  | _ => False

/-- Execute up to `n` instructions of the program from `ip` on. -/
def runAsm (prog : List Asm) (self : ProcId) : Nat → Machine → Nat → Option Progress
  | 0, s, ip => some ⟨s, .running ip, [], []⟩
  | n + 1, s, ip =>
    match prog[ip]? with
    | none => some ⟨s, .running ip, [], []⟩
    | some a =>
      (a.exec prog s.mem (s.procs self) ip).bind fun r =>
        (runAsm prog self n ⟨r.1, Function.update s.procs self r.2.1⟩ r.2.2).map
          (Progress.cons ip none)

/-! ### Its encoding -/

/-- The encodings of an integer: short, or two's complement. -/
inductive CompactInt (v : Int) : List Byte → Prop
  | short (bs : List Byte) (h0 : 0 ≤ v) (hl : bs.length ≤ 2) (hc : Compact 1 v.toNat bs) :
      CompactInt v bs
  | bytes (bs : List Byte) (h2 : 2 ≤ bs.length) (h8 : bs.length ≤ 8)
      (hlo : -2 ^ (8 * bs.length - 1) ≤ v) (hhi : v < 2 ^ (8 * bs.length - 1))
      (hv : (bytesValue bs : Int) = v % 2 ^ (8 * bs.length)) :
      CompactInt v (BitVec.ofNat 8 (32 * (bs.length - 2) + 24 + 1) :: bs)

def Operand.Encodes (bs : List Byte) : Operand → Prop
  | .int v => -2 ^ 59 ≤ v ∧ v < 2 ^ 59 ∧ CompactInt v bs
  | .atom n => Compact 2 n bs
  | .x r => Compact 3 r bs
  | .y r => Compact 4 r bs

def Dest.Encodes (bs : List Byte) : Dest → Prop
  | .x r => Compact 3 r bs
  | .y r => Compact 4 r bs

def Asm.Encodes (bs : List Byte) : Asm → Prop
  | .label l => ∃ a, bs = 1#8 :: a ∧ Compact 0 l a
  | .move src dst => ∃ a b, bs = 64#8 :: (a ++ b) ∧ src.Encodes a ∧ dst.Encodes b
  | .call arity l => ∃ a b, bs = 4#8 :: (a ++ b) ∧ Compact 0 arity a ∧ Compact 5 l b
  | .return => bs = [19#8]
  | .line n => ∃ a, bs = 153#8 :: a ∧ Compact 0 n a
  | .funcInfo m f arity => ∃ a b c, bs = 2#8 :: (a ++ (b ++ c)) ∧
      Compact 2 m a ∧ Compact 2 f b ∧ Compact 0 arity c
  | .intCodeEnd => bs = [3#8]
  | .testHeap operands => bs = 16#8 :: operands

/-- The instructions one after the other. -/
def EncodesAll : List Asm → List Byte → Prop
  | [], bs => bs = []
  | a :: prog, bs => ∃ b₁ b₂, bs = b₁ ++ b₂ ∧ a.Encodes b₁ ∧ EncodesAll prog b₂

/-- A code chunk: the size of its header, the header and the instructions. -/
def IsChunk (prog : List Asm) (chunk : List Byte) : Prop :=
  ∃ b0 b1 b2 b3 header body, chunk = b0 :: b1 :: b2 :: b3 :: (header ++ body) ∧
    (readU32Be b0 b1 b2 b3).toNat = header.length ∧ 16 ≤ header.length ∧
    4 + header.length < 2 ^ 32 ∧ EncodesAll prog body

/-! ### What survives -/

/-- **The decoded code does what the program says**: it has an instruction for each of the
program's, every run of it is the program's run, so is every call of the interpreter, and no
silent instruction is taken for one of the interpreter's own. -/
structure Preserves (prog : List Asm) (code : List Instruction) : Prop where
  count : code.length = prog.length
  runs : ∀ self n s ip pr, runAsm prog self n s ip = some pr → s.runFor code self n ip = some pr
  calls : prog ≠ [] → ∀ self (w : World) pr,
    runAsm prog self (w.reductions self - 1).toNat (w.toMachine.start code self)
      (w.procs self).frame.ip = some pr →
    beamEmuExecuteCode code self w = some (pr.slice code self w.sched)
  silent : ∀ (i : Nat) (a : Asm) (instr : Instruction), prog[i]? = some a →
    code[i]? = some instr → a.Silent → ∃ n, instr.opcode = .other n

/-- The instructions that survive: labels, returns, calls whose label happens to stand where the
interpreter jumps, and moves of a Y register to itself that the interpreter ignores. -/
def Asm.Kept (prog : List Asm) : Asm → Prop
  | .label _ | .return => True
  | .call arity l => ∀ i, asmLabel prog l = some i → i = (16 * arity + 3) % 2 ^ 32
  | .move src dst => ∃ r, src = .y r ∧ dst = .y r ∧ 256 ≤ r % 2 ^ 32
  | _ => False

/-! ### What the decoder makes of an instruction -/

/-- The number of a destination, whichever register it is. -/
def Dest.index : Dest → Nat
  | .x r => r
  | .y r => r

/-- The fields of the decoded instruction that the interpreter looks at. -/
def DecodedFrom (instr : Instruction) : Asm → Prop
  | .label _ => instr.opcode = .label
  | .move _ dst => instr.opcode = .move ∧ instr.literal = 0#64 ∧
      instr.arg2 = BitVec.ofNat 32 dst.index
  | .call arity _ => instr.opcode = .call ∧ instr.arg1 = BitVec.ofNat 32 (16 * arity + 3)
  | .return => instr.opcode = .return
  | .line _ => instr.opcode = .other 153
  | .funcInfo _ _ _ => instr.opcode = .move
  | .intCodeEnd => instr.opcode = .add
  | .testHeap _ => instr.opcode = .testIsNeExact

theorem toNat_makeSmallInt_eq (w : Word) : (makeSmallInt w).toNat = 16 * w.toNat % 2 ^ 64 + 3 := by
  have hsplit : w.toNat * 2 ^ 4 % 2 ^ 64 = 2 ^ 4 * (w.toNat % 2 ^ 60) := by omega
  have hor := Nat.two_pow_add_eq_or_of_lt (i := 4) (show 3 < 2 ^ 4 by decide) (w.toNat % 2 ^ 60)
  rw [makeSmallInt, BitVec.toNat_or, BitVec.toNat_shiftLeft, Nat.shiftLeft_eq, hsplit,
    show tagImmed1SmallInt.toNat = 3 from rfl, ← hor]
  omega

theorem taggedArg_unsigned (v : Nat) :
    (taggedArg (BitVec.ofNat 8 0) (BitVec.ofNat 32 v)).setWidth 32 =
      BitVec.ofNat 32 (16 * v + 3) := by
  apply BitVec.eq_of_toNat_eq
  show ((makeSmallInt ((BitVec.ofNat 32 v).setWidth 64)).setWidth 32).toNat = _
  rw [BitVec.toNat_setWidth, toNat_makeSmallInt_eq, BitVec.toNat_setWidth]
  simp only [BitVec.toNat_ofNat]
  omega

theorem taggedArg_register {tag : Nat} (h : tag = 3 ∨ tag = 4) (v : Nat) :
    (taggedArg (BitVec.ofNat 8 tag) (BitVec.ofNat 32 v)).setWidth 32 = BitVec.ofNat 32 v := by
  have htag : taggedArg (BitVec.ofNat 8 tag) (BitVec.ofNat 32 v) =
      (BitVec.ofNat 32 v).setWidth 64 := by
    rcases h with rfl | rfl <;> rfl
  apply BitVec.eq_of_toNat_eq
  rw [htag]
  simp only [BitVec.toNat_setWidth, BitVec.toNat_ofNat]
  omega

theorem Operand.Encodes.rest {o : Operand} {bs : List Byte} (h : o.Encodes bs) (rest : List Byte) :
    (decodeArg (bs ++ rest)).2 = rest := by
  cases o with
  | int v =>
    obtain ⟨_, _, hc⟩ := h
    cases hc with
    | short _ _ _ hc => rw [decodeArg_compact hc (by decide)]
    | bytes bs h2 h8 _ _ _ =>
      rw [decodeArg_compact (Compact.bytes bs h2 h8 rfl) (by decide)]
  | atom n => rw [decodeArg_compact h (by decide)]
  | x r => rw [decodeArg_compact h (by decide)]
  | y r => rw [decodeArg_compact h (by decide)]

theorem Dest.Encodes.decode {d : Dest} {bs : List Byte} (h : d.Encodes bs) (rest : List Byte) :
    (decodeArg (bs ++ rest)).1.setWidth 32 = BitVec.ofNat 32 d.index ∧
      (decodeArg (bs ++ rest)).2 = rest := by
  cases d with
  | x r =>
    rw [decodeArg_compact h (by decide)]
    exact ⟨taggedArg_register (Or.inl rfl) r, rfl⟩
  | y r =>
    rw [decodeArg_compact h (by decide)]
    exact ⟨taggedArg_register (Or.inr rfl) r, rfl⟩

/-- **One instruction**: the decoder gives it its shape, and stops behind it unless it is a
`test_heap`. -/
theorem decode_asm {a : Asm} {bs : List Byte} (h : a.Encodes bs) (rest : List Byte) :
    ∃ op ops, bs = op :: ops ∧ DecodedFrom (decodeInstr op.toNat (ops ++ rest)).1 a ∧
      ((∀ o, a ≠ .testHeap o) → (decodeInstr op.toNat (ops ++ rest)).2 = rest) := by
  cases a with
  | label l =>
    obtain ⟨a, rfl, hc⟩ := h
    refine ⟨_, _, rfl, rfl, fun _ => ?_⟩
    show (decodeArg (a ++ rest)).2 = rest
    rw [decodeArg_compact hc (by decide)]
  | move src dst =>
    obtain ⟨a, b, rfl, hs, hd⟩ := h
    have h1 := hs.rest (b ++ rest)
    obtain ⟨h2, h3⟩ := hd.decode rest
    refine ⟨_, _, rfl, ⟨rfl, rfl, ?_⟩, fun _ => ?_⟩
    · show (decodeArg (decodeArg (a ++ b ++ rest)).2).1.setWidth 32 = _
      rw [List.append_assoc, h1, h2]
    · show (decodeArg (decodeArg (a ++ b ++ rest)).2).2 = rest
      rw [List.append_assoc, h1, h3]
  | call arity l =>
    obtain ⟨a, b, rfl, ha, hb⟩ := h
    have h1 := decodeArg_compact ha (by decide) (b ++ rest)
    refine ⟨_, _, rfl, ⟨rfl, ?_⟩, fun _ => ?_⟩
    · show (decodeArg (a ++ b ++ rest)).1.setWidth 32 = _
      rw [List.append_assoc, h1]
      exact taggedArg_unsigned arity
    · show (decodeArg (decodeArg (a ++ b ++ rest)).2).2 = rest
      rw [List.append_assoc, h1, decodeArg_compact hb (by decide)]
  | «return» =>
    cases h
    exact ⟨_, _, rfl, rfl, fun _ => rfl⟩
  | line n =>
    obtain ⟨a, rfl, hc⟩ := h
    refine ⟨_, _, rfl, rfl, fun _ => ?_⟩
    show (decodeArg (a ++ rest)).2 = rest
    rw [decodeArg_compact hc (by decide)]
  | funcInfo m f arity =>
    obtain ⟨a, b, c, rfl, ha, hb, hc⟩ := h
    refine ⟨_, _, rfl, rfl, fun _ => ?_⟩
    show (decodeArg (decodeArg (decodeArg (a ++ (b ++ c) ++ rest)).2).2).2 = rest
    rw [List.append_assoc, decodeArg_compact ha (by decide), List.append_assoc,
      decodeArg_compact hb (by decide), decodeArg_compact hc (by decide)]
  | intCodeEnd =>
    cases h
    exact ⟨_, _, rfl, rfl, fun _ => rfl⟩
  | testHeap operands =>
    cases h
    exact ⟨_, _, rfl, rfl, fun hne => absurd rfl (hne operands)⟩

theorem length_decodeLoop_le : ∀ (n : Nat) (bs : List Byte), (decodeLoop n bs).length ≤ n := by
  intro n
  induction n with
  | zero => intro bs; exact Nat.le_refl 0
  | succ n ih =>
    intro bs
    cases bs with
    | nil => exact Nat.zero_le _
    | cons b bs =>
      rw [decodeLoop, List.length_cons]
      exact Nat.succ_le_succ (ih _)

/-- **The loop**: up to the first `test_heap`, and as far as the safety counter lets it go, the
instructions have the shapes of the program. -/
theorem decodeLoop_shape {prog : List Asm} : ∀ {n : Nat} {body : List Byte},
    EncodesAll prog body → ∀ i a, prog[i]? = some a → i < n →
      (∀ j < i, ∀ o, prog[j]? ≠ some (.testHeap o)) →
      ∃ instr, (decodeLoop n body)[i]? = some instr ∧ DecodedFrom instr a := by
  induction prog with
  | nil => intro n body _ i a hi; simp at hi
  | cons a prog ih =>
    rintro n body ⟨b₁, b₂, rfl, ha, hrest⟩ i c hi hn hno
    obtain ⟨n, rfl⟩ : ∃ k, n = k + 1 := ⟨n - 1, by omega⟩
    obtain ⟨op, ops, rfl, hshape, hrest'⟩ := decode_asm ha b₂
    rw [List.cons_append, decodeLoop]
    cases i with
    | zero =>
      simp only [List.getElem?_cons_zero, Option.some.injEq] at hi
      subst hi
      exact ⟨_, rfl, hshape⟩
    | succ i =>
      have hne : ∀ o, a ≠ .testHeap o := by
        rintro o rfl
        exact hno 0 (by omega) o rfl
      rw [hrest' hne]
      simp only [List.getElem?_cons_succ] at hi ⊢
      refine ih hrest i c hi (by omega) fun j hj o hjo => hno (j + 1) (by omega) o ?_
      rwa [List.getElem?_cons_succ]

theorem length_decodeLoop {prog : List Asm} : ∀ {n : Nat} {body : List Byte},
    EncodesAll prog body → prog.length ≤ n → (∀ a ∈ prog, ∀ o, a ≠ .testHeap o) →
      (decodeLoop n body).length = prog.length := by
  induction prog with
  | nil =>
    intro n body h _ _
    cases h
    cases n <;> rfl
  | cons a prog ih =>
    rintro n body ⟨b₁, b₂, rfl, ha, hrest⟩ hn hno
    obtain ⟨n, rfl⟩ : ∃ k, n = k + 1 := ⟨n - 1, by simp at hn; omega⟩
    obtain ⟨op, ops, rfl, _, hrest'⟩ := decode_asm ha b₂
    rw [List.cons_append, decodeLoop]
    rw [hrest' (hno a (by simp)), List.length_cons, List.length_cons,
      ih hrest (by simpa using hn) fun c hc => hno c (by simp [hc])]

/-! ### Programs that survive -/

section Kept

variable {prog : List Asm} {code : List Instruction} {instr : Instruction} {a : Asm}
  {m m' : Memory} {p p' : Process} {ip ip' : Nat}

theorem xReg_none {r : Nat} (h : 256 ≤ r % 2 ^ 32) : xReg (BitVec.ofNat 32 r) = none := by
  rw [xReg, dif_neg]
  rw [BitVec.toNat_ofNat]
  exact Nat.not_lt.mpr h

theorem xReg_some {r : Nat} (h : r % 2 ^ 32 < 256) :
    xReg (BitVec.ofNat 32 r) = some ⟨r % 2 ^ 32, h⟩ := by
  have hlt : (BitVec.ofNat 32 r).toNat < numXRegisters := by
    rw [BitVec.toNat_ofNat]
    exact h
  rw [xReg, dif_pos hlt]
  congr 2

theorem execInstr_kept (hs : DecodedFrom instr a) (hk : a.Kept prog)
    (hx : a.exec prog m p ip = some (m', p', ip')) :
    execInstr code instr m p ip = some (.goto m' p' ip') := by
  cases a with
  | label l =>
    cases hx
    rw [execInstr, show instr.opcode = .label from hs]
  | move src dst =>
    obtain ⟨r, rfl, rfl, hr⟩ := hk
    obtain ⟨hop, _, harg⟩ := hs
    obtain ⟨v, hv, hx⟩ := Option.bind_eq_some_iff.mp hx
    obtain ⟨⟨m₁, p₁⟩, hst, hx⟩ := Option.map_eq_some_iff.mp hx
    obtain ⟨m₂, hw, he⟩ := Option.map_eq_some_iff.mp hst
    cases he
    cases hx
    -- the register gets the value it has
    have hsame : m₁ = m := by
      obtain ⟨_, rfl⟩ := Memory.write_eq_some hw
      have hcell : m.cell (p.ySlot r) = some v := hv
      rw [← hcell, Function.update_eq_self]
    rw [execInstr, hop, hsame]
    simp only [execMove, harg, Dest.index, xReg_none hr]
  | call arity l =>
    obtain ⟨hop, harg⟩ := hs
    obtain ⟨i, hi, hx⟩ := Option.map_eq_some_iff.mp hx
    cases hx
    rw [execInstr, hop]
    simp only [harg, BitVec.toNat_ofNat, hk _ hi]
  | «return» =>
    cases hx
    rw [execInstr, show instr.opcode = .return from hs]
  | line _ => exact hk.elim
  | funcInfo _ _ _ => exact hk.elim
  | intCodeEnd => exact hk.elim
  | testHeap _ => exact hk.elim

theorem runFor_of_kept
    (hshape : ∀ (i : Nat) (a : Asm), prog[i]? = some a →
      ∃ instr, code[i]? = some instr ∧ DecodedFrom instr a)
    (hlen : code.length = prog.length) (hk : ∀ a ∈ prog, a.Kept prog) (self : ProcId) (n : Nat) :
    ∀ s ip pr, runAsm prog self n s ip = some pr → s.runFor code self n ip = some pr := by
  induction n with
  | zero => intro s ip pr h; exact h
  | succ n ih =>
    intro s ip pr h
    rw [runAsm] at h
    rw [Machine.runFor]
    cases hi : prog[ip]? with
    | none =>
      have hc : code[ip]? = none := by
        rw [List.getElem?_eq_none_iff] at hi ⊢
        omega
      rw [hi] at h
      rw [hc]
      exact h
    | some a =>
      obtain ⟨instr, hc, hs⟩ := hshape ip a hi
      rw [hi] at h
      rw [hc]
      obtain ⟨⟨m', p', ip'⟩, hx, h⟩ := Option.bind_eq_some_iff.mp h
      obtain ⟨q, hq, rfl⟩ := Option.map_eq_some_iff.mp h
      have hexec : s.exec code self instr ip =
          some (⟨m', Function.update s.procs self p'⟩, none, .goto ip') := by
        rw [Machine.exec, execInstr_kept hs (hk a (List.mem_of_getElem? hi)) hx]
        rfl
      dsimp only
      rw [hexec, Option.bind_some]
      dsimp only
      rw [ih _ _ _ hq]
      rfl

theorem preserves_of_kept
    (hshape : ∀ (i : Nat) (a : Asm), prog[i]? = some a →
      ∃ instr, code[i]? = some instr ∧ DecodedFrom instr a)
    (hlen : code.length = prog.length) (hk : ∀ a ∈ prog, a.Kept prog) : Preserves prog code where
  count := hlen
  runs self n := runFor_of_kept hshape hlen hk self n
  calls hne self w pr h := by
    have hcode : code ≠ [] := by
      rintro rfl
      exact hne (List.length_eq_zero_iff.mp hlen.symm)
    obtain ⟨s, sched⟩ := w
    have hrun := runFor_of_kept hshape hlen hk self _ _ _ _ h
    rw [beamEmuExecuteCode_eq hcode]
    exact congrArg (Option.map fun q => q.slice code self sched) hrun
  silent i a instr hi _ hsil := by
    have hka := hk a (List.mem_of_getElem? hi)
    cases a with
    | line _ => exact hka.elim
    | label _ => exact hsil.elim
    | move _ _ => exact hsil.elim
    | call _ _ => exact hsil.elim
    | «return» => exact hsil.elim
    | funcInfo _ _ _ => exact hka.elim
    | intCodeEnd => exact hka.elim
    | testHeap _ => exact hka.elim

end Kept

/-! ### Programs that do not -/

section Lost

variable {prog : List Asm} {code : List Instruction} {instr : Instruction} {a : Asm} {i : Nat}

theorem Preserves.step (h : Preserves prog code) (hi : prog[i]? = some a)
    (hc : code[i]? = some instr) {m m' m₂ : Memory} {p p' p₂ : Process} {ip' ip₂ : Nat}
    (hx : a.exec prog m p i = some (m', p', ip'))
    (he : execInstr code instr m p i = some (.goto m₂ p₂ ip₂)) :
    m₂ = m' ∧ p₂ = p' ∧ ip₂ = ip' := by
  have hasm : runAsm prog 0 1 ⟨m, fun _ => p⟩ i =
      some ⟨⟨m', Function.update (fun _ => p) 0 p'⟩, .running ip', [i], []⟩ := by
    rw [runAsm, hi]
    dsimp only
    rw [hx]
    rfl
  have hrun := h.runs 0 1 ⟨m, fun _ => p⟩ i _ hasm
  rw [Machine.runFor, hc] at hrun
  simp only [Machine.exec, he, Effect.goto, Option.bind_some, Machine.perform, Option.map_some,
    Machine.runFor, Progress.cons, Option.some.injEq, Progress.mk.injEq, Machine.mk.injEq,
    Status.running.injEq] at hrun
  obtain ⟨⟨hm, hp⟩, hip, _⟩ := hrun
  have hp0 := congrFun hp 0
  rw [Function.update_self, Function.update_self] at hp0
  exact ⟨hm, hp0, hip⟩

theorem Preserves.not_line (h : Preserves prog code) {n : Nat}
    (hi : prog[i]? = some (.line n)) (hc : code[i]? = some instr)
    (hs : DecodedFrom instr (.line n)) : False := by
  have hasm : runAsm prog 0 1 ⟨freshMemory, fun _ => freshProcess⟩ i =
      some ⟨⟨freshMemory, Function.update (fun _ => freshProcess) 0 freshProcess⟩,
        .running (i + 1), [i], []⟩ := by
    rw [runAsm, hi]
    rfl
  have hexec : (⟨freshMemory, fun _ => freshProcess⟩ : Machine).exec code 0 instr i =
      some (⟨freshMemory, Function.update (fun _ => freshProcess) 0 freshProcess⟩, none,
        .ret .errBadarg none none) := by
    rw [Machine.exec, execInstr, show instr.opcode = .other 153 from hs]
    rfl
  have hrun := h.runs 0 1 _ i _ hasm
  rw [Machine.runFor_ret hc hexec rfl] at hrun
  cases hrun

/-- A call survives only where its label stands where the interpreter jumps. -/
theorem Preserves.call_kept (h : Preserves prog code) {arity l : Nat}
    (hi : prog[i]? = some (.call arity l)) (hc : code[i]? = some instr)
    (hs : DecodedFrom instr (.call arity l)) : (Asm.call arity l).Kept prog := by
  intro t ht
  obtain ⟨hop, harg⟩ := hs
  have hx : (Asm.call arity l).exec prog freshMemory freshProcess i =
      some (freshMemory, freshProcess.setCp (BitVec.ofNat 32 (i + 1)), t) := by
    simp only [Asm.exec, ht, Option.map_some]
  have he : execInstr code instr freshMemory freshProcess i = some (.goto freshMemory
      (freshProcess.setCp (BitVec.ofNat 32 (i + 1))) ((16 * arity + 3) % 2 ^ 32)) := by
    rw [execInstr, hop]
    simp only [harg, BitVec.toNat_ofNat]
  exact (h.step hi hc hx he).2.2.symm

/-- A memory with the same word everywhere, but for one address. -/
def flatMemory (w : Word) (a : Nat) (v : Word) : Memory :=
  ⟨fun b => some (if b = a then v else w), fun _ => none⟩

/-- A process whose registers all hold 1. -/
def flatProcess : Process :=
  { freshProcess with frame := { Frame.zero with xRegs := fun _ => 1#64 } }

theorem Operand.value_flat_ne_zero (src : Operand) :
    ∃ v, src.value (flatMemory 1#64 0 1#64) flatProcess = some v ∧ v ≠ 0#64 := by
  cases src with
  | int c =>
    refine ⟨_, rfl, fun h => ?_⟩
    have hn := congrArg BitVec.toNat h
    rw [toNat_makeSmallInt_eq, BitVec.toNat_zero] at hn
    omega
  | atom n =>
    refine ⟨_, rfl, fun h => ?_⟩
    have hbit := congrArg (fun w => BitVec.getLsbD w 0) h
    simp [tagImmed1Atom] at hbit
  | x r => exact ⟨1#64, rfl, by decide⟩
  | y r => exact ⟨1#64, by simp [Operand.value, flatMemory], by decide⟩

/-- An operand that is not the register itself can differ from what the register holds. -/
theorem Operand.separates {src : Operand} {d : Nat} (h : src ≠ .y d) :
    ∃ w a u v v', src.value (flatMemory w a u) flatProcess = some v ∧
      (flatMemory w a u).cell (flatProcess.ySlot d) = some v' ∧ v' ≠ v := by
  have hsucc : ∀ v : Word, v + 1#64 ≠ v := fun v hv => by bv_omega
  have hflat : ∀ w a, (flatMemory w a w).cell (flatProcess.ySlot d) = some w := by
    intro w a
    simp [flatMemory]
  cases src with
  | int c => exact ⟨_, 0, _, _, _, rfl, hflat _ 0, hsucc _⟩
  | atom n => exact ⟨_, 0, _, _, _, rfl, hflat _ 0, hsucc _⟩
  | x r => exact ⟨_, 0, _, _, _, rfl, hflat _ 0, hsucc _⟩
  | y r =>
    have hne : flatProcess.ySlot r ≠ flatProcess.ySlot d := by
      intro he
      apply h
      unfold Process.ySlot at he
      congr 1
      omega
    refine ⟨1#64, flatProcess.ySlot d, 0#64, 1#64, 0#64, ?_, ?_, by decide⟩
    · simp [Operand.value, flatMemory, hne]
    · simp [flatMemory]

theorem Preserves.move_eq (h : Preserves prog code) {src : Operand} {dst : Dest}
    (hi : prog[i]? = some (.move src dst)) (hc : code[i]? = some instr)
    (hs : DecodedFrom instr (.move src dst)) {m m' : Memory} {p p' : Process} {v : Eterm}
    (hv : src.value m p = some v) (hst : dst.store m p v = some (m', p')) :
    m = m' ∧ ((xReg (BitVec.ofNat 32 dst.index)).elim p fun r => p.setX r 0#64) = p' := by
  obtain ⟨hop, hlit, harg⟩ := hs
  have hx : (Asm.move src dst).exec prog m p i = some (m', p', i + 1) := by
    simp only [Asm.exec, hv, Option.bind_some, hst, Option.map_some]
  cases hr : xReg (BitVec.ofNat 32 dst.index) with
  | none =>
    have he : execInstr code instr m p i = some (.goto m p (i + 1)) := by
      rw [execInstr, hop]
      simp only [execMove, harg, hr]
    obtain ⟨hm, hp, _⟩ := h.step hi hc hx he
    exact ⟨hm, hp⟩
  | some r =>
    have he : execInstr code instr m p i = some (.goto m (p.setX r 0#64) (i + 1)) := by
      rw [execInstr, hop]
      simp only [execMove, harg, hr, hlit]
    obtain ⟨hm, hp, _⟩ := h.step hi hc hx he
    exact ⟨hm, hp⟩

/-- A move survives only from a Y register to itself. -/
theorem Preserves.move_kept (h : Preserves prog code) {src : Operand} {dst : Dest}
    (hi : prog[i]? = some (.move src dst)) (hc : code[i]? = some instr)
    (hs : DecodedFrom instr (.move src dst)) : (Asm.move src dst).Kept prog := by
  obtain ⟨v, hv, hv0⟩ := src.value_flat_ne_zero
  cases dst with
  | x d =>
    -- the destination gets 0, and the source was not 0
    obtain ⟨_, hp⟩ := h.move_eq hi hc hs hv rfl
    have h256 : (d : Nat) < 256 := d.isLt
    have hd : (d : Nat) % 2 ^ 32 = d := Nat.mod_eq_of_lt (by omega)
    have hlt : (d : Nat) % 2 ^ 32 < 256 := by omega
    rw [Dest.index, xReg_some hlt, Option.elim_some] at hp
    have hfin : (⟨(d : Nat) % 2 ^ 32, hlt⟩ : Fin numXRegisters) = d := Fin.ext hd
    have hx := congrArg (fun p : Process => p.x d) hp
    rw [hfin] at hx
    simp only [Process.x_setX_self] at hx
    exact absurd hx.symm hv0
  | y d =>
    have hbig : 256 ≤ d % 2 ^ 32 := by
      by_contra hge
      -- the interpreter sets an X register instead
      have hlt : d % 2 ^ 32 < 256 := Nat.not_le.mp hge
      obtain ⟨_, hp⟩ := h.move_eq hi hc hs hv rfl
      rw [Dest.index, xReg_some hlt, Option.elim_some] at hp
      have hx := congrArg (fun p : Process => p.x ⟨d % 2 ^ 32, hlt⟩) hp
      simp only [Process.x_setX_self] at hx
      exact absurd (show (0#64 : Word) = 1#64 from hx) (by decide)
    refine ⟨d, ?_, rfl, hbig⟩
    by_contra hne
    obtain ⟨w, a, u, v, v', hv, hcell, hdiff⟩ := Operand.separates hne
    obtain ⟨hm, _⟩ := h.move_eq hi hc hs hv rfl
    have hcell' := congrArg (fun m : Memory => m.cell (flatProcess.ySlot d)) hm
    simp only [Function.update_self, hcell, Option.some.injEq] at hcell'
    exact hdiff hcell'

/-- **What a preserved program can consist of.** -/
theorem Preserves.kept (h : Preserves prog code) (hi : prog[i]? = some a)
    (hc : code[i]? = some instr) (hs : DecodedFrom instr a) : a.Kept prog := by
  cases a with
  | label _ => trivial
  | «return» => trivial
  | line _ => exact h.not_line hi hc hs
  | call arity l => exact h.call_kept hi hc hs
  | move src dst => exact h.move_kept hi hc hs
  | funcInfo _ _ _ =>
    obtain ⟨n, hn⟩ := h.silent i _ instr hi hc trivial
    rw [show instr.opcode = .move from hs] at hn
    cases hn
  | intCodeEnd =>
    obtain ⟨n, hn⟩ := h.silent i _ instr hi hc trivial
    rw [show instr.opcode = .add from hs] at hn
    cases hn
  | testHeap _ =>
    obtain ⟨n, hn⟩ := h.silent i _ instr hi hc trivial
    rw [show instr.opcode = .testIsNeExact from hs] at hn
    cases hn

end Lost

/-! ### The whole chunk -/

theorem Asm.Kept.ne_testHeap {prog : List Asm} {a : Asm} (h : a.Kept prog) (o : List Byte) :
    a ≠ .testHeap o := by
  rintro rfl
  exact h

theorem decode_chunk {prog : List Asm} {chunk : List Byte} (h : IsChunk prog chunk) :
    ∃ body, EncodesAll prog body ∧
      beamDecodeCodeChunk chunk true = some (decodeLoop maxDecoded body) := by
  obtain ⟨b0, b1, b2, b3, header, body, rfl, hsize, h16, hlt, hall⟩ := h
  refine ⟨body, hall, ?_⟩
  have hbytes : ¬ (b0 :: b1 :: b2 :: b3 :: (header ++ body)).length < 20 := by
    simp only [List.length_cons, List.length_append]
    omega
  have hskip : (4#32 + readU32Be b0 b1 b2 b3).toNat = header.length + 1 + 1 + 1 + 1 := by
    rw [BitVec.toNat_add, hsize, BitVec.toNat_ofNat]
    omega
  rw [beamDecodeCodeChunk, if_neg hbytes, if_pos rfl, hskip]
  simp only [List.drop_succ_cons, List.drop_left]

theorem preserves_decodeLoop {prog : List Asm} {body : List Byte} (hall : EncodesAll prog body) :
    Preserves prog (decodeLoop maxDecoded body) ↔
      prog.length ≤ maxDecoded ∧ ∀ a ∈ prog, a.Kept prog := by
  constructor
  · intro h
    have hlen : prog.length ≤ maxDecoded := by
      rw [← h.count]
      exact length_decodeLoop_le _ _
    refine ⟨hlen, ?_⟩
    -- by induction on the place: no `test_heap` stands before it
    have hkept : ∀ (i : Nat) (a : Asm), prog[i]? = some a → a.Kept prog := by
      intro i
      induction i using Nat.strong_induction_on with
      | _ i ih =>
        intro a hi
        obtain ⟨hlt, _⟩ := List.getElem?_eq_some_iff.mp hi
        obtain ⟨instr, hc, hs⟩ := decodeLoop_shape (n := maxDecoded) hall i a hi (by omega)
          fun j hj o hjo => (ih j hj _ hjo).ne_testHeap o rfl
        exact h.kept hi hc hs
    intro a ha
    obtain ⟨i, hi⟩ := List.getElem?_of_mem ha
    exact hkept i a hi
  · rintro ⟨hlen, hk⟩
    refine preserves_of_kept ?_ ?_ hk
    · intro i a hi
      obtain ⟨hlt, _⟩ := List.getElem?_eq_some_iff.mp hi
      exact decodeLoop_shape (n := maxDecoded) hall i a hi (by omega) fun j _ o hjo =>
        (hk _ (List.mem_of_getElem? hjo)).ne_testHeap o rfl
    · exact length_decodeLoop hall hlen fun a ha o => (hk a ha).ne_testHeap o

/-- **The program survives decoding exactly when it is short enough and every instruction of it is
one of the few that decoder and interpreter agree on.** -/
theorem preserves_iff_kept {prog : List Asm} {chunk : List Byte} {code : List Instruction}
    (hchunk : IsChunk prog chunk) (hdec : beamDecodeCodeChunk chunk true = some code) :
    Preserves prog code ↔ prog.length ≤ maxDecoded ∧ ∀ a ∈ prog, a.Kept prog := by
  obtain ⟨body, hall, hbody⟩ := decode_chunk hchunk
  rw [hdec] at hbody
  cases hbody
  exact preserves_decodeLoop hall

theorem isChunk_chunkOf {prog : List Asm} {body : List Byte} (h : EncodesAll prog body) :
    IsChunk prog (chunkOf body) :=
  ⟨0#8, 0#8, 0#8, 16#8, List.replicate 16 0#8, body, rfl, rfl, by decide, by decide, h⟩

/-- Two labels with a return between them, and a third that a call of arity 0 reaches by chance. -/
def keptProgram : List Asm := [.label 1, .return, .label 3, .label 2, .call 0 2]

/-- Its instructions in bytes. -/
def keptBytes : List Byte :=
  [1#8, 16#8, 19#8, 1#8, 48#8, 1#8, 32#8, 4#8, 0#8, 37#8]

theorem encodes_keptProgram : EncodesAll keptProgram keptBytes :=
  ⟨[1#8, 16#8], _, rfl, ⟨_, rfl, .small (by decide)⟩,
    [19#8], _, rfl, rfl,
    [1#8, 48#8], _, rfl, ⟨_, rfl, .small (by decide)⟩,
    [1#8, 32#8], _, rfl, ⟨_, rfl, .small (by decide)⟩,
    [4#8, 0#8, 37#8], [], rfl, ⟨[0#8], [37#8], rfl, .small (by decide), .small (by decide)⟩, rfl⟩

theorem kept_keptProgram : ∀ a ∈ keptProgram, a.Kept keptProgram := by
  intro a ha
  simp only [keptProgram, List.mem_cons, List.not_mem_nil, or_false] at ha
  rcases ha with rfl | rfl | rfl | rfl | rfl
  · trivial
  · trivial
  · trivial
  · trivial
  · intro i hi
    cases hi
    rfl

theorem preserves_keptProgram :
    ∃ code, beamDecodeCodeChunk (chunkOf keptBytes) true = some code ∧
      Preserves keptProgram code :=
  ⟨_, rfl, (preserves_iff_kept (isChunk_chunkOf encodes_keptProgram) rfl).mpr
    ⟨by decide, kept_keptProgram⟩⟩

/-- **A move is lost**: `move 7 to x0` clears `x0`. -/
theorem moved_integer_lost :
    ∃ code, IsChunk [.move (.int 7) (.x 0)] (chunkOf [64#8, 113#8, 3#8]) ∧
      beamDecodeCodeChunk (chunkOf [64#8, 113#8, 3#8]) true = some code ∧
      ¬ Preserves [.move (.int 7) (.x 0)] code := by
  have hall : EncodesAll [.move (.int 7) (.x 0)] [64#8, 113#8, 3#8] :=
    ⟨[64#8, 113#8, 3#8], [], rfl, ⟨[113#8], [3#8], rfl,
      ⟨by decide, by decide, .short _ (by decide) (by decide) (.small (by decide))⟩,
      .small (by decide)⟩, rfl⟩
  refine ⟨_, isChunk_chunkOf hall, rfl, fun h => ?_⟩
  have hv := (h.move_eq (i := 0) rfl rfl ⟨rfl, rfl, rfl⟩ (m := freshMemory) (p := freshProcess)
    rfl rfl).2
  have hx := congrArg (fun p : Process => p.x 0) hv
  exact absurd hx (by decide)

end BeamModular
