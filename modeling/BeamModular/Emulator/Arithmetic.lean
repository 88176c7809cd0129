import BeamModular.Emulator.Budget
import BeamModular.Lib.Run

/-!
# The integer instructions

`ADD`, `SUB`, `MUL` and `INT_DIV` shift the tag off their operands, compute in 64
bits and shift the tag back on.  What the destination decodes to is therefore the
exact result taken into 60 bits with its sign (`smallValue_makeSmallInt`): it is the
exact result as long as that is a small integer (`execArithOp_meets_iff`).

The second half runs code without jumps next to the same instructions over unbounded
integers (`Instruction.evalInt`).  `runFor_straight` is the simulation: one
instruction keeps the registers equal to the integers, and so does the whole code.
-/

namespace BeamModular

/-! ### The integer a term carries -/

/-- What `eterm_to_small_int` makes of a term. -/
def smallValue (t : Eterm) : Int := (etermToSmallInt t).toInt

/-- The integers that 60 bits with a sign can hold. -/
def SmallRange (v : Int) : Prop := -2 ^ 59 ≤ v ∧ v < 2 ^ 59

instance (v : Int) : Decidable (SmallRange v) := inferInstanceAs (Decidable (_ ∧ _))

/-- The term of an integer. -/
def smallTerm (v : Int) : Eterm := makeSmallInt (BitVec.ofInt 64 v)

theorem smallValue_eq (t : Eterm) : smallValue t = t.toInt / 16 := by
  rw [smallValue, etermToSmallInt, BitVec.toInt_sshiftRight, Int.shiftRight_eq_div_pow]
  rfl

/-- The tag lands in bits that the shift has cleared. -/
theorem makeSmallInt_eq_add (v : Word) : makeSmallInt v = v * 16#64 + 3#64 := by
  have hshift : v <<< 4 = v * 16#64 := BitVec.shiftLeft_eq_mul_twoPow v 4
  rw [makeSmallInt, tagImmed1SmallInt, ← hshift, eq_comm]
  apply BitVec.add_eq_or_of_and_eq_zero
  apply BitVec.eq_of_getLsbD_eq
  intro i hi
  by_cases h4 : i < 4
  · simp [h4]
  · have hbit : (3#64).getLsbD i = false := by
      rw [BitVec.getLsbD]
      exact Nat.testBit_lt_two_pow (lt_of_lt_of_le (by decide : (3#64).toNat < 2 ^ 4)
        (Nat.pow_le_pow_right (by decide) (by omega)))
    rw [BitVec.getLsbD_and, hbit, Bool.and_false, BitVec.getLsbD_zero]

theorem toNat_makeSmallInt_mod (v : Word) : (makeSmallInt v).toNat % 16 = 3 := by
  rw [makeSmallInt_eq_add, BitVec.toNat_add, BitVec.toNat_mul, BitVec.toNat_ofNat,
    BitVec.toNat_ofNat]
  omega

@[simp] theorem beamIsSmallInt_makeSmallInt (v : Word) : beamIsSmallInt (makeSmallInt v) = true :=
  beamIsSmallInt_iff.mpr (toNat_makeSmallInt_mod v)

theorem smallRange_smallValue (t : Eterm) : SmallRange (smallValue t) := by
  have hlo := BitVec.le_toInt t
  have hhi := BitVec.toInt_lt (x := t)
  rw [smallValue_eq, SmallRange]
  omega

theorem bmod_eq_self_iff {v : Int} : v.bmod (2 ^ 60) = v ↔ SmallRange v := by
  rw [SmallRange, Int.bmod_def]
  constructor
  · intro h
    split at h <;> omega
  · intro h
    split <;> omega

/-- **What comes back from a small integer** is the machine word taken into 60 bits. -/
theorem smallValue_makeSmallInt (v : Word) :
    smallValue (makeSmallInt v) = v.toInt.bmod (2 ^ 60) := by
  have h3 : (3#64).toInt = 3 := by decide
  have h16 : (16#64).toInt = 16 := by decide
  rw [smallValue_eq, makeSmallInt_eq_add, BitVec.toInt_add, BitVec.toInt_mul, h3, h16,
    Int.bmod_add_bmod, Int.bmod_def, Int.bmod_def]
  split <;> split <;> omega

theorem smallTerm_smallValue {t : Eterm} (h : beamIsSmallInt t = true) :
    smallTerm (smallValue t) = t := by
  have htag := beamIsSmallInt_iff.mp h
  rw [smallTerm, smallValue, BitVec.ofInt_toInt, makeSmallInt_eq_add]
  apply BitVec.eq_of_toInt_eq
  have h3 : (3#64).toInt = 3 := by decide
  have h16 : (16#64).toInt = 16 := by decide
  have hv : (etermToSmallInt t).toInt = t.toInt / 16 := smallValue_eq t
  have hmod : t.toInt % 16 = 3 := by
    rw [BitVec.toInt_eq_toNat_cond]
    split <;> omega
  rw [BitVec.toInt_add, BitVec.toInt_mul, h3, h16, Int.bmod_add_bmod, hv,
    show t.toInt / 16 * 16 + 3 = t.toInt by omega, BitVec.toInt_bmod_cancel]

theorem smallValue_smallTerm {v : Int} (h : SmallRange v) : smallValue (smallTerm v) = v := by
  rw [smallTerm, smallValue_makeSmallInt, BitVec.toInt_ofInt, Int.bmod_bmod_of_dvd (by decide),
    bmod_eq_self_iff.mpr h]

/-! ### One instruction -/

/-- The instructions that compute with integers. -/
inductive ArithOp
  | add
  | sub
  | mul
  | intDiv
  deriving DecidableEq, Repr

namespace ArithOp

def opcode : ArithOp → Opcode
  | add => .add
  | sub => .sub
  | mul => .mul
  | intDiv => .intDiv

/-- What it computes on integers; there is no quotient by zero. -/
def exact : ArithOp → Int → Int → Option Int
  | add, a, b => some (a + b)
  | sub, a, b => some (a - b)
  | mul, a, b => some (a * b)
  | intDiv, a, b => if b = 0 then none else some (a.tdiv b)

/-- What it computes in 64 bits. -/
def onWords : ArithOp → Word → Word → Word
  | add => (· + ·)
  | sub => (· - ·)
  | mul => (· * ·)
  | intDiv => BitVec.sdiv

/-- The operand the instruction refuses. -/
def DivByZero (op : ArithOp) (t : Eterm) : Prop := op = intDiv ∧ etermToSmallInt t = 0#64

instance (op : ArithOp) (t : Eterm) : Decidable (op.DivByZero t) :=
  inferInstanceAs (Decidable (_ ∧ _))

theorem divByZero_iff {op : ArithOp} {t : Eterm} :
    op.DivByZero t ↔ op = intDiv ∧ smallValue t = 0 := by
  refine and_congr_right fun _ => ⟨fun h => by rw [smallValue, h]; rfl, fun h => ?_⟩
  exact BitVec.eq_of_toInt_eq h

theorem exact_eq_none_iff {op : ArithOp} {a b : Int} :
    op.exact a b = none ↔ op = intDiv ∧ b = 0 := by
  cases op <;> simp [exact]

/-- **64 bits are enough to know the 60 bits of the result.** -/
theorem toInt_onWords {op : ArithOp} {t u : Eterm} {v : Int}
    (hv : op.exact (smallValue t) (smallValue u) = some v) :
    (op.onWords (etermToSmallInt t) (etermToSmallInt u)).toInt.bmod (2 ^ 60) = v.bmod (2 ^ 60) := by
  have hdvd : 2 ^ 60 ∣ 2 ^ 64 := by decide
  cases op with
  | add =>
    cases hv
    exact (congrArg (Int.bmod · _) (BitVec.toInt_add ..)).trans (Int.bmod_bmod_of_dvd hdvd)
  | sub =>
    cases hv
    exact (congrArg (Int.bmod · _) (BitVec.toInt_sub ..)).trans (Int.bmod_bmod_of_dvd hdvd)
  | mul =>
    cases hv
    exact (congrArg (Int.bmod · _) (BitVec.toInt_mul ..)).trans (Int.bmod_bmod_of_dvd hdvd)
  | intDiv =>
    rw [exact] at hv
    split at hv
    · cases hv
    · cases hv
      exact (congrArg (Int.bmod · _) (BitVec.toInt_sdiv ..)).trans (Int.bmod_bmod_of_dvd hdvd)

end ArithOp

section OneInstruction

variable {op : ArithOp} {code : List Instruction} {instr : Instruction} {m : Memory} {p : Process}
  {ip : Nat} {r1 r2 dst : Fin numXRegisters}

/-- **An integer instruction** refuses a zero divisor and otherwise stores the term of the words'
result. -/
theorem execInstr_arith (hop : instr.opcode = op.opcode) (h1 : xReg instr.arg1 = some r1)
    (h2 : xReg instr.arg2 = some r2) (h3 : xReg instr.arg3 = some dst) :
    execInstr code instr m p ip = some (
      if op.DivByZero (p.x r2) then .fail m p .errBadarg
      else .goto m (p.setX dst (makeSmallInt
        (op.onWords (etermToSmallInt (p.x r1)) (etermToSmallInt (p.x r2))))) (ip + 1)) := by
  rw [execInstr, hop]
  cases op with
  | intDiv =>
    simp only [ArithOp.opcode, execIntDiv, h1, h2, h3, ArithOp.DivByZero, true_and]
    rfl
  | add => simp [ArithOp.opcode, execArith, h1, h2, h3, ArithOp.DivByZero, ArithOp.onWords]
  | sub => simp [ArithOp.opcode, execArith, h1, h2, h3, ArithOp.DivByZero, ArithOp.onWords]
  | mul => simp [ArithOp.opcode, execArith, h1, h2, h3, ArithOp.DivByZero, ArithOp.onWords]

/-- The interpreter returns an error. -/
def Effect.Fails (e : Effect) : Prop := ∃ res state out, e.next = .ret res state out ∧ res.Fails

/-- What integer arithmetic owes its caller: on small integers the exact result in the destination
or an error, on anything else an error, and with an error no register written. -/
structure ExactOrFails (op : ArithOp) (p : Process) (r1 r2 dst : Fin numXRegisters)
    (e : Effect) : Prop where
  exact : beamIsSmallInt (p.x r1) = true → beamIsSmallInt (p.x r2) = true → e.Fails ∨
    op.exact (smallValue (p.x r1)) (smallValue (p.x r2)) = some (smallValue (e.proc.x dst))
  typed : ¬ (beamIsSmallInt (p.x r1) = true ∧ beamIsSmallInt (p.x r2) = true) → e.Fails
  unchanged : e.Fails → ∀ i, e.proc.x i = p.x i

/-- Both operands are small integers and so is the exact result. -/
def ArithOp.Fits (op : ArithOp) (t u : Eterm) : Prop :=
  beamIsSmallInt t = true ∧ beamIsSmallInt u = true ∧
    ∀ v, op.exact (smallValue t) (smallValue u) = some v → SmallRange v

theorem fails_fail {res : Result} (h : res.Fails) : (Effect.fail m p res).Fails :=
  ⟨res, none, none, rfl, h⟩

theorem not_fails_goto : ¬ (Effect.goto m p ip).Fails := fun ⟨_, _, _, hn, _⟩ => by cases hn

/-- **Integer arithmetic is exact or fails** when the operands and the exact result are small
integers, and when the divisor is zero; in every other case it stores a wrong result. -/
theorem execArithOp_meets_iff (hop : instr.opcode = op.opcode) (h1 : xReg instr.arg1 = some r1)
    (h2 : xReg instr.arg2 = some r2) (h3 : xReg instr.arg3 = some dst) :
    (∃ e, execInstr code instr m p ip = some e ∧ ExactOrFails op p r1 r2 dst e) ↔
      op.DivByZero (p.x r2) ∨ op.Fits (p.x r1) (p.x r2) := by
  rw [execInstr_arith hop h1 h2 h3]
  by_cases hz : op.DivByZero (p.x r2)
  · rw [if_pos hz]
    have hf : (Effect.fail m p .errBadarg).Fails := fails_fail (by decide)
    exact iff_of_true ⟨_, rfl, fun _ _ => Or.inl hf, fun _ => hf, fun _ _ => rfl⟩ (Or.inl hz)
  · rw [if_neg hz, or_iff_right hz]
    obtain ⟨v, hv⟩ : ∃ v, op.exact (smallValue (p.x r1)) (smallValue (p.x r2)) = some v := by
      rw [← Option.ne_none_iff_exists', Ne, ArithOp.exact_eq_none_iff, ← ArithOp.divByZero_iff]
      exact hz
    have hdst : smallValue (makeSmallInt
        (op.onWords (etermToSmallInt (p.x r1)) (etermToSmallInt (p.x r2)))) = v.bmod (2 ^ 60) := by
      rw [smallValue_makeSmallInt, ArithOp.toInt_onWords hv]
    constructor
    · rintro ⟨e, he, hex⟩
      cases he
      by_cases hs : beamIsSmallInt (p.x r1) = true ∧ beamIsSmallInt (p.x r2) = true
      · refine ⟨hs.1, hs.2, fun v' hv' => ?_⟩
        rcases hex.exact hs.1 hs.2 with hf | hx
        · exact absurd hf not_fails_goto
        · rw [hv', Option.some_inj, Effect.goto, Process.x_setX_self, hdst] at hx
          rw [hv, Option.some_inj] at hv'
          exact bmod_eq_self_iff.mp (by rw [← hv', ← hx, hv'])
      · exact absurd (hex.typed hs) not_fails_goto
    · rintro ⟨hs1, hs2, hr⟩
      refine ⟨_, rfl, fun _ _ => Or.inr ?_, fun hn => absurd ⟨hs1, hs2⟩ hn,
        fun hf => absurd hf not_fails_goto⟩
      rw [hv, Effect.goto, Process.x_setX_self, hdst, bmod_eq_self_iff.mpr (hr v hv)]

end OneInstruction

/-- A process whose first registers hold the two terms. -/
def Process.holding (t u : Eterm) : Process := (freshProcess.setX 0 t).setX 1 u

/-- The largest small integer and one are the smallest small integer. -/
theorem addOne_not_exactOrFails :
    ¬ ∃ e, execInstr [] { opcode := .add, arg1 := 0, arg2 := 1, arg3 := 2 } freshMemory
        (.holding (smallTerm (2 ^ 59 - 1)) (smallTerm 1)) 0 = some e ∧
      ExactOrFails .add (.holding (smallTerm (2 ^ 59 - 1)) (smallTerm 1)) 0 1 2 e := by
  rintro ⟨e, he, h⟩
  cases he
  rcases h.exact (by decide) (by decide) with hf | hx
  · exact not_fails_goto hf
  · exact absurd hx (by decide +kernel)

theorem execArithOp_meets_five :
    ∃ e, execInstr [] { opcode := .intDiv, arg1 := 0, arg2 := 1, arg3 := 2 } freshMemory
        (.holding (smallTerm (-17)) (smallTerm 5)) 0 = some e ∧
      ExactOrFails .intDiv (.holding (smallTerm (-17)) (smallTerm 5)) 0 1 2 e :=
  (execArithOp_meets_iff (show _ = ArithOp.intDiv.opcode from rfl) rfl rfl rfl).mpr
    (Or.inr ⟨by decide, by decide, fun v hv => by cases hv; decide⟩)

/-! ### Straight-line code -/

/-- An instruction that goes on to the next one and has the registers it names. -/
inductive Instruction.Straight (instr : Instruction) : Prop
  | label (hop : instr.opcode = .label)
  | move (dst : Fin numXRegisters) (hop : instr.opcode = .move)
      (h2 : xReg instr.arg2 = some dst) (hl : beamIsSmallInt instr.literal = true)
  | arith (op : ArithOp) (r1 r2 dst : Fin numXRegisters) (hop : instr.opcode = op.opcode)
      (h1 : xReg instr.arg1 = some r1) (h2 : xReg instr.arg2 = some r2)
      (h3 : xReg instr.arg3 = some dst)

/-- A register file of unbounded integers. -/
abbrev IntRegs := Fin numXRegisters → Int

/-- The integer instruction `op` over unbounded integers. -/
def ArithOp.evalInt (op : ArithOp) (instr : Instruction) (regs : IntRegs) : Option IntRegs :=
  match xReg instr.arg1, xReg instr.arg2, xReg instr.arg3 with
  | some r1, some r2, some dst => (op.exact (regs r1) (regs r2)).map (Function.update regs dst)
  | _, _, _ => some regs

/-- One instruction over unbounded integers; a division by zero has no result. -/
def Instruction.evalInt (regs : IntRegs) (instr : Instruction) : Option IntRegs :=
  match instr.opcode with
  | .move =>
    match xReg instr.arg2 with
    | some dst => some (Function.update regs dst (smallValue instr.literal))
    | none => some regs
  | .add => ArithOp.add.evalInt instr regs
  | .sub => ArithOp.sub.evalInt instr regs
  | .mul => ArithOp.mul.evalInt instr regs
  | .intDiv => ArithOp.intDiv.evalInt instr regs
  | _ => some regs

/-- Every register the instruction leaves is in range. -/
def StaysSmall (regs : IntRegs) (instr : Instruction) : Prop :=
  ∀ regs', instr.evalInt regs = some regs' → ∀ i, SmallRange (regs' i)

/-- The registers of the process are these integers. -/
structure Carries (p : Process) (regs : IntRegs) : Prop where
  term (i : Fin numXRegisters) : p.x i = smallTerm (regs i)
  range (i : Fin numXRegisters) : SmallRange (regs i)

section Straight

variable {code : List Instruction} {instr last : Instruction} {m : Memory} {p : Process}
  {regs regs' final : IntRegs} {self : ProcId} {ip : Nat}

theorem carries_of_small (h : ∀ i, beamIsSmallInt (p.x i) = true) :
    Carries p (fun i => smallValue (p.x i)) :=
  ⟨fun i => (smallTerm_smallValue (h i)).symm, fun _ => smallRange_smallValue _⟩

theorem Carries.value (h : Carries p regs) (i : Fin numXRegisters) :
    smallValue (p.x i) = regs i := by
  rw [h.term, smallValue_smallTerm (h.range i)]

theorem Carries.setX (h : Carries p regs) (dst : Fin numXRegisters) {v : Int} {t : Eterm}
    (ht : t = smallTerm v) (hr : ∀ i, SmallRange (Function.update regs dst v i)) :
    Carries (p.setX dst t) (Function.update regs dst v) := by
  refine ⟨fun i => ?_, hr⟩
  by_cases hi : i = dst
  · subst hi
    rw [Process.x_setX_self, Function.update_self, ht]
  · rw [Function.update_of_ne hi, ← h.term i]
    exact Function.update_of_ne hi _ _

theorem evalInt_arith {op : ArithOp} {r1 r2 dst : Fin numXRegisters}
    (hop : instr.opcode = op.opcode) (h1 : xReg instr.arg1 = some r1)
    (h2 : xReg instr.arg2 = some r2) (h3 : xReg instr.arg3 = some dst) :
    instr.evalInt regs = (op.exact (regs r1) (regs r2)).map (Function.update regs dst) := by
  cases op <;> simp only [Instruction.evalInt, hop, ArithOp.opcode, ArithOp.evalInt, h1, h2, h3]

/-- **One instruction keeps the registers equal to the integers.** -/
theorem execInstr_straight (code : List Instruction) (m : Memory) (ip : Nat)
    (hs : instr.Straight) (hc : Carries p regs)
    (he : instr.evalInt regs = some regs') (hr : StaysSmall regs instr) :
    ∃ p', execInstr code instr m p ip = some (.goto m p' (ip + 1)) ∧ Carries p' regs' := by
  have hsmall := hr regs' he
  cases hs with
  | label hop =>
    rw [Instruction.evalInt, hop] at he
    cases he
    exact ⟨p, by rw [execInstr, hop], hc⟩
  | move dst hop h2 hl =>
    simp only [Instruction.evalInt, hop, h2, Option.some_inj] at he
    subst he
    refine ⟨p.setX dst instr.literal, ?_, hc.setX dst (smallTerm_smallValue hl).symm hsmall⟩
    simp only [execInstr, hop, execMove, h2]
  | arith op r1 r2 dst hop h1 h2 h3 =>
    rw [evalInt_arith hop h1 h2 h3] at he
    obtain ⟨v, hv, rfl⟩ := Option.map_eq_some_iff.mp he
    rw [← hc.value, ← hc.value] at hv
    have hz : ¬ op.DivByZero (p.x r2) := by
      rw [ArithOp.divByZero_iff, ← ArithOp.exact_eq_none_iff (a := smallValue (p.x r1)), hv]
      exact Option.some_ne_none v
    have hrange : SmallRange v := by
      have := hsmall dst
      rwa [Function.update_self] at this
    rw [execInstr_arith hop h1 h2 h3, if_neg hz]
    refine ⟨_, rfl, hc.setX dst ?_ hsmall⟩
    rw [← smallTerm_smallValue (beamIsSmallInt_makeSmallInt _), smallValue_makeSmallInt,
      ArithOp.toInt_onWords hv, bmod_eq_self_iff.mpr hrange]

/-- **The whole code keeps them equal**, one instruction at a time, and halts. -/
theorem runFor_straight (hlast : last.opcode = .halt) (n : Nat) :
    ∀ {body : List Instruction} (done : List Instruction) {regs : IntRegs} (s : Machine),
      (∀ i ∈ body, i.Straight) → run Instruction.evalInt regs body = some final →
        Along Instruction.evalInt StaysSmall regs body → Carries (s.procs self) regs →
          ∃ pr, s.runFor (done ++ body ++ [last]) self (body.length + 1 + n) done.length = some pr ∧
            pr.status = .returned .errHalt (some .exited) (some (smallTerm (final 0))) ∧
            pr.trace.length = body.length + 1 ∧ Carries (pr.machine.procs self) final := by
  intro body
  induction body with
  | nil =>
    intro done regs s _ hrun _ hc
    cases hrun
    have hx : s.exec (done ++ [] ++ [last]) self last done.length
        = some (⟨s.mem, Function.update s.procs self (s.procs self)⟩, none,
            .ret .errHalt (some .exited) (some ((s.procs self).x 0))) := by
      rw [Machine.exec, execInstr, hlast]
      rfl
    refine ⟨⟨⟨s.mem, Function.update s.procs self (s.procs self)⟩,
      .returned .errHalt (some .exited) (some ((s.procs self).x 0)), [done.length], []⟩,
      ?_, ?_, rfl, ?_⟩
    · rw [Nat.add_comm, List.length_nil, Nat.zero_add]
      exact Machine.runFor_ret (by simp) hx rfl
    · rw [hc.term]
    · dsimp only
      rwa [Function.update_self]
  | cons instr body ih =>
    intro done regs s hs hrun hsmall hc
    obtain ⟨regs', he, hrest⟩ := run_cons_eq_some hrun
    obtain ⟨p', hx, hc'⟩ := execInstr_straight (done ++ instr :: body ++ [last]) s.mem done.length
      (hs instr List.mem_cons_self) hc he hsmall.1
    have hexec : s.exec (done ++ instr :: body ++ [last]) self instr done.length
        = some (⟨s.mem, Function.update s.procs self p'⟩, none, .goto (done.length + 1)) := by
      rw [Machine.exec, hx]
      rfl
    obtain ⟨pr, hpr, hst, hlen, hfinal⟩ := ih (done ++ [instr])
      ⟨s.mem, Function.update s.procs self p'⟩
      (fun i hi => hs i (List.mem_cons_of_mem _ hi)) hrest (hsmall.2 regs' he)
      (by dsimp only; rwa [Function.update_self])
    rw [List.append_assoc done, List.singleton_append, List.length_append, List.length_singleton]
      at hpr
    refine ⟨pr.cons done.length none, ?_, hst, ?_, hfinal⟩
    · rw [List.length_cons, show body.length + 1 + 1 + n = body.length + 1 + n + 1 by omega,
        Machine.runFor_goto (by simp) hexec rfl]
      dsimp only
      rw [hpr]
      rfl
    · rw [Progress.cons, List.length_cons, hlen, List.length_cons]

/-- **Straight-line code computes its reference value.** -/
theorem beamEmuExecuteCode_straight {body : List Instruction} {w : World}
    (hs : ∀ i ∈ body, i.Straight) (hlast : last.opcode = .halt)
    (hip : (w.procs self).frame.ip = 0) (hregs : ∀ i, beamIsSmallInt ((w.procs self).x i) = true)
    (hbudget : ((body ++ [last]).length : Int) < w.reductions self)
    (hrun : run Instruction.evalInt (fun i => smallValue ((w.procs self).x i)) body = some final)
    (hsmall : Along Instruction.evalInt StaysSmall
      (fun i => smallValue ((w.procs self).x i)) body) :
    ∃ sl, beamEmuExecuteCode (body ++ [last]) self w = some sl ∧ sl.res = .errHalt ∧
      sl.out = some (smallTerm (final 0)) ∧
      (∀ i, (sl.world.procs self).x i = smallTerm (final i)) ∧
      sl.world.reductions self = w.reductions self - (body ++ [last]).length := by
  obtain ⟨s, sched⟩ := w
  have hx : ((s.start (body ++ [last]) self).procs self).frame.xRegs
      = (s.procs self).frame.xRegs := by
    simp only [Machine.start, Function.update_self, initCp_xRegs]
  have hc : Carries ((s.start (body ++ [last]) self).procs self)
      (fun i => smallValue ((s.procs self).x i)) := by
    refine ⟨fun i => ?_, (carries_of_small hregs).range⟩
    rw [Process.x, hx]
    exact (carries_of_small hregs).term i
  rw [World.reductions, List.length_append, List.length_singleton] at hbudget
  push_cast at hbudget
  obtain ⟨n, hn⟩ : ∃ n, ((sched self).reductions - 1).toNat = body.length + 1 + n :=
    ⟨((sched self).reductions - 1).toNat - (body.length + 1), by omega⟩
  obtain ⟨pr, hpr, hst, hlen, hfinal⟩ :=
    runFor_straight hlast n [] (s.start (body ++ [last]) self) hs hrun hsmall hc
  rw [List.nil_append, List.length_nil] at hpr
  have hcode : body ++ [last] ≠ [] := by simp
  refine ⟨pr.slice (body ++ [last]) self sched, ?_, ?_⟩
  · rw [beamEmuExecuteCode_eq hcode, hip, hn, hpr]
    rfl
  · simp only [Progress.slice, hst, hlen, World.returnIn, World.setState, World.consumeReductions,
      World.reductions, Function.update_self, List.length_append, List.length_singleton]
    exact ⟨trivial, trivial, fun i => hfinal.term i, trivial⟩

end Straight

/-- A world of new processes with a zero in every register. -/
def zeroWorld : World where
  mem := freshMemory
  procs _ := { freshProcess with frame := { Frame.zero with xRegs := fun _ => smallTerm 0 } }
  sched _ := SchedInfo.create

theorem beamEmuExecuteCode_straight_two : ∃ sl,
    beamEmuExecuteCode ([{ opcode := .move, arg2 := 1, literal := smallTerm (-7) },
        { opcode := .mul, arg1 := 1, arg2 := 1, arg3 := 0 }] ++ [{ opcode := .halt }]) 0 zeroWorld
      = some sl ∧ sl.res = .errHalt ∧ sl.out = some (smallTerm 49) := by
  have hzero : smallValue (smallTerm 0) = 0 := by decide
  have hconst : (fun i => smallValue ((zeroWorld.procs 0).x i)) = fun _ => 0 :=
    funext fun _ => hzero
  obtain ⟨sl, h, hres, hout, _⟩ := @beamEmuExecuteCode_straight { opcode := .halt }
    (Function.update (Function.update (fun _ => 0) 1 (-7)) 0 49) 0
    [{ opcode := .move, arg2 := 1, literal := smallTerm (-7) },
      { opcode := .mul, arg1 := 1, arg2 := 1, arg3 := 0 }] zeroWorld
    (by
      rw [List.forall_mem_cons, List.forall_mem_singleton]
      exact ⟨.move 1 rfl rfl (by decide), .arith .mul 1 1 0 rfl rfl rfl rfl⟩)
    rfl rfl (fun _ => beamIsSmallInt_makeSmallInt _) (by decide) (by rw [hconst]; rfl)
    (by
      rw [hconst]
      refine ⟨fun regs' h i => ?_, fun regs' h => ⟨fun regs'' h' i => ?_, fun _ _ => trivial⟩⟩
      · cases h
        rw [Function.update_apply]
        split <;> decide
      · cases h
        cases h'
        simp only [Function.update_apply]
        split
        · decide
        · split <;> decide)
  exact ⟨sl, h, hres, by rw [hout]; rfl⟩

end BeamModular
