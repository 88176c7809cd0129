import BeamModular.Emulator.Budget

/-!
# The indices an instruction uses

Most instructions compare their register operands with `BEAM_NUM_X_REGISTERS` before
they index the register file.  Six do not, `GET_TUPLE_ELEMENT` does not compare the
element's index with the arity, and `SELECT_VAL` reads its table in pairs even where the
last pair is half a pair.

`accesses` lists what an instruction indexes, in the source's order and up to the first
index out of range.  The list and `execInstr` agree: a register out of range leaves the
instruction without a result (`accesses_defined`), and a register that is not listed is
neither read nor written (`Untouched.lean`).
`accesses_inRange_iff` says for which operands every index is in range, and
`beamEmuExecuteCode_inRange_iff` says it of all the instructions of a call.
-/

namespace BeamModular

/-- An access through an index, with the bound the index has to keep. -/
inductive OperandAccess
  | xReg (index : Nat)
  | extraArg (index count : Nat)
  | tupleElement (index : Nat) (arity : Word)
  deriving DecidableEq, Repr

def OperandAccess.InRange : OperandAccess → Prop
  | xReg index => index < numXRegisters
  | extraArg index count => index < count
  | tupleElement index arity => index < arity.toNat

instance OperandAccess.decidableInRange : (a : OperandAccess) → Decidable a.InRange
  | xReg index => inferInstanceAs (Decidable (index < numXRegisters))
  | extraArg index count => inferInstanceAs (Decidable (index < count))
  | tupleElement index arity => inferInstanceAs (Decidable (index < arity.toNat))

/-! ### What each instruction indexes -/

section

variable (instr : Instruction) (m : Memory) (p : Process)

/-- Registers the source checks: accessed when all of them are registers. -/
def checkedAccesses (operands : List (BitVec 32)) : List OperandAccess :=
  if ∀ r ∈ operands, r.toNat < numXRegisters then operands.map fun r => .xReg r.toNat else []

/-- A register the source does not check, and what is accessed after it. -/
def readAccess (r : BitVec 32) (rest : Eterm → List OperandAccess) : List OperandAccess :=
  .xReg r.toNat :: match xReg r with
    | some i => rest (p.x i)
    | none => []

/-- The loop of `SELECT_VAL` from entry `k` on. -/
def selectAccesses (reg : Nat) (value : Eterm) (table : List Eterm) (count : Nat) :
    Nat → Nat → List OperandAccess
  | 0, _ => []
  | pairs + 1, k =>
    .xReg reg :: .extraArg k count :: match table[k]? with
      | some key =>
        if value = key then [.extraArg (k + 1) count]
        else selectAccesses reg value table count pairs (k + 2)
      | none => []

/-- `SELECT_VAL`: a table with less than one pair is not looked at. -/
def tableAccesses : List OperandAccess :=
  match instr.extraArgs with
  | some table =>
    if instr.extraCount ≥ 2 then
      match xReg instr.arg1 with
      | some src => selectAccesses instr.arg1.toNat (p.x src) table instr.extraCount
          ((instr.extraCount + 1) / 2) 0
      | none => [.xReg instr.arg1.toNat]
    else []
  | none => []

/-- `GET_TUPLE_ELEMENT`: `beam_tuple_element` indexes a tuple and nothing else. -/
def elementAccesses : List OperandAccess :=
  match xReg instr.arg1, xReg instr.arg3 with
  | some src, some _ =>
    .xReg instr.arg1.toNat ::
      ((match beamIsTuple m (p.x src), beamTupleArity m (p.x src) with
        | some true, some arity => [.tupleElement instr.arg2.toNat arity]
        | _, _ => []) ++ [.xReg instr.arg3.toNat])
  | _, _ => []

/-- The arguments a built-in function reads. -/
def bifReads : List OperandAccess :=
  match instr.arg1.toNat with
  | 1 | 2 => if instr.arg2.toInt < 2 then [] else [.xReg 0, .xReg 1]
  | 3 | 4 | 5 => if instr.arg2.toInt < 1 then [] else [.xReg 0]
  | _ => []

/-- `CALL_EXT`: the arguments, and the register of the result if there is such a function. -/
def callExtAccesses : List OperandAccess :=
  bifReads instr ++ if instr.arg1.toNat ≤ 5 then [.xReg 0] else []

/-- `MAKE_FUN2`: the free variables that are registers, and the destination. -/
def makeFunAccesses : List OperandAccess :=
  match (beamProcessAllocHeap m p ((instr.arg2 + 2#32).setWidth 64)).2.2 with
  | none => []
  | some _ => (List.range (min instr.arg2.toNat numXRegisters)).map .xReg ++
      checkedAccesses [instr.arg3]

/-- Every index the instruction uses, up to the first that is out of range. -/
def accesses : List OperandAccess :=
  match instr.opcode with
  | .move => checkedAccesses [instr.arg2]
  | .add | .sub | .mul | .intDiv => checkedAccesses [instr.arg1, instr.arg2, instr.arg3]
  | .send => if instr.targetProc.isSome then checkedAccesses [instr.arg1] else []
  | .loopRec =>
    match p.mailbox.peekSave with
    | some (_, .ok _) => checkedAccesses [instr.arg2]
    | _ => []
  | .raise => checkedAccesses [instr.arg1] ++ if p.frame.catchDepth = 0 then [] else [.xReg 0]
  | .matchTuple => checkedAccesses [instr.arg1]
  | .getTupleElement => elementAccesses instr m p
  | .testIsEqExact | .testIsNeExact =>
    readAccess p instr.arg2 fun _ => readAccess p instr.arg3 fun _ => []
  | .testIsTuple => readAccess p instr.arg2 fun _ => []
  | .testIsList => readAccess p instr.arg2 fun t =>
      if beamIsList t then [] else [.xReg instr.arg2.toNat]
  | .getList => readAccess p instr.arg1 fun t =>
      if beamIsList t then
        readAccess p instr.arg2 fun _ => readAccess p instr.arg3 fun _ => []
      else []
  | .selectVal => tableAccesses instr p
  | .callExt => callExtAccesses instr
  | .makeFun2 => makeFunAccesses instr m p
  | .halt => [.xReg 0]
  | _ => []

end

/-! ### The operands that are in range -/

/-- The value is found behind the last full pair only, in the half of a pair that an odd count
leaves: its label is read past the end of the table. -/
def MatchesHalfPair (value : Eterm) (table : List Eterm) (count : Nat) : Prop :=
  count % 2 = 1 ∧ table[count - 1]? = some value ∧
    ∀ j, 2 * j + 1 < count → ∃ key, table[2 * j]? = some key ∧ key ≠ value

/-- The operands of an instruction name registers where the source does not ask, and parts of the
tuple or the table that are there. -/
def OperandsOk (instr : Instruction) (m : Memory) (p : Process) : Prop :=
  match instr.opcode with
  | .getTupleElement => ∀ src dst arity, xReg instr.arg1 = some src → xReg instr.arg3 = some dst →
      beamIsTuple m (p.x src) = some true → beamTupleArity m (p.x src) = some arity →
        instr.arg2.toNat < arity.toNat
  | .testIsEqExact | .testIsNeExact =>
    instr.arg2.toNat < numXRegisters ∧ instr.arg3.toNat < numXRegisters
  | .testIsTuple | .testIsList => instr.arg2.toNat < numXRegisters
  | .getList => ∃ src, xReg instr.arg1 = some src ∧ (beamIsList (p.x src) = true →
      instr.arg2.toNat < numXRegisters ∧ instr.arg3.toNat < numXRegisters)
  | .selectVal => ∀ table, instr.extraArgs = some table → 2 ≤ instr.extraCount →
      ∃ src, xReg instr.arg1 = some src ∧ ¬ MatchesHalfPair (p.x src) table instr.extraCount
  | _ => True

section

variable {code : List Instruction} {instr : Instruction} {m : Memory} {p : Process} {ip : Nat}
  {e : Effect}

/-- Every index of the list is in range. -/
def AllInRange (as : List OperandAccess) : Prop := ∀ a ∈ as, a.InRange

@[simp] theorem allInRange_nil : AllInRange [] := fun _ h => by cases h

@[simp] theorem allInRange_cons {a : OperandAccess} {as : List OperandAccess} :
    AllInRange (a :: as) ↔ a.InRange ∧ AllInRange as := List.forall_mem_cons

@[simp] theorem allInRange_append {as bs : List OperandAccess} :
    AllInRange (as ++ bs) ↔ AllInRange as ∧ AllInRange bs := List.forall_mem_append

@[simp] theorem xReg_inRange {i : Nat} :
    (OperandAccess.xReg i).InRange ↔ i < numXRegisters := Iff.rfl

@[simp] theorem extraArg_inRange {i count : Nat} :
    (OperandAccess.extraArg i count).InRange ↔ i < count := Iff.rfl

theorem xReg_eq_some_iff {r : BitVec 32} : (∃ i, xReg r = some i) ↔ r.toNat < numXRegisters := by
  unfold xReg
  split
  · exact iff_of_true ⟨_, rfl⟩ ‹_›
  · exact iff_of_false (fun ⟨i, h⟩ => by cases h) ‹_›

theorem lt_of_xReg {r : BitVec 32} {i : Fin numXRegisters} (h : xReg r = some i) :
    r.toNat < numXRegisters := xReg_eq_some_iff.mp ⟨i, h⟩

theorem not_lt_of_xReg {r : BitVec 32} (h : xReg r = none) : ¬ r.toNat < numXRegisters := by
  rw [← xReg_eq_some_iff, h]
  rintro ⟨i, hi⟩
  cases hi

@[simp] theorem allInRange_checked (operands : List (BitVec 32)) :
    AllInRange (checkedAccesses operands) := by
  unfold checkedAccesses
  split
  · rename_i h
    intro a ha
    obtain ⟨r, hr, rfl⟩ := List.mem_map.mp ha
    exact h r hr
  · exact allInRange_nil

theorem allInRange_read {r : BitVec 32} {rest : Eterm → List OperandAccess} :
    AllInRange (readAccess p r rest) ↔ ∃ i, xReg r = some i ∧ AllInRange (rest (p.x i)) := by
  rw [readAccess, allInRange_cons, xReg_inRange]
  cases h : xReg r with
  | none => exact iff_of_false (fun hr => not_lt_of_xReg h hr.1) (fun ⟨_, hi, _⟩ => by cases hi)
  | some i =>
    refine ⟨fun hr => ⟨i, rfl, hr.2⟩, fun ⟨j, hj, hr⟩ => ⟨lt_of_xReg h, ?_⟩⟩
    cases hj
    exact hr

section SelectVal

variable {value : Eterm} {table : List Eterm} {count : Nat}

/-- Of the pairs from entry `k` on the last is half a pair, and the value is found there first. -/
def LeavesTable (value : Eterm) (table : List Eterm) (count pairs k : Nat) : Prop :=
  k + 2 * pairs = count + 1 ∧ 0 < pairs ∧ table[count - 1]? = some value ∧
    ∀ j, j + 1 < pairs → ∃ key, table[k + 2 * j]? = some key ∧ key ≠ value

theorem leavesTable_succ {pairs k : Nat} (hk : k + 2 * (pairs + 1) ≤ count + 1) :
    LeavesTable value table count (pairs + 1) k ↔ ∃ key, table[k]? = some key ∧
      if value = key then count = k + 1 else LeavesTable value table count pairs (k + 2) := by
  constructor
  · rintro ⟨hend, -, hlast, hbefore⟩
    cases pairs with
    | zero =>
      rw [show count - 1 = k by omega] at hlast
      exact ⟨value, hlast, by rw [if_pos rfl]; omega⟩
    | succ pairs =>
      obtain ⟨key, hkey, hne⟩ := hbefore 0 (by omega)
      refine ⟨key, hkey, ?_⟩
      rw [if_neg hne.symm]
      refine ⟨by omega, by omega, hlast, fun j hj => ?_⟩
      rw [show k + 2 + 2 * j = k + 2 * (j + 1) by omega]
      exact hbefore (j + 1) (by omega)
  · rintro ⟨key, hkey, hrest⟩
    by_cases hv : value = key
    · rw [if_pos hv] at hrest
      refine ⟨by omega, by omega, ?_, fun j hj => by omega⟩
      rw [show count - 1 = k by omega, hkey, hv]
    · rw [if_neg hv] at hrest
      obtain ⟨hend, hpos, hlast, hbefore⟩ := hrest
      refine ⟨by omega, by omega, hlast, fun j hj => ?_⟩
      cases j with
      | zero => exact ⟨key, hkey, fun h => hv h.symm⟩
      | succ j =>
        rw [show k + 2 * (j + 1) = k + 2 + 2 * j by omega]
        exact hbefore j (by omega)

theorem leavesTable_start (hc : 2 ≤ count) :
    LeavesTable value table count ((count + 1) / 2) 0 ↔ MatchesHalfPair value table count := by
  simp only [LeavesTable, MatchesHalfPair, Nat.zero_add]
  exact ⟨fun ⟨ho, _, hl, hb⟩ => ⟨by omega, hl, fun j hj => hb j (by omega)⟩,
    fun ⟨ho, hl, hb⟩ => ⟨by omega, by omega, hl, fun j hj => hb j (by omega)⟩⟩

/-- **The table is left only through its last half pair**, by induction on the pairs to come. -/
theorem allInRange_select {reg : Nat} (hreg : reg < numXRegisters) :
    ∀ {pairs k : Nat}, k + 2 * pairs ≤ count + 1 →
      (AllInRange (selectAccesses reg value table count pairs k) ↔
        ¬ LeavesTable value table count pairs k) := by
  intro pairs
  induction pairs with
  | zero => intro k _; exact iff_of_true allInRange_nil fun h => absurd h.2.1 (lt_irrefl 0)
  | succ pairs ih =>
    intro k hk
    have hlt : k < count := by omega
    rw [selectAccesses, allInRange_cons, allInRange_cons, xReg_inRange, extraArg_inRange,
      and_iff_right hreg, and_iff_right hlt, leavesTable_succ hk]
    cases hkey : table[k]? with
    | none => exact iff_of_true allInRange_nil fun ⟨key, h, _⟩ => by cases h
    | some key =>
      simp only [Option.some.injEq, exists_eq_left']
      by_cases hv : value = key
      · rw [if_pos hv, if_pos hv, allInRange_cons, extraArg_inRange, and_iff_left allInRange_nil]
        omega
      · rw [if_neg hv, if_neg hv]
        exact ih (by omega)

end SelectVal

theorem allInRange_table : AllInRange (tableAccesses instr p) ↔
    ∀ table, instr.extraArgs = some table → 2 ≤ instr.extraCount →
      ∃ src, xReg instr.arg1 = some src ∧
        ¬ MatchesHalfPair (p.x src) table instr.extraCount := by
  unfold tableAccesses
  cases ht : instr.extraArgs with
  | none => exact iff_of_true allInRange_nil fun _ h => by cases h
  | some table =>
    dsimp only
    by_cases hc : instr.extraCount ≥ 2
    · rw [if_pos hc]
      cases hs : xReg instr.arg1 with
      | none =>
        refine iff_of_false (fun h => not_lt_of_xReg hs (h _ List.mem_cons_self)) fun h => ?_
        obtain ⟨src, h, _⟩ := h table rfl hc
        cases h
      | some src =>
        dsimp only
        rw [allInRange_select (lt_of_xReg hs) (by omega), leavesTable_start hc]
        refine ⟨fun h t ht' _ => ?_, fun h => ?_⟩
        · cases ht'
          exact ⟨src, rfl, h⟩
        · obtain ⟨src', h', hn⟩ := h table rfl hc
          cases h'
          exact hn
    · rw [if_neg hc]
      exact iff_of_true allInRange_nil fun _ _ h => absurd h hc

theorem allInRange_read_two {r1 r2 : BitVec 32} :
    AllInRange (readAccess p r1 fun _ => readAccess p r2 fun _ => []) ↔
      r1.toNat < numXRegisters ∧ r2.toNat < numXRegisters := by
  simp only [allInRange_read, allInRange_nil, and_true, exists_and_right, xReg_eq_some_iff]

theorem allInRange_testIsList : AllInRange (readAccess p instr.arg2 fun t =>
      if beamIsList t then [] else [.xReg instr.arg2.toNat]) ↔
    instr.arg2.toNat < numXRegisters := by
  rw [allInRange_read, ← xReg_eq_some_iff]
  refine exists_congr fun i => and_iff_left_of_imp fun hi => ?_
  split
  · exact allInRange_nil
  · exact allInRange_cons.mpr ⟨lt_of_xReg hi, allInRange_nil⟩

theorem allInRange_getList : AllInRange (readAccess p instr.arg1 fun t =>
      if beamIsList t then readAccess p instr.arg2 fun _ => readAccess p instr.arg3 fun _ => []
      else []) ↔
    ∃ src, xReg instr.arg1 = some src ∧ (beamIsList (p.x src) = true →
      instr.arg2.toNat < numXRegisters ∧ instr.arg3.toNat < numXRegisters) := by
  rw [allInRange_read]
  refine exists_congr fun src => and_congr_right fun _ => ?_
  by_cases hl : beamIsList (p.x src) = true
  · rw [if_pos hl, allInRange_read_two]
    exact ⟨fun h _ => h, fun h => h hl⟩
  · rw [if_neg hl]
    exact iff_of_true allInRange_nil fun h => absurd h hl

theorem allInRange_element : AllInRange (elementAccesses instr m p) ↔
    ∀ src dst arity, xReg instr.arg1 = some src → xReg instr.arg3 = some dst →
      beamIsTuple m (p.x src) = some true → beamTupleArity m (p.x src) = some arity →
        instr.arg2.toNat < arity.toNat := by
  unfold elementAccesses
  cases h1 : xReg instr.arg1 with
  | none => exact iff_of_true allInRange_nil fun _ _ _ h => by cases h
  | some src =>
    cases h3 : xReg instr.arg3 with
    | none => exact iff_of_true allInRange_nil fun _ _ _ _ h => by cases h
    | some dst =>
      dsimp only
      have hd : AllInRange [.xReg instr.arg3.toNat] :=
        allInRange_cons.mpr ⟨lt_of_xReg h3, allInRange_nil⟩
      rw [allInRange_cons, xReg_inRange, and_iff_right (lt_of_xReg h1), allInRange_append,
        and_iff_left hd]
      split
      · rename_i arity ht ha
        rw [allInRange_cons, and_iff_left allInRange_nil]
        refine ⟨fun h src' dst' arity' h1' _ _ ha' => ?_, fun h => h src dst arity rfl rfl ht ha⟩
        cases h1'
        rw [ha] at ha'
        cases ha'
        exact h
      · rename_i hno
        refine iff_of_true allInRange_nil fun src' dst' arity' h1' _ ht' ha' => ?_
        cases h1'
        exact absurd ha' (hno arity' ht')

theorem allInRange_callExt : AllInRange (callExtAccesses instr) := by
  rw [callExtAccesses, allInRange_append]
  constructor
  · unfold bifReads
    split <;> first | exact allInRange_nil | (split <;> simp)
  · split <;> simp

theorem allInRange_makeFun : AllInRange (makeFunAccesses instr m p) := by
  unfold makeFunAccesses
  split
  · exact allInRange_nil
  · rw [allInRange_append, and_iff_left (allInRange_checked _)]
    intro a ha
    obtain ⟨i, hi, rfl⟩ := List.mem_map.mp ha
    rw [List.mem_range] at hi
    exact lt_of_lt_of_le hi (min_le_right _ _)

/-- **Every index of an instruction is in range** exactly when its operands are. -/
theorem accesses_inRange_iff :
    (∀ a ∈ accesses instr m p, a.InRange) ↔ OperandsOk instr m p := by
  change AllInRange _ ↔ _
  unfold accesses OperandsOk
  cases hop : instr.opcode
  case getTupleElement => exact allInRange_element
  case selectVal => exact allInRange_table
  case testIsEqExact => exact allInRange_read_two
  case testIsNeExact => exact allInRange_read_two
  case testIsTuple => simp [allInRange_read, xReg_eq_some_iff]
  case testIsList => exact allInRange_testIsList
  case getList => exact allInRange_getList
  case send => simp only [iff_true]; split <;> simp
  case loopRec => simp only [iff_true]; split <;> simp
  case raise => simp only [iff_true, allInRange_append]; split <;> simp
  case callExt => exact iff_of_true allInRange_callExt trivial
  case makeFun2 => exact iff_of_true allInRange_makeFun trivial
  case halt => simp
  all_goals simp

theorem xReg_mem_select {reg count i : Nat} {value : Eterm} {table : List Eterm} :
    ∀ {pairs k : Nat}, .xReg i ∈ selectAccesses reg value table count pairs k → i = reg := by
  intro pairs
  induction pairs with
  | zero => intro k h; cases h
  | succ pairs ih =>
    intro k h
    rw [selectAccesses, List.mem_cons, List.mem_cons] at h
    rcases h with h | h | h
    · cases h
      rfl
    · cases h
    · split at h
      · split at h
        · rw [List.mem_singleton] at h
          cases h
        · exact ih h
      · cases h

theorem lt_of_mem_table (h : execSelectVal code instr m p ip = some e) {i : Nat}
    (hi : .xReg i ∈ tableAccesses instr p) : i < numXRegisters := by
  unfold tableAccesses at hi
  unfold execSelectVal at h
  cases ht : instr.extraArgs <;> simp only [ht] at h hi
  · cases hi
  · split at hi
    · rename_i hc
      rw [if_pos hc] at h
      obtain ⟨src, h1, _⟩ := Option.bind_eq_some_iff.mp h
      rw [h1] at hi
      rw [xReg_mem_select hi]
      exact lt_of_xReg h1
    · cases hi

theorem lt_of_mem_element {i : Nat} (hi : .xReg i ∈ elementAccesses instr m p) :
    i < numXRegisters := by
  unfold elementAccesses at hi
  split at hi
  · rename_i h1 h3
    rw [List.mem_cons, List.mem_append, List.mem_singleton] at hi
    rcases hi with hi | hi | hi
    · cases hi
      exact lt_of_xReg h1
    · split at hi
      · rw [List.mem_singleton] at hi
        cases hi
      · cases hi
    · cases hi
      exact lt_of_xReg h3
  · cases hi

theorem lt_of_allInRange {as : List OperandAccess} {i : Nat} (h : AllInRange as)
    (hi : .xReg i ∈ as) : i < numXRegisters := h _ hi

/-- **A register out of range has no result**: the list and the instructions agree. -/
theorem accesses_defined (h : execInstr code instr m p ip = some e) {i : Nat}
    (hi : .xReg i ∈ accesses instr m p) : i < numXRegisters := by
  have hok (ho : OperandsOk instr m p) : i < numXRegisters :=
    lt_of_allInRange (accesses_inRange_iff.mpr ho) hi
  rw [execInstr] at h
  unfold accesses at hi
  unfold OperandsOk at hok
  cases hop : instr.opcode <;> simp only [hop] at h hi hok
  case testIsEqExact =>
    obtain ⟨r1, h1, h2⟩ := Option.bind_eq_some_iff.mp h
    obtain ⟨r2, h3, _⟩ := Option.map_eq_some_iff.mp h2
    exact hok ⟨lt_of_xReg h1, lt_of_xReg h3⟩
  case testIsNeExact =>
    obtain ⟨r1, h1, h2⟩ := Option.bind_eq_some_iff.mp h
    obtain ⟨r2, h3, _⟩ := Option.map_eq_some_iff.mp h2
    exact hok ⟨lt_of_xReg h1, lt_of_xReg h3⟩
  case testIsTuple =>
    obtain ⟨r1, h1, _⟩ := Option.bind_eq_some_iff.mp h
    exact hok (lt_of_xReg h1)
  case testIsList =>
    obtain ⟨r1, h1, _⟩ := Option.map_eq_some_iff.mp h
    exact hok (lt_of_xReg h1)
  case getList =>
    obtain ⟨src, h1, h2⟩ := Option.bind_eq_some_iff.mp h
    refine hok ⟨src, h1, fun hl => ?_⟩
    rw [if_pos hl] at h2
    obtain ⟨head, h3, h4⟩ := Option.bind_eq_some_iff.mp h2
    obtain ⟨_, _, h5⟩ := Option.bind_eq_some_iff.mp h4
    obtain ⟨tail, h6, _⟩ := Option.bind_eq_some_iff.mp h5
    exact ⟨lt_of_xReg h3, lt_of_xReg h6⟩
  case selectVal => exact lt_of_mem_table h hi
  case getTupleElement => exact lt_of_mem_element hi
  all_goals exact hok trivial

end

/-- **Every index of a call is in range** exactly when the operands of every instruction it comes to
are. -/
theorem beamEmuExecuteCode_inRange_iff (code : List Instruction) (self : ProcId) (w : World) :
    (∀ s ip instr, Attempts code self w s ip instr →
        ∀ a ∈ accesses instr s.mem (s.procs self), a.InRange) ↔
      ∀ s ip instr, Attempts code self w s ip instr → OperandsOk instr s.mem (s.procs self) :=
  forall₄_congr fun _ _ _ _ => accesses_inRange_iff

/-- `TEST_IS_TUPLE` on the register behind the last one. -/
theorem testIsTuple_not_inRange :
    ¬ ∀ s ip instr, Attempts [{ opcode := .testIsTuple, arg2 := 256 }] 0 freshWorld s ip instr →
      ∀ a ∈ accesses instr s.mem (s.procs 0), a.InRange := by
  intro h
  have hbad := h _ 0 { opcode := .testIsTuple, arg2 := 256 }
    ⟨0, _, by decide, rfl, rfl, rfl, rfl⟩ (.xReg 256) List.mem_cons_self
  exact absurd hbad (by decide)

end BeamModular
