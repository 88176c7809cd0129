import BeamModular.Emulator.Operands

/-!
# The registers an instruction does not use

`Operands.lean` lists what an instruction indexes, and a register out of range in the list
leaves the instruction without a result.  This file is the other direction: the list leaves
no register out.  An instruction neither reads nor writes a register that is not in it, so
another value there makes no difference to what the instruction does (`execInstr_setX`), and
the register holds the same behind it (`execInstr_x_of_notMem`).
-/

namespace BeamModular

/-- The same effect with another value in a register. -/
def Effect.setX (e : Effect) (i : Fin numXRegisters) (v : Eterm) : Effect :=
  { e with proc := e.proc.setX i v }

section

variable {code : List Instruction} {instr : Instruction} {m : Memory} {p : Process} {ip : Nat}
  {e : Effect} {i : Fin numXRegisters} {v : Eterm}

/-! ### Other registers -/

theorem val_of_xReg {r : BitVec 32} {j : Fin numXRegisters} (h : xReg r = some j) :
    r.toNat = j := by
  unfold xReg at h
  split at h <;> cases h
  rfl

theorem ne_of_notMem_checked {operands : List (BitVec 32)}
    (hi : .xReg i ∉ checkedAccesses operands) (hall : ∀ r ∈ operands, r.toNat < numXRegisters)
    {r : BitVec 32} (hr : r ∈ operands) {j : Fin numXRegisters} (hj : xReg r = some j) :
    j ≠ i := by
  rintro rfl
  rw [checkedAccesses, if_pos hall] at hi
  exact hi (List.mem_map.mpr ⟨r, hr, by rw [val_of_xReg hj]⟩)

theorem ne_of_notMem_single {r : BitVec 32} (hi : .xReg i ∉ checkedAccesses [r])
    {j : Fin numXRegisters} (hj : xReg r = some j) : j ≠ i :=
  ne_of_notMem_checked hi (fun s hs => by rw [List.mem_singleton.mp hs]; exact lt_of_xReg hj)
    (List.mem_singleton.mpr rfl) hj

theorem notMem_read {r : BitVec 32} {rest : Eterm → List OperandAccess}
    (hi : .xReg i ∉ readAccess p r rest) {j : Fin numXRegisters} (hj : xReg r = some j) :
    j ≠ i ∧ .xReg i ∉ rest (p.x j) := by
  rw [readAccess, List.mem_cons, not_or, hj] at hi
  exact ⟨fun h => hi.1 (by rw [val_of_xReg hj, h]), hi.2⟩

theorem Process.x_setX_of_ne {j : Fin numXRegisters} (h : j ≠ i) : (p.setX i v).x j = p.x j := by
  simp [Process.x, Process.setX, h]

theorem Process.setX_comm {j : Fin numXRegisters} (h : j ≠ i) (w : Eterm) :
    (p.setX i v).setX j w = (p.setX j w).setX i v := by
  unfold Process.setX
  rw [Function.update_comm h]

/-! ### Values and arithmetic -/

theorem execMove_setX (hi : .xReg i ∉ checkedAccesses [instr.arg2]) :
    execMove instr m (p.setX i v) ip = (execMove instr m p ip).setX i v := by
  unfold execMove
  cases hd : xReg instr.arg2 with
  | none => rfl
  | some dst =>
    dsimp only
    rw [Process.setX_comm (ne_of_notMem_single hi hd)]
    rfl

theorem ne_of_notMem_three (hi : .xReg i ∉ checkedAccesses [instr.arg1, instr.arg2, instr.arg3])
    {r1 r2 r3 : Fin numXRegisters} (h1 : xReg instr.arg1 = some r1) (h2 : xReg instr.arg2 = some r2)
    (h3 : xReg instr.arg3 = some r3) : r1 ≠ i ∧ r2 ≠ i ∧ r3 ≠ i := by
  have hall : ∀ r ∈ [instr.arg1, instr.arg2, instr.arg3], r.toNat < numXRegisters := by
    simp [lt_of_xReg h1, lt_of_xReg h2, lt_of_xReg h3]
  exact ⟨ne_of_notMem_checked hi hall (by simp) h1, ne_of_notMem_checked hi hall (by simp) h2,
    ne_of_notMem_checked hi hall (by simp) h3⟩

theorem execArith_setX {op : Word → Word → Word}
    (hi : .xReg i ∉ checkedAccesses [instr.arg1, instr.arg2, instr.arg3]) :
    execArith instr m (p.setX i v) ip op = (execArith instr m p ip op).setX i v := by
  unfold execArith
  split
  · rename_i r1 r2 dst h1 h2 h3
    obtain ⟨hr1, hr2, hdst⟩ := ne_of_notMem_three hi h1 h2 h3
    rw [Process.x_setX_of_ne hr1, Process.x_setX_of_ne hr2, Process.setX_comm hdst]
    rfl
  · rfl

theorem execIntDiv_setX
    (hi : .xReg i ∉ checkedAccesses [instr.arg1, instr.arg2, instr.arg3]) :
    execIntDiv instr m (p.setX i v) ip = (execIntDiv instr m p ip).setX i v := by
  unfold execIntDiv
  split
  · rename_i r1 r2 dst h1 h2 h3
    obtain ⟨hr1, hr2, hdst⟩ := ne_of_notMem_three hi h1 h2 h3
    dsimp only
    rw [Process.x_setX_of_ne hr1, Process.x_setX_of_ne hr2, Process.setX_comm hdst]
    split <;> rfl
  · rfl

/-! ### The stack -/

theorem beamProcessStackPush_setX {t : Eterm} : beamProcessStackPush m (p.setX i v) t =
    (beamProcessStackPush m p t).map fun r => (r.1, r.2.1.setX i v, r.2.2) := by
  unfold beamProcessStackPush
  by_cases hheap : p.heap = 0
  · rw [if_pos hheap, if_pos (show (p.setX i v).heap = 0 from hheap)]
    rfl
  · rw [if_neg hheap, if_neg (show ¬ (p.setX i v).heap = 0 from hheap)]
    by_cases hfull : p.stackTop ≤ p.heapTop
    · rw [if_pos hfull, if_pos (show (p.setX i v).stackTop ≤ (p.setX i v).heapTop from hfull)]
      rfl
    · rw [if_neg hfull, if_neg (show ¬ (p.setX i v).stackTop ≤ (p.setX i v).heapTop from hfull),
        Option.map_map]
      rfl

theorem beamProcessStackPop_setX : beamProcessStackPop m (p.setX i v) =
    (beamProcessStackPop m p).map fun r => (r.1.setX i v, r.2) := by
  unfold beamProcessStackPop
  by_cases hheap : p.heap = 0
  · rw [if_pos hheap, if_pos (show (p.setX i v).heap = 0 from hheap)]
    rfl
  · rw [if_neg hheap, if_neg (show ¬ (p.setX i v).heap = 0 from hheap)]
    by_cases hempty : p.stackTop ≥ p.heapCapacity
    · rw [if_pos hempty,
        if_pos (show (p.setX i v).stackTop ≥ (p.setX i v).heapCapacity from hempty)]
      rfl
    · rw [if_neg hempty,
        if_neg (show ¬ (p.setX i v).stackTop ≥ (p.setX i v).heapCapacity from hempty),
        Option.map_map]
      rfl

theorem pushWords_setX : ∀ (words : Nat) {m : Memory} {p : Process},
    pushWords words m (p.setX i v) =
      (pushWords words m p).map fun r => (r.1, r.2.1.setX i v, r.2.2) := by
  intro words
  induction words with
  | zero => intro m p; rfl
  | succ words ih =>
    intro m p
    rw [pushWords, pushWords, beamProcessStackPush_setX]
    cases beamProcessStackPush m p 0#64 with
    | none => rfl
    | some r =>
      dsimp only [Option.map_some, Option.bind_some]
      split
      · exact ih
      · rfl

theorem popFrame_setX : ∀ (words : Nat) {p : Process},
    popFrame m words (p.setX i v) = (popFrame m words p).map fun r => (r.1.setX i v, r.2) := by
  intro words
  induction words with
  | zero =>
    intro p
    rw [popFrame, popFrame, beamProcessStackPop_setX]
    rcases beamProcessStackPop m p with _ | ⟨p', _ | _⟩ <;> rfl
  | succ words ih =>
    intro p
    rw [popFrame, popFrame, beamProcessStackPop_setX]
    rcases beamProcessStackPop m p with _ | ⟨p', _ | _⟩
    · rfl
    · rfl
    · exact ih

theorem execAllocate_setX : execAllocate instr m (p.setX i v) ip =
    (execAllocate instr m p ip).map fun e => e.setX i v := by
  unfold execAllocate
  rw [show (p.setX i v).frame.cp = p.frame.cp from rfl, beamProcessStackPush_setX]
  cases beamProcessStackPush m p (p.frame.cp.setWidth 64) with
  | none => rfl
  | some r =>
    dsimp only [Option.map_some, Option.bind_some]
    split
    · rw [pushWords_setX, Option.map_map, Option.map_map]
      congr 1
      funext r'
      dsimp only [Function.comp_apply]
      split <;> rfl
    · rfl

theorem execDropFrame_setX {words : BitVec 32} {target : Nat} :
    execDropFrame m (p.setX i v) words target =
      (execDropFrame m p words target).map fun e => e.setX i v := by
  unfold execDropFrame
  rw [popFrame_setX, Option.map_map, Option.map_map]
  congr 1
  funext r
  dsimp only [Function.comp_apply]
  split <;> rfl

/-! ### Messages and exceptions -/

theorem execSend_setX
    (hi : .xReg i ∉ if instr.targetProc.isSome then checkedAccesses [instr.arg1] else []) :
    execSend instr m (p.setX i v) ip = (execSend instr m p ip).setX i v := by
  unfold execSend
  split
  · rename_i reg target hr ht
    rw [ht, Option.isSome_some, if_pos rfl] at hi
    rw [Process.x_setX_of_ne (ne_of_notMem_single hi hr)]
    rfl
  · rfl

theorem execLoopRec_setX
    (hi : ∀ mb msg, p.mailbox.peekSave = some (mb, .ok msg) →
      .xReg i ∉ checkedAccesses [instr.arg2]) :
    execLoopRec code instr m (p.setX i v) ip =
      (execLoopRec code instr m p ip).map fun e => e.setX i v := by
  unfold execLoopRec
  rw [show (p.setX i v).mailbox = p.mailbox from rfl, Option.map_map]
  rcases hp : p.mailbox.peekSave with _ | ⟨mb, _ | msg⟩
  · rfl
  · rfl
  · dsimp only [Option.map_some, Function.comp_apply]
    cases hd : xReg instr.arg2 with
    | none => rfl
    | some dst =>
      have hne := ne_of_notMem_single (hi mb msg hp) hd
      exact congrArg some (congrArg (fun q : Process =>
        (⟨m, { q with mailbox := mb }, some (.examined msg), .goto (ip + 1)⟩ : Effect))
          (Process.setX_comm hne msg))

theorem execRaise_setX
    (hi : .xReg i ∉
      checkedAccesses [instr.arg1] ++ if p.frame.catchDepth = 0 then [] else [.xReg 0]) :
    execRaise code instr m (p.setX i v) ip =
      (execRaise code instr m p ip).map fun e => e.setX i v := by
  rw [List.mem_append, not_or] at hi
  unfold execRaise
  rw [show (p.setX i v).frame.catchDepth = p.frame.catchDepth from rfl]
  cases hd : p.frame.catchDepth with
  | zero => rfl
  | succ depth =>
    have h0 : (0 : Fin numXRegisters) ≠ i := by
      rintro rfl
      rw [hd, if_neg (Nat.succ_ne_zero depth)] at hi
      exact hi.2 (List.mem_singleton.mpr rfl)
    dsimp only
    rw [Option.map_map, show catchAt (p.setX i v).frame depth = catchAt p.frame depth from rfl]
    congr 1
    funext cf
    dsimp only [Function.comp_apply, Effect.goto, Effect.setX]
    cases hr : xReg instr.arg1 with
    | none =>
      rw [← Process.setX_comm h0]
      rfl
    | some r =>
      dsimp only
      rw [← Process.setX_comm h0, Process.x_setX_of_ne (ne_of_notMem_single hi.1 hr)]
      rfl

theorem execTry_setX : execTry instr m (p.setX i v) ip = (execTry instr m p ip).setX i v := by
  unfold execTry
  by_cases h : p.frame.catchDepth < maxCatchDepth
  · rw [dif_pos h, dif_pos (show (p.setX i v).frame.catchDepth < maxCatchDepth from h)]
    rfl
  · rw [dif_neg h, dif_neg (show ¬ (p.setX i v).frame.catchDepth < maxCatchDepth from h)]
    rfl

theorem execTryEnd_setX : execTryEnd m (p.setX i v) ip =
    (execTryEnd m p ip).map fun e => e.setX i v := by
  unfold execTryEnd
  rw [show (p.setX i v).frame.catchDepth = p.frame.catchDepth from rfl]
  split
  · rfl
  · rfl
  · rename_i depth _
    rw [show catchAt (p.setX i v).frame depth = catchAt p.frame depth from rfl, Option.map_map]
    rfl

/-! ### Tests, tuples and lists -/

theorem execMatchTuple_setX (hi : .xReg i ∉ checkedAccesses [instr.arg1]) :
    execMatchTuple instr m (p.setX i v) ip =
      (execMatchTuple instr m p ip).map fun e => e.setX i v := by
  unfold execMatchTuple
  cases hs : xReg instr.arg1 with
  | none => rfl
  | some src =>
    dsimp only
    rw [Process.x_setX_of_ne (ne_of_notMem_single hi hs)]
    cases beamIsTuple m (p.x src) with
    | none => rfl
    | some isTuple =>
      cases beamTupleArity m (p.x src) with
      | none => rfl
      | some arity =>
        dsimp only [Option.bind_some, Option.map_some]
        split <;> rfl

theorem execGetTupleElement_setX (hi : .xReg i ∉ elementAccesses instr m p) :
    execGetTupleElement instr m (p.setX i v) ip =
      (execGetTupleElement instr m p ip).map fun e => e.setX i v := by
  unfold execGetTupleElement
  unfold elementAccesses at hi
  split
  · rename_i src dst hs hd
    simp only [hs, hd, List.mem_cons, List.mem_append, not_or] at hi
    have hsrc : src ≠ i := fun h => hi.1 (by rw [val_of_xReg hs, h])
    have hdst : dst ≠ i := fun h => hi.2.2.1 (by rw [val_of_xReg hd, h])
    rw [Process.x_setX_of_ne hsrc, Option.map_map]
    congr 1
    funext e
    rw [Process.setX_comm hdst]
    rfl
  · rfl

theorem execTest_setX {holds : Bool} : execTest code instr m (p.setX i v) ip holds =
    (execTest code instr m p ip holds).setX i v := by
  unfold execTest
  split <;> rfl

theorem execTestExact_setX {same : Bool}
    (hi : .xReg i ∉ readAccess p instr.arg2 fun _ => readAccess p instr.arg3 fun _ => []) :
    execTestExact code instr m (p.setX i v) ip same =
      (execTestExact code instr m p ip same).map fun e => e.setX i v := by
  unfold execTestExact
  cases h2 : xReg instr.arg2 with
  | none => rfl
  | some r1 =>
    obtain ⟨hr1, hi⟩ := notMem_read hi h2
    cases h3 : xReg instr.arg3 with
    | none => rfl
    | some r2 =>
      obtain ⟨hr2, -⟩ := notMem_read hi h3
      dsimp only [Option.bind_some, Option.map_some]
      rw [Process.x_setX_of_ne hr1, Process.x_setX_of_ne hr2, execTest_setX]

theorem execTestIsTuple_setX (hi : .xReg i ∉ readAccess p instr.arg2 fun _ => []) :
    execTestIsTuple code instr m (p.setX i v) ip =
      (execTestIsTuple code instr m p ip).map fun e => e.setX i v := by
  unfold execTestIsTuple
  cases h2 : xReg instr.arg2 with
  | none => rfl
  | some r1 =>
    dsimp only [Option.bind_some]
    rw [Process.x_setX_of_ne (notMem_read hi h2).1, Option.map_map]
    exact congrArg (Option.map · _) (funext fun _ => execTest_setX)

theorem execTestIsList_setX {rest : Eterm → List OperandAccess}
    (hi : .xReg i ∉ readAccess p instr.arg2 rest) :
    execTestIsList code instr m (p.setX i v) ip =
      (execTestIsList code instr m p ip).map fun e => e.setX i v := by
  unfold execTestIsList
  cases h2 : xReg instr.arg2 with
  | none => rfl
  | some r1 =>
    dsimp only [Option.map_some]
    rw [Process.x_setX_of_ne (notMem_read hi h2).1, execTest_setX]

theorem execGetList_setX
    (hi : .xReg i ∉ readAccess p instr.arg1 fun t =>
      if beamIsList t then readAccess p instr.arg2 fun _ => readAccess p instr.arg3 fun _ => []
      else []) :
    execGetList instr m (p.setX i v) ip =
      (execGetList instr m p ip).map fun e => e.setX i v := by
  unfold execGetList
  cases h1 : xReg instr.arg1 with
  | none => rfl
  | some src =>
    obtain ⟨hsrc, hi⟩ := notMem_read hi h1
    dsimp only [Option.bind_some]
    rw [Process.x_setX_of_ne hsrc]
    split
    · rename_i hl
      rw [if_pos hl] at hi
      cases h2 : xReg instr.arg2 with
      | none => rfl
      | some head =>
        obtain ⟨hhead, hi⟩ := notMem_read hi h2
        cases h3 : xReg instr.arg3 with
        | none =>
          dsimp only [Option.bind_some, Option.bind_none]
          cases beamListHead m (p.x src) <;> rfl
        | some tail =>
          obtain ⟨htail, -⟩ := notMem_read hi h3
          dsimp only [Option.bind_some]
          rw [Option.map_bind]
          congr 1
          funext h
          rw [Function.comp_apply, Option.map_map]
          congr 1
          funext t
          rw [Process.setX_comm hhead, Process.setX_comm htail]
          rfl
    · rfl

theorem execSelectVal_setX (hi : .xReg i ∉ tableAccesses instr p) :
    execSelectVal code instr m (p.setX i v) ip =
      (execSelectVal code instr m p ip).map fun e => e.setX i v := by
  unfold execSelectVal
  unfold tableAccesses at hi
  cases ht : instr.extraArgs with
  | none => rfl
  | some table =>
    rw [ht] at hi
    dsimp only at hi ⊢
    by_cases hc : instr.extraCount ≥ 2
    · rw [if_pos hc] at hi ⊢
      rw [if_pos hc]
      cases hs : xReg instr.arg1 with
      | none => rfl
      | some src =>
        have hsrc : src ≠ i := by
          rintro rfl
          rw [hs, show (instr.extraCount + 1) / 2 = ((instr.extraCount + 1) / 2 - 1) + 1 by omega]
            at hi
          exact hi (by rw [← val_of_xReg hs]; exact List.mem_cons_self)
        dsimp only [Option.bind_some]
        rw [Process.x_setX_of_ne hsrc, Option.map_map]
        rfl
    · rw [if_neg hc, if_neg hc]
      rfl

/-! ### Built-in functions and closures -/

theorem bifArith_setX {op : Word → Word → Word} {arity : Int}
    (hi : .xReg i ∉ if arity < 2 then [] else [OperandAccess.xReg 0, .xReg 1]) :
    bifArith op (p.setX i v).frame.xRegs arity = bifArith op p.frame.xRegs arity := by
  unfold bifArith
  split
  · rfl
  · rename_i hlt
    rw [if_neg hlt, List.mem_cons, List.mem_singleton, not_or] at hi
    have h0 : (0 : Fin numXRegisters) ≠ i := fun h => hi.1 (by rw [← h]; rfl)
    have h1 : (1 : Fin numXRegisters) ≠ i := fun h => hi.2 (by rw [← h]; rfl)
    exact congrArg₂ (fun a b => makeSmallInt (op (etermToSmallInt a) (etermToSmallInt b)))
      (Process.x_setX_of_ne h0) (Process.x_setX_of_ne h1)

/-- A function of one argument reads the first register, if it is given one. -/
theorem first_setX {arity : Int}
    (hi : .xReg i ∉ if arity < 1 then [] else [OperandAccess.xReg 0]) (h : ¬ arity < 1) :
    (p.setX i v).frame.xRegs 0 = p.frame.xRegs 0 := by
  rw [if_neg h, List.mem_singleton] at hi
  exact Process.x_setX_of_ne fun h0 => hi (by rw [← h0]; rfl)

theorem bifIsAtom1_setX {arity : Int}
    (hi : .xReg i ∉ if arity < 1 then [] else [OperandAccess.xReg 0]) :
    bifIsAtom1 (p.setX i v).frame.xRegs arity = bifIsAtom1 p.frame.xRegs arity := by
  unfold bifIsAtom1
  split
  · rfl
  · rename_i h
    rw [first_setX hi h]

theorem bifIsTuple1_setX {arity : Int}
    (hi : .xReg i ∉ if arity < 1 then [] else [OperandAccess.xReg 0]) :
    bifIsTuple1 m (p.setX i v).frame.xRegs arity = bifIsTuple1 m p.frame.xRegs arity := by
  unfold bifIsTuple1
  split
  · rfl
  · rename_i h
    rw [first_setX hi h]

theorem bifLength1_setX {arity : Int}
    (hi : .xReg i ∉ if arity < 1 then [] else [OperandAccess.xReg 0]) :
    bifLength1 m (p.setX i v).frame.xRegs arity = bifLength1 m p.frame.xRegs arity := by
  unfold bifLength1
  split
  · rfl
  · rename_i h
    rw [first_setX hi h]

theorem beamBifDispatch_setX (hi : .xReg i ∉ bifReads instr) :
    beamBifDispatch instr.arg1.toNat m (p.setX i v) instr.arg2.toInt =
      beamBifDispatch instr.arg1.toNat m p instr.arg2.toInt := by
  unfold bifReads at hi
  unfold beamBifDispatch
  dsimp only
  generalize instr.arg1.toNat = bifIndex at hi ⊢
  split
  case h_1 => rfl
  case h_2 => rw [bifAdd2, bifArith_setX hi]
  case h_3 => rw [bifSub2, bifArith_setX hi]
  case h_4 => rw [bifIsAtom1_setX hi]
  case h_5 => rw [bifIsTuple1_setX hi]
  case h_6 => rw [bifLength1_setX hi]
  case h_7 => rfl

/-- An index without a function stores no result. -/
theorem beamBifDispatch_ok {bifIndex : Nat} {arity : Int} {res : Eterm}
    (h : beamBifDispatch bifIndex m p arity = some (.ok res)) : bifIndex ≤ 5 := by
  unfold beamBifDispatch at h
  dsimp only at h
  split at h
  case h_7 => cases h
  all_goals decide

theorem execCallExt_setX (hi : .xReg i ∉ callExtAccesses instr) :
    execCallExt instr m (p.setX i v) ip =
      (execCallExt instr m p ip).map fun e => e.setX i v := by
  rw [callExtAccesses, List.mem_append, not_or] at hi
  unfold execCallExt
  rw [beamBifDispatch_setX hi.1]
  rcases hr : beamBifDispatch instr.arg1.toNat m p instr.arg2.toInt with _ | (_ | res)
  · rfl
  · rfl
  · have h0 : (0 : Fin numXRegisters) ≠ i := by
      rintro rfl
      rw [if_pos (beamBifDispatch_ok hr)] at hi
      exact hi.2 (List.mem_singleton.mpr rfl)
    dsimp only [Option.map_some]
    rw [Process.setX_comm h0]
    rfl

theorem beamProcessAllocHeap_setX {n : Word} : beamProcessAllocHeap m (p.setX i v) n =
    ((beamProcessAllocHeap m p n).1, (beamProcessAllocHeap m p n).2.1.setX i v,
      (beamProcessAllocHeap m p n).2.2) := by
  unfold beamProcessAllocHeap
  by_cases hgrow : p.heapTop + n > p.heapCapacity
  · rw [if_pos hgrow,
      if_pos (show (p.setX i v).heapTop + n > (p.setX i v).heapCapacity from hgrow)]
    dsimp only [Process.setX]
    rcases m.realloc (p.alloc 0) p.heap (wordBytes (p.heapCapacity * 2#64 + n)) with ⟨_ | _, m'⟩ <;>
      rfl
  · rw [if_neg hgrow,
      if_neg (show ¬ (p.setX i v).heapTop + n > (p.setX i v).heapCapacity from hgrow)]
    rfl

theorem storeFreeVars_setX {hp : Nat} : ∀ {left fv : Nat} {m : Memory},
    (∀ k, fv ≤ k → k < fv + left → k ≠ i) →
      storeFreeVars (p.setX i v) hp left fv m = storeFreeVars p hp left fv m := by
  intro left
  induction left with
  | zero => intro fv m _; rfl
  | succ left ih =>
    intro fv m hi
    rw [storeFreeVars, storeFreeVars]
    have hvalue : (if h : fv < numXRegisters then (p.setX i v).x ⟨fv, h⟩ else 0#64) =
        if h : fv < numXRegisters then p.x ⟨fv, h⟩ else 0#64 := by
      split
      · exact Process.x_setX_of_ne fun h => hi fv le_rfl (by omega) (by rw [← h])
      · rfl
    rw [hvalue]
    congr 1
    funext m'
    exact ih fun k hk hlt => hi k (by omega) (by omega)

theorem execMakeFun2_setX (hi : .xReg i ∉ makeFunAccesses instr m p) :
    execMakeFun2 instr m (p.setX i v) ip =
      (execMakeFun2 instr m p ip).map fun e => e.setX i v := by
  unfold makeFunAccesses at hi
  unfold execMakeFun2
  dsimp only
  rw [beamProcessAllocHeap_setX]
  rcases ha : beamProcessAllocHeap m p ((instr.arg2 + 2#32).setWidth 64) with ⟨m', p', _ | hp⟩
  · rfl
  · rw [ha, List.mem_append, not_or] at hi
    have hvars : ∀ k, 0 ≤ k → k < 0 + instr.arg2.toNat → k ≠ i := by
      rintro k - hk rfl
      have := i.isLt
      exact hi.1 (List.mem_map.mpr ⟨i, List.mem_range.mpr (by omega), rfl⟩)
    dsimp only
    rw [Option.map_bind]
    congr 1
    funext m₁
    rw [Function.comp_apply, storeFreeVars_setX hvars, Option.map_map]
    congr 1
    funext m₂
    dsimp only [Function.comp_apply]
    cases hd : xReg instr.arg3 with
    | none => rfl
    | some dst =>
      dsimp only
      rw [Process.setX_comm (ne_of_notMem_single hi.2 hd)]
      rfl

/-! ### All instructions -/

/-- **A register that is not listed makes no difference**, and is left as it is. -/
theorem execInstr_setX (hi : .xReg i ∉ accesses instr m p) :
    execInstr code instr m (p.setX i v) ip =
      (execInstr code instr m p ip).map fun e => e.setX i v := by
  unfold accesses at hi
  unfold execInstr
  cases hop : instr.opcode <;> simp only [hop] at hi ⊢
  case move => exact congrArg some (execMove_setX hi)
  case add => exact congrArg some (execArith_setX hi)
  case sub => exact congrArg some (execArith_setX hi)
  case mul => exact congrArg some (execArith_setX hi)
  case intDiv => exact congrArg some (execIntDiv_setX hi)
  case allocate => exact execAllocate_setX
  case deallocate => exact execDropFrame_setX
  case callLast => exact execDropFrame_setX
  case send => exact congrArg some (execSend_setX hi)
  case loopRec => exact execLoopRec_setX fun mb msg h => by rw [h] at hi; exact hi
  case raise => exact execRaise_setX hi
  case matchTuple => exact execMatchTuple_setX hi
  case getTupleElement => exact execGetTupleElement_setX hi
  case testIsEqExact => exact execTestExact_setX hi
  case testIsNeExact => exact execTestExact_setX hi
  case testIsTuple => exact execTestIsTuple_setX hi
  case testIsList => exact execTestIsList_setX hi
  case getList => exact execGetList_setX hi
  case selectVal => exact execSelectVal_setX hi
  case callExt => exact execCallExt_setX hi
  case makeFun2 => exact execMakeFun2_setX hi
  case halt =>
    have h0 : (0 : Fin numXRegisters) ≠ i := by
      rintro rfl
      exact hi (List.mem_singleton.mpr rfl)
    rw [Process.x_setX_of_ne h0]
    rfl
  case loopRecEnd =>
    unfold execLoopRecEnd
    rw [show (p.setX i v).mailbox = p.mailbox from rfl, Option.map_map]
    rfl
  case removeMessage =>
    unfold execRemoveMessage
    rw [show (p.setX i v).mailbox = p.mailbox from rfl, Option.map_map]
    rfl
  case «try» => exact congrArg some execTry_setX
  case «catch» => exact congrArg some execTry_setX
  case tryEnd => exact execTryEnd_setX
  all_goals rfl

/-- **A register that is not listed holds the same** behind the instruction. -/
theorem execInstr_x_of_notMem (h : execInstr code instr m p ip = some e)
    (hi : .xReg i ∉ accesses instr m p) : e.proc.x i = p.x i := by
  have hsame : p.setX i (p.x i) = p := by simp [Process.setX, Process.x]
  have hset : execInstr code instr m (p.setX i (p.x i)) ip = _ := execInstr_setX hi
  rw [hsame, h, Option.map_some, Option.some_inj] at hset
  rw [hset]
  exact e.proc.x_setX_self i (p.x i)

end

end BeamModular
