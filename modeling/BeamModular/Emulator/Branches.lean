import BeamModular.Emulator.Budget

/-!
# Where a taken branch goes

`JUMP_TO_LABEL` leaves the instruction pointer alone when the code has no such `LABEL`.
The branch then ends where it started: after `LOOP_REC`, `LOOP_REC_END`, a failed test,
`SELECT_VAL` or `RAISE` the same instruction comes next, until the reductions are used
up and the call reports success.

`branch` is the label an instruction transfers control to, if it does, and
`execInstr_branch` says so of every such instruction.  `branchOk_iff`: the branch does
what it should exactly when the label is there.
-/

namespace BeamModular

/-! ### Labels -/

/-- There is a `LABEL` of that number at `j`. -/
def LabelAt (code : List Instruction) (lbl j : Nat) : Prop :=
  ∃ instr, code[j]? = some instr ∧ instr.opcode = .label ∧ instr.arg1.toNat = lbl

/-- It is the first of that number. -/
def FirstLabel (code : List Instruction) (lbl j : Nat) : Prop :=
  LabelAt code lbl j ∧ ∀ k < j, ¬ LabelAt code lbl k

theorem labelAt_iff {code : List Instruction} {lbl j : Nat} : LabelAt code lbl j ↔
    ∃ h : j < code.length, code[j].opcode = .label ∧ code[j].arg1.toNat = lbl := by
  constructor
  · rintro ⟨instr, hi, hl⟩
    obtain ⟨hj, rfl⟩ := List.getElem?_eq_some_iff.mp hi
    exact ⟨hj, hl⟩
  · rintro ⟨hj, hl⟩
    exact ⟨_, List.getElem?_eq_getElem hj, hl⟩

theorem findLabel_eq_some_iff {code : List Instruction} {lbl j : Nat} :
    findLabel code lbl = some j ↔ FirstLabel code lbl j := by
  rw [findLabel, List.findIdx?_eq_some_iff_getElem, FirstLabel, labelAt_iff]
  constructor
  · rintro ⟨hj, hl, hbefore⟩
    refine ⟨⟨hj, of_decide_eq_true hl⟩, fun k hk hlk => ?_⟩
    obtain ⟨hk', hlk⟩ := labelAt_iff.mp hlk
    exact hbefore k hk (decide_eq_true hlk)
  · rintro ⟨⟨hj, hl⟩, hbefore⟩
    refine ⟨hj, decide_eq_true hl, fun k hk hlk => ?_⟩
    exact hbefore k hk (labelAt_iff.mpr ⟨hk.trans hj, of_decide_eq_true hlk⟩)

theorem findLabel_eq_none_iff {code : List Instruction} {lbl : Nat} :
    findLabel code lbl = none ↔ ∀ j, ¬ LabelAt code lbl j := by
  rw [findLabel, List.findIdx?_eq_none_iff]
  constructor
  · rintro h j ⟨instr, hi, hl⟩
    exact absurd hl (of_decide_eq_false (h instr (List.mem_of_getElem? hi)))
  · intro h instr hi
    obtain ⟨j, hj⟩ := List.getElem?_of_mem hi
    exact decide_eq_false fun hl => h j ⟨instr, hj, hl⟩

/-! ### The branches -/

section

variable (instr : Instruction) (m : Memory) (p : Process)

/-- What a `TEST_*` finds. -/
def testHolds : Option Bool :=
  match instr.opcode with
  | .testIsEqExact =>
    (xReg instr.arg2).bind fun r1 => (xReg instr.arg3).map fun r2 => p.x r1 == p.x r2
  | .testIsNeExact =>
    (xReg instr.arg2).bind fun r1 => (xReg instr.arg3).map fun r2 => p.x r1 != p.x r2
  | .testIsTuple => (xReg instr.arg2).bind fun r1 => beamIsTuple m (p.x r1)
  | .testIsList => (xReg instr.arg2).map fun r1 => beamIsList (p.x r1) || beamIsNil (p.x r1)
  | _ => none

/-- The label `SELECT_VAL` chooses. -/
def selected : Option Nat :=
  match instr.extraArgs with
  | none => some instr.arg2.toNat
  | some table =>
    if instr.extraCount ≥ 2 then
      (xReg instr.arg1).bind fun src =>
        (selectLabel (p.x src) table ((instr.extraCount + 1) / 2) 0).map fun found =>
          found.getD instr.arg2.toNat
    else some instr.arg2.toNat

/-- The label the instruction transfers control to, if it takes a branch. -/
def branch : Option Nat :=
  match instr.opcode with
  | .loopRec =>
    match p.mailbox.peekSave with
    | some (_, .error _) => some instr.arg1.toNat
    | _ => none
  | .loopRecEnd => p.mailbox.advanceSave.map fun _ => instr.arg1.toNat
  | .testIsEqExact | .testIsNeExact | .testIsTuple | .testIsList =>
    if testHolds instr m p = some false then some instr.arg1.toNat else none
  | .selectVal => selected instr p
  | .raise =>
    match p.frame.catchDepth with
    | 0 => none
    | depth + 1 => (catchAt p.frame depth).map CatchFrame.catchLabel
  | _ => none

end

section

variable {code : List Instruction} {instr : Instruction} {m : Memory} {p : Process} {ip lbl : Nat}

theorem execInstr_of_testHolds {b : Bool} (h : testHolds instr m p = some b) :
    execInstr code instr m p ip = some (execTest code instr m p ip b) := by
  rw [execInstr]
  unfold testHolds at h
  cases hop : instr.opcode <;> simp only [hop, reduceCtorEq] at h
  case testIsEqExact =>
    obtain ⟨r1, h1, h2⟩ := Option.bind_eq_some_iff.mp h
    obtain ⟨r2, h3, rfl⟩ := Option.map_eq_some_iff.mp h2
    simp [execTestExact, h1, h3]
  case testIsNeExact =>
    obtain ⟨r1, h1, h2⟩ := Option.bind_eq_some_iff.mp h
    obtain ⟨r2, h3, rfl⟩ := Option.map_eq_some_iff.mp h2
    simp [execTestExact, h1, h3, bne]
  case testIsTuple =>
    obtain ⟨r1, h1, h2⟩ := Option.bind_eq_some_iff.mp h
    simp [execTestIsTuple, h1, h2]
  case testIsList =>
    obtain ⟨r1, h1, rfl⟩ := Option.map_eq_some_iff.mp h
    simp [execTestIsList, h1]

theorem execSelectVal_selected (h : selected instr p = some lbl) :
    execSelectVal code instr m p ip = some (.goto m p (jumpToLabel code lbl ip)) := by
  unfold selected at h
  unfold execSelectVal
  cases ht : instr.extraArgs <;> simp only [ht] at h ⊢
  · cases h
    rfl
  · split at h
    · rename_i hc
      obtain ⟨src, h1, h2⟩ := Option.bind_eq_some_iff.mp h
      obtain ⟨found, h3, rfl⟩ := Option.map_eq_some_iff.mp h2
      rw [if_pos hc, h1, Option.bind_some, h3]
      rfl
    · rename_i hc
      rw [if_neg hc]
      cases h
      rfl

/-- **A taken branch** goes where `JUMP_TO_LABEL` goes, and sends nothing. -/
theorem execInstr_branch (code : List Instruction) (ip : Nat) (h : branch instr m p = some lbl) :
    ∃ p', execInstr code instr m p ip = some (.goto m p' (jumpToLabel code lbl ip)) := by
  have htest (ht : (if testHolds instr m p = some false then some instr.arg1.toNat else none)
      = some lbl) : ∃ p', execInstr code instr m p ip
        = some (.goto m p' (jumpToLabel code lbl ip)) := by
    split at ht
    · rename_i hf
      cases ht
      exact ⟨p, execInstr_of_testHolds hf⟩
    · cases ht
  unfold branch at h
  cases hop : instr.opcode <;> simp only [hop, reduceCtorEq] at h
  case testIsEqExact => exact htest h
  case testIsNeExact => exact htest h
  case testIsTuple => exact htest h
  case testIsList => exact htest h
  case selectVal => exact ⟨p, by rw [execInstr, hop]; exact execSelectVal_selected h⟩
  case loopRec =>
    split at h
    · rename_i hpeek
      cases h
      rw [execInstr, hop]
      simp only [execLoopRec, hpeek]
      exact ⟨_, rfl⟩
    · cases h
  case loopRecEnd =>
    obtain ⟨mb, hmb, rfl⟩ := Option.map_eq_some_iff.mp h
    rw [execInstr, hop]
    simp only [execLoopRecEnd, hmb]
    exact ⟨_, rfl⟩
  case raise =>
    split at h
    · cases h
    · rename_i depth hdepth
      obtain ⟨cf, hcf, rfl⟩ := Option.map_eq_some_iff.mp h
      rw [execInstr, hop]
      simp only [execRaise, hdepth, hcf]
      exact ⟨_, rfl⟩

end

/-! ### What a branch owes -/

/-- The call goes on with the first `LABEL` of that number; where there is none it returns an error
and has executed nothing after the branch, and a `RAISE` has taken one catch frame. -/
structure BranchOk (code : List Instruction) (own : ProcId) (w : World) (ip : Nat)
    (instr : Instruction) (lbl : Nat) : Prop where
  lands (j : Nat) : FirstLabel code lbl j →
    ∃ s event, w.toMachine.exec code own instr ip = some (s, event, .goto j)
  fails : (∀ j, ¬ LabelAt code lbl j) →
    ∃ sl, beamEmuLoop code own ((w.reductions own).toNat + 1) w ip = some sl ∧ sl.res.Fails ∧
      sl.trace = [ip] ∧ (instr.opcode = .raise →
        (sl.world.procs own).frame.catchDepth + 1 = (w.procs own).frame.catchDepth)

section

variable {code : List Instruction} {self : ProcId} {w : World} {ip lbl : Nat} {instr : Instruction}

theorem exec_branch (code : List Instruction) (ip : Nat)
    (h : branch instr w.mem (w.procs self) = some lbl) :
    ∃ s, w.toMachine.exec code self instr ip = some (s, none, .goto (jumpToLabel code lbl ip)) := by
  obtain ⟨p', hx⟩ := execInstr_branch code ip h
  rw [Machine.exec, hx]
  exact ⟨_, rfl⟩

/-- **A branch to a missing label never ends in an error after one instruction**: it comes round, or
the reductions are used up first and the call reports success. -/
theorem loop_of_missing {sl : Slice} (hc : code[ip]? = some instr) (hr : 1 < w.reductions self)
    (h : branch instr w.mem (w.procs self) = some lbl) (hno : findLabel code lbl = none)
    (hsl : beamEmuLoop code self ((w.reductions self).toNat + 1) w ip = some sl) :
    sl.res = .ok ∨ sl.trace ≠ [ip] := by
  obtain ⟨s, sched⟩ := w
  obtain ⟨s', hx⟩ := exec_branch code ip h
  rw [jumpToLabel, hno, Option.getD_none] at hx
  change 1 < (sched self).reductions at hr
  change beamEmuLoop code self ((sched self).reductions.toNat + 1) ⟨s, sched⟩ ip = some sl at hsl
  rw [beamEmuLoop_eq _ _ _ _ (Nat.lt_succ_self _)] at hsl
  obtain ⟨pr, hpr, rfl⟩ := Option.map_eq_some_iff.mp hsl
  obtain ⟨n, hn⟩ : ∃ n, ((sched self).reductions - 1).toNat = n + 1 :=
    ⟨((sched self).reductions - 1).toNat - 1, by omega⟩
  rw [hn, Machine.runFor_goto hc hx rfl] at hpr
  obtain ⟨q, hq, rfl⟩ := Option.map_eq_some_iff.mp hpr
  cases n with
  | zero =>
    cases hq
    exact Or.inl (slice_cut self sched rfl (List.getElem?_eq_some_iff.mp hc).1).1
  | succ n =>
    right
    rw [slice_trace]
    rcases Machine.runFor_succ_cases hq with ⟨hnone, _⟩ | ⟨_, _, _, _, _, _, _, _, rfl⟩ |
      ⟨_, _, _, _, _, _, _, _, rfl⟩
    · rw [hc] at hnone
      cases hnone
    · simp [Progress.cons]
    · simp [Progress.cons]

/-- **A taken branch lands on its label or fails** exactly when the code has the label. -/
theorem branchOk_iff (hc : code[ip]? = some instr) (hr : 1 < w.reductions self)
    (h : branch instr w.mem (w.procs self) = some lbl) :
    BranchOk code self w ip instr lbl ↔ ∃ j, LabelAt code lbl j := by
  constructor
  · intro hok
    by_contra hno
    have hnone : ∀ j, ¬ LabelAt code lbl j := fun j hj => hno ⟨j, hj⟩
    obtain ⟨sl, hsl, hres, htrace, _⟩ := hok.fails hnone
    rcases loop_of_missing hc hr h (findLabel_eq_none_iff.mpr hnone) hsl with hres' | htrace'
    · exact hres.1 hres'
    · exact htrace' htrace
  · rintro ⟨j, hj⟩
    refine ⟨fun k hk => ?_, fun hno => absurd hj (hno j)⟩
    obtain ⟨s, hx⟩ := exec_branch code ip h
    refine ⟨s, none, ?_⟩
    rw [hx, jumpToLabel, findLabel_eq_some_iff.mpr hk]
    rfl

end

/-- New processes with three reductions each. -/
def shortWorld : World := ⟨freshMachine, fun _ => { SchedInfo.create with reductions := 3 }⟩

/-- A failed test whose label is nowhere is executed twice, and the call reports success. -/
theorem testIsNeExact_not_branchOk :
    ¬ BranchOk [{ opcode := .testIsNeExact, arg1 := 7 }] 0 shortWorld 0
      { opcode := .testIsNeExact, arg1 := 7 } 7 := by
  intro h
  have hno : ∀ j, ¬ LabelAt [{ opcode := .testIsNeExact, arg1 := 7 }] 7 j :=
    findLabel_eq_none_iff.mp rfl
  obtain ⟨sl, hsl, hres, -⟩ := h.fails hno
  have hrun : (beamEmuLoop [{ opcode := .testIsNeExact, arg1 := 7 }] 0 4 shortWorld 0).map
      (fun sl => (sl.res, sl.trace)) = some (.ok, [0, 0]) := by decide +kernel
  change beamEmuLoop _ 0 4 shortWorld 0 = some sl at hsl
  rw [hsl, Option.map_some, Option.some_inj, Prod.mk.injEq] at hrun
  exact hres.1 hrun.1

theorem branchOk_two : BranchOk [{ opcode := .testIsNeExact, arg1 := 7 }, { opcode := .halt },
    { opcode := .label, arg1 := 7 }] 0 shortWorld 0 { opcode := .testIsNeExact, arg1 := 7 } 7 :=
  (branchOk_iff rfl (by decide) rfl).mpr ⟨2, _, rfl, rfl, rfl⟩

end BeamModular
