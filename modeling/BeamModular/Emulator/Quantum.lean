import BeamModular.Emulator.Budget
import BeamModular.Lib.Reach

/-!
# A call ends within its quantum

The loop of `beam_emu_execute_code` takes a reduction in every turn, so the jumps of the
code do not matter: `beamEmuLoop_fuel` says that any fuel above the reductions gives the
same answer.  Of the loops inside an instruction only the one of `bif_length_1` has no
bound of its own; it ends on a list that is not circular (`listLength_ends`).

What is left is an instruction that reads or writes where nothing is (`Faults`), which
leaves the behaviour undefined.  `beamEmuExecuteCode_ends` puts these together.  A list
has to be free of cycles when its length is taken: `MAKE_FUN2` can close a cycle behind a
pointer that was harmless when the call started.
-/

namespace BeamModular

/-! ### The length of a list -/

/-- The tail of a list cell. -/
def TailEdge (m : Memory) (t u : Eterm) : Prop :=
  beamIsList t = true ∧ m.cell (addrOf t + 8) = some u

/-- No list cell that the tails lead to lies on a cycle of tails. -/
def AcyclicList (m : Memory) (t : Eterm) : Prop :=
  Throughout (TailEdge m) (fun u => ¬ Relation.TransGen (TailEdge m) u u) t

/-- The tails lead to a cell that cannot be read. -/
def WalksOff (m : Memory) (t : Eterm) : Prop :=
  ∃ u, Relation.ReflTransGen (TailEdge m) t u ∧ beamIsList u = true ∧ m.cell (addrOf u + 8) = none

/-- The word in the tail's place, if there is one. -/
def nextTail (m : Memory) (t : Eterm) : Eterm := (m.cell (addrOf t + 8)).getD 0#64

/-- A length without a result has walked over as many cells as it had fuel, or off the list. -/
theorem walk_of_listLength {m : Memory} {fuel : Nat} : ∀ {t : Eterm} {len : Word},
    listLength m fuel t len = none → ¬ WalksOff m t →
      ∀ i < fuel, TailEdge m ((nextTail m)^[i] t) ((nextTail m)^[i + 1] t) := by
  induction fuel with
  | zero => intro t len _ _ i hi; omega
  | succ fuel ih =>
    intro t len hnone hoff i hi
    rw [listLength] at hnone
    have hlist : beamIsList t = true := by
      by_contra hl
      rw [if_neg hl] at hnone
      cases hnone
    obtain ⟨u, hu⟩ : ∃ u, m.cell (addrOf t + 8) = some u := by
      rw [← Option.ne_none_iff_exists']
      exact fun hn => hoff ⟨t, .refl, hlist, hn⟩
    have hnext : nextTail m t = u := by rw [nextTail, hu, Option.getD_some]
    rw [if_pos hlist, beamListTail, if_pos hlist, hu, Option.bind_some] at hnone
    cases i with
    | zero => exact ⟨hlist, by rw [Function.iterate_zero, id, Function.iterate_one, hnext, hu]⟩
    | succ i =>
      rw [Function.iterate_succ_apply, Function.iterate_succ_apply, hnext]
      refine ih hnone (fun ⟨v, hv, hl, hc⟩ => hoff ⟨v, .head ⟨hlist, hu⟩ hv, hl, hc⟩) i (by omega)

theorem card_eterm : Nat.card Eterm ≤ addressSpace := by
  have hle := Nat.card_le_card_of_injective (BitVec.toFin (w := 64))
    fun _ _ => BitVec.eq_of_toFin_eq
  rwa [Nat.card_fin] at hle

/-- **The length of a list without cycles ends**, unless the list leads where nothing is. -/
theorem listLength_ends {m : Memory} {t : Eterm} (len : Word) (hacyc : AcyclicList m t)
    (hoff : ¬ WalksOff m t) : ∃ n, listLength m (addressSpace + 1) t len = some n := by
  have : Finite Eterm := Finite.of_injective BitVec.toFin fun _ _ => BitVec.eq_of_toFin_eq
  by_contra hnone
  have hwalk := walk_of_listLength (Option.eq_none_iff_forall_ne_some.mpr fun n hn =>
    hnone ⟨n, hn⟩) hoff
  obtain ⟨u, hreach, hcycle⟩ := cycle_of_walk (f := fun i => (nextTail m)^[i] t)
    (card_eterm.trans (Nat.le_succ _)) hwalk
  exact hacyc u hreach hcycle

theorem acyclicList_of_tail {m : Memory} {t : Eterm}
    (h : ∀ u, TailEdge m t u → AcyclicList m u) : AcyclicList m t := by
  refine throughout_iff.mpr ⟨fun hcyc => ?_, h⟩
  -- a cycle through the cell would be reachable from its tail
  obtain ⟨u, hu, hback⟩ := Relation.TransGen.head'_iff.mp hcyc
  exact h u hu t hback hcyc

theorem acyclicList_of_not_list {m : Memory} {t : Eterm} (h : beamIsList t = false) :
    AcyclicList m t :=
  acyclicList_of_tail fun u hu => by rw [hu.1] at h; cases h

/-! ### Faults -/

/-- A call of `bif_length_1` that looks at its argument. -/
def Instruction.TakesLength (instr : Instruction) : Prop :=
  instr.opcode = .callExt ∧ instr.arg1.toNat = 5 ∧ 1 ≤ instr.arg2.toInt

instance (instr : Instruction) : Decidable instr.TakesLength :=
  inferInstanceAs (Decidable (_ ∧ _ ∧ _))

/-- The instruction reads or writes where nothing is.  All loops but the one of `bif_length_1` are
bounded by an operand, so that without a result means with a bad access. -/
def Faults (code : List Instruction) (self : ProcId) (s : Machine) (instr : Instruction)
    (ip : Nat) : Prop :=
  if instr.TakesLength then WalksOff s.mem ((s.procs self).x 0)
  else s.exec code self instr ip = none

theorem exec_ends {code : List Instruction} {self : ProcId} {s : Machine} {instr : Instruction}
    {ip : Nat} (hacyc : instr.TakesLength → AcyclicList s.mem ((s.procs self).x 0))
    (hfault : ¬ Faults code self s instr ip) : ∃ r, s.exec code self instr ip = some r := by
  by_cases ht : instr.TakesLength
  · rw [Faults, if_pos ht] at hfault
    obtain ⟨n, hn⟩ := listLength_ends 0#64 (hacyc ht) hfault
    have hx : ((s.procs self).frame.xRegs 0) = (s.procs self).x 0 := rfl
    have hbif : beamBifDispatch instr.arg1.toNat s.mem (s.procs self) instr.arg2.toInt
        = some (.ok (makeSmallInt n)) := by
      rw [ht.2.1]
      simp only [beamBifDispatch, bifLength1, hx, hn, if_neg (not_lt.mpr ht.2.2), Option.map_some]
    rw [Machine.exec, execInstr, ht.1]
    simp only [execCallExt, hbif]
    exact ⟨_, rfl⟩
  · rw [Faults, if_neg ht] at hfault
    exact Option.ne_none_iff_exists'.mp hfault

/-! ### The turns of the loop -/

variable {code : List Instruction} {self : ProcId}

/-- **Any fuel above the reductions gives the same answer.** -/
theorem beamEmuLoop_fuel {fuel fuel' : Nat} {w : World} {ip : Nat}
    (h : (w.reductions self).toNat < fuel) (h' : (w.reductions self).toNat < fuel') :
    beamEmuLoop code self fuel w ip = beamEmuLoop code self fuel' w ip := by
  obtain ⟨s, sched⟩ := w
  rw [beamEmuLoop_eq fuel s sched ip h, beamEmuLoop_eq fuel' s sched ip h']

theorem reductions_consume (w : World) :
    (w.consumeReductions self 1).reductions self = w.reductions self - 1 := by
  simp [World.reductions, World.consumeReductions]

theorem reductions_setState (w : World) (state : ProcState) :
    (w.setState self state).reductions self = w.reductions self := by
  simp [World.reductions, World.setState]

theorem reductions_returnIn (w : World) (state : Option ProcState) :
    (w.returnIn self state).reductions self = w.reductions self := by
  cases state with
  | none => rfl
  | some state => exact reductions_setState w state

/-- **Each turn takes one reduction.** -/
theorem reductions_beamEmuLoop {fuel : Nat} : ∀ {w : World} {ip : Nat} {sl : Slice},
    beamEmuLoop code self fuel w ip = some sl →
      sl.world.reductions self = w.reductions self - sl.turns := by
  induction fuel with
  | zero => intro w ip sl h; cases h
  | succ fuel ih =>
    intro w ip sl h
    rw [beamEmuLoop] at h
    cases hc : code[ip]? with
    | none =>
      rw [hc] at h
      cases h
      simp [World.reductions]
    | some instr =>
      rw [hc] at h
      dsimp only at h
      by_cases hle : (w.consumeReductions self 1).reductions self ≤ 0
      · rw [if_pos hle] at h
        cases h
        rw [reductions_setState, reductions_consume]
        rfl
      · rw [if_neg hle] at h
        obtain ⟨⟨s, event, next⟩, hx, hr⟩ := Option.bind_eq_some_iff.mp h
        have hone : World.reductions ⟨s, (w.consumeReductions self 1).sched⟩ self
            = w.reductions self - 1 := reductions_consume w
        cases next with
        | goto ip' =>
          obtain ⟨sl', hsl', rfl⟩ := Option.map_eq_some_iff.mp hr
          change sl'.world.reductions self = w.reductions self - ((sl'.turns + 1 : Nat) : Int)
          rw [ih hsl', hone]
          push_cast
          omega
        | ret res state out =>
          cases hr
          change World.reductions (World.returnIn _ self state) self = _
          rw [reductions_returnIn, hone]
          rfl

theorem runFor_ends {n : Nat} : ∀ {s : Machine} {ip : Nat},
    (∀ i < n, ∀ pr ip' instr, s.runFor code self i ip = some pr → pr.status = .running ip' →
      code[ip']? = some instr → ∃ r, pr.machine.exec code self instr ip' = some r) →
      ∃ pr, s.runFor code self n ip = some pr := by
  induction n with
  | zero => intro s ip _; exact ⟨_, rfl⟩
  | succ n ih =>
    intro s ip h
    obtain ⟨pr, hpr⟩ := ih fun i hi => h i (by omega)
    rw [Machine.runFor_add, hpr, Option.bind_some, Machine.resume]
    cases hst : pr.status with
    | returned res state out => exact ⟨pr, rfl⟩
    | running ip' =>
      dsimp only
      rw [Machine.runFor]
      cases hc : code[ip']? with
      | none => exact ⟨_, rfl⟩
      | some instr =>
        obtain ⟨r, hx⟩ := h n (Nat.lt_succ_self n) pr ip' instr hpr hst hc
        dsimp only
        rw [hx, Option.bind_some]
        cases r.2.2 with
        | goto ip'' => exact ⟨_, rfl⟩
        | ret res state out => exact ⟨_, rfl⟩

/-- **Every call ends within its quantum** when no list whose length it takes has a cycle, unless it
comes to an instruction that faults. -/
theorem beamEmuExecuteCode_ends {w : World}
    (hacyc : ∀ s ip instr, Attempts code self w s ip instr → instr.TakesLength →
      AcyclicList s.mem ((s.procs self).x 0)) :
    (∃ sl, beamEmuExecuteCode code self w = some sl ∧
      (sl.trace.length : Int) ≤ max 0 (w.reductions self - 1) ∧
      sl.world.reductions self = w.reductions self - sl.turns) ∨
    ∃ s ip instr, Attempts code self w s ip instr ∧ Faults code self s instr ip := by
  by_cases hfault : ∃ s ip instr, Attempts code self w s ip instr ∧ Faults code self s instr ip
  · exact Or.inr hfault
  left
  by_cases hcode : code = []
  · subst hcode
    refine ⟨⟨w, .errInvalidArg, none, [], [], 0⟩, by rw [beamEmuExecuteCode, if_pos rfl], ?_, ?_⟩
    · exact le_max_left _ _
    · exact (Int.sub_zero _).symm
  obtain ⟨pr, hpr⟩ : ∃ pr, (w.toMachine.start code self).runFor code self
      (w.reductions self - 1).toNat (w.procs self).frame.ip = some pr := by
    refine runFor_ends fun i hi pr ip' instr hrun hst hc => ?_
    have ha : Attempts code self w pr.machine ip' instr := ⟨i, pr, hi, hrun, hst, rfl, hc⟩
    exact exec_ends (hacyc _ _ _ ha) fun hf => hfault ⟨_, _, _, ha, hf⟩
  have hrun : beamEmuExecuteCode code self w = some (pr.slice code self w.sched) := by
    obtain ⟨s, sched⟩ := w
    rw [beamEmuExecuteCode_eq hcode]
    change (Machine.runFor code self ((sched self).reductions - 1).toNat (s.start code self)
      (s.procs self).frame.ip) = some pr at hpr
    rw [hpr]
    rfl
  refine ⟨_, hrun, ?_, ?_⟩
  · have hlen := Machine.length_trace_le hpr
    rw [slice_trace]
    omega
  · rw [beamEmuExecuteCode, if_neg hcode] at hrun
    dsimp only at hrun
    rw [initCp_ip] at hrun
    have hturns := reductions_beamEmuLoop hrun
    exact hturns

/-- `length/1` of register `x0`. -/
def lengthCode : List Instruction :=
  [{ opcode := .callExt, arg1 := 5, arg2 := 1 }, { opcode := .halt }]

/-- The list `[7, 8]` in the heap of the process, and its register. -/
def pairWorld : World where
  mem := Memory.empty.map 4096 4 fun i => [makeSmallInt 7#64, tagAddr 4112 tagPrimaryList,
    makeSmallInt 8#64, etermNil].getD i 0#64
  procs _ := { freshProcess with heapTop := 4#64 }.setX 0 (tagAddr 4096 tagPrimaryList)
  sched _ := SchedInfo.create

theorem pairWorld_acyclic : AcyclicList pairWorld.mem (tagAddr 4096 tagPrimaryList) := by
  have hfirst : pairWorld.mem.cell (addrOf (tagAddr 4096 tagPrimaryList) + 8)
      = some (tagAddr 4112 tagPrimaryList) := by decide
  have hsecond : pairWorld.mem.cell (addrOf (tagAddr 4112 tagPrimaryList) + 8)
      = some etermNil := by decide
  refine acyclicList_of_tail fun u hu => ?_
  obtain rfl := Option.some.inj (hu.2.symm.trans hfirst)
  refine acyclicList_of_tail fun u hu => ?_
  obtain rfl := Option.some.inj (hu.2.symm.trans hsecond)
  exact acyclicList_of_not_list (by decide)

theorem beamEmuExecuteCode_ends_length :
    (∃ sl, beamEmuExecuteCode lengthCode 0 pairWorld = some sl ∧
      (sl.trace.length : Int) ≤ max 0 (pairWorld.reductions 0 - 1) ∧
      sl.world.reductions 0 = pairWorld.reductions 0 - sl.turns) ∨
    ∃ s ip instr, Attempts lengthCode 0 pairWorld s ip instr ∧
      Faults lengthCode 0 s instr ip := by
  obtain ⟨⟨s₁, event, next⟩, hx, hr⟩ := Option.map_eq_some_iff.mp
    (show ((pairWorld.toMachine.start lengthCode 0).exec lengthCode 0
        { opcode := .callExt, arg1 := 5, arg2 := 1 } 0).map Prod.snd = some (none, .goto 1) by
      decide +kernel)
  cases hr
  refine beamEmuExecuteCode_ends fun s ip instr ⟨n, pr, _, hrun, hst, hs, hc⟩ ht => ?_
  rcases n with _ | n
  · cases hrun
    subst hs
    exact pairWorld_acyclic
  · -- only the first instruction takes a length
    have hone := Machine.runFor_goto (n := n) rfl hx rfl
    rw [show (pairWorld.procs 0).frame.ip = 0 from rfl] at hrun
    rcases n with _ | n
    · cases hone.symm.trans hrun
      cases hst
      cases hc
      cases ht.1
    · cases hone.symm.trans hrun
      cases hst

/-! ### A list that becomes circular -/

theorem listLength_loop {m : Memory} {t : Eterm} (hl : beamIsList t = true)
    (ht : m.cell (addrOf t + 8) = some t) (fuel : Nat) (len : Word) :
    listLength m fuel t len = none := by
  induction fuel generalizing len with
  | zero => rfl
  | succ fuel ih => rw [listLength, if_pos hl, beamListTail, if_pos hl, ht, Option.bind_some, ih]

theorem not_walksOff_loop {m : Memory} {t : Eterm} (ht : m.cell (addrOf t + 8) = some t) :
    ¬ WalksOff m t := by
  rintro ⟨u, hu, -, hc⟩
  have hself : u = t := by
    clear hc
    induction hu with
    | refl => rfl
    | tail _ he ih =>
      rw [TailEdge, ih, ht] at he
      exact (Option.some.inj he.2).symm
  rw [hself, ht] at hc
  cases hc

/-- A list pointer into the heap that is not in use yet, and a closure whose free variable is that
pointer and lies in its tail. -/
def closingCode : List Instruction :=
  [{ opcode := .move, arg2 := 0, literal := tagAddr 4104 tagPrimaryList },
    { opcode := .makeFun2, arg2 := 1, arg3 := 1 },
    { opcode := .callExt, arg1 := 5, arg2 := 1 }]

/-- The machine before the second instruction. -/
def closingMachine : Machine :=
  ⟨freshMemory, Function.update (freshMachine.start closingCode 0).procs 0
    (((freshMachine.start closingCode 0).procs 0).setX 0 (tagAddr 4104 tagPrimaryList))⟩

theorem closing_makeFun : ∃ s, closingMachine.exec closingCode 0
      { opcode := .makeFun2, arg2 := 1, arg3 := 1 } 1 = some (s, none, .goto 2) ∧
    (s.procs 0).x 0 = tagAddr 4104 tagPrimaryList ∧
    s.mem.cell (addrOf (tagAddr 4104 tagPrimaryList) + 8) = some (tagAddr 4104 tagPrimaryList) := by
  obtain ⟨⟨s, event, next⟩, hx, hr⟩ := Option.map_eq_some_iff.mp
    (show (closingMachine.exec closingCode 0 { opcode := .makeFun2, arg2 := 1, arg3 := 1 } 1).map
      (fun r => (r.2, (r.1.procs 0).x 0, r.1.mem.cell (addrOf (tagAddr 4104 tagPrimaryList) + 8)))
      = some ((none, .goto 2), tagAddr 4104 tagPrimaryList, some (tagAddr 4104 tagPrimaryList)) by
        decide +kernel)
  simp only [Prod.mk.injEq] at hr
  obtain ⟨⟨rfl, rfl⟩, h0, hc⟩ := hr
  exact ⟨s, hx, h0, hc⟩

/-- The machine as the call finds it. -/
def closingStart : Machine := freshMachine.start closingCode 0

theorem closing_move : closingStart.exec closingCode 0
    { opcode := .move, arg2 := 0, literal := tagAddr 4104 tagPrimaryList } 0
      = some (closingMachine, none, .goto 1) := rfl

theorem closing_acyclic : (∀ i, AcyclicList freshWorld.mem ((freshWorld.procs 0).x i)) ∧
    ∀ instr ∈ closingCode, AcyclicList freshWorld.mem instr.literal := by
  have hzero : beamIsList 0#64 = false := rfl
  refine ⟨fun i => acyclicList_of_not_list hzero, fun instr hi => ?_⟩
  simp only [closingCode, List.mem_cons, List.not_mem_nil, or_false] at hi
  rcases hi with rfl | rfl | rfl
  · refine acyclicList_of_tail fun u hu => acyclicList_of_not_list ?_
    have h0 : freshMemory.cell (addrOf (tagAddr 4104 tagPrimaryList) + 8) = some 0#64 := by
      decide +kernel
    have hu' : freshMemory.cell (addrOf (tagAddr 4104 tagPrimaryList) + 8) = some u := hu.2
    rw [h0] at hu'
    cases hu'
    exact hzero
  · exact acyclicList_of_not_list hzero
  · exact acyclicList_of_not_list hzero

theorem closing_length {s : Machine}
    (hx : (s.procs 0).x 0 = tagAddr 4104 tagPrimaryList)
    (hcell : s.mem.cell (addrOf (tagAddr 4104 tagPrimaryList) + 8)
      = some (tagAddr 4104 tagPrimaryList)) :
    s.exec closingCode 0 { opcode := .callExt, arg1 := 5, arg2 := 1 } 2 = none ∧
      ¬ Faults closingCode 0 s { opcode := .callExt, arg1 := 5, arg2 := 1 } 2 := by
  constructor
  · have hnone := listLength_loop (t := tagAddr 4104 tagPrimaryList) (by decide) hcell
    have hargs : (s.procs 0).frame.xRegs 0 = tagAddr 4104 tagPrimaryList := hx
    have hbif : beamBifDispatch 5 s.mem (s.procs 0) 1 = none := by
      simp only [beamBifDispatch, bifLength1, hargs, hnone]
      rfl
    have hexec : execCallExt { opcode := .callExt, arg1 := 5, arg2 := 1 } s.mem (s.procs 0) 2
        = none := Option.map_eq_none_iff.mpr hbif
    rw [Machine.exec, execInstr]
    exact Option.bind_eq_none_iff.mpr fun e he => by rw [hexec] at he; cases he
  · rw [Faults, if_pos (by decide), hx]
    exact not_walksOff_loop hcell

/-- **The call need not end** when the registers and the literals are free of cycles at its start
only. -/
theorem closingCode_not_ends :
    ¬ ((∀ i, AcyclicList freshWorld.mem ((freshWorld.procs 0).x i)) ∧
        (∀ instr ∈ closingCode, AcyclicList freshWorld.mem instr.literal) →
      (∃ sl, beamEmuExecuteCode closingCode 0 freshWorld = some sl) ∨
        ∃ s ip instr, Attempts closingCode 0 freshWorld s ip instr ∧
          Faults closingCode 0 s instr ip) := by
  intro h
  obtain ⟨s₂, hmake, hx0, hcell⟩ := closing_makeFun
  obtain ⟨hlength, hnofault⟩ := closing_length hx0 hcell
  have hget : closingCode[2]? = some { opcode := .callExt, arg1 := 5, arg2 := 1 } := rfl
  have hone (n : Nat) : closingStart.runFor closingCode 0 (n + 1) 0
      = (closingMachine.runFor closingCode 0 n 1).map (Progress.cons 0 none) :=
    Machine.runFor_goto rfl closing_move rfl
  have htwo (n : Nat) : closingMachine.runFor closingCode 0 (n + 1) 1
      = (s₂.runFor closingCode 0 n 2).map (Progress.cons 1 none) :=
    Machine.runFor_goto rfl hmake rfl
  have hthree (n : Nat) : s₂.runFor closingCode 0 (n + 1) 2 = none := by
    rw [Machine.runFor, hget]
    dsimp only
    rw [hlength]
    rfl
  have hfrom (n : Nat) : closingStart.runFor closingCode 0 (n + 3) 0 = none := by
    rw [hone, htwo, hthree]
    rfl
  rcases h closing_acyclic with ⟨sl, hsl⟩ | ⟨s, ip, instr, ⟨n, pr, -, hrun, hst, rfl, hc⟩, hf⟩
  · change beamEmuExecuteCode closingCode 0 ⟨freshMachine, fun _ => SchedInfo.create⟩ = some sl
      at hsl
    rw [beamEmuExecuteCode_eq (by decide)] at hsl
    obtain ⟨pr, hpr, _⟩ := Option.map_eq_some_iff.mp hsl
    change closingStart.runFor closingCode 0 (3996 + 3) 0 = some pr at hpr
    rw [hfrom] at hpr
    cases hpr
  · change closingStart.runFor closingCode 0 n 0 = some pr at hrun
    rcases n with _ | _ | _ | n
    · cases hrun
      cases hst
      cases hc
      rw [Faults, if_neg (by decide)] at hf
      exact absurd (hf.symm.trans closing_move) (by simp)
    · rw [hone] at hrun
      cases hrun
      cases hst
      cases hc
      rw [Faults, if_neg (by decide)] at hf
      exact absurd (hf.symm.trans hmake) (by simp)
    · rw [hone, htwo] at hrun
      cases hrun
      cases hst
      cases hc
      exact hnofault hf
    · rw [hfrom] at hrun
      cases hrun

end BeamModular
