import BeamModular.Scheduler.Accounting
import BeamModular.Scheduler.Pool

/-!
# An idle step

`beam_scheduler_step` answers `BEAM_ERR_NOT_FOUND` when the queue is empty, and also
hands on whatever the process it has run returned.  One instruction can return that
very code: `CALL_EXT` with an index that has no function.

`execInstr_otherwise` goes through the instructions once, `call_notFound_iff` through
the run.  `idleMeansEmpty_iff` is the result for a step: the answer means an empty
queue exactly if the process first in line does not come to such a call.
-/

namespace BeamModular

/-! ### Which instruction returns `BEAM_ERR_NOT_FOUND` -/

/-- A `CALL_EXT` whose index `beam_bif_dispatch` does not know. -/
def UnknownBif (instr : Instruction) : Prop := instr.opcode = .callExt ∧ 6 ≤ instr.arg1.toNat

/-- The instruction goes on, or returns with another result. -/
def Effect.Otherwise (e : Effect) : Prop := ∀ state out, e.next ≠ .ret .errNotFound state out

section Instructions

variable {code : List Instruction} {instr : Instruction} {m m' : Memory} {p p' : Process}
  {ip ip' : Nat} {e : Effect}

theorem otherwise_goto : (Effect.goto m p ip).Otherwise := fun _ _ hn => by cases hn

theorem otherwise_fail {res : Result} (hres : res ≠ .errNotFound) :
    (Effect.fail m p res).Otherwise := fun _ _ hn => by cases hn; exact hres rfl

theorem execIntDiv_otherwise : (execIntDiv instr m p ip).Otherwise := by
  unfold execIntDiv
  split
  · dsimp only
    split
    · exact otherwise_fail Result.noConfusion
    · exact otherwise_goto
  · exact otherwise_goto

theorem MovesStack.otherwise (h : MovesStack m p e) : e.Otherwise := by
  intro state out hn
  rcases h.next with ⟨ip', hg⟩ | ⟨res, hr, _, hres⟩
  · rw [hg] at hn
    cases hn
  · rw [hr] at hn
    cases hn
    exact hres.ne_notFound rfl

theorem execLoopRec_otherwise (h : execLoopRec code instr m p ip = some e) : e.Otherwise := by
  obtain ⟨r, _, rfl⟩ := Option.map_eq_some_iff.mp h
  split
  · exact fun _ _ hn => by cases hn
  · exact otherwise_goto

theorem execTry_otherwise : (execTry instr m p ip).Otherwise := by
  unfold execTry
  split
  · exact otherwise_goto
  · exact otherwise_fail Result.noConfusion

theorem execTryEnd_otherwise (h : execTryEnd m p ip = some e) : e.Otherwise := by
  unfold execTryEnd at h
  split at h
  · cases h; exact otherwise_goto
  · cases h; exact otherwise_goto
  · obtain ⟨_, _, rfl⟩ := Option.map_eq_some_iff.mp h
    exact otherwise_goto

theorem execRaise_otherwise (h : execRaise code instr m p ip = some e) : e.Otherwise := by
  unfold execRaise at h
  dsimp only at h
  split at h
  · cases h
    exact fun _ _ hn => by cases hn
  · obtain ⟨_, _, rfl⟩ := Option.map_eq_some_iff.mp h
    exact otherwise_goto

theorem execMatchTuple_otherwise (h : execMatchTuple instr m p ip = some e) : e.Otherwise := by
  unfold execMatchTuple at h
  split at h
  · cases h; exact otherwise_goto
  · obtain ⟨_, _, h2⟩ := Option.bind_eq_some_iff.mp h
    obtain ⟨_, _, rfl⟩ := Option.map_eq_some_iff.mp h2
    split
    · exact otherwise_goto
    · exact otherwise_fail Result.noConfusion

theorem execGetTupleElement_otherwise (h : execGetTupleElement instr m p ip = some e) :
    e.Otherwise := by
  unfold execGetTupleElement at h
  split at h
  · obtain ⟨_, _, rfl⟩ := Option.map_eq_some_iff.mp h
    exact otherwise_goto
  · cases h; exact otherwise_goto

theorem execTest_otherwise {holds : Bool} : (execTest code instr m p ip holds).Otherwise := by
  unfold execTest
  split <;> exact otherwise_goto

theorem execTestExact_otherwise {same : Bool} (h : execTestExact code instr m p ip same = some e) :
    e.Otherwise := by
  obtain ⟨_, _, h2⟩ := Option.bind_eq_some_iff.mp h
  obtain ⟨_, _, rfl⟩ := Option.map_eq_some_iff.mp h2
  exact execTest_otherwise

theorem execTestIsTuple_otherwise (h : execTestIsTuple code instr m p ip = some e) :
    e.Otherwise := by
  obtain ⟨_, _, h2⟩ := Option.bind_eq_some_iff.mp h
  obtain ⟨_, _, rfl⟩ := Option.map_eq_some_iff.mp h2
  exact execTest_otherwise

theorem execTestIsList_otherwise (h : execTestIsList code instr m p ip = some e) :
    e.Otherwise := by
  obtain ⟨_, _, rfl⟩ := Option.map_eq_some_iff.mp h
  exact execTest_otherwise

theorem execGetList_otherwise (h : execGetList instr m p ip = some e) : e.Otherwise := by
  obtain ⟨_, _, h2⟩ := Option.bind_eq_some_iff.mp h
  dsimp only at h2
  split at h2
  · obtain ⟨_, _, h3⟩ := Option.bind_eq_some_iff.mp h2
    obtain ⟨_, _, h4⟩ := Option.bind_eq_some_iff.mp h3
    obtain ⟨_, _, h5⟩ := Option.bind_eq_some_iff.mp h4
    obtain ⟨_, _, rfl⟩ := Option.map_eq_some_iff.mp h5
    exact otherwise_goto
  · cases h2
    exact otherwise_fail Result.noConfusion

theorem execSelectVal_otherwise (h : execSelectVal code instr m p ip = some e) : e.Otherwise := by
  unfold execSelectVal at h
  dsimp only at h
  split at h
  · cases h; exact otherwise_goto
  · split at h
    · obtain ⟨_, _, h2⟩ := Option.bind_eq_some_iff.mp h
      obtain ⟨_, _, rfl⟩ := Option.map_eq_some_iff.mp h2
      exact otherwise_goto
    · cases h; exact otherwise_goto

theorem execMakeFun2_otherwise (h : execMakeFun2 instr m p ip = some e) : e.Otherwise := by
  unfold execMakeFun2 at h
  dsimp only at h
  split at h
  · cases h
    exact otherwise_fail Result.noConfusion
  · obtain ⟨_, _, h2⟩ := Option.bind_eq_some_iff.mp h
    obtain ⟨_, _, rfl⟩ := Option.map_eq_some_iff.mp h2
    split <;> exact otherwise_goto

/-- **No instruction but `CALL_EXT`.** -/
theorem execInstr_otherwise (h : execInstr code instr m p ip = some e)
    (hne : instr.opcode ≠ .callExt) : e.Otherwise := by
  rw [execInstr] at h
  cases hop : instr.opcode <;> simp only [hop] at h hne
  case callExt => exact absurd rfl hne
  case move => cases h; unfold execMove; split <;> exact otherwise_goto
  case add => cases h; unfold execArith; split <;> exact otherwise_goto
  case sub => cases h; unfold execArith; split <;> exact otherwise_goto
  case mul => cases h; unfold execArith; split <;> exact otherwise_goto
  case intDiv => cases h; exact execIntDiv_otherwise
  case allocate => exact (execAllocate_movesStack h).otherwise
  case deallocate | callLast => exact (execDropFrame_movesStack h).otherwise
  case send => cases h; unfold execSend; split <;> exact fun _ _ hn => by cases hn
  case loopRec => exact execLoopRec_otherwise h
  case removeMessage =>
    obtain ⟨_, _, rfl⟩ := Option.map_eq_some_iff.mp h
    exact otherwise_goto
  case loopRecEnd =>
    obtain ⟨_, _, rfl⟩ := Option.map_eq_some_iff.mp h
    exact otherwise_goto
  case wait => cases h; exact fun _ _ hn => by cases hn
  case halt => cases h; exact fun _ _ hn => by cases hn
  case «try» => cases h; exact execTry_otherwise
  case «catch» => cases h; exact execTry_otherwise
  case tryEnd => exact execTryEnd_otherwise h
  case raise => exact execRaise_otherwise h
  case matchTuple => exact execMatchTuple_otherwise h
  case getTupleElement => exact execGetTupleElement_otherwise h
  case testIsEqExact => exact execTestExact_otherwise h
  case testIsNeExact => exact execTestExact_otherwise h
  case testIsTuple => exact execTestIsTuple_otherwise h
  case testIsList => exact execTestIsList_otherwise h
  case getList => exact execGetList_otherwise h
  case selectVal => exact execSelectVal_otherwise h
  case makeFun2 => exact execMakeFun2_otherwise h
  case receive => cases h; exact otherwise_fail Result.noConfusion
  case other => cases h; exact otherwise_fail Result.noConfusion
  all_goals cases h; exact otherwise_goto

end Instructions

theorem beamBifDispatch_notFound_iff {bifIndex : Nat} {m : Memory} {p : Process} {arity : Int} :
    beamBifDispatch bifIndex m p arity = some (.error .errNotFound) ↔ 6 ≤ bifIndex := by
  rcases Nat.lt_or_ge bifIndex 6 with hlt | hge
  · refine iff_of_false (fun h => ?_) (Nat.not_le.mpr hlt)
    interval_cases bifIndex <;> simp [beamBifDispatch] at h
  · refine iff_of_true ?_ hge
    obtain ⟨n, rfl⟩ := Nat.exists_eq_add_of_le' hge
    rfl

section Runs

variable {code : List Instruction} {self : ProcId} {s : Machine} {instr : Instruction} {ip : Nat}

theorem exec_notFound {r : Machine × Option Event × Next} {state : Option ProcState}
    {out : Option Eterm} (h : s.exec code self instr ip = some r)
    (hn : r.2.2 = .ret .errNotFound state out) : UnknownBif instr := by
  obtain ⟨e, he, h2⟩ := Option.bind_eq_some_iff.mp h
  obtain ⟨_, _, rfl⟩ := Option.map_eq_some_iff.mp h2
  by_cases hop : instr.opcode = .callExt
  · rw [execInstr, hop] at he
    obtain ⟨b, hb, rfl⟩ := Option.map_eq_some_iff.mp he
    cases b with
    | ok v => cases hn
    | error res =>
      cases hn
      exact ⟨hop, beamBifDispatch_notFound_iff.mp hb⟩
  · exact absurd hn (execInstr_otherwise he hop state out)

theorem exec_unknownBif (hu : UnknownBif instr) :
    ∃ r, s.exec code self instr ip = some r ∧ r.2.2 = .ret .errNotFound none none := by
  have he : execInstr code instr s.mem (s.procs self) ip
      = some (.fail s.mem (s.procs self) .errNotFound) := by
    rw [execInstr, hu.1]
    dsimp only
    rw [execCallExt, beamBifDispatch_notFound_iff.mpr hu.2]
    rfl
  rw [Machine.exec, he]
  exact ⟨_, rfl, rfl⟩

/-- **A run that has returned `BEAM_ERR_NOT_FOUND`** has come to such an instruction. -/
theorem returned_notFound {n : Nat} : ∀ {s : Machine} {ip : Nat} {pr : Progress}
    {state : Option ProcState} {out : Option Eterm}, s.runFor code self n ip = some pr →
      pr.status = .returned .errNotFound state out →
      ∃ i < n, ∃ pr' ip' instr, s.runFor code self i ip = some pr' ∧
        pr'.status = .running ip' ∧ code[ip']? = some instr ∧ UnknownBif instr := by
  induction n with
  | zero => intro s ip pr state out h hst; cases h; cases hst
  | succ n ih =>
    intro s ip pr state out h hst
    rcases Machine.runFor_succ_cases h with ⟨_, rfl⟩ | ⟨instr, r, ip', q, hc, hx, hn, hq, rfl⟩ |
      ⟨instr, r, _, _, _, hc, hx, hn, rfl⟩
    · cases hst
    · obtain ⟨i, hi, pr', at', instr', hrun, hst', hc', hu⟩ := ih hq hst
      refine ⟨i + 1, Nat.succ_lt_succ hi, pr'.cons ip r.2.1, at', instr', ?_, hst', hc', hu⟩
      rw [Machine.runFor_goto hc hx hn, hrun]
      rfl
    · cases hst
      exact ⟨0, Nat.succ_pos n, _, ip, instr, rfl, rfl, hc, exec_notFound hx hn⟩

/-- The call comes to a `CALL_EXT` without a function. -/
def ComesToUnknownBif (code : List Instruction) (self : ProcId) (w : World) : Prop :=
  ∃ s ip instr, Attempts code self w s ip instr ∧ UnknownBif instr

theorem call_notFound_iff {w : World} :
    (∃ sl, beamEmuExecuteCode code self w = some sl ∧ sl.res = .errNotFound) ↔
      ComesToUnknownBif code self w := by
  obtain ⟨m, sched⟩ := w
  by_cases hcode : code = []
  · subst hcode
    constructor
    · rintro ⟨_, hsl, hres⟩
      cases hsl
      cases hres
    · rintro ⟨_, _, _, ⟨_, _, _, _, _, _, hc⟩, _⟩
      cases hc
  rw [beamEmuExecuteCode_eq hcode]
  constructor
  · rintro ⟨_, hsl, hres⟩
    obtain ⟨pr, hrun, rfl⟩ := Option.map_eq_some_iff.mp hsl
    obtain ⟨state, out, hst⟩ := returned_of_res hres Result.noConfusion
    obtain ⟨i, hi, pr', ip', instr, hrun', hst', hc, hu⟩ := returned_notFound hrun hst
    exact ⟨_, ip', instr, ⟨i, pr', hi, hrun', hst', rfl, hc⟩, hu⟩
  · rintro ⟨_, ip, instr, ⟨n, pr, hn, hrun, hst, rfl, hc⟩, hu⟩
    obtain ⟨r, hx, hr⟩ := @exec_unknownBif code self pr.machine instr ip hu
    obtain ⟨left, hleft⟩ := Nat.exists_eq_add_of_lt hn
    have hall : (m.start code self).runFor code self ((sched self).reductions - 1).toNat
        (m.procs self).frame.ip
        = some (pr.after ⟨r.1, .returned .errNotFound none none, [ip], r.2.1.toList⟩) := by
      have hsum : ((sched self).reductions - 1).toNat = n + (left + 1) := hleft
      rw [hsum, Machine.runFor_add, hrun, Option.bind_some, Machine.resume, hst]
      dsimp only
      rw [Machine.runFor_ret hc hx hr]
      rfl
    rw [hall]
    exact ⟨_, rfl, (slice_returned code self sched rfl).1⟩

end Runs

/-! ### The step -/

section Step

variable {code : List Instruction} {rq : RunQueue} {L : Priority → List (Nat × ProcId)} {w : World}

/-- What follows the interpreter's return always ends, and hands on its result. -/
theorem requeue_total (h : rq.Holds L) (proc : ProcId) (sl : Slice) :
    ∃ t, requeue rq proc sl = some t ∧ t.res = sl.res := by
  rw [requeue]
  split
  · cases hg : rq.alloc 0 with
    | true =>
      obtain ⟨rq', hi, _⟩ := RunQueue.insert_holds h proc .normal hg
      rw [beamRunQueueEnqueue, hi]
      exact ⟨_, rfl, rfl⟩
    | false =>
      rw [beamRunQueueEnqueue, RunQueue.insert_refused hg]
      exact ⟨_, rfl, rfl⟩
  · exact ⟨_, rfl, rfl⟩

/-- The interpreter does not read the state it is called in. -/
theorem comesToUnknownBif_setState (proc : ProcId) (state : ProcState) :
    ComesToUnknownBif code proc (w.setState proc state) ↔ ComesToUnknownBif code proc w := by
  have hred : (w.setState proc state).reductions proc = w.reductions proc := by
    simp [World.reductions, World.setState]
  unfold ComesToUnknownBif Attempts
  rw [hred]
  rfl

/-- **When a step answers `BEAM_ERR_NOT_FOUND`.** -/
theorem step_notFound_iff (h : rq.Holds L) :
    (∃ t, beamSchedulerStep code ⟨rq, w⟩ = some t ∧ t.res = .errNotFound) ↔
      (∀ prio, L prio = []) ∨ ∃ proc, rq.next = some proc ∧ ComesToUnknownBif code proc w := by
  rcases RunQueue.take_holds h dequeueOrder mem_dequeueOrder with
    ⟨hnil, ht⟩ | ⟨prio, x, R, hL, rq', ht, hh', _⟩
  · refine iff_of_true ⟨⟨⟨rq, w⟩, .errNotFound, [], []⟩, ?_, rfl⟩ (Or.inl hnil)
    rw [beamSchedulerStep, beamRunQueueDequeue, ht]
    rfl
  · have hnext : rq.next = some x.2 := by
      rw [RunQueue.next, ht]
      rfl
    have hstep : beamSchedulerStep code ⟨rq, w⟩
        = (beamEmuExecuteCode code x.2 (w.setState x.2 .running)).bind (requeue rq' x.2) := by
      rw [beamSchedulerStep, beamRunQueueDequeue, ht]
      rfl
    have hcall := @call_notFound_iff code x.2 (w.setState x.2 .running)
    rw [comesToUnknownBif_setState] at hcall
    rw [hstep, hnext]
    constructor
    · rintro ⟨t, ht', hres⟩
      obtain ⟨sl, hsl, hr⟩ := Option.bind_eq_some_iff.mp ht'
      obtain ⟨t₁, hr₁, hres₁⟩ := requeue_total hh' x.2 sl
      rw [hr] at hr₁
      cases hr₁
      exact Or.inr ⟨x.2, rfl, hcall.mp ⟨sl, hsl, hres₁.symm.trans hres⟩⟩
    · rintro (hnil | ⟨_, he, hcomes⟩)
      · rw [hnil prio] at hL
        cases hL
      · cases he
        obtain ⟨sl, hsl, hres⟩ := hcall.mpr hcomes
        obtain ⟨t, hr, hrest⟩ := requeue_total hh' x.2 sl
        exact ⟨t, by rw [hsl, Option.bind_some, hr], hrest.trans hres⟩

/-- **What one step says**: the answer `BEAM_ERR_NOT_FOUND` means an empty queue, and a worker
goes on to steal only then. -/
structure IdleMeansEmpty (code : List Instruction) (rq : RunQueue) (w : World)
    (L : Priority → List (Nat × ProcId)) : Prop where
  notFound : (∃ t, beamSchedulerStep code ⟨rq, w⟩ = some t ∧ t.res = .errNotFound) ↔
    ∀ prio, L prio = []
  steals : ∀ t, beamSchedulerStep code ⟨rq, w⟩ = some t →
    WorkerPc.done false t.res = .stealing → ∀ prio, L prio = []

theorem done_stealing_iff {res : Result} :
    WorkerPc.done false res = .stealing ↔ res = .errNotFound := by
  simp [WorkerPc.done]

/-- **An idle answer means an empty queue** if and only if the process first in line, if there is
one, does not come to a `CALL_EXT` without a function: for every program, queue and state of the
processes. -/
theorem idleMeansEmpty_iff (h : rq.Holds L) :
    IdleMeansEmpty code rq w L ↔
      ∀ proc, rq.next = some proc → ¬ComesToUnknownBif code proc w := by
  have hstep := @step_notFound_iff code rq L w h
  constructor
  · intro hidle proc hnext hcomes
    have hempty := hidle.notFound.mp (hstep.mpr (Or.inr ⟨proc, hnext, hcomes⟩))
    rcases RunQueue.take_holds h dequeueOrder mem_dequeueOrder with
      ⟨_, ht⟩ | ⟨prio, x, R, hL, _⟩
    · rw [RunQueue.next, ht] at hnext
      cases hnext
    · rw [hempty prio] at hL
      cases hL
  · intro hno
    have hempty : (∃ t, beamSchedulerStep code ⟨rq, w⟩ = some t ∧ t.res = .errNotFound) →
        ∀ prio, L prio = [] := by
      intro ht
      rcases hstep.mp ht with hnil | ⟨proc, hnext, hcomes⟩
      · exact hnil
      · exact absurd hcomes (hno proc hnext)
    exact ⟨⟨hempty, fun hnil => hstep.mpr (Or.inl hnil)⟩,
      fun t ht hsteal => hempty ⟨t, ht, done_stealing_iff.mp hsteal⟩⟩

end Step

/-- A `CALL_EXT` behind the last of the six functions. -/
def unknownBifCode : List Instruction := [{ opcode := .callExt, arg1 := 6#32 }]

theorem idleMeansEmpty_haltCode :
    IdleMeansEmpty haltCode queueOfOne ⟨freshMachine, budget 10⟩
      (Function.update (fun _ => []) .normal [(0, 0)]) := by
  refine (idleMeansEmpty_iff holds_queueOfOne).mpr fun proc _ hcomes => ?_
  obtain ⟨_, ip, instr, ⟨_, _, _, _, _, _, hc⟩, hop, _⟩ := hcomes
  have hmem := List.mem_of_getElem? hc
  rw [haltCode, List.mem_singleton] at hmem
  rw [hmem] at hop
  cases hop

/-- **A step answers that there is nothing to run**, having run a process. -/
theorem unknownBif_idle :
    ∃ t, beamSchedulerStep unknownBifCode (schedOfOne 10) = some t ∧ t.res = .errNotFound ∧
      t.trace = [0] ∧ WorkerPc.done false t.res = .stealing ∧
      ¬IdleMeansEmpty unknownBifCode queueOfOne (schedOfOne 10).world
        (Function.update (fun _ => []) .normal [(0, 0)]) := by
  obtain ⟨t, hs, hv⟩ := Option.map_eq_some_iff.mp
    (show (beamSchedulerStep unknownBifCode (schedOfOne 10)).map (fun t => (t.res, t.trace)) =
      some (.errNotFound, [0]) by decide)
  obtain ⟨hres, htrace⟩ := Prod.mk.inj hv
  refine ⟨t, hs, hres, htrace, done_stealing_iff.mpr hres, fun hidle => ?_⟩
  have hempty := hidle.notFound.mp ⟨t, hs, hres⟩ .normal
  rw [Function.update_self] at hempty
  cases hempty

end BeamModular
