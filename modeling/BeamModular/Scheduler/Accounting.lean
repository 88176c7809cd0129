import BeamModular.Scheduler.Loop

/-!
# What a step does with the process it takes

`beam_scheduler_step` takes a process out of the queue and runs it.  How the run goes
is a matter of the program and of the process alone, and there are four ways
(`CallOutcome`): an instruction reports an error, an instruction ends or suspends the
process, the reductions run out, or the code does.  `turn_cases` says where the process
is then, and in which state.

The loop decides by the result and the state.  An error leaves `RUNNING` behind with a
result that is not `BEAM_OK`, so the process is not put back and nobody has it; the end
of the code leaves `RUNNING` behind with `BEAM_OK`, which looks like a cut, so it is
put back.  `accounted_iff` and `putBack_iff_cut_iff` say what follows.
-/

namespace BeamModular

/-- How a run of the interpreter goes. -/
inductive CallOutcome
  /-- An instruction reports an error and leaves the state of the process alone. -/
  | fails
  /-- An instruction ends the process (`HALT`, an uncaught `RAISE`) or suspends it (`WAIT`). -/
  | ends
  /-- The reductions run out before an instruction. -/
  | cut
  /-- There is no instruction left. -/
  | ranOff
  deriving DecidableEq, Repr

def Progress.outcome (code : List Instruction) (pr : Progress) : CallOutcome :=
  match pr.status with
  | .running ip => if ip < code.length then .cut else .ranOff
  | .returned _ none _ => .fails
  | .returned _ (some _) _ => .ends

/-- How the process runs with the reductions it has, from the instruction its frame has saved; a
call without code is refused. -/
def callOutcome (code : List Instruction) (self : ProcId) (w : World) : Option CallOutcome :=
  if code = [] then some .fails
  else ((w.toMachine.start code self).runFor code self (w.reductions self - 1).toNat
    (w.procs self).frame.ip).map (Progress.outcome code)

/-- The process that a step will take. -/
def RunQueue.next (rq : RunQueue) : Option ProcId := (rq.take dequeueOrder).bind Prod.snd

/-- **The process is accounted for**: in the queue and runnable, or waiting, or exited. -/
def Accounted (s : Sched) (proc : ProcId) : Prop :=
  (∃ L, s.rq.Holds L ∧ proc ∈ queued L ∧ (s.world.sched proc).state = .runnable) ∨
    (s.world.sched proc).state = .waiting ∨ (s.world.sched proc).state = .exited

/-- **The process is put back**: the queue holds it as often as before the step took it out. -/
def PutBack (before after : RunQueue) (proc : ProcId) : Prop :=
  ∃ L L', before.Holds L ∧ after.Holds L' ∧ (queued L').count proc = (queued L).count proc

/-! ### The four outcomes -/

variable {code : List Instruction} {self : ProcId} {rq : RunQueue} {w : World} {sl : Slice}
  {L : Priority → List (Nat × ProcId)}

theorem call_cases (h : beamEmuExecuteCode code self (w.setState self .running) = some sl) :
    (callOutcome code self w = some .fails ∧ sl.res ≠ .ok ∧
      (sl.world.sched self).state = .running) ∨
    (callOutcome code self w = some .ends ∧ ((sl.world.sched self).state = .exited ∨
      (sl.world.sched self).state = .waiting)) ∨
    (callOutcome code self w = some .cut ∧ (sl.world.sched self).state = .runnable) ∨
    (callOutcome code self w = some .ranOff ∧ sl.res = .ok ∧
      (sl.world.sched self).state = .running) := by
  by_cases hcode : code = []
  · rw [beamEmuExecuteCode, if_pos hcode] at h
    cases h
    refine Or.inl ⟨if_pos hcode, Result.noConfusion, ?_⟩
    simp [World.setState]
  obtain ⟨s, sched⟩ := w
  let sched' := (World.setState ⟨s, sched⟩ self .running).sched
  have hstate : (sched' self).state = .running := by simp [sched', World.setState]
  have hred : (sched' self).reductions = (sched self).reductions := by
    simp [sched', World.setState]
  change beamEmuExecuteCode code self ⟨s, sched'⟩ = some sl at h
  rw [beamEmuExecuteCode_eq hcode, hred] at h
  obtain ⟨pr, hrun, rfl⟩ := Option.map_eq_some_iff.mp h
  have hout : callOutcome code self ⟨s, sched⟩ = some (pr.outcome code) := by
    rw [callOutcome, if_neg hcode]
    exact congrArg (Option.map (Progress.outcome code)) hrun
  rw [hout]
  unfold Progress.outcome
  cases hst : pr.status with
  | running ip =>
    dsimp only
    by_cases hlt : ip < code.length
    · rw [if_pos hlt]
      exact Or.inr (Or.inr (Or.inl ⟨rfl, (slice_cut self sched' hst hlt).2.1⟩))
    · rw [if_neg hlt]
      obtain ⟨hr, hs, _⟩ := slice_end self sched' hst hlt
      exact Or.inr (Or.inr (Or.inr ⟨rfl, hr, hs.trans hstate⟩))
  | returned res state out =>
    obtain ⟨hr, hs, _⟩ := slice_returned code self sched' hst
    rcases Machine.returned_cases hrun hst with ⟨rfl, hf⟩ | rfl | ⟨rfl, _⟩
    · exact Or.inl ⟨rfl, hr ▸ hf.1, hs.trans hstate⟩
    · exact Or.inr (Or.inl ⟨rfl, Or.inl hs⟩)
    · exact Or.inr (Or.inl ⟨rfl, Or.inr hs⟩)

theorem requeue_cases {t : Turn} (hL : rq.Holds L) (h : requeue rq self sl = some t) :
    (mustRequeue sl.res (sl.world.sched self).state = false ∧ t.sched.rq.Holds L ∧
      (t.sched.world.sched self).state = (sl.world.sched self).state) ∨
    (mustRequeue sl.res (sl.world.sched self).state = true ∧ rq.alloc 0 = true ∧
      (∃ L', t.sched.rq.Holds L' ∧ queued L' = self ::ₘ queued L) ∧
      (t.sched.world.sched self).state = .runnable) ∨
    (mustRequeue sl.res (sl.world.sched self).state = true ∧ rq.alloc 0 = false ∧
      t.sched.rq.Holds L ∧
      (t.sched.world.sched self).state = (sl.world.sched self).state) := by
  rw [requeue] at h
  split at h
  · rename_i hm
    obtain ⟨_, hq, rfl⟩ := Option.map_eq_some_iff.mp h
    obtain ⟨⟨rq', res⟩, hi, rfl⟩ := Option.map_eq_some_iff.mp hq
    rcases RunQueue.insert_cases hL hi with ⟨hg, rfl, hh⟩ | ⟨hg, rfl, hh⟩
    · refine Or.inr (Or.inr ⟨hm, hg, hh, ?_⟩)
      simp [World.setReductions]
    · refine Or.inr (Or.inl ⟨hm, hg, ⟨_, hh, queued_insert L .normal _⟩, ?_⟩)
      simp [World.setState]
  · rename_i hm
    cases h
    exact Or.inl ⟨by simpa using hm, hL, rfl⟩

/-- **Where a step leaves its process.**  `L₁` is the queue without it. -/
theorem turn_cases {t : Turn} (hL : rq.Holds L) (hnext : rq.next = some self)
    (hs : beamSchedulerStep code ⟨rq, w⟩ = some t) :
    ∃ L₁, queued L = self ::ₘ queued L₁ ∧
      ((callOutcome code self w = some .fails ∧ t.sched.rq.Holds L₁ ∧
          (t.sched.world.sched self).state = .running) ∨
        (callOutcome code self w = some .ends ∧ t.sched.rq.Holds L₁ ∧
          ((t.sched.world.sched self).state = .exited ∨
            (t.sched.world.sched self).state = .waiting)) ∨
        ((callOutcome code self w = some .cut ∨ callOutcome code self w = some .ranOff) ∧
          rq.alloc 0 = true ∧ (∃ L₂, t.sched.rq.Holds L₂ ∧ queued L₂ = self ::ₘ queued L₁) ∧
          (t.sched.world.sched self).state = .runnable) ∨
        (callOutcome code self w = some .cut ∧ rq.alloc 0 = false ∧ t.sched.rq.Holds L₁ ∧
          (t.sched.world.sched self).state = .runnable) ∨
        (callOutcome code self w = some .ranOff ∧ rq.alloc 0 = false ∧ t.sched.rq.Holds L₁ ∧
          (t.sched.world.sched self).state = .running)) := by
  rcases RunQueue.take_holds hL dequeueOrder mem_dequeueOrder with
    ⟨_, ht⟩ | ⟨prio, x, R, hLx, rq', ht, hh', ha⟩
  · rw [RunQueue.next, ht] at hnext
    cases hnext
  rw [RunQueue.next, ht] at hnext
  cases hnext
  refine ⟨_, queued_take hLx, ?_⟩
  rw [beamSchedulerStep, beamRunQueueDequeue, ht] at hs
  change (beamEmuExecuteCode code x.2 (w.setState x.2 .running)).bind (requeue rq' x.2) = some t
    at hs
  obtain ⟨sl, hsl, hq⟩ := Option.bind_eq_some_iff.mp hs
  rw [← ha]
  rcases call_cases hsl with ⟨ho, hres, hst⟩ | ⟨ho, hst⟩ | ⟨ho, hst⟩ | ⟨ho, hres, hst⟩ <;>
    rcases requeue_cases hh' hq with ⟨hm, hh, hts⟩ | ⟨hm, hg, hh, hts⟩ | ⟨hm, hg, hh, hts⟩
  · exact Or.inl ⟨ho, hh, hts.trans hst⟩
  · simp [mustRequeue, hst, hres] at hm
  · simp [mustRequeue, hst, hres] at hm
  · exact Or.inr (Or.inl ⟨ho, hh, by rw [hts]; exact hst⟩)
  · rcases hst with hst | hst <;> simp [mustRequeue, hst] at hm
  · rcases hst with hst | hst <;> simp [mustRequeue, hst] at hm
  · simp [mustRequeue, hst] at hm
  · exact Or.inr (Or.inr (Or.inl ⟨Or.inl ho, hg, hh, hts⟩))
  · exact Or.inr (Or.inr (Or.inr (Or.inl ⟨ho, hg, hh, hts.trans hst⟩)))
  · simp [mustRequeue, hst, hres] at hm
  · exact Or.inr (Or.inr (Or.inl ⟨Or.inr ho, hg, hh, hts⟩))
  · exact Or.inr (Or.inr (Or.inr (Or.inr ⟨ho, hg, hh, hts.trans hst⟩)))

/-! ### Every process is accounted for -/

/-- **A step accounts for its process exactly when** the run ends or suspends it, or is cut short
and there is memory to put it back (or the queue holds it a second time), or runs off the code and
there is memory to put it back.  A run that fails leaves it running and off the queue. -/
theorem accounted_iff {t : Turn} (hL : rq.Holds L) (hnext : rq.next = some self)
    (hs : beamSchedulerStep code ⟨rq, w⟩ = some t) :
    Accounted t.sched self ↔
      callOutcome code self w = some .ends ∨
      (callOutcome code self w = some .cut ∧
        (rq.alloc 0 = true ∨ 1 < (queued L).count self)) ∨
      (callOutcome code self w = some .ranOff ∧ rq.alloc 0 = true) := by
  obtain ⟨L₁, hq, h⟩ := turn_cases hL hnext hs
  have hmem : self ∈ queued L₁ ↔ 1 < (queued L).count self := by
    rw [hq, Multiset.count_cons_self, ← Multiset.count_pos]
    omega
  rcases h with ⟨ho, hh, hst⟩ | ⟨ho, hh, hst⟩ | ⟨ho, hg, ⟨L₂, hh, hq₂⟩, hst⟩ | ⟨ho, hg, hh, hst⟩ |
    ⟨ho, hg, hh, hst⟩
  · -- an error
    rw [ho]
    constructor
    · rintro (⟨_, _, _, hr⟩ | hr | hr) <;> rw [hst] at hr <;> cases hr
    · rintro (hc | ⟨hc, _⟩ | ⟨hc, _⟩) <;> cases hc
  · refine ⟨fun _ => Or.inl ho, fun _ => Or.inr ?_⟩
    exact hst.symm
  · -- put back
    have hin : self ∈ queued L₂ := by
      rw [hq₂]
      exact Multiset.mem_cons_self _ _
    refine ⟨fun _ => Or.inr ?_, fun _ => Or.inl ⟨L₂, hh, hin, hst⟩⟩
    rcases ho with ho | ho
    · exact Or.inl ⟨ho, Or.inl hg⟩
    · exact Or.inr ⟨ho, hg⟩
  · -- cut short, and no memory
    rw [ho, hg]
    constructor
    · rintro (⟨L', hh', hin, _⟩ | hr | hr)
      · rw [hh'.unique hh, hmem] at hin
        exact Or.inr (Or.inl ⟨rfl, Or.inr hin⟩)
      · rw [hst] at hr
        cases hr
      · rw [hst] at hr
        cases hr
    · rintro (hc | ⟨_, hc | hc⟩ | ⟨hc, _⟩)
      · cases hc
      · cases hc
      · exact Or.inl ⟨L₁, hh, hmem.mpr hc, hst⟩
      · cases hc
  · -- at the end of the code, and no memory
    rw [ho, hg]
    constructor
    · rintro (⟨_, _, _, hr⟩ | hr | hr) <;> rw [hst] at hr <;> cases hr
    · rintro (hc | ⟨hc, _⟩ | ⟨_, hc⟩) <;> cases hc

/-! ### Only a cut puts a process back -/

/-- **A step puts back what was cut short and nothing else exactly when** there is memory for a
process that was cut short, and none for one that has run off its code. -/
theorem putBack_iff_cut_iff {t : Turn} (hL : rq.Holds L) (hnext : rq.next = some self)
    (hs : beamSchedulerStep code ⟨rq, w⟩ = some t) :
    (PutBack rq t.sched.rq self ↔ callOutcome code self w = some .cut) ↔
      (callOutcome code self w = some .cut → rq.alloc 0 = true) ∧
      (callOutcome code self w = some .ranOff → rq.alloc 0 = false) := by
  obtain ⟨L₁, hq, h⟩ := turn_cases hL hnext hs
  have hout : t.sched.rq.Holds L₁ → ¬ PutBack rq t.sched.rq self := by
    rintro hh ⟨K, K', hK, hK', hc⟩
    rw [hK.unique hL, hK'.unique hh, hq, Multiset.count_cons_self] at hc
    omega
  rcases h with ⟨ho, hh, _⟩ | ⟨ho, hh, _⟩ | ⟨ho, hg, ⟨L₂, hh, hq₂⟩, _⟩ | ⟨ho, hg, hh, _⟩ |
    ⟨ho, hg, hh, _⟩
  · simp [ho, hout hh]
  · simp [ho, hout hh]
  · have hin : PutBack rq t.sched.rq self := ⟨L, L₂, hL, hh, by rw [hq₂, hq]⟩
    rcases ho with ho | ho <;> simp [ho, hg, hin]
  · simp [ho, hg, hout hh]
  · simp [ho, hg, hout hh]

/-! ### Short programs -/

/-- A division by zero. -/
def divCode : List Instruction := [{ opcode := .intDiv, arg1 := 0#32, arg2 := 1#32, arg3 := 2#32 }]

/-- A program that ends without an instruction to end it. -/
def labelCode : List Instruction := [{ opcode := .label }]

/-- A scheduler with one new process. -/
def schedOfOne (reductions : Int) : Sched := ⟨queueOfOne, ⟨freshMachine, budget reductions⟩⟩

theorem next_queueOfOne : queueOfOne.next = some 0 := rfl

theorem accounted_labelCode :
    ∃ t, beamSchedulerStep labelCode (schedOfOne 1) = some t ∧ Accounted t.sched 0 := by
  obtain ⟨t, hs, _⟩ := Option.map_eq_some_iff.mp
    (show (beamSchedulerStep labelCode (schedOfOne 1)).map Turn.res = some .ok by decide)
  exact ⟨t, hs, (accounted_iff holds_queueOfOne next_queueOfOne hs).mpr
    (Or.inr (Or.inl ⟨rfl, Or.inl rfl⟩))⟩

/-- **A process is lost**: after the error it is off the queue, and still running. -/
theorem divCode_lost :
    ∃ t, beamSchedulerStep divCode (schedOfOne 10) = some t ∧ t.res = .errBadarg ∧
      t.sched.rq.totalCount = 0 ∧ (t.sched.world.sched 0).state = .running ∧
      ¬ Accounted t.sched 0 := by
  obtain ⟨t, hs, hv⟩ := Option.map_eq_some_iff.mp
    (show (beamSchedulerStep divCode (schedOfOne 10)).map
      (fun t => (t.res, t.sched.rq.totalCount, (t.sched.world.sched 0).state)) =
        some (.errBadarg, 0, .running) by decide)
  simp only [Prod.mk.injEq] at hv
  refine ⟨t, hs, hv.1, hv.2.1, hv.2.2, ?_⟩
  rintro (⟨_, _, _, hr⟩ | hr | hr) <;> rw [hv.2.2] at hr <;> cases hr

theorem putBack_iff_cut_labelCode :
    ∃ t, beamSchedulerStep labelCode (schedOfOne 1) = some t ∧
      (PutBack queueOfOne t.sched.rq 0 ↔
        callOutcome labelCode 0 (schedOfOne 1).world = some .cut) := by
  obtain ⟨t, hs, _⟩ := Option.map_eq_some_iff.mp
    (show (beamSchedulerStep labelCode (schedOfOne 1)).map Turn.res = some .ok by decide)
  refine ⟨t, hs, (putBack_iff_cut_iff holds_queueOfOne next_queueOfOne hs).mpr ?_⟩
  exact ⟨fun _ => rfl, fun h => by cases h⟩

/-- **A finished process is put back**: it has run off its code with reductions to spare. -/
theorem labelCode_again :
    ∃ t, beamSchedulerStep labelCode (schedOfOne 10) = some t ∧
      callOutcome labelCode 0 (schedOfOne 10).world = some .ranOff ∧
      ((t.sched.world.procs 0).frame.ip = labelCode.length) ∧
      PutBack queueOfOne t.sched.rq 0 ∧
      ¬ (PutBack queueOfOne t.sched.rq 0 ↔
        callOutcome labelCode 0 (schedOfOne 10).world = some .cut) := by
  obtain ⟨t, hs, hv⟩ := Option.map_eq_some_iff.mp
    (show (beamSchedulerStep labelCode (schedOfOne 10)).map
      (fun t => (t.sched.world.procs 0).frame.ip) = some 1 by decide)
  have hoff : callOutcome labelCode 0 (schedOfOne 10).world = some .ranOff := rfl
  have hback : PutBack queueOfOne t.sched.rq 0 := by
    obtain ⟨L₁, hq, h⟩ :=
      turn_cases (w := (schedOfOne 10).world) holds_queueOfOne next_queueOfOne hs
    rw [hoff] at h
    rcases h with ⟨ho, _⟩ | ⟨ho, _⟩ | ⟨_, _, ⟨L₂, hh, hq₂⟩, _⟩ | ⟨ho, _⟩ | ⟨_, hg, _⟩
    · cases ho
    · cases ho
    · exact ⟨_, L₂, holds_queueOfOne, hh, by rw [hq₂, hq]⟩
    · cases ho
    · cases hg
  refine ⟨t, hs, hoff, hv, hback, fun h => ?_⟩
  have hcut := h.mp hback
  rw [hoff] at hcut
  cases hcut

end BeamModular
