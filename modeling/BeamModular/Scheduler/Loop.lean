import BeamModular.Scheduler.RunQueue
import BeamModular.Emulator.Budget

/-!
# The scheduler loop

`beam_scheduler_step` of `src/scheduler/beam_scheduler_loop.c`: take a process, run
it, and put it back when it was cut short.  `runToHalt` is its caller: step after
step until one of them reports that the process has halted.

A run queue that holds one process (`Alone`) turns a step into one call of the
interpreter (`step_alone`); an empty one has nothing to run and stays empty
(`step_idle`).  What is left after the call is in the three lemmas about `requeue`.
-/

namespace BeamModular

/-- A scheduler: its run queue, and the world its processes live in. -/
structure Sched where
  rq : RunQueue
  world : World

/-- One step of the scheduler, with what the process did in it. -/
structure Turn where
  sched : Sched
  res : Result
  trace : List Nat
  events : List Event

/-- The process has not come to an end of its own: it is put back. -/
def mustRequeue (res : Result) (state : ProcState) : Bool :=
  state = .runnable || (res = .ok && state = .running)

/-- What follows the interpreter's return, with new reductions and at normal priority. -/
def requeue (rq : RunQueue) (proc : ProcId) (sl : Slice) : Option Turn :=
  if mustRequeue sl.res (sl.world.sched proc).state then
    (beamRunQueueEnqueue rq (sl.world.setReductions proc defaultReductions) proc .normal).map
      fun r => ⟨⟨r.1, r.2.1⟩, sl.res, sl.trace, sl.events⟩
  else some ⟨⟨rq, sl.world⟩, sl.res, sl.trace, sl.events⟩

/-- `beam_scheduler_step`. -/
def beamSchedulerStep (code : List Instruction) (s : Sched) : Option Turn :=
  (beamRunQueueDequeue s.rq s.world).bind fun r =>
    match r.2.2 with
    | none => some ⟨⟨r.1, r.2.1⟩, .errNotFound, [], []⟩
    | some proc => (beamEmuExecuteCode code proc r.2.1).bind (requeue r.1 proc)

/-- What came before goes in front. -/
def Turn.after (first t : Turn) : Turn :=
  { t with trace := first.trace ++ t.trace, events := first.events ++ t.events }

/-- Up to `n` steps, until one of them returns `BEAM_ERR_HALT`. -/
def runToHalt (code : List Instruction) : Nat → Sched → Option Turn
  | 0, _ => none
  | n + 1, s =>
    (beamSchedulerStep code s).bind fun t =>
      if t.res = .errHalt then some t else (runToHalt code n t.sched).map t.after

/-! ### One process in the queue -/

/-- The queue is empty. -/
def Idle (rq : RunQueue) : Prop := rq.Holds fun _ => []

/-- The queue holds the process and nothing else. -/
def Alone (rq : RunQueue) (self : ProcId) : Prop :=
  ∃ prio node, rq.Holds (Function.update (fun _ => []) prio [(node, self)])

variable {code : List Instruction} {self : ProcId} {rq : RunQueue} {w : World}

theorem idle_of_update {rq : RunQueue} {prio : Priority} {L : Priority → List (Nat × ProcId)}
    (h : rq.Holds (Function.update L prio [])) (hL : ∀ p, p ≠ prio → L p = []) : Idle rq := by
  have he : Function.update L prio [] = fun _ => [] := by
    funext p
    rw [Function.update_apply]
    split
    · rfl
    · exact hL p ‹_›
  rw [he] at h
  exact h

/-- With one process in the queue, a step is one call of the interpreter. -/
theorem step_alone (code : List Instruction) (w : World) (h : Alone rq self) :
    ∃ rq', Idle rq' ∧ rq'.alloc = rq.alloc ∧
      beamSchedulerStep code ⟨rq, w⟩
        = (beamEmuExecuteCode code self (w.setState self .running)).bind (requeue rq' self) := by
  obtain ⟨prio, node, hh⟩ := h
  have hother : ∀ p, p ≠ prio →
      Function.update (fun _ => []) prio [(node, self)] p = ([] : List (Nat × ProcId)) :=
    fun p hp => by rw [Function.update_of_ne hp]
  rcases RunQueue.take_holds hh dequeueOrder mem_dequeueOrder with
    ⟨hnil, _⟩ | ⟨prio', x, R, hL, rq', ht, hh', ha⟩
  · have := hnil prio
    rw [Function.update_self] at this
    cases this
  · have hp : prio' = prio := by
      by_contra hne
      rw [hother prio' hne] at hL
      cases hL
    subst hp
    rw [Function.update_self] at hL
    cases hL
    refine ⟨rq', idle_of_update hh' hother, ha, ?_⟩
    rw [beamSchedulerStep, beamRunQueueDequeue, ht]
    rfl

theorem step_idle (h : Idle rq) :
    beamSchedulerStep code ⟨rq, w⟩ = some ⟨⟨rq, w⟩, .errNotFound, [], []⟩ := by
  rcases RunQueue.take_holds h dequeueOrder mem_dequeueOrder with
    ⟨_, ht⟩ | ⟨_, _, _, hL, _⟩
  · rw [beamSchedulerStep, beamRunQueueDequeue, ht]
    rfl
  · cases hL

theorem runToHalt_idle (h : Idle rq) : ∀ n, runToHalt code n ⟨rq, w⟩ = none := by
  intro n
  induction n with
  | zero => rfl
  | succ n ih =>
    rw [runToHalt, step_idle h]
    simp [ih]

section Requeue

variable {sl : Slice}

theorem requeue_not (h : mustRequeue sl.res (sl.world.sched self).state = false) :
    requeue rq self sl = some ⟨⟨rq, sl.world⟩, sl.res, sl.trace, sl.events⟩ := by
  rw [requeue, h]
  rfl

/-- A process that is put back is alone in the queue, with new reductions. -/
theorem requeue_granted (h : mustRequeue sl.res (sl.world.sched self).state = true)
    (hidle : Idle rq) (hgrant : rq.alloc 0 = true) :
    ∃ rq' w', requeue rq self sl = some ⟨⟨rq', w'⟩, sl.res, sl.trace, sl.events⟩ ∧
      Alone rq' self ∧ (rq'.alloc = fun n => rq.alloc (n + 1)) ∧
      w'.toMachine = sl.world.toMachine ∧ (w'.sched self).reductions = defaultReductions := by
  obtain ⟨rq', hi, hh, ha⟩ := RunQueue.insert_holds hidle self .normal hgrant
  refine ⟨rq', (sl.world.setReductions self defaultReductions).setState self .runnable, ?_,
    ⟨.normal, rq.nodes.length, by simpa using hh⟩, ha, rfl, ?_⟩
  · rw [requeue, h, if_pos rfl, beamRunQueueEnqueue, hi]
    rfl
  · simp [World.setState, World.setReductions]

theorem requeue_refused (h : mustRequeue sl.res (sl.world.sched self).state = true)
    (hidle : Idle rq) (hrefuse : rq.alloc 0 = false) :
    ∃ rq' w', requeue rq self sl = some ⟨⟨rq', w'⟩, sl.res, sl.trace, sl.events⟩ ∧
      Idle rq' := by
  refine ⟨_, sl.world.setReductions self defaultReductions, ?_,
    (⟨hidle.chain, hidle.tail, hidle.apart, hidle.total⟩ :
      Idle { rq with alloc := fun n => rq.alloc (n + 1) })⟩
  rw [requeue, h, if_pos rfl, beamRunQueueEnqueue, RunQueue.insert_refused hrefuse]
  rfl

end Requeue

/-! ### A queue with one new process -/

/-- The scheduler's view of a new process, with a number of reductions. -/
def budget (reductions : Int) : ProcId → SchedInfo := fun _ =>
  { SchedInfo.create with reductions := reductions }

/-- A run queue that holds process 0, put there by `beam_run_queue_enqueue`. -/
def queueOfOne : RunQueue where
  nodes := [some ⟨0, none⟩]
  queues prio := if prio = .normal then ⟨some 0, some 0, 1⟩ else ⟨none, none, 0⟩
  totalCount := 1
  alloc _ := true

theorem queueOfOne_insert :
    (RunQueue.create fun _ => true).insert 0 .normal = some (queueOfOne, .ok) := by
  simp only [RunQueue.create, RunQueue.insert, RunQueue.linkNode, Nodes.alloc, queueOfOne]
  simp only [if_true, Option.map_some, List.nil_append, List.length_nil, Nat.zero_add]
  congr 3
  funext prio
  rw [Function.update_apply]

theorem holds_queueOfOne : queueOfOne.Holds (Function.update (fun _ => []) .normal [(0, 0)]) := by
  obtain ⟨rq', hi, hh, _⟩ :=
    RunQueue.insert_holds (RunQueue.holds_create fun _ => true) 0 .normal rfl
  rw [queueOfOne_insert] at hi
  cases hi
  simpa [RunQueue.create] using hh

theorem alone_queueOfOne : Alone queueOfOne 0 := ⟨.normal, 0, holds_queueOfOne⟩

end BeamModular
