import BeamModular.Lib.Run
import BeamModular.Emulator.Suspend
import BeamModular.Scheduler.Loop

/-!
# Waking a waiting process

`WAIT` saves its own `ip`.  A process that is put back on the run queue after a message
has come therefore begins with `WAIT` again, and goes back to waiting before any
`LOOP_REC` can look at the message.

A run here is any sequence of messages sent to the process, insertions into the run
queue and steps of the scheduler.  `Asleep` is its invariant: the saved `ip` is that of a
`WAIT`, and nothing but that `WAIT` has been executed.  `never_resumes` is the
consequence: no such run looks at a message.
-/

namespace BeamModular

/-- The run queue holds no other process. -/
def OnlySelf (rq : RunQueue) (self : ProcId) : Prop :=
  ∃ L, rq.Holds L ∧ ∀ prio, ∀ x ∈ L prio, x.2 = self

/-- A scheduler with what its processes have done since the start of the run. -/
structure Woken where
  sched : Sched
  trace : List Nat
  events : List Event

/-- What can happen around a waiting process. -/
inductive WakeOp
  | send (msg : Eterm)
  | enqueue (prio : Priority)
  | step

/-- One of these things. -/
def wakeStep (code : List Instruction) (self : ProcId) (s : Woken) : WakeOp → Option Woken
  | .send msg => (beamMessageSendToProcess s.sched.world.toMachine self msg).map fun r =>
      { s with sched := ⟨s.sched.rq, ⟨r.1, s.sched.world.sched⟩⟩ }
  | .enqueue prio => (beamRunQueueEnqueue s.sched.rq s.sched.world self prio).map fun r =>
      { s with sched := ⟨r.1, r.2.1⟩ }
  | .step => (beamSchedulerStep code s.sched).map fun t =>
      ⟨t.sched, s.trace ++ t.trace, s.events ++ t.events⟩

/-- **The process resumes**: after the message is sent and the process put back, some run looks at
the message. -/
def Resumes (code : List Instruction) (self : ProcId) (s : Sched) (msg : Eterm) (prio : Priority) :
    Prop :=
  ∃ more s', run (wakeStep code self) ⟨s, [], []⟩ (.send msg :: .enqueue prio :: more) = some s' ∧
    .examined msg ∈ s'.events

/-! ### Where a process waits -/

variable {code : List Instruction} {self : ProcId}

theorem exec_waiting {instr : Instruction} {s : Machine} {ip : Nat}
    {r : Machine × Option Event × Next} {res : Result} {out : Option Eterm}
    (h : s.exec code self instr ip = some r) (hn : r.2.2 = .ret res (some .waiting) out) :
    instr.opcode = .wait ∧ (r.1.procs self).frame.ip = ip := by
  obtain ⟨e, he, h2⟩ := Option.bind_eq_some_iff.mp h
  obtain ⟨s', hp, rfl⟩ := Option.map_eq_some_iff.mp h2
  by_cases hw : instr.opcode = .wait
  · refine ⟨hw, ?_⟩
    rw [execInstr, hw] at he
    cases he
    rw [perform_frame hp self]
    simp [execWait, Process.setIp]
  · rcases (execInstr_keeps he hw).stops _ _ _ hn with ⟨hs, _⟩ | hs <;> cases hs

theorem runFor_waiting {n : Nat} : ∀ {s : Machine} {ip : Nat} {pr : Progress} {res : Result}
    {out : Option Eterm}, s.runFor code self n ip = some pr →
      pr.status = .returned res (some .waiting) out →
      ∃ instr, code[(pr.machine.procs self).frame.ip]? = some instr ∧ instr.opcode = .wait := by
  induction n with
  | zero => intro s ip pr res out h hst; cases h; cases hst
  | succ n ih =>
    intro s ip pr res out h hst
    rcases Machine.runFor_succ_cases h with ⟨_, rfl⟩ | ⟨_, _, _, q, _, _, _, hq, rfl⟩ |
      ⟨instr, r, _, _, _, hc, hx, hn, rfl⟩
    · cases hst
    · have hwait := ih hq hst
      exact hwait
    · cases hst
      obtain ⟨hop, hip⟩ := exec_waiting hx hn
      exact ⟨instr, by rw [hip]; exact hc, hop⟩

/-- **A process that the interpreter leaves waiting** stands before a `WAIT`. -/
theorem waits_at_wait {w : World} {sl : Slice} (h : beamEmuExecuteCode code self w = some sl)
    (hbefore : (w.sched self).state ≠ .waiting) (hafter : (sl.world.sched self).state = .waiting) :
    ∃ instr, code[(sl.world.procs self).frame.ip]? = some instr ∧ instr.opcode = .wait := by
  have hcode : code ≠ [] := by
    rintro rfl
    cases h
    exact hbefore hafter
  rw [show w = ⟨w.toMachine, w.sched⟩ from rfl, beamEmuExecuteCode_eq hcode] at h
  obtain ⟨pr, hpr, rfl⟩ := Option.map_eq_some_iff.mp h
  cases hst : pr.status with
  | running ip =>
    by_cases hlt : ip < code.length
    · rw [(slice_cut self w.sched hst hlt).2.1] at hafter; cases hafter
    · rw [(slice_end self w.sched hst hlt).2.1] at hafter; exact absurd hafter hbefore
  | returned res state out =>
    obtain ⟨_, hs, hm⟩ := slice_returned code self w.sched hst
    rw [hs] at hafter
    cases state with
    | none => exact absurd hafter hbefore
    | some st =>
      cases hafter
      rw [hm]
      exact runFor_waiting hpr hst

/-! ### Asleep -/

/-- The process stands before the `WAIT` at `ip`, and nothing else has been executed. -/
structure Asleep (code : List Instruction) (proc : ProcId) (ip : Nat) (s : Woken) : Prop where
  only : OnlySelf s.sched.rq proc
  wait : ∃ instr, code[ip]? = some instr ∧ instr.opcode = .wait
  saved : (s.sched.world.procs proc).frame.ip = ip
  trace : ∀ i ∈ s.trace, i = ip
  quiet : s.events = []

theorem onlySelf_insert {rq rq' : RunQueue} {prio : Priority} {res : Result}
    (h : OnlySelf rq self) (hi : rq.insert self prio = some (rq', res)) : OnlySelf rq' self := by
  obtain ⟨L, hh, hall⟩ := h
  rcases RunQueue.insert_cases hh hi with ⟨_, _, hh'⟩ | ⟨_, _, hh'⟩
  · exact ⟨L, hh', hall⟩
  · refine ⟨_, hh', fun p x hx => ?_⟩
    rw [Function.update_apply] at hx
    split at hx
    · rcases List.mem_append.mp hx with hx | hx
      · exact hall prio x hx
      · rw [List.mem_singleton.mp hx]
    · exact hall p x hx

theorem onlySelf_requeue {rq : RunQueue} {sl : Slice} {t : Turn} (h : OnlySelf rq self)
    (hr : requeue rq self sl = some t) :
    OnlySelf t.sched.rq self ∧ t.sched.world.toMachine = sl.world.toMachine ∧
      t.trace = sl.trace ∧ t.events = sl.events := by
  unfold requeue at hr
  split at hr
  · obtain ⟨r, hq, rfl⟩ := Option.map_eq_some_iff.mp hr
    obtain ⟨r', hi, rfl⟩ := Option.map_eq_some_iff.mp hq
    refine ⟨onlySelf_insert h hi, ?_, rfl, rfl⟩
    dsimp only
    split <;> rfl
  · cases hr
    exact ⟨h, rfl, rfl, rfl⟩

theorem execute_asleep {ip : Nat} {w : World} {sl : Slice}
    (hwait : ∃ instr, code[ip]? = some instr ∧ instr.opcode = .wait)
    (hip : (w.procs self).frame.ip = ip) (h : beamEmuExecuteCode code self w = some sl) :
    (sl.world.procs self).frame.ip = ip ∧ (∀ i ∈ sl.trace, i = ip) ∧ sl.events = [] := by
  obtain ⟨instr, hc, hop⟩ := hwait
  have hcode : code ≠ [] := by rintro rfl; cases hc
  have hlt : ip < code.length := (List.getElem?_eq_some_iff.mp hc).1
  rw [show w = ⟨w.toMachine, w.sched⟩ from rfl, beamEmuExecuteCode_eq hcode, hip] at h
  obtain ⟨pr, hpr, rfl⟩ := Option.map_eq_some_iff.mp h
  have hsaved : ((w.toMachine.start code self).procs self).frame.ip = ip := by
    rw [start_ip, hip]
  rw [slice_trace, slice_events]
  cases hn : ((w.sched self).reductions - 1).toNat with
  | zero =>
    rw [hn] at hpr
    cases hpr
    have hst : Status.running ip = Status.running ip := rfl
    rw [(slice_cut self w.sched hst hlt).2.2]
    exact ⟨hsaved, fun i hi => absurd hi (by simp), rfl⟩
  | succ n =>
    have hx := exec_wait code self (w.toMachine.start code self) ip hop
    rw [hn, Machine.runFor_ret hc hx rfl] at hpr
    cases hpr
    refine ⟨?_, fun i hi => by simpa using hi, rfl⟩
    rw [(slice_returned code self w.sched rfl).2.2]
    simp [Process.setIp]

/-- **Nothing wakes it.** -/
theorem asleep_step {ip : Nat} {s s' : Woken} {op : WakeOp} (h : Asleep code self ip s)
    (hs : wakeStep code self s op = some s') : Asleep code self ip s' := by
  cases op with
  | send msg =>
    obtain ⟨r, hr, rfl⟩ := Option.map_eq_some_iff.mp hs
    obtain ⟨r', _, rfl⟩ := Option.map_eq_some_iff.mp hr
    refine ⟨h.only, h.wait, ?_, h.trace, h.quiet⟩
    dsimp only
    rw [Function.update_self]
    exact h.saved
  | enqueue prio =>
    obtain ⟨r, hr, rfl⟩ := Option.map_eq_some_iff.mp hs
    obtain ⟨r', hi, rfl⟩ := Option.map_eq_some_iff.mp hr
    refine ⟨onlySelf_insert h.only hi, h.wait, ?_, h.trace, h.quiet⟩
    dsimp only
    split <;> exact h.saved
  | step =>
    obtain ⟨t, ht, rfl⟩ := Option.map_eq_some_iff.mp hs
    obtain ⟨L, hh, hall⟩ := h.only
    rw [beamSchedulerStep, beamRunQueueDequeue] at ht
    rcases RunQueue.take_holds hh dequeueOrder mem_dequeueOrder with
      ⟨_, htake⟩ | ⟨prio, x, R, hL, rq', htake, hh', _⟩
    · rw [htake] at ht
      cases ht
      exact ⟨h.only, h.wait, h.saved, by simpa using h.trace, by simpa using h.quiet⟩
    · rw [htake, hall prio x (by rw [hL]; simp)] at ht
      simp only [Option.map_some, Option.bind_some] at ht
      obtain ⟨sl, hsl, hreq⟩ := Option.bind_eq_some_iff.mp ht
      obtain ⟨hip, htr, hev⟩ := execute_asleep h.wait
        (w := s.sched.world.setState self .running) h.saved hsl
      have honly : OnlySelf rq' self := by
        refine ⟨_, hh', fun p y hy => ?_⟩
        rw [Function.update_apply] at hy
        split at hy
        · exact hall prio y (by rw [hL]; simp [hy])
        · exact hall p y hy
      obtain ⟨honly', hm, htr', hev'⟩ := onlySelf_requeue honly hreq
      refine ⟨honly', h.wait, by rw [hm]; exact hip, fun i hi => ?_, ?_⟩
      · rcases List.mem_append.mp hi with hi | hi
        · exact h.trace i hi
        · exact htr i (htr' ▸ hi)
      · dsimp only
        rw [h.quiet, hev', hev]
        rfl

theorem asleep_of_run {w : World} {sl : Slice} {rq : RunQueue}
    (h : beamEmuExecuteCode code self w = some sl)
    (hbefore : (w.sched self).state ≠ .waiting) (hafter : (sl.world.sched self).state = .waiting)
    (honly : OnlySelf rq self) {ops : List WakeOp} {s' : Woken}
    (hr : run (wakeStep code self) ⟨⟨rq, sl.world⟩, [], []⟩ ops = some s') :
    Asleep code self (sl.world.procs self).frame.ip s' := by
  have hinit : Asleep code self (sl.world.procs self).frame.ip ⟨⟨rq, sl.world⟩, [], []⟩ :=
    ⟨honly, waits_at_wait h hbefore hafter, rfl, fun i hi => absurd hi (by simp), rfl⟩
  exact run_invariant _ (fun _ _ _ hi hs => asleep_step hi hs) hinit hr

/-- **A waiting process is never resumed.**  Take any process the interpreter has left waiting.
Whatever is sent to it and however often it is put back and stepped, only the `WAIT` it stands
before is executed and no message is ever looked at. -/
theorem never_resumes {w : World} {sl : Slice} {rq : RunQueue}
    (h : beamEmuExecuteCode code self w = some sl)
    (hbefore : (w.sched self).state ≠ .waiting) (hafter : (sl.world.sched self).state = .waiting)
    (honly : OnlySelf rq self) (msg : Eterm) (prio : Priority) :
    ¬ Resumes code self ⟨rq, sl.world⟩ msg prio ∧
      ∀ ops s', run (wakeStep code self) ⟨⟨rq, sl.world⟩, [], []⟩ ops = some s' →
        s'.events = [] ∧ ∀ i ∈ s'.trace, ∃ instr, code[i]? = some instr ∧ instr.opcode = .wait := by
  refine ⟨?_, fun ops s' hr => ?_⟩
  · rintro ⟨more, s', hr, hmem⟩
    rw [(asleep_of_run h hbefore hafter honly hr).quiet] at hmem
    cases hmem
  · have hasleep := asleep_of_run h hbefore hafter honly hr
    refine ⟨hasleep.quiet, fun i hi => ?_⟩
    rw [hasleep.trace i hi]
    exact hasleep.wait

/-! ### A receive of a list -/

/-- A new process, taken from the run queue. -/
def runningWorld : World := ⟨freshMachine, fun _ => { SchedInfo.create with state := .running }⟩

theorem onlySelf_create (alloc : Nat → Bool) (self : ProcId) :
    OnlySelf (RunQueue.create alloc) self :=
  ⟨fun _ => [], RunQueue.holds_create alloc, fun _ x hx => absurd hx (by simp)⟩

/-- The receive of a list suspends on an empty mailbox and does not come back for a message. -/
theorem never_resumes_receiveList :
    ∃ sl, beamEmuExecuteCode receiveList.code 0 runningWorld = some sl ∧
      (sl.world.sched 0).state = .waiting ∧
      ¬ Resumes receiveList.code 0 ⟨RunQueue.create fun _ => true, sl.world⟩ 7#64 .normal := by
  obtain ⟨sl, hsl, hstate⟩ := Option.map_eq_some_iff.mp
    (show (beamEmuExecuteCode receiveList.code 0 runningWorld).map
      (fun sl => (sl.world.sched 0).state) = some .waiting from rfl)
  exact ⟨sl, hsl, hstate,
    (never_resumes hsl (by decide) hstate (onlySelf_create _ 0) 7#64 .normal).1⟩

/-- **A message comes, the process is put back and stepped, and goes straight back to waiting**:
the one instruction it executes is the `WAIT` at 8, and the message is still there. -/
theorem wait_again :
    ∃ sl, beamEmuExecuteCode receiveList.code 0 runningWorld = some sl ∧
      (sl.world.sched 0).state = .waiting ∧
      (run (wakeStep receiveList.code 0) ⟨⟨RunQueue.create fun _ => true, sl.world⟩, [], []⟩
          [.send 7#64, .enqueue .normal, .step]).map
        (fun s => ((s.sched.world.sched 0).state, s.trace, s.events,
          (s.sched.world.procs 0).mailbox.messages))
        = some (.waiting, [8], [], [(0, 7#64)]) ∧
      ¬ Resumes receiveList.code 0 ⟨RunQueue.create fun _ => true, sl.world⟩ 7#64 .normal := by
  obtain ⟨sl, hsl, hv⟩ := Option.map_eq_some_iff.mp
    (show (beamEmuExecuteCode receiveList.code 0 runningWorld).map
      (fun sl => ((sl.world.sched 0).state,
        (run (wakeStep receiveList.code 0) ⟨⟨RunQueue.create fun _ => true, sl.world⟩, [], []⟩
            [.send 7#64, .enqueue .normal, .step]).map
          (fun s => ((s.sched.world.sched 0).state, s.trace, s.events,
            (s.sched.world.procs 0).mailbox.messages))))
      = some (.waiting, some (.waiting, [8], [], [(0, 7#64)])) from rfl)
  simp only [Prod.mk.injEq] at hv
  refine ⟨sl, hsl, hv.1, hv.2, ?_⟩
  rintro ⟨more, s', hr, hmem⟩
  rw [(asleep_of_run hsl (by decide) hv.1 (onlySelf_create _ 0) hr).quiet] at hmem
  cases hmem

end BeamModular
