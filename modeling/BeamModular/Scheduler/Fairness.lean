import BeamModular.Lib.Lines
import BeamModular.Lib.Run
import BeamModular.Scheduler.Accounting

/-!
# Who is served when

`beam_scheduler_step` serves the levels `MAX`, `HIGH`, `NORMAL`, `LOW` in this order and
puts a process back at `NORMAL`.  Read as a line of waiting processes, the first three
levels are one line with the end of `NORMAL` as its end, and the processes at `LOW` are a
second line, which is served while the first one is empty.  `Lined` says so, and
`step_lined` that a step of the scheduler is a turn of these two lines; the rest is
`Lib.Lines`.

Three consequences, for every run.  A process at `NORMAL` is served after those in front
of it and those who are let in before it at `MAX` or `HIGH`, and nobody else
(`served_in_turn`).  A round serves each process of the first line once, and leaves those
that are put back in the order they had (`round_lined`).  While every process is put back,
the first line goes round and nobody at `LOW` is ever served (`low_starves`).
-/

namespace BeamModular

/-! ### The two lines of a run queue -/

/-- The levels that are served in front of `LOW`, and `LOW`. -/
def linesOf (L : Priority → List (Nat × ProcId)) : Lines ProcId :=
  ⟨(L .max ++ L .high ++ L .normal).map Prod.snd, (L .low).map Prod.snd⟩

/-- The processes wait in these two lines. -/
def RunQueue.Lined (rq : RunQueue) (l : Lines ProcId) : Prop := ∃ L, rq.Holds L ∧ linesOf L = l

/-- The step will put the process that it takes back: its run is cut short or runs off the code,
and there is memory for the node. -/
def Sched.comesBack (code : List Instruction) (s : Sched) : Bool :=
  match s.rq.next with
  | none => false
  | some proc => s.rq.alloc 0 &&
      (callOutcome code proc s.world = some .cut || callOutcome code proc s.world = some .ranOff)

/-- One step of the scheduler as a step of a run; the host chooses the code. -/
def Sched.step (s : Sched) (code : List Instruction) : Option Sched :=
  (beamSchedulerStep code s).map Turn.sched

variable {code : List Instruction} {self : ProcId} {rq : RunQueue} {w : World} {sl : Slice}
  {s s' : Sched} {t : Turn} {l : Lines ProcId} {L : Priority → List (Nat × ProcId)}

/-! ### A step is a turn -/

theorem linesOf_take {prio : Priority} {x : Nat × ProcId} {R : List (Nat × ProcId)}
    (h : rq.Holds L) (hfirst : rq.firstLevel dequeueOrder = some prio) (hL : L prio = x :: R) :
    (linesOf L).head = some x.2 ∧
      linesOf (Function.update L prio R) = (linesOf L).turn false := by
  rw [RunQueue.firstLevel_eq h] at hfirst
  cases prio with
  | max => simp [linesOf, Lines.head, Lines.turn, hL]
  | high =>
    have hmax : L .max = [] := by grind [dequeueOrder]
    simp [linesOf, Lines.head, Lines.turn, hL, hmax]
  | normal =>
    have hfront : L .max = [] ∧ L .high = [] := by grind [dequeueOrder]
    simp [linesOf, Lines.head, Lines.turn, hL, hfront]
  | low =>
    have hfront : L .max = [] ∧ L .high = [] ∧ L .normal = [] := by grind [dequeueOrder]
    simp [linesOf, Lines.head, Lines.turn, hL, hfront]

theorem linesOf_requeue (L : Priority → List (Nat × ProcId)) (x : Nat × ProcId) :
    linesOf (Function.update L .normal (L .normal ++ [x])) =
      ⟨(linesOf L).first ++ [x.2], (linesOf L).second⟩ := by
  simp [linesOf]

theorem mustRequeue_iff (h : beamEmuExecuteCode code self (w.setState self .running) = some sl) :
    mustRequeue sl.res (sl.world.sched self).state = true ↔
      callOutcome code self w = some .cut ∨ callOutcome code self w = some .ranOff := by
  rcases call_cases h with ⟨ho, hres, hst⟩ | ⟨ho, hst⟩ | ⟨ho, hst⟩ | ⟨ho, hres, hst⟩
  · simp [ho, mustRequeue, hst, hres]
  · rcases hst with hst | hst <;> simp [ho, mustRequeue, hst]
  · simp [ho, mustRequeue, hst]
  · simp [ho, mustRequeue, hst, hres]

theorem requeue_holds (h : rq.Holds L) (hq : requeue rq self sl = some t) :
    t.sched.rq.Holds (if mustRequeue sl.res (sl.world.sched self).state && rq.alloc 0 then
      Function.update L .normal (L .normal ++ [(rq.nodes.length, self)]) else L) := by
  unfold requeue at hq
  split at hq
  · rename_i hm
    obtain ⟨_, henq, rfl⟩ := Option.map_eq_some_iff.mp hq
    obtain ⟨⟨rq', res⟩, hi, rfl⟩ := Option.map_eq_some_iff.mp henq
    rw [hm]
    rcases RunQueue.insert_cases h hi with ⟨hg, _, hh⟩ | ⟨hg, _, hh⟩ <;> rw [hg] <;> exact hh
  · rename_i hm
    cases hq
    simpa [hm] using h

/-- **A step of the scheduler**: nobody waits and nothing happens, or the first process of the
first level that has one is taken, run, and put back at the normal level or not. -/
theorem step_levels (h : s.rq.Holds L) (hs : s.step code = some s') :
    ((∀ prio, L prio = []) ∧ s.rq.next = none ∧ s'.rq.Holds L) ∨
    ∃ prio x R node, s.rq.firstLevel dequeueOrder = some prio ∧ L prio = x :: R ∧
      s.rq.next = some x.2 ∧
      s'.rq.Holds (if s.comesBack code then
        Function.update (Function.update L prio R) .normal
          (Function.update L prio R .normal ++ [(node, x.2)]) else Function.update L prio R) := by
  obtain ⟨t, ht, rfl⟩ := Option.map_eq_some_iff.mp hs
  rw [beamSchedulerStep, beamRunQueueDequeue] at ht
  rcases RunQueue.take_level h mem_dequeueOrder with
    ⟨hnil, htake⟩ | ⟨prio, x, R, hfirst, hL, rq', htake, hh, halloc⟩
  · rw [htake] at ht
    cases ht
    exact Or.inl ⟨hnil, by rw [RunQueue.next, htake]; rfl, h⟩
  · have hnext : s.rq.next = some x.2 := by rw [RunQueue.next, htake]; rfl
    rw [htake] at ht
    change (beamEmuExecuteCode code x.2 (s.world.setState x.2 .running)).bind (requeue rq' x.2) =
      some t at ht
    obtain ⟨sl, hsl, hq⟩ := Option.bind_eq_some_iff.mp ht
    have hback : (mustRequeue sl.res (sl.world.sched x.2).state && rq'.alloc 0) =
        s.comesBack code := by
      rw [Sched.comesBack, hnext, halloc, Bool.and_comm]
      exact congrArg _ (Bool.eq_iff_iff.mpr ((mustRequeue_iff hsl).trans (by simp)))
    exact Or.inr ⟨prio, x, R, rq'.nodes.length, hfirst, hL, hnext, hback ▸ requeue_holds hh hq⟩

theorem next_of_lined (h : s.rq.Lined l) : s.rq.next = l.head := by
  obtain ⟨L, hh, rfl⟩ := h
  rcases RunQueue.take_level hh mem_dequeueOrder with
    ⟨hnil, htake⟩ | ⟨prio, x, R, hfirst, hL, rq', htake, _⟩
  · rw [RunQueue.next, htake]
    simp [linesOf, Lines.head, hnil]
  · rw [RunQueue.next, htake]
    exact (linesOf_take hh hfirst hL).1.symm

/-- **A step is a turn of the two lines.** -/
theorem step_lined (h : s.rq.Lined l) (hs : s.step code = some s') :
    s'.rq.Lined (l.turn (s.comesBack code)) := by
  obtain ⟨L, hh, rfl⟩ := h
  rcases step_levels hh hs with ⟨hnil, hnext, hh'⟩ | ⟨prio, x, R, node, hfirst, hL, _, hh'⟩
  · refine ⟨L, hh', ?_⟩
    simp [linesOf, Lines.turn, hnil]
  · obtain ⟨hhead, hturn⟩ := linesOf_take hh hfirst hL
    cases hb : s.comesBack code with
    | false =>
      rw [hb] at hh'
      exact ⟨_, hh', hturn⟩
    | true =>
      rw [hb] at hh'
      refine ⟨_, hh', ?_⟩
      rw [if_pos rfl, linesOf_requeue, hturn]
      exact Lines.turn_true hhead

/-! ### Three processes -/

/-- Processes 0 and 1 at `NORMAL`, process 2 at `LOW`. -/
def queueOfThree : RunQueue where
  nodes := [some ⟨0, some 1⟩, some ⟨1, none⟩, some ⟨2, none⟩]
  queues
    | .normal => ⟨some 0, some 1, 2⟩
    | .low => ⟨some 2, some 2, 1⟩
    | _ => ⟨none, none, 0⟩
  totalCount := 3
  alloc _ := true

def chainsOfThree : Priority → List (Nat × ProcId)
  | .normal => [(0, 0), (1, 1)]
  | .low => [(2, 2)]
  | _ => []

theorem holds_queueOfThree : queueOfThree.Holds chainsOfThree where
  chain prio := by
    cases prio with
    | normal => exact ⟨rfl, some 1, rfl, rfl, none, rfl, rfl⟩
    | low => exact ⟨rfl, none, rfl, rfl⟩
    | _ => rfl
  tail prio := by cases prio <;> rfl
  apart prio prio' := by cases prio <;> cases prio' <;> decide
  total := rfl

theorem lined_queueOfThree : queueOfThree.Lined ⟨[0, 1], [2]⟩ := ⟨_, holds_queueOfThree, rfl⟩

/-- A scheduler with the three, each of them new. -/
def schedOfThree (reductions : Int) : Sched := ⟨queueOfThree, ⟨freshMachine, budget reductions⟩⟩

/-! ### Rounds -/

/-- For each step of a run, whether it puts its process back. -/
def Sched.backs (s : Sched) : List (List Instruction) → List Bool
  | [] => []
  | code :: codes => s.comesBack code ::
      match s.step code with
      | none => []
      | some s' => s'.backs codes

theorem run_lined {codes : List (List Instruction)} (h : s.rq.Lined l)
    (hr : run Sched.step s codes = some s') :
    s'.rq.Lined (l.turns (s.backs codes)) ∧ (s.backs codes).length = codes.length := by
  induction codes generalizing s l with
  | nil => cases hr; exact ⟨h, rfl⟩
  | cons code codes ih =>
    obtain ⟨s₁, hs, hr'⟩ := run_cons_eq_some hr
    obtain ⟨hlined, hlen⟩ := ih (step_lined h hs) hr'
    rw [Sched.backs, hs]
    exact ⟨hlined, by rw [List.length_cons, hlen, List.length_cons]⟩

/-- **A round of the scheduler**: as many steps as the first line is long take each of its
processes once, in their order, and leave those that are put back in this order too. -/
theorem round_lined {first second : List ProcId} {codes : List (List Instruction)}
    (h : s.rq.Lined ⟨first, second⟩) (hlen : codes.length = first.length)
    (hr : run Sched.step s codes = some s') :
    s'.rq.Lined ⟨Lines.kept first (s.backs codes), second⟩ ∧
      ∀ i s₁, i < first.length → run Sched.step s (codes.take i) = some s₁ →
        s₁.rq.next = first[i]? := by
  constructor
  · obtain ⟨hlined, hbacks⟩ := run_lined h hr
    have hround := Lines.first_turns first [] second _ (hbacks.trans hlen)
    rw [List.append_nil, List.nil_append] at hround
    rwa [hround] at hlined
  · intro i s₁ hi hr₁
    obtain ⟨hlined, hbacks⟩ := run_lined h hr₁
    have hi' : (s.backs (codes.take i)).length = i := by
      rw [hbacks, List.length_take, Nat.min_eq_left (by omega)]
    rw [next_of_lined hlined, List.getElem?_eq_getElem hi]
    apply Lines.head_turns
    rw [hi', List.getElem?_eq_getElem hi]

/-- A round in which process 0 fails and process 1 is put back. -/
theorem round_schedOfThree :
    ∃ s', run Sched.step (schedOfThree 10) [divCode, labelCode] = some s' ∧
      s'.rq.Lined ⟨[1], [2]⟩ := by
  obtain ⟨s', hs, _⟩ := Option.map_eq_some_iff.mp
    (show (run Sched.step (schedOfThree 10) [divCode, labelCode]).map (fun s => s.rq.totalCount)
      = some 2 by decide)
  refine ⟨s', hs, ?_⟩
  exact (round_lined lined_queueOfThree rfl hs).1

/-- **Round robin, and starvation at `LOW`**: while every process is put back, the first line goes
round, and the second one stays as it is. -/
theorem low_starves {first second : List ProcId} {codes : List (List Instruction)}
    (h : s.rq.Lined ⟨first, second⟩) (hne : first ≠ [])
    (hback : Along Sched.step (fun s code => s.comesBack code = true) s codes)
    (hr : run Sched.step s codes = some s') :
    s'.rq.Lined ⟨first.rotate codes.length, second⟩ ∧
      s'.rq.next = first[codes.length % first.length]? := by
  have hall : s.backs codes = List.replicate codes.length true := by
    clear h
    induction codes generalizing s with
    | nil => rfl
    | cons code codes ih =>
      obtain ⟨s₁, hs, hr'⟩ := run_cons_eq_some hr
      rw [Sched.backs, hs, hback.1, List.length_cons, List.replicate_succ]
      exact congrArg _ (ih (hback.2 s₁ hs) hr')
  have hlined := (run_lined h hr).1
  rw [hall, Lines.turns_rotate _ _ _ hne] at hlined
  exact ⟨hlined, (next_of_lined hlined).trans (Lines.head_rotate hne _)⟩

/-- Five steps go round the two processes at `NORMAL`; process 2 still waits at `LOW`. -/
theorem low_starves_schedOfThree :
    ∃ s', run Sched.step (schedOfThree 10) (List.replicate 5 labelCode) = some s' ∧
      s'.rq.Lined ⟨[1, 0], [2]⟩ ∧ s'.rq.next = some 1 := by
  obtain ⟨s', hs, _⟩ := Option.map_eq_some_iff.mp
    (show (run Sched.step (schedOfThree 10) (List.replicate 5 labelCode)).map
      (fun s => s.rq.totalCount) = some 3 by decide)
  refine ⟨s', hs, ?_⟩
  exact low_starves lined_queueOfThree (by simp) (by decide) hs

/-! ### How long a process waits -/

/-- What can happen to a run queue: a step of the scheduler, or the host enqueues a process. -/
inductive SchedOp
  | step (code : List Instruction)
  | enqueue (proc : ProcId) (prio : Priority)

/-- One of these things. -/
def Sched.exec (s : Sched) : SchedOp → Option Sched
  | .step code => s.step code
  | .enqueue proc prio => (beamRunQueueEnqueue s.rq s.world proc prio).map fun r => ⟨r.1, r.2.1⟩

/-- A process is let in before those at `NORMAL`. -/
def Sched.letsIn (s : Sched) : SchedOp → Nat
  | .enqueue _ .max | .enqueue _ .high => if s.rq.alloc 0 then 1 else 0
  | _ => 0

/-- How many are let in before those at `NORMAL` during a run. -/
def Sched.letIn (s : Sched) : List SchedOp → Nat
  | [] => 0
  | op :: ops => s.letsIn op +
      match s.exec op with
      | none => 0
      | some s' => s'.letIn ops

/-- The number of steps among these. -/
def stepCount (ops : List SchedOp) : Nat :=
  ops.countP fun
    | .step _ => true
    | .enqueue _ _ => false

/-- The process waits at `NORMAL`, and `n` are served before it. -/
def BehindIn (L : Priority → List (Nat × ProcId)) (n : Nat) (proc : ProcId) : Prop :=
  ∃ pre node post, L .normal = pre ++ (node, proc) :: post ∧
    (L .max).length + (L .high).length + pre.length = n

def RunQueue.Behind (rq : RunQueue) (n : Nat) (proc : ProcId) : Prop :=
  ∃ L, rq.Holds L ∧ BehindIn L n proc

variable {n : Nat} {proc : ProcId}

theorem BehindIn.append (h : BehindIn L n proc) (prio : Priority) (x : Nat × ProcId) :
    BehindIn (Function.update L prio (L prio ++ [x]))
      (n + if prio = .max ∨ prio = .high then 1 else 0) proc := by
  obtain ⟨pre, node, post, hL, rfl⟩ := h
  cases prio with
  | max => exact ⟨pre, node, post, by simp [hL], by simp; omega⟩
  | high => exact ⟨pre, node, post, by simp [hL], by simp; omega⟩
  | normal => exact ⟨pre, node, post ++ [x], by simp [hL], by simp⟩
  | low => exact ⟨pre, node, post, by simp [hL], by simp⟩

theorem BehindIn.take (h : BehindIn L n proc) (hh : rq.Holds L) {prio : Priority}
    {x : Nat × ProcId} {R : List (Nat × ProcId)}
    (hfirst : rq.firstLevel dequeueOrder = some prio) (hL : L prio = x :: R) :
    (n = 0 ∧ x.2 = proc) ∨ ∃ m, n = m + 1 ∧ BehindIn (Function.update L prio R) m proc := by
  obtain ⟨pre, node, post, hnormal, rfl⟩ := h
  rw [RunQueue.firstLevel_eq hh] at hfirst
  cases prio with
  | max =>
    refine Or.inr ⟨R.length + (L .high).length + pre.length, ?_, pre, node, post, ?_, ?_⟩
    · rw [hL, List.length_cons]; omega
    · simp [hnormal]
    · simp
  | high =>
    refine Or.inr ⟨(L .max).length + R.length + pre.length, ?_, pre, node, post, ?_, ?_⟩
    · rw [hL, List.length_cons]; omega
    · simp [hnormal]
    · simp
  | normal =>
    have hfront : L .max = [] ∧ L .high = [] := by grind [dequeueOrder]
    rw [hnormal] at hL
    cases pre with
    | nil =>
      cases hL
      exact Or.inl ⟨by simp [hfront], rfl⟩
    | cons y pre =>
      cases hL
      refine Or.inr ⟨pre.length, by simp [hfront], pre, node, post, ?_, ?_⟩
      · simp
      · simp [hfront]
  | low =>
    have hfront : L .normal = [] := by grind [dequeueOrder]
    simp [hfront] at hnormal

/-- **A step takes the process or brings it nearer.** -/
theorem RunQueue.Behind.step (h : s.rq.Behind n proc) (hs : s.step code = some s') :
    (n = 0 ∧ s.rq.next = some proc) ∨ ∃ m, n = m + 1 ∧ s'.rq.Behind m proc := by
  obtain ⟨L, hh, hb⟩ := h
  rcases step_levels hh hs with ⟨hnil, _⟩ | ⟨prio, x, R, node, hfirst, hL, hnext, hh'⟩
  · obtain ⟨pre, node, post, hnormal, _⟩ := hb
    simp [hnil] at hnormal
  · rcases hb.take hh hfirst hL with ⟨hn, hx⟩ | ⟨m, hn, hb'⟩
    · exact Or.inl ⟨hn, hx ▸ hnext⟩
    · refine Or.inr ⟨m, hn, _, hh', ?_⟩
      split
      · exact hb'.append .normal (node, x.2)
      · exact hb'

/-- **An insertion keeps it away only if** it lets somebody in. -/
theorem RunQueue.Behind.enqueue (h : s.rq.Behind n proc) {other : ProcId} {prio : Priority}
    (hs : s.exec (.enqueue other prio) = some s') :
    s'.rq.Behind (n + s.letsIn (.enqueue other prio)) proc := by
  obtain ⟨L, hh, hb⟩ := h
  obtain ⟨r, hr, rfl⟩ := Option.map_eq_some_iff.mp hs
  obtain ⟨⟨rq', res⟩, hi, rfl⟩ := Option.map_eq_some_iff.mp hr
  rcases RunQueue.insert_cases hh hi with ⟨hg, _, hh'⟩ | ⟨hg, _, hh'⟩
  · refine ⟨L, hh', ?_⟩
    cases prio <;> simpa [Sched.letsIn, hg] using hb
  · refine ⟨_, hh', ?_⟩
    have hb' := hb.append prio (s.rq.nodes.length, other)
    cases prio <;> simpa [Sched.letsIn, hg] using hb'

/-- **A process at `NORMAL` is served after those in front of it and those who are let in before
it**, in every run with enough steps: nobody else overtakes it, whatever is enqueued and whoever is
put back. -/
theorem served_in_turn {ops : List SchedOp} (h : s.rq.Behind n proc)
    (hr : run Sched.exec s ops = some s') (hlong : n + s.letIn ops < stepCount ops) :
    ∃ k code s₁, ops[k]? = some (.step code) ∧ run Sched.exec s (ops.take k) = some s₁ ∧
      stepCount (ops.take k) = n + s.letIn (ops.take k) ∧ s₁.rq.next = some proc := by
  induction ops generalizing s n with
  | nil => simp [stepCount] at hlong
  | cons op ops ih =>
    obtain ⟨s₁, hs, hr'⟩ := run_cons_eq_some hr
    rw [Sched.letIn, hs] at hlong
    cases op with
    | step code =>
      rcases h.step hs with ⟨rfl, hnext⟩ | ⟨m, rfl, hb⟩
      · exact ⟨0, code, s, rfl, rfl, rfl, hnext⟩
      · have hlong' : m + s₁.letIn ops < stepCount ops := by
          simp [stepCount, Sched.letsIn] at hlong ⊢
          omega
        obtain ⟨k, code', s₂, hk, hr₂, hcount, hnext⟩ := ih hb hr' hlong'
        refine ⟨k + 1, code', s₂, hk, ?_, ?_, hnext⟩
        · rw [List.take_succ_cons, run, hs]
          exact hr₂
        · rw [List.take_succ_cons, Sched.letIn, hs]
          simp [stepCount, Sched.letsIn] at hcount ⊢
          omega
    | enqueue other prio =>
      have hlong' : n + s.letsIn (.enqueue other prio) + s₁.letIn ops < stepCount ops := by
        simp [stepCount] at hlong ⊢
        omega
      obtain ⟨k, code', s₂, hk, hr₂, hcount, hnext⟩ := ih (h.enqueue hs) hr' hlong'
      refine ⟨k + 1, code', s₂, hk, ?_, ?_, hnext⟩
      · rw [List.take_succ_cons, run, hs]
        exact hr₂
      · rw [List.take_succ_cons, Sched.letIn, hs]
        simp [stepCount] at hcount ⊢
        omega

/-- Process 1 is behind process 0, and process 3 is let in before it. -/
theorem served_schedOfThree :
    ∃ k code s₁, [SchedOp.step labelCode, .enqueue 3 .high, .step labelCode,
        .enqueue 4 .normal, .step labelCode][k]? = some (.step code) ∧
      run Sched.exec (schedOfThree 10) ([SchedOp.step labelCode, .enqueue 3 .high,
        .step labelCode, .enqueue 4 .normal, .step labelCode].take k) = some s₁ ∧
      s₁.rq.next = some 1 := by
  have hb : (schedOfThree 10).rq.Behind 1 1 :=
    ⟨_, holds_queueOfThree, [(0, 0)], 1, [], rfl, rfl⟩
  obtain ⟨s', hs, _⟩ := Option.map_eq_some_iff.mp
    (show (run Sched.exec (schedOfThree 10) [.step labelCode, .enqueue 3 .high, .step labelCode,
      .enqueue 4 .normal, .step labelCode]).map (fun s => s.rq.totalCount) = some 5 by decide)
  obtain ⟨k, code, s₁, hk, hr, _, hnext⟩ := served_in_turn hb hs (by decide)
  exact ⟨k, code, s₁, hk, hr, hnext⟩

end BeamModular
