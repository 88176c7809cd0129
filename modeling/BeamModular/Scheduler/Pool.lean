import BeamModular.Lib.Run
import BeamModular.Scheduler.Loop

/-!
# The pool of workers

`scheduler_worker_thread` of `src/scheduler/beam_scheduler_loop.c`: every worker takes
a process out of the shared run queue, runs it and puts it back, in a loop.  A step
of the model is what one worker does between two points where the others can see a
difference: a removal or an insertion under the lock, the write of the state after
the unlock, the execution, the test of the state.  Taken in a row, they are
`beam_scheduler_step` (`run_schedulerStep`).

A process has one place: the queue, or the worker that has taken it out and not yet
put it back (`Exclusive`), whatever the workers find in its state; `exclusive_of_run`
is that for every interleaving.  But `beam_run_queue_enqueue` writes `RUNNABLE` when it
has already given the process away, and the new owner may have run it to its end by
then.  `Settled` is a removal that finds no such write owed; `Custody` adds the halted
processes to the invariant, and `custody_step` shows that with settled removals a
process that has halted stays so.
-/

namespace BeamModular

/-- Where a worker stands in its loop.  `stolen` says that the process came from
`beam_run_queue_steal`; `res` is what its execution returned. -/
inductive WorkerPc
  | idle
  /-- `beam_scheduler_step` has returned `BEAM_ERR_NOT_FOUND`. -/
  | stealing
  /-- The process is out of the queue, its state not yet written. -/
  | got (proc : ProcId) (stolen : Bool)
  | ready (proc : ProcId) (stolen : Bool)
  | executed (proc : ProcId) (stolen : Bool) (res : Result)
  /-- The test says that the process must be put back. -/
  | requeueing (proc : ProcId) (stolen : Bool) (res : Result)
  /-- The process is in the queue again, its state not yet written. -/
  | inserted (proc : ProcId) (stolen : Bool) (res : Result)
  deriving DecidableEq, Repr

/-- The end of a turn: `BEAM_ERR_NOT_FOUND` sends the worker stealing. -/
def WorkerPc.done (stolen : Bool) (res : Result) : WorkerPc :=
  if !stolen ∧ res = .errNotFound then .stealing else .idle

/-- The run queue, the world and the workers.  `halted` remembers the processes whose execution
has returned `BEAM_ERR_HALT`, and `again` whether one of them was inserted or executed later. -/
structure Pool (κ : Type) where
  rq : RunQueue
  world : World
  workers : κ → WorkerPc
  halted : ProcId → Bool
  again : Bool

namespace Pool

variable {κ : Type}

/-- A pool whose workers have not started. -/
def start (rq : RunQueue) (world : World) : Pool κ where
  rq := rq
  world := world
  workers _ := .idle
  halted _ := false
  again := false

/-- The process a removal would take. -/
def next (s : Pool κ) (order : List Priority) : Option ProcId := (s.rq.take order).bind Prod.snd

variable [DecidableEq κ]

/-- A removal under the lock; `other` is where the worker goes when there is nothing. -/
def remove (s : Pool κ) (k : κ) (order : List Priority) (stolen : Bool) (other : WorkerPc) :
    Option (Pool κ) :=
  (s.rq.take order).map fun r =>
    let pc := match r.2 with
      | none => other
      | some proc => .got proc stolen
    { s with rq := r.1, workers := Function.update s.workers k pc }

/-- An insertion under the lock, or the refusal of its node. -/
def putBack (s : Pool κ) (k : κ) (proc : ProcId) (stolen : Bool) (res : Result) :
    Option (Pool κ) :=
  let world := s.world.setReductions proc defaultReductions
  (s.rq.insert proc .normal).map fun r =>
    if r.2 = .ok then
      { s with
        rq := r.1
        world := world
        workers := Function.update s.workers k (.inserted proc stolen res)
        again := s.again || s.halted proc }
    else
      { s with rq := r.1, world := world, workers := Function.update s.workers k (.done stolen res) }

/-- One step of the worker `k`. -/
def step (code : List Instruction) (s : Pool κ) (k : κ) : Option (Pool κ) :=
  match s.workers k with
  | .idle => s.remove k dequeueOrder false .stealing
  | .stealing => s.remove k stealOrder true .idle
  | .got proc stolen =>
    some { s with
      world := s.world.setState proc .running
      workers := Function.update s.workers k (.ready proc stolen) }
  | .ready proc stolen =>
    (beamEmuExecuteCode code proc s.world).map fun sl =>
      { s with
        world := sl.world
        workers := Function.update s.workers k (.executed proc stolen sl.res)
        halted := Function.update s.halted proc (s.halted proc || sl.res == .errHalt)
        again := s.again || s.halted proc }
  | .executed proc stolen res =>
    let pc : WorkerPc :=
      if mustRequeue res (s.world.sched proc).state then .requeueing proc stolen res
      else .done stolen res
    some { s with workers := Function.update s.workers k pc }
  | .requeueing proc stolen res => s.putBack k proc stolen res
  | .inserted proc stolen res =>
    some { s with
      world := s.world.setState proc .runnable
      workers := Function.update s.workers k (.done stolen res) }

end Pool

/-- The process a worker has taken out of the queue. -/
def WorkerPc.holds : WorkerPc → Option ProcId
  | .got proc _ => some proc
  | .ready proc _ => some proc
  | .executed proc _ _ => some proc
  | .requeueing proc _ _ => some proc
  | _ => none

/-- The process a worker has put back without having written its state. -/
def WorkerPc.owes : WorkerPc → Option ProcId
  | .inserted proc _ _ => some proc
  | _ => none

namespace Pool

variable {κ : Type}

/-- Nobody owes a state to the process that a removal would take. -/
def Unowed (s : Pool κ) (order : List Priority) : Prop :=
  match s.next order with
  | none => True
  | some proc => ∀ k, (s.workers k).owes ≠ some proc

/-- A step that does not take a process whose state is still owed. -/
def Settled (s : Pool κ) (k : κ) : Prop :=
  match s.workers k with
  | .idle => s.Unowed dequeueOrder
  | .stealing => s.Unowed stealOrder
  | _ => True

instance [Fintype κ] (s : Pool κ) (order : List Priority) : Decidable (s.Unowed order) :=
  match h : s.next order with
  | none => .isTrue (by rw [Unowed, h]; trivial)
  | some proc => decidable_of_iff (∀ k, (s.workers k).owes ≠ some proc) (by rw [Unowed, h])

instance [Fintype κ] (s : Pool κ) (k : κ) : Decidable (s.Settled k) :=
  match h : s.workers k with
  | .idle => decidable_of_iff (s.Unowed dequeueOrder) (by rw [Settled, h])
  | .stealing => decidable_of_iff (s.Unowed stealOrder) (by rw [Settled, h])
  | .got _ _ | .ready _ _ | .executed _ _ _ | .requeueing _ _ _ | .inserted _ _ _ =>
    .isTrue (by rw [Settled, h]; trivial)

/-- Every process that has halted is exited, and none was inserted or executed again. -/
def StaysHalted (s : Pool κ) : Prop :=
  (∀ proc, s.halted proc = true → (s.world.sched proc).state = .exited) ∧ s.again = false

end Pool

/-- **The steps of one worker in a row are `beam_scheduler_step`.** -/
theorem run_schedulerStep {κ : Type} [DecidableEq κ] {code : List Instruction} {s : Pool κ} {k : κ}
    {t : Turn} (hk : s.workers k = .idle) (h : beamSchedulerStep code ⟨s.rq, s.world⟩ = some t) :
    ∃ n, (run (Pool.step code) s (List.replicate n k)).map (fun s' => (s'.rq, s'.world, s'.workers))
      = some (t.sched.rq, t.sched.world, Function.update s.workers k (.done false t.res)) := by
  obtain ⟨r, hr, h⟩ := Option.bind_eq_some_iff.mp h
  obtain ⟨⟨rq, found⟩, ht, rfl⟩ := Option.map_eq_some_iff.mp hr
  cases found with
  | none =>
    cases h
    refine ⟨1, ?_⟩
    simp only [List.replicate, run, Pool.step, hk, Pool.remove, ht, Option.map_some,
      Option.bind_some]
    rfl
  | some proc =>
    obtain ⟨sl, hsl, h⟩ := Option.bind_eq_some_iff.mp h
    dsimp only at hsl h
    by_cases hm : mustRequeue sl.res (sl.world.sched proc).state
    · rw [requeue, if_pos hm] at h
      obtain ⟨r', hr', rfl⟩ := Option.map_eq_some_iff.mp h
      obtain ⟨⟨rq', res⟩, hi, rfl⟩ := Option.map_eq_some_iff.mp hr'
      by_cases hok : res = .ok
      · refine ⟨6, ?_⟩
        simp only [List.replicate, run, Pool.step, hk, Pool.remove, ht, hsl, hm, Pool.putBack, hi,
          hok, Function.update_self, Function.update_idem, Option.map_some, Option.bind_some,
          if_true]
      · refine ⟨5, ?_⟩
        simp only [List.replicate, run, Pool.step, hk, Pool.remove, ht, hsl, hm, Pool.putBack, hi,
          hok, Function.update_self, Function.update_idem, Option.map_some, Option.bind_some,
          if_true, if_false]
    · rw [requeue, if_neg hm] at h
      cases h
      refine ⟨4, ?_⟩
      simp only [List.replicate, run, Pool.step, hk, Pool.remove, ht, hsl, hm, Function.update_self,
        Function.update_idem, Option.map_some, Option.bind_some, if_false, Bool.false_eq_true]

/-! ### One place for each process -/

/-- Every process is in the queue once or in the hands of one worker, or in neither. -/
structure Exclusive {κ : Type} (rq : RunQueue) (hands : κ → Option ProcId)
    (L : Priority → List (Nat × ProcId)) : Prop where
  holds : rq.Holds L
  once : (queued L).Nodup
  out : ∀ k proc, hands k = some proc → proc ∉ queued L
  one : ∀ k k' proc, hands k = some proc → hands k' = some proc → k = k'

namespace Exclusive

variable {κ : Type} [DecidableEq κ] {rq rq' : RunQueue} {hands : κ → Option ProcId}
  {L : Priority → List (Nat × ProcId)} {k : κ}

theorem keep (h : Exclusive rq hands L) (hrq : rq'.Holds L) {hand : Option ProcId}
    (hhand : hand = none ∨ hand = hands k) : Exclusive rq' (Function.update hands k hand) L := by
  have hold : ∀ j proc, Function.update hands k hand j = some proc → hands j = some proc := by
    intro j proc hj
    rw [Function.update_apply] at hj
    split at hj
    · rename_i hjk
      rcases hhand with hn | hs
      · rw [hn] at hj
        cases hj
      · rw [hjk, ← hs, hj]
    · exact hj
  exact ⟨hrq, h.once, fun j proc hj => h.out j proc (hold j proc hj),
    fun j j' proc hj hj' => h.one j j' proc (hold j proc hj) (hold j' proc hj')⟩

theorem take (h : Exclusive rq hands L) {prio : Priority} {x : Nat × ProcId}
    {R : List (Nat × ProcId)} (hL : L prio = x :: R) (hrq : rq'.Holds (Function.update L prio R)) :
    Exclusive rq' (Function.update hands k (some x.2)) (Function.update L prio R) := by
  have hq := queued_take hL
  have hnd := h.once
  rw [hq, Multiset.nodup_cons] at hnd
  have hx : x.2 ∈ queued L := by rw [hq]; exact Multiset.mem_cons_self _ _
  -- whoever holds a process now held it before, or is the worker that has just taken it
  have hold : ∀ j proc, Function.update hands k (some x.2) j = some proc →
      (j = k ∧ proc = x.2) ∨ hands j = some proc := by
    intro j proc hj
    rw [Function.update_apply] at hj
    split at hj
    · exact Or.inl ⟨‹_›, (Option.some.inj hj).symm⟩
    · exact Or.inr hj
  refine ⟨hrq, hnd.2, fun j proc hj => ?_, fun j j' proc hj hj' => ?_⟩
  · rcases hold j proc hj with ⟨_, rfl⟩ | hj
    · exact hnd.1
    · intro hm
      apply h.out j proc hj
      rw [hq]
      exact Multiset.mem_cons_of_mem hm
  · rcases hold j proc hj with ⟨rfl, rfl⟩ | hj <;> rcases hold j' _ hj' with ⟨hj'k, hp⟩ | hj'
    · exact hj'k.symm
    · exact absurd hx (h.out j' _ hj')
    · exact absurd hx (h.out j _ (hp ▸ hj))
    · exact h.one j j' proc hj hj'

theorem put (h : Exclusive rq hands L) {proc : ProcId} {prio : Priority} {node : Nat}
    (hk : hands k = some proc)
    (hrq : rq'.Holds (Function.update L prio (L prio ++ [(node, proc)]))) :
    Exclusive rq' (Function.update hands k none)
      (Function.update L prio (L prio ++ [(node, proc)])) := by
  have hq := queued_insert L prio (node, proc)
  -- it was the only one to hold it
  have hold : ∀ j q, Function.update hands k none j = some q → j ≠ k ∧ hands j = some q := by
    intro j q hj
    rw [Function.update_apply] at hj
    split at hj
    · cases hj
    · exact ⟨‹_›, hj⟩
  refine ⟨hrq, ?_, fun j q hj => ?_, fun j j' q hj hj' => ?_⟩
  · rw [hq, Multiset.nodup_cons]
    exact ⟨h.out k proc hk, h.once⟩
  · obtain ⟨hjk, hjq⟩ := hold j q hj
    rw [hq, Multiset.mem_cons, not_or]
    refine ⟨fun he => hjk ?_, h.out j q hjq⟩
    exact h.one j k proc (hjq.trans (congrArg some he)) hk
  · exact h.one j j' q (hold j q hj).2 (hold j' q hj').2

end Exclusive

/-- The processes in the workers' hands. -/
def Pool.hands {κ : Type} (s : Pool κ) (k : κ) : Option ProcId := (s.workers k).holds

theorem hands_update {κ : Type} [DecidableEq κ] (workers : κ → WorkerPc) (k : κ) (pc : WorkerPc) :
    (fun j => (Function.update workers k pc j).holds) =
      Function.update (fun j => (workers j).holds) k pc.holds := by
  funext j
  rw [Function.update_apply, Function.update_apply]
  split <;> rfl

theorem done_holds (stolen : Bool) (res : Result) :
    (WorkerPc.done stolen res).holds = none ∧ (WorkerPc.done stolen res).owes = none := by
  unfold WorkerPc.done
  split <;> exact ⟨rfl, rfl⟩

section Exclusive

variable {κ : Type} [DecidableEq κ] {s s' : Pool κ} {L : Priority → List (Nat × ProcId)} {k : κ}

theorem exclusive_move (h : Exclusive s.rq s.hands L) {rq : RunQueue} {pc : WorkerPc}
    (hrq : rq.Holds L) (hpc : pc.holds = none ∨ pc.holds = s.hands k) :
    Exclusive rq (fun j => (Function.update s.workers k pc j).holds) L := by
  rw [hands_update]
  exact h.keep hrq hpc

theorem exclusive_take (h : Exclusive s.rq s.hands L) {rq : RunQueue} {prio : Priority}
    {x : Nat × ProcId} {R : List (Nat × ProcId)} (hL : L prio = x :: R)
    (hrq : rq.Holds (Function.update L prio R)) (stolen : Bool) :
    Exclusive rq (fun j => (Function.update s.workers k (.got x.2 stolen) j).holds)
      (Function.update L prio R) := by
  rw [hands_update]
  exact h.take hL hrq

theorem exclusive_put (h : Exclusive s.rq s.hands L) {rq : RunQueue} {proc : ProcId}
    {prio : Priority} {node : Nat} (hk : s.hands k = some proc)
    (hrq : rq.Holds (Function.update L prio (L prio ++ [(node, proc)]))) (stolen : Bool)
    (res : Result) :
    Exclusive rq (fun j => (Function.update s.workers k (.inserted proc stolen res) j).holds)
      (Function.update L prio (L prio ++ [(node, proc)])) := by
  rw [hands_update]
  exact h.put hk hrq

theorem exclusive_remove (h : Exclusive s.rq s.hands L) {order : List Priority} {stolen : Bool}
    {other : WorkerPc} (hall : ∀ prio, prio ∈ order) (hother : other.holds = none)
    (hs : s.remove k order stolen other = some s') : ∃ L', Exclusive s'.rq s'.hands L' := by
  obtain ⟨r, hr, rfl⟩ := Option.map_eq_some_iff.mp hs
  rcases RunQueue.take_holds h.holds order hall with
    ⟨_, ht⟩ | ⟨prio, x, R, hL, rq', ht, hh', _⟩
  · rw [ht] at hr
    cases hr
    exact ⟨L, exclusive_move h h.holds (Or.inl hother)⟩
  · rw [ht] at hr
    cases hr
    exact ⟨_, exclusive_take h hL hh' stolen⟩

theorem exclusive_putBack (h : Exclusive s.rq s.hands L) {proc : ProcId} {stolen : Bool}
    {res : Result} (hk : s.hands k = some proc) (hs : s.putBack k proc stolen res = some s') :
    ∃ L', Exclusive s'.rq s'.hands L' := by
  obtain ⟨⟨rq', r⟩, hr, rfl⟩ := Option.map_eq_some_iff.mp hs
  rcases RunQueue.insert_cases h.holds hr with ⟨_, rfl, hh'⟩ | ⟨_, rfl, hh'⟩
  · exact ⟨L, exclusive_move h hh' (Or.inl (done_holds stolen res).1)⟩
  · exact ⟨_, exclusive_put h hk hh' stolen res⟩

/-- **No step of any worker gives a process a second place**, whoever is about to write what. -/
theorem exclusive_step {code : List Instruction} (h : Exclusive s.rq s.hands L)
    (hs : s.step code k = some s') : ∃ L', Exclusive s'.rq s'.hands L' := by
  unfold Pool.step at hs
  cases hk : s.workers k with
  | idle =>
    rw [hk] at hs
    exact exclusive_remove h mem_dequeueOrder rfl hs
  | stealing =>
    rw [hk] at hs
    exact exclusive_remove h mem_stealOrder rfl hs
  | got proc stolen =>
    rw [hk] at hs
    cases hs
    exact ⟨L, exclusive_move h h.holds (Or.inr (by rw [Pool.hands, hk]; rfl))⟩
  | ready proc stolen =>
    rw [hk] at hs
    obtain ⟨sl, _, rfl⟩ := Option.map_eq_some_iff.mp hs
    exact ⟨L, exclusive_move h h.holds (Or.inr (by rw [Pool.hands, hk]; rfl))⟩
  | executed proc stolen res =>
    rw [hk] at hs
    cases hs
    refine ⟨L, exclusive_move h h.holds ?_⟩
    split
    · exact Or.inr (by rw [Pool.hands, hk]; rfl)
    · exact Or.inl (done_holds stolen res).1
  | requeueing proc stolen res =>
    rw [hk] at hs
    exact exclusive_putBack h (by rw [Pool.hands, hk]; rfl) hs
  | inserted proc stolen res =>
    rw [hk] at hs
    cases hs
    exact ⟨L, exclusive_move h h.holds (Or.inl (done_holds stolen res).1)⟩

end Exclusive

/-! ### Custody -/

/-- **The invariant**: a process is in the queue once or with one worker, a state is owed only to
a process in the queue, and a process that has halted is exited, out of the queue and at most
with the worker that has just run it. -/
structure Custody {κ : Type} (s : Pool κ) (L : Priority → List (Nat × ProcId)) : Prop where
  holds : s.rq.Holds L
  once : (queued L).Nodup
  out : ∀ k proc, (s.workers k).holds = some proc → proc ∉ queued L
  one : ∀ k k' proc, (s.workers k).holds = some proc → (s.workers k').holds = some proc → k = k'
  owed : ∀ k proc, (s.workers k).owes = some proc → proc ∈ queued L
  gone : ∀ proc, s.halted proc = true → (s.world.sched proc).state = .exited ∧ proc ∉ queued L ∧
    ∀ k, (s.workers k).holds = some proc → ∃ stolen res, s.workers k = .executed proc stolen res
  again : s.again = false

theorem state_setReductions (w : World) (self proc : ProcId) (reductions : Int) :
    ((w.setReductions self reductions).sched proc).state = (w.sched proc).state := by
  simp only [World.setReductions, Function.update_apply]
  split
  · rename_i hp
    rw [hp]
  · rfl

theorem setState_other (w : World) {proc q : ProcId} (state : ProcState) (h : q ≠ proc) :
    ((w.setState proc state).sched q).state = (w.sched q).state := by
  rw [World.setState]
  dsimp only
  rw [Function.update_of_ne h]

section Steps

variable {κ : Type} [DecidableEq κ] {s s' : Pool κ} {L : Priority → List (Nat × ProcId)} {k : κ}

omit [DecidableEq κ] in
/-- A worker that is not past the execution holds no halted process. -/
theorem Custody.not_halted (h : Custody s L) {proc : ProcId}
    (hk : (s.workers k).holds = some proc)
    (hne : ∀ stolen res, s.workers k ≠ .executed proc stolen res) : s.halted proc = false := by
  rw [Bool.eq_false_iff]
  intro hh
  obtain ⟨stolen, res, he⟩ := (h.gone proc hh).2.2 k hk
  exact hne stolen res he

omit [DecidableEq κ] in
theorem Custody.exclusive (h : Custody s L) : Exclusive s.rq s.hands L :=
  ⟨h.holds, h.once, h.out, h.one⟩

omit [DecidableEq κ] in
theorem ne_of_halted {proc q : ProcId} (hno : s.halted proc = false) (hq : s.halted q = true) :
    q ≠ proc := by
  rintro rfl
  rw [hno] at hq
  cases hq

theorem Custody.move (h : Custody s L) {rq : RunQueue} {world : World} {pc : WorkerPc}
    (hrq : rq.Holds L) (hholds : pc.holds = none ∨ pc.holds = (s.workers k).holds)
    (howes : pc.owes = none)
    (hstate : ∀ proc, s.halted proc = true →
      (world.sched proc).state = (s.world.sched proc).state)
    (hpc : ∀ proc, s.halted proc = true → pc.holds ≠ some proc) :
    Custody { s with rq := rq, world := world, workers := Function.update s.workers k pc } L := by
  have hexc := exclusive_move h.exclusive hrq hholds
  refine ⟨hrq, hexc.once, hexc.out, hexc.one, fun j proc hj => ?_, fun proc hh => ?_, h.again⟩
  · dsimp only at hj
    rw [Function.update_apply] at hj
    split at hj
    · rw [howes] at hj
      cases hj
    · exact h.owed j proc hj
  · obtain ⟨he, hq, hex⟩ := h.gone proc hh
    refine ⟨(hstate proc hh).trans he, hq, fun j hj => ?_⟩
    dsimp only at hj ⊢
    rw [Function.update_apply] at hj ⊢
    split at hj
    · exact absurd hj (hpc proc hh)
    · rw [if_neg ‹_›]
      exact hex j hj

theorem Custody.release (h : Custody s L) {rq : RunQueue} {world : World} (hrq : rq.Holds L)
    (hstate : ∀ proc, s.halted proc = true →
      (world.sched proc).state = (s.world.sched proc).state) (stolen : Bool) (res : Result) :
    Custody { s with
      rq := rq
      world := world
      workers := Function.update s.workers k (.done stolen res) } L := by
  have hdone := done_holds stolen res
  refine h.move hrq (Or.inl hdone.1) hdone.2 hstate fun q _ => ?_
  rw [hdone.1]
  exact (Option.some_ne_none q).symm

/-- **A removal** hands a process from the queue to the worker. -/
theorem Custody.take (h : Custody s L) {order : List Priority} {stolen : Bool} {other : WorkerPc}
    (hall : ∀ prio, prio ∈ order) (hfree : s.Unowed order) (hoh : other.holds = none)
    (hoo : other.owes = none) (hs : s.remove k order stolen other = some s') :
    ∃ L', Custody s' L' := by
  obtain ⟨r, hr, rfl⟩ := Option.map_eq_some_iff.mp hs
  rcases RunQueue.take_holds h.holds order hall with
    ⟨_, ht⟩ | ⟨prio, x, R, hL, rq', ht, hh', _⟩
  · rw [ht] at hr
    cases hr
    exact ⟨L, h.move h.holds (Or.inl hoh) hoo (fun _ _ => rfl) fun proc _ => by rw [hoh]; simp⟩
  · rw [ht] at hr
    cases hr
    rw [Pool.Unowed, Pool.next, ht] at hfree
    have hexc := exclusive_take h.exclusive (k := k) hL hh' stolen
    have hq := queued_take hL
    refine ⟨Function.update L prio R, hh', hexc.once, hexc.out, hexc.one, fun j proc hj => ?_,
      fun proc hp => ?_, h.again⟩
    · dsimp only at hj
      rw [Function.update_apply] at hj
      split at hj
      · cases hj
      · have hm := h.owed j proc hj
        rw [hq, Multiset.mem_cons] at hm
        rcases hm with rfl | hm
        · exact absurd hj (hfree j)
        · exact hm
    · obtain ⟨he, hnq, hex⟩ := h.gone proc hp
      rw [hq, Multiset.mem_cons, not_or] at hnq
      refine ⟨he, hnq.2, fun j hj => ?_⟩
      dsimp only at hj ⊢
      rw [Function.update_apply] at hj ⊢
      split at hj
      · exact absurd (Option.some.inj hj).symm hnq.1
      · rw [if_neg ‹_›]
        exact hex j hj

/-- **An execution**: a process that ends in it is exited. -/
theorem Custody.execute {code : List Instruction} (h : Custody s L) {proc : ProcId} {stolen : Bool}
    (hk : s.workers k = .ready proc stolen) {sl : Slice}
    (hsl : beamEmuExecuteCode code proc s.world = some sl) :
    Custody { s with
      world := sl.world
      workers := Function.update s.workers k (.executed proc stolen sl.res)
      halted := Function.update s.halted proc (s.halted proc || sl.res == .errHalt)
      again := s.again || s.halted proc } L := by
  have hheld : (s.workers k).holds = some proc := by rw [hk]; rfl
  have hno : s.halted proc = false := h.not_halted hheld fun _ _ he => by rw [hk] at he; cases he
  have hexc : Exclusive s.rq
      (fun j => (Function.update s.workers k (.executed proc stolen sl.res) j).holds) L :=
    exclusive_move h.exclusive h.holds (Or.inr hheld.symm)
  refine ⟨h.holds, hexc.once, hexc.out, hexc.one, fun j q hj => ?_, fun q hq => ?_,
    by simp [h.again, hno]⟩
  · dsimp only at hj
    rw [Function.update_apply] at hj
    split at hj
    · cases hj
    · exact h.owed j q hj
  · dsimp only at hq ⊢
    rw [Function.update_apply] at hq
    split at hq
    · rename_i hqp
      subst hqp
      rw [hno, Bool.false_or, beq_iff_eq] at hq
      refine ⟨beamEmuExecuteCode_halt hsl hq, h.out k q hheld, fun j hj => ?_⟩
      have hjk : j = k := hexc.one j k q hj (by rw [Function.update_self]; rfl)
      exact ⟨stolen, sl.res, by rw [hjk, Function.update_self]⟩
    · rename_i hqp
      obtain ⟨he, hnq, hex⟩ := h.gone q hq
      refine ⟨by rw [beamEmuExecuteCode_other hsl hqp, he], hnq, fun j hj => ?_⟩
      have hjk : j ≠ k := by
        rintro rfl
        rw [Function.update_self] at hj
        exact hqp (Option.some.inj hj).symm
      rw [Function.update_of_ne hjk] at hj ⊢
      exact hex j hj

/-- The new node of an insertion, the process's state owed. -/
theorem Custody.insert (h : Custody s L) {proc : ProcId} {stolen : Bool} {res : Result}
    (hk : s.workers k = .requeueing proc stolen res) {rq' : RunQueue}
    (hrq : rq'.Holds (Function.update L .normal (L .normal ++ [(s.rq.nodes.length, proc)]))) :
    Custody { s with
      rq := rq'
      world := s.world.setReductions proc defaultReductions
      workers := Function.update s.workers k (.inserted proc stolen res)
      again := s.again || s.halted proc }
      (Function.update L .normal (L .normal ++ [(s.rq.nodes.length, proc)])) := by
  have hheld : (s.workers k).holds = some proc := by rw [hk]; rfl
  have hno : s.halted proc = false := h.not_halted hheld fun _ _ he => by rw [hk] at he; cases he
  have hq := queued_insert L .normal (s.rq.nodes.length, proc)
  have hexc := exclusive_put h.exclusive hheld hrq stolen res
  refine ⟨hrq, hexc.once, hexc.out, hexc.one, fun j q hj => ?_, fun q hqh => ?_,
    by rw [h.again, hno]; rfl⟩
  · dsimp only at hj
    rw [hq, Multiset.mem_cons]
    rw [Function.update_apply] at hj
    split at hj
    · exact Or.inl (Option.some.inj hj).symm
    · exact Or.inr (h.owed j q hj)
  · obtain ⟨he, hnq, hex⟩ := h.gone q hqh
    refine ⟨(state_setReductions _ _ _ _).trans he, ?_, fun j hj => ?_⟩
    · rw [hq, Multiset.mem_cons, not_or]
      exact ⟨ne_of_halted hno hqh, hnq⟩
    · dsimp only at hj ⊢
      rw [Function.update_apply] at hj ⊢
      split at hj
      · cases hj
      · rw [if_neg ‹_›]
        exact hex j hj

/-- **An insertion** hands the process back to the queue. -/
theorem Custody.putBack (h : Custody s L) {proc : ProcId} {stolen : Bool} {res : Result}
    (hk : s.workers k = .requeueing proc stolen res)
    (hs : s.putBack k proc stolen res = some s') : ∃ L', Custody s' L' := by
  obtain ⟨⟨rq', r⟩, hr, rfl⟩ := Option.map_eq_some_iff.mp hs
  rcases RunQueue.insert_cases h.holds hr with ⟨_, rfl, hh'⟩ | ⟨_, rfl, hh'⟩
  · exact ⟨L, h.release hh' (fun q _ => state_setReductions _ _ _ _) stolen res⟩
  · exact ⟨_, h.insert hk hh'⟩

theorem custody_step {code : List Instruction} (h : Custody s L) (hok : s.Settled k)
    (hs : s.step code k = some s') : ∃ L', Custody s' L' := by
  unfold Pool.step at hs
  unfold Pool.Settled at hok
  cases hk : s.workers k with
  | idle =>
    rw [hk] at hs hok
    exact h.take mem_dequeueOrder hok rfl rfl hs
  | stealing =>
    rw [hk] at hs hok
    exact h.take mem_stealOrder hok rfl rfl hs
  | got proc stolen =>
    rw [hk] at hs
    cases hs
    have hheld : (s.workers k).holds = some proc := by rw [hk]; rfl
    have hno : s.halted proc = false := h.not_halted hheld fun _ _ he => by rw [hk] at he; cases he
    refine ⟨L, h.move h.holds (Or.inr hheld.symm) rfl
      (fun q hq => setState_other s.world _ (ne_of_halted hno hq)) fun q hq he => ?_⟩
    exact ne_of_halted hno hq (Option.some.inj he).symm
  | ready proc stolen =>
    rw [hk] at hs
    obtain ⟨sl, hsl, rfl⟩ := Option.map_eq_some_iff.mp hs
    exact ⟨L, h.execute hk hsl⟩
  | executed proc stolen res =>
    rw [hk] at hs
    cases hs
    split
    · -- an exited process is not put back, so this one has not halted
      rename_i hmust
      refine ⟨L, h.move h.holds (Or.inr (by rw [hk]; rfl)) rfl (fun _ _ => rfl) fun q hq he => ?_⟩
      cases he
      rw [(h.gone proc hq).1] at hmust
      simp [mustRequeue] at hmust
    · exact ⟨L, h.release h.holds (fun _ _ => rfl) stolen res⟩
  | requeueing proc stolen res =>
    rw [hk] at hs
    exact h.putBack hk hs
  | inserted proc stolen res =>
    rw [hk] at hs
    cases hs
    -- the state is owed to a process in the queue, and a halted one is not there
    have hin : proc ∈ queued L := h.owed k proc (by rw [hk]; rfl)
    have hne : ∀ q, s.halted q = true → q ≠ proc := by
      rintro q hq rfl
      exact (h.gone q hq).2.1 hin
    exact ⟨L, h.release h.holds (fun q hq => setState_other s.world _ (hne q hq)) stolen res⟩

end Steps

/-! ### Every interleaving -/

/-- **Exclusive ownership.**  For any workers and every interleaving of their steps, from a queue
that holds each process at most once: a process is in the queue at most once, not in the queue when
a worker has it, and never with two workers. -/
theorem exclusive_of_run {κ : Type} [DecidableEq κ] (code : List Instruction) {rq : RunQueue}
    {L : Priority → List (Nat × ProcId)} (hrq : rq.Holds L) (honce : (queued L).Nodup)
    (world : World) (ks : List κ) (s : Pool κ)
    (hrun : run (Pool.step code) (Pool.start rq world) ks = some s) :
    ∃ L', Exclusive s.rq s.hands L' := by
  let inv : Pool κ → Prop := fun s => ∃ L, Exclusive s.rq s.hands L
  have hinit : inv (Pool.start rq world) := by
    refine ⟨L, hrq, honce, ?_, ?_⟩
    · intro k proc hk
      cases hk
    · intro k k' proc hk
      cases hk
  exact run_invariant inv (fun s k s' ⟨_, hi⟩ hs => exclusive_step hi hs) hinit hrun

/-- **A halted process stays halted, where every removal is settled.**  For any workers and every
interleaving of their steps, from a queue that holds each process at most once: if no worker takes
a process to which another one still owes its state, then every process whose execution has
returned `BEAM_ERR_HALT` is exited from then on and neither inserted nor executed again. -/
theorem staysHalted_of_run {κ : Type} [DecidableEq κ] (code : List Instruction) {rq : RunQueue}
    {L : Priority → List (Nat × ProcId)} (hrq : rq.Holds L) (honce : (queued L).Nodup)
    (world : World) (ks : List κ) (s : Pool κ)
    (hok : Along (Pool.step code) Pool.Settled (Pool.start rq world) ks)
    (hrun : run (Pool.step code) (Pool.start rq world) ks = some s) : s.StaysHalted := by
  have hinit : ∃ L, Custody (Pool.start rq world : Pool κ) L := by
    refine ⟨L, hrq, honce, ?_, ?_, ?_, ?_, rfl⟩
    · intro k proc hk
      cases hk
    · intro k k' proc hk
      cases hk
    · intro k proc hk
      cases hk
    · intro proc hp
      cases hp
  obtain ⟨L', h⟩ := run_induct (fun s => ∃ L, Custody s L)
    (fun s k s' ⟨_, hi⟩ hu hs => custody_step hi hu hs) hinit hok hrun
  exact ⟨fun proc hp => (h.gone proc hp).1, h.again⟩

/-- A program that ends at once. -/
def haltCode : List Instruction := [{ opcode := .halt }]

/-- Two workers and one process with a single reduction left: worker 0 takes the process, is cut
short and puts it back; worker 1 takes it and runs it to its end.  Worker 0 writes the state before
worker 1 takes the process. -/
def writeFirst : List (Fin 2) := List.replicate 6 0 ++ List.replicate 4 1

/-- The same steps, but worker 0 writes the state after worker 1 has run the process. -/
def writeLast : List (Fin 2) := List.replicate 5 0 ++ List.replicate 3 1 ++ [0]

theorem exclusive_of_run_writeLast :
    ∃ s, run (Pool.step haltCode) (Pool.start queueOfOne ⟨freshMachine, budget 1⟩) writeLast =
        some s ∧ (s.workers 1).holds = some 0 ∧ ∃ L, Exclusive s.rq s.hands L := by
  obtain ⟨s, hs, hv⟩ := Option.map_eq_some_iff.mp
    (show (run (Pool.step haltCode) (Pool.start queueOfOne ⟨freshMachine, budget 1⟩)
      writeLast).map (fun s => (s.workers 1).holds) = some (some 0) by decide)
  exact ⟨s, hs, hv, exclusive_of_run haltCode holds_queueOfOne (by decide) _ writeLast s hs⟩

theorem staysHalted_of_run_writeFirst :
    ∃ s, run (Pool.step haltCode) (Pool.start queueOfOne ⟨freshMachine, budget 1⟩) writeFirst =
        some s ∧ s.halted 0 = true ∧ s.StaysHalted := by
  obtain ⟨s, hs, hh⟩ := Option.map_eq_some_iff.mp
    (show (run (Pool.step haltCode) (Pool.start queueOfOne ⟨freshMachine, budget 1⟩)
      writeFirst).map (fun s => s.halted 0) = some true by decide)
  exact ⟨s, hs, hh, staysHalted_of_run haltCode holds_queueOfOne (by decide) _ writeFirst s
    (by decide) hs⟩

/-- **A halted process comes back**: the late write makes it runnable, and worker 1, which has just
run it to its end, puts it back into the queue. -/
theorem writeLast_revives :
    ∃ s s', run (Pool.step haltCode) (Pool.start queueOfOne ⟨freshMachine, budget 1⟩) writeLast =
        some s ∧ s.halted 0 = true ∧ (s.world.sched 0).state = .runnable ∧ ¬ s.StaysHalted ∧
      run (Pool.step haltCode) s [1, 1] = some s' ∧ s'.again = true := by
  obtain ⟨s, hs, hv⟩ := Option.map_eq_some_iff.mp
    (show (run (Pool.step haltCode) (Pool.start queueOfOne ⟨freshMachine, budget 1⟩)
      writeLast).map (fun s => (s.halted 0, (s.world.sched 0).state)) = some (true, .runnable) by
        decide)
  obtain ⟨s', hs', hv'⟩ := Option.map_eq_some_iff.mp
    (show (run (Pool.step haltCode) (Pool.start queueOfOne ⟨freshMachine, budget 1⟩)
      (writeLast ++ [1, 1])).map (fun s => s.again) = some true by decide)
  rw [run_append, hs] at hs'
  simp only [Prod.mk.injEq] at hv
  refine ⟨s, s', hs, hv.1, hv.2, fun h => ?_, hs', hv'⟩
  have hstate := h.1 0 hv.1
  rw [hv.2] at hstate
  cases hstate

end BeamModular
