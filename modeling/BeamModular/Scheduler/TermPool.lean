import BeamModular.Emulator.Faithful
import BeamModular.Scheduler.Fifo
import BeamModular.Scheduler.Pool

/-!
# The pool of workers on lists and terms

The whole of a running node, said without memory: four lists of waiting processes
(`Fifo`), processes on terms (`TermWorld`), and workers that take, run and put back.
`TermPool` has the steps of `Pool`, so a run of it is an interleaving of the same workers.

`pool_faithful` says that the linked queue, the words and the pointers of the source come to
nothing more than this: every interleaving that the pool on terms can make is one that the
workers of the source make, without a fault, and at the end every worker stands at the same
place with the same result, the queue holds the same processes in the same order, and each
process has the same registers, stack, handlers, messages and state.
-/

namespace BeamModular

namespace TermWorld

def setState (w : TermWorld) (self : ProcId) (state : ProcState) : TermWorld :=
  { w with sched := enters w.sched self state }

def setReductions (w : TermWorld) (self : ProcId) (reductions : Int) : TermWorld :=
  { w with sched := Function.update w.sched self { w.sched self with reductions := reductions } }

end TermWorld

/-- The lists, the processes on terms and the workers. -/
structure TermPool (κ : Type) where
  queue : Fifo
  world : TermWorld
  workers : κ → WorkerPc
  halted : ProcId → Bool
  again : Bool

namespace TermPool

variable {κ : Type} [DecidableEq κ]

/-- A removal; `other` is where the worker goes when there is nothing. -/
def remove (t : TermPool κ) (k : κ) (level : Option Priority) (stolen : Bool) (other : WorkerPc) :
    TermPool κ :=
  let pc := match (t.queue.take level).2 with
    | none => other
    | some proc => .got proc stolen
  { t with queue := (t.queue.take level).1, workers := Function.update t.workers k pc }

/-- An insertion, or the refusal of its entry. -/
def putBack (t : TermPool κ) (k : κ) (proc : ProcId) (stolen : Bool) (res : Result) : TermPool κ :=
  let world := t.world.setReductions proc defaultReductions
  let queue := (t.queue.enqueue proc .normal).1
  if (t.queue.enqueue proc .normal).2 = .ok then
    { t with
      queue := queue
      world := world
      workers := Function.update t.workers k (.inserted proc stolen res)
      again := t.again || t.halted proc }
  else
    { t with
      queue := queue
      world := world
      workers := Function.update t.workers k (.done stolen res) }

/-- One step of the worker `k`. -/
def step (code : List Instruction) (t : TermPool κ) (k : κ) : Option (TermPool κ) :=
  match t.workers k with
  | .idle => some (t.remove k t.queue.mostUrgent false .stealing)
  | .stealing => some (t.remove k t.queue.leastUrgent true .idle)
  | .got proc stolen =>
    some { t with
      world := t.world.setState proc .running
      workers := Function.update t.workers k (.ready proc stolen) }
  | .ready proc stolen =>
    (t.world.call code proc).map fun sl =>
      { t with
        world := sl.world
        workers := Function.update t.workers k (.executed proc stolen sl.res)
        halted := Function.update t.halted proc (t.halted proc || sl.res == .errHalt)
        again := t.again || t.halted proc }
  | .executed proc stolen res =>
    let pc : WorkerPc :=
      if mustRequeue res (t.world.sched proc).state then .requeueing proc stolen res
      else .done stolen res
    some { t with workers := Function.update t.workers k pc }
  | .requeueing proc stolen res => some (t.putBack k proc stolen res)
  | .inserted proc stolen res =>
    some { t with
      world := t.world.setState proc .runnable
      workers := Function.update t.workers k (.done stolen res) }

end TermPool

/-- **The pool of the source is what the pool on terms has.** -/
structure MirroredPool {κ : Type} (s : Pool κ) (t : TermPool κ) : Prop where
  queue : s.rq.Models t.queue
  world : MirroredWorld s.world t.world
  workers : s.workers = t.workers
  halted : s.halted = t.halted
  again : s.again = t.again

section

variable {κ : Type} [DecidableEq κ] {code : List Instruction} {s : Pool κ} {t t' : TermPool κ} {k : κ}

theorem MirroredWorld.setState {w : World} {t : TermWorld} (h : MirroredWorld w t) (self : ProcId)
    (state : ProcState) : MirroredWorld (w.setState self state) (t.setState self state) :=
  ⟨⟨h.separated, h.mirrors⟩, by rw [World.setState, TermWorld.setState, h.sched]; rfl⟩

theorem MirroredWorld.setReductions {w : World} {t : TermWorld} (h : MirroredWorld w t)
    (self : ProcId) (reductions : Int) :
    MirroredWorld (w.setReductions self reductions) (t.setReductions self reductions) :=
  ⟨⟨h.separated, h.mirrors⟩, by rw [World.setReductions, TermWorld.setReductions, h.sched]⟩

theorem MirroredPool.remove (h : MirroredPool s t) (order : List Priority) (stolen : Bool)
    (other : WorkerPc) :
    ∃ s', s.remove k order stolen other = some s' ∧
      MirroredPool s' (t.remove k (t.queue.firstLevel order) stolen other) := by
  obtain ⟨rq', htake, hqueue⟩ := h.queue.take order
  rw [Pool.remove, htake, Option.map_some]
  refine ⟨_, rfl, hqueue, h.world, ?_, h.halted, h.again⟩
  dsimp only
  rw [h.workers]
  rfl

theorem MirroredPool.putBack (h : MirroredPool s t) (proc : ProcId) (stolen : Bool) (res : Result) :
    ∃ s', s.putBack k proc stolen res = some s' ∧
      MirroredPool s' (t.putBack k proc stolen res) := by
  obtain ⟨rq', hinsert, hqueue⟩ := h.queue.insert proc .normal
  have hworld := h.world.setReductions proc defaultReductions
  rw [Pool.putBack, hinsert, Option.map_some, TermPool.putBack]
  dsimp only
  by_cases hok : (t.queue.enqueue proc .normal).2 = .ok
  · rw [if_pos hok, if_pos hok]
    refine ⟨_, rfl, hqueue, hworld, ?_, h.halted, ?_⟩
    · dsimp only; rw [h.workers]
    · dsimp only; rw [h.again, h.halted]
  · rw [if_neg hok, if_neg hok]
    refine ⟨_, rfl, hqueue, hworld, ?_, h.halted, h.again⟩
    dsimp only
    rw [h.workers]

/-- **One step of a worker**, wherever it stands. -/
theorem MirroredPool.step (h : MirroredPool s t) (ht : t.step code k = some t') :
    ∃ s', s.step code k = some s' ∧ MirroredPool s' t' := by
  unfold TermPool.step at ht
  unfold Pool.step
  rw [h.workers]
  cases hk : t.workers k with
  | idle =>
    rw [hk] at ht
    cases ht
    rw [t.queue.mostUrgent_eq]
    exact h.remove dequeueOrder false .stealing
  | stealing =>
    rw [hk] at ht
    cases ht
    rw [t.queue.leastUrgent_eq]
    exact h.remove stealOrder true .idle
  | got proc stolen =>
    rw [hk] at ht
    cases ht
    exact ⟨_, rfl, h.queue, h.world.setState proc .running, rfl, h.halted, h.again⟩
  | ready proc stolen =>
    rw [hk] at ht
    obtain ⟨ts, hcall, rfl⟩ := Option.map_eq_some_iff.mp ht
    obtain ⟨sl, hsl, hworld, _, hshow⟩ := h.world.call hcall
    dsimp only
    rw [hsl, Option.map_some, hshow.res, h.halted, h.again]
    exact ⟨_, rfl, h.queue, hworld, rfl, rfl, rfl⟩
  | executed proc stolen res =>
    rw [hk] at ht
    cases ht
    dsimp only
    rw [h.world.sched]
    exact ⟨_, rfl, h.queue, h.world, rfl, h.halted, h.again⟩
  | requeueing proc stolen res =>
    rw [hk] at ht
    cases ht
    exact h.putBack proc stolen res
  | inserted proc stolen res =>
    rw [hk] at ht
    cases ht
    exact ⟨_, rfl, h.queue, h.world.setState proc .runnable, rfl, h.halted, h.again⟩

/-- **The node is faithful**: every interleaving of the workers that the pool on terms can make, the
workers of the source make, and the pools mirror each other at its end. -/
theorem pool_faithful {ks : List κ} (h : MirroredPool s t)
    (hrun : run (TermPool.step code) t ks = some t') :
    ∃ s', run (Pool.step code) s ks = some s' ∧ MirroredPool s' t' :=
  simulates_run (fun _ _ _ _ h ht => h.step ht) ks h hrun

/-- The two of `neighbours` wait, and two workers take one each and run it. -/
theorem pool_faithful_neighbours : ∃ rq₁ rq₂ s',
    (RunQueue.create fun _ => true).insert 0 .normal = some (rq₁, .ok) ∧
      rq₁.insert 1 .normal = some (rq₂, .ok) ∧
      run (Pool.step sendPair) (Pool.start rq₂ neighbours) [(0 : Fin 2), 1, 1, 0, 0, 1] = some s' ∧
      s'.workers = fun k => .executed k.val false .errHalt := by
  obtain ⟨rq₁, hi₁, hm₁⟩ := (models_create fun _ => true).insert 0 .normal
  obtain ⟨rq₂, hi₂, hm₂⟩ := hm₁.insert 1 .normal
  let queue := (((Fifo.create fun _ => true).enqueue 0 .normal).1.enqueue 1 .normal).1
  let t : TermPool (Fin 2) := ⟨queue, neighboursOnTerms, fun _ => .idle, fun _ => false, false⟩
  obtain ⟨t', hrun, hworkers⟩ := Option.map_eq_some_iff.mp
    (show (run (TermPool.step sendPair) t [0, 1, 1, 0, 0, 1]).map TermPool.workers
      = some fun k => .executed k.val false .errHalt by decide +kernel)
  have hstart : MirroredPool (Pool.start rq₂ neighbours) t :=
    ⟨hm₂, mirrored_neighbours, rfl, rfl, rfl⟩
  obtain ⟨s', hrun', h'⟩ := pool_faithful hstart hrun
  exact ⟨rq₁, rq₂, s', hi₁, hi₂, hrun', h'.workers.trans hworkers⟩

end

end BeamModular
