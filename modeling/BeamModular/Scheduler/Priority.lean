import BeamModular.Scheduler.Pool

/-!
# Priorities

A process waits at the level it was enqueued at.  Neither the node nor the worker
keeps that level: `beam_scheduler_step` and the stealing worker both put a process
back with `BEAM_PRIO_NORMAL`, wherever they took it from, and `beam_process_get_priority`
has no caller.

`PrioPool` is the pool with what the code leaves out, the level that a worker's process
came from, and with a host that enqueues processes while the workers run.  `Moves` says
once what a worker's step does to the levels.  A process comes back to its level
exactly if that was the normal one (`keepsLevel_iff`); where every process that is put
back came from there, everyone waits at the level the host chose, and each removal
takes a process of the first level in question (`Homed.servesInOrder`).
-/

namespace BeamModular

/-! ### What a step of a worker does to the levels -/

/-- The order in which a worker goes through the levels. -/
def WorkerPc.order : WorkerPc → Option (List Priority)
  | .idle => some dequeueOrder
  | .stealing => some stealOrder
  | _ => none

/-- The worker is about to put its process back. -/
def WorkerPc.requeues : WorkerPc → Bool
  | .requeueing _ _ _ => true
  | _ => false

theorem requeues_iff {pc : WorkerPc} :
    pc.requeues = true ↔ ∃ proc stolen res, pc = .requeueing proc stolen res := by
  cases pc <;> simp [WorkerPc.requeues]

section Moves

variable {κ : Type} {s s' : Pool κ} {L : Priority → List (Nat × ProcId)} {k : κ}

/-- **What a step of the worker can do**: leave the levels, take the first process of one, or put
one back at the normal level. -/
inductive Pool.Moves (s : Pool κ) (L : Priority → List (Nat × ProcId)) (k : κ) (s' : Pool κ) : Prop
  | keep (hrq : s'.rq.Holds L)
      (hholds : ∀ proc, (s'.workers k).holds = some proc → (s.workers k).holds = some proc)
  | take (order : List Priority) (prio : Priority) (x : Nat × ProcId) (R : List (Nat × ProcId))
      (hpc : (s.workers k).order = some order) (hfirst : s.rq.firstLevel order = some prio)
      (hL : L prio = x :: R) (hrq : s'.rq.Holds (Function.update L prio R))
      (hholds : (s'.workers k).holds = some x.2)
  | put (proc : ProcId) (stolen : Bool) (res : Result)
      (hpc : s.workers k = .requeueing proc stolen res) (hgrant : s.rq.alloc 0 = true)
      (hrq : s'.rq.Holds (Function.update L .normal (L .normal ++ [(s.rq.nodes.length, proc)])))
      (hholds : (s'.workers k).holds = none)

variable [DecidableEq κ]

theorem remove_moves (h : s.rq.Holds L) {order : List Priority} {stolen : Bool} {other : WorkerPc}
    (hall : ∀ prio, prio ∈ order) (hpc : (s.workers k).order = some order)
    (hother : other.holds = none) (hs : s.remove k order stolen other = some s') :
    s.Moves L k s' := by
  obtain ⟨r, hr, rfl⟩ := Option.map_eq_some_iff.mp hs
  rcases RunQueue.take_level h hall with ⟨_, ht⟩ | ⟨prio, x, R, hf, hL, rq', ht, hh', _⟩
  · rw [ht] at hr
    cases hr
    refine .keep h fun proc hproc => ?_
    dsimp only at hproc
    rw [Function.update_self, hother] at hproc
    cases hproc
  · rw [ht] at hr
    cases hr
    refine .take order prio x R hpc hf hL hh' ?_
    dsimp only
    rw [Function.update_self]
    rfl

theorem putBack_moves (h : s.rq.Holds L) {proc : ProcId} {stolen : Bool} {res : Result}
    (hpc : s.workers k = .requeueing proc stolen res)
    (hs : s.putBack k proc stolen res = some s') : s.Moves L k s' := by
  obtain ⟨⟨rq', r⟩, hr, rfl⟩ := Option.map_eq_some_iff.mp hs
  rcases RunQueue.insert_cases h hr with ⟨_, rfl, hh'⟩ | ⟨hg, rfl, hh'⟩
  · refine .keep hh' fun q hq => ?_
    change (Function.update s.workers k (.done stolen res) k).holds = some q at hq
    rw [Function.update_self, (done_holds stolen res).1] at hq
    cases hq
  · refine .put proc stolen res hpc hg hh' ?_
    change (Function.update s.workers k (.inserted proc stolen res) k).holds = none
    rw [Function.update_self]
    rfl

theorem moves_keep (h : s.rq.Holds L) {world : World} {pc : WorkerPc} {halted : ProcId → Bool}
    {again : Bool} (hpc : pc.holds = none ∨ pc.holds = (s.workers k).holds) :
    s.Moves L k ⟨s.rq, world, Function.update s.workers k pc, halted, again⟩ := by
  refine .keep h fun proc hproc => ?_
  dsimp only at hproc
  rw [Function.update_self] at hproc
  rcases hpc with hnone | hsame
  · rw [hnone] at hproc
    cases hproc
  · rw [← hsame, hproc]

theorem step_moves {code : List Instruction} (h : s.rq.Holds L) (hs : s.step code k = some s') :
    s.Moves L k s' := by
  unfold Pool.step at hs
  cases hk : s.workers k with
  | idle =>
    rw [hk] at hs
    exact remove_moves h mem_dequeueOrder (by rw [hk]; rfl) rfl hs
  | stealing =>
    rw [hk] at hs
    exact remove_moves h mem_stealOrder (by rw [hk]; rfl) rfl hs
  | got proc stolen =>
    rw [hk] at hs
    cases hs
    exact moves_keep h (Or.inr (by rw [hk]; rfl))
  | ready proc stolen =>
    rw [hk] at hs
    obtain ⟨sl, _, rfl⟩ := Option.map_eq_some_iff.mp hs
    exact moves_keep h (Or.inr (by rw [hk]; rfl))
  | executed proc stolen res =>
    rw [hk] at hs
    cases hs
    split
    · exact moves_keep h (Or.inr (by rw [hk]; rfl))
    · exact moves_keep h (Or.inl (done_holds stolen res).1)
  | requeueing proc stolen res =>
    rw [hk] at hs
    exact putBack_moves h hk hs
  | inserted proc stolen res =>
    rw [hk] at hs
    cases hs
    exact moves_keep h (Or.inl (done_holds stolen res).1)

theorem step_workers_other {code : List Instruction} {j : κ} (hj : j ≠ k)
    (hs : s.step code k = some s') : s'.workers j = s.workers j := by
  have hremove : ∀ order stolen other, s.remove k order stolen other = some s' →
      s'.workers j = s.workers j := by
    intro order stolen other h
    obtain ⟨r, _, rfl⟩ := Option.map_eq_some_iff.mp h
    exact Function.update_of_ne hj _ _
  unfold Pool.step at hs
  cases hk : s.workers k with
  | idle => rw [hk] at hs; exact hremove _ _ _ hs
  | stealing => rw [hk] at hs; exact hremove _ _ _ hs
  | got proc stolen => rw [hk] at hs; cases hs; exact Function.update_of_ne hj _ _
  | ready proc stolen =>
    rw [hk] at hs
    obtain ⟨sl, _, rfl⟩ := Option.map_eq_some_iff.mp hs
    exact Function.update_of_ne hj _ _
  | executed proc stolen res => rw [hk] at hs; cases hs; exact Function.update_of_ne hj _ _
  | requeueing proc stolen res =>
    rw [hk] at hs
    obtain ⟨r, _, rfl⟩ := Option.map_eq_some_iff.mp hs
    split <;> exact Function.update_of_ne hj _ _
  | inserted proc stolen res => rw [hk] at hs; cases hs; exact Function.update_of_ne hj _ _

end Moves

/-! ### The pool and its host -/

/-- A step of a worker, or of the host: an insertion under the lock and, later, the write of the
process's state. -/
inductive PrioAct (κ : Type)
  | work (k : κ)
  | enqueue (proc : ProcId) (prio : Priority)
  | written (proc : ProcId)

/-- The pool, the level from which each worker has taken its last process, and the processes whose
state the host has still to write. -/
structure PrioPool (κ : Type) where
  pool : Pool κ
  level : κ → Priority
  owed : List ProcId

namespace PrioPool

variable {κ : Type}

def start (rq : RunQueue) (world : World) : PrioPool κ :=
  ⟨Pool.start rq world, fun _ => .normal, []⟩

/-- The level of the worker's process after its next step. -/
def nextLevel (s : PrioPool κ) (k : κ) : Priority :=
  (((s.pool.workers k).order.bind s.pool.rq.firstLevel)).getD (s.level k)

variable [DecidableEq κ]

def step (code : List Instruction) (s : PrioPool κ) : PrioAct κ → Option (PrioPool κ)
  | .work k => (s.pool.step code k).map fun pool =>
      { s with pool := pool, level := Function.update s.level k (s.nextLevel k) }
  | .enqueue proc prio => (s.pool.rq.insert proc prio).map fun r =>
      { s with
        pool := { s.pool with rq := r.1 }
        owed := if r.2 = .ok then proc :: s.owed else s.owed }
  | .written proc =>
    if proc ∈ s.owed then
      some { s with
        pool := { s.pool with world := s.pool.world.setState proc .runnable }
        owed := s.owed.erase proc }
    else none

/-- **A process that is put back keeps its level**: it is placed behind the others of the level
it was taken from. -/
def KeepsLevel (code : List Instruction) (s : PrioPool κ) (k : κ) : Prop :=
  ∃ s' proc L node, s.step code (.work k) = some s' ∧
    (s.pool.workers k).holds = some proc ∧ s.pool.rq.Holds L ∧
    s'.pool.rq.Holds (Function.update L (s.level k) (L (s.level k) ++ [(node, proc)]))

omit [DecidableEq κ] in
/-- **The order of service**, in a state: every process waits at a level that it was enqueued at,
and so does the one that a removal would take next, with nobody at a level that comes earlier. -/
def ServesInOrder (enqueued : ProcId → Priority → Prop) (s : PrioPool κ) : Prop :=
  ∃ L, s.pool.rq.Holds L ∧ (∀ prio, ∀ x ∈ L prio, enqueued x.2 prio) ∧
    ∀ order ∈ [dequeueOrder, stealOrder], ∀ proc, s.pool.next order = some proc →
      ∃ prio, enqueued proc prio ∧ ∀ prio', L prio' ≠ [] → order.idxOf prio ≤ order.idxOf prio'

omit [DecidableEq κ] in
/-- A process that the step puts back comes from the normal level, or its node is refused. -/
def FromNormal (s : PrioPool κ) : PrioAct κ → Prop
  | .work k => (s.pool.workers k).requeues = true → s.pool.rq.alloc 0 = true → s.level k = .normal
  | _ => True

instance (s : PrioPool κ) : (act : PrioAct κ) → Decidable (s.FromNormal act)
  | .work _ => inferInstanceAs (Decidable (_ → _ → _))
  | .enqueue _ _ => .isTrue trivial
  | .written _ => .isTrue trivial

end PrioPool

/-! ### One process that is put back -/

section Runs

variable {κ : Type} [DecidableEq κ] {code : List Instruction} {s s' : PrioPool κ}
  {L : Priority → List (Nat × ProcId)} {k : κ}

theorem prioPool_holds (h : ∃ L, s.pool.rq.Holds L) {act : PrioAct κ}
    (hs : s.step code act = some s') : ∃ L, s'.pool.rq.Holds L := by
  obtain ⟨L, h⟩ := h
  cases act with
  | work k =>
    obtain ⟨pool, hp, rfl⟩ := Option.map_eq_some_iff.mp hs
    cases step_moves h hp with
    | keep hrq => exact ⟨_, hrq⟩
    | take _ _ _ _ _ _ _ hrq => exact ⟨_, hrq⟩
    | put _ _ _ _ _ hrq => exact ⟨_, hrq⟩
  | enqueue proc prio =>
    obtain ⟨⟨rq', r⟩, hr, rfl⟩ := Option.map_eq_some_iff.mp hs
    rcases RunQueue.insert_cases h hr with ⟨_, _, hh⟩ | ⟨_, _, hh⟩
    · exact ⟨L, hh⟩
    · exact ⟨_, hh⟩
  | written proc =>
    rw [PrioPool.step] at hs
    split at hs
    · cases hs
      exact ⟨L, h⟩
    · cases hs

/-- **A process comes back to its level** exactly if that is the normal one. -/
theorem keepsLevel_iff (h : s.pool.rq.Holds L) (hput : (s.pool.workers k).requeues = true)
    (hgrant : s.pool.rq.alloc 0 = true) : s.KeepsLevel code k ↔ s.level k = .normal := by
  obtain ⟨proc, stolen, res, hk⟩ := requeues_iff.mp hput
  obtain ⟨rq', hi, hh, _⟩ := RunQueue.insert_holds h proc .normal hgrant
  have hstep : ∃ s', s.step code (.work k) = some s' ∧ s'.pool.rq = rq' := by
    rw [PrioPool.step, Pool.step, hk]
    dsimp only
    rw [Pool.putBack, hi]
    exact ⟨_, rfl, rfl⟩
  obtain ⟨s', hs, rfl⟩ := hstep
  constructor
  · rintro ⟨s₁, q, M, node, hs₁, _, hM, hM'⟩
    rw [hs] at hs₁
    cases hs₁
    rw [hM.unique h] at hM'
    have hsame := congrFun (hM'.unique hh) .normal
    by_contra hne
    rw [Function.update_of_ne (Ne.symm hne), Function.update_self] at hsame
    simpa using congrArg List.length hsame
  · intro hl
    refine ⟨s', proc, L, s.pool.rq.nodes.length, hs, by rw [hk]; rfl, h, ?_⟩
    rw [hl]
    exact hh

/-! ### Every run -/

/-- Everyone waits at a level of its own, and every worker knows one of its process. -/
structure Homed (enqueued : ProcId → Priority → Prop) (s : PrioPool κ)
    (L : Priority → List (Nat × ProcId)) : Prop where
  holds : s.pool.rq.Holds L
  waiting : ∀ prio, ∀ x ∈ L prio, enqueued x.2 prio
  taken : ∀ k proc, (s.pool.workers k).holds = some proc → enqueued proc (s.level k)

variable {enqueued : ProcId → Priority → Prop}

omit [DecidableEq κ] in
theorem nextLevel_of_holds {proc : ProcId} (h : (s.pool.workers k).holds = some proc) :
    s.nextLevel k = s.level k := by
  rw [PrioPool.nextLevel]
  cases hk : s.pool.workers k with
  | idle => rw [hk] at h; cases h
  | stealing => rw [hk] at h; cases h
  | got _ _ => rfl
  | ready _ _ => rfl
  | executed _ _ _ => rfl
  | requeueing _ _ _ => rfl
  | inserted _ _ _ => rfl

theorem waiting_append (hwait : ∀ prio, ∀ x ∈ L prio, enqueued x.2 prio) {proc : ProcId}
    {prio : Priority} (hproc : enqueued proc prio) (node : Nat) :
    ∀ p, ∀ x ∈ Function.update L prio (L prio ++ [(node, proc)]) p, enqueued x.2 p := by
  intro p x hx
  rw [Function.update_apply] at hx
  split at hx
  · rename_i hp
    rcases List.mem_append.mp hx with hx | hx
    · exact hp ▸ hwait prio x hx
    · rw [List.mem_singleton.mp hx, hp]
      exact hproc
  · exact hwait p x hx

/-- **A worker's step**, the process put back coming from the normal level. -/
theorem Homed.work (h : Homed enqueued s L) (hok : s.FromNormal (.work k))
    (hs : s.step code (.work k) = some s') : ∃ L', Homed enqueued s' L' := by
  obtain ⟨pool, hp, rfl⟩ := Option.map_eq_some_iff.mp hs
  have hother : ∀ j proc, j ≠ k → (pool.workers j).holds = some proc →
      enqueued proc (Function.update s.level k (s.nextLevel k) j) := by
    intro j proc hj hproc
    rw [step_workers_other hj hp] at hproc
    rw [Function.update_of_ne hj]
    exact h.taken j proc hproc
  cases step_moves h.holds hp with
  | keep hrq hholds =>
    refine ⟨L, hrq, h.waiting, fun j proc hproc => ?_⟩
    by_cases hj : j = k
    · subst hj
      have hheld := hholds proc hproc
      dsimp only
      rw [Function.update_self, nextLevel_of_holds hheld]
      exact h.taken j proc hheld
    · exact hother j proc hj hproc
  | take order prio x R hpc hfirst hL hrq hholds =>
    refine ⟨_, hrq, fun p y hy => ?_, fun j proc hproc => ?_⟩
    · rw [Function.update_apply] at hy
      split at hy
      · rename_i hpp
        subst hpp
        exact h.waiting p y (hL ▸ List.mem_cons_of_mem x hy)
      · exact h.waiting p y hy
    · by_cases hj : j = k
      · subst hj
        dsimp only at hproc ⊢
        rw [hholds] at hproc
        cases hproc
        rw [Function.update_self, PrioPool.nextLevel, hpc, Option.bind_some, hfirst]
        exact h.waiting prio x (hL ▸ List.mem_cons_self)
      · exact hother j proc hj hproc
  | put proc stolen res hpc hgrant hrq hholds =>
    have hlevel := h.taken k proc (by rw [hpc]; rfl)
    rw [hok (requeues_iff.mpr ⟨proc, stolen, res, hpc⟩) hgrant] at hlevel
    refine ⟨_, hrq, waiting_append h.waiting hlevel _, fun j q hq => ?_⟩
    by_cases hj : j = k
    · subst hj
      dsimp only at hq
      rw [hholds] at hq
      cases hq
    · exact hother j q hj hq

/-- **One step** of a worker or of the host. -/
theorem Homed.step (h : Homed enqueued s L) {act : PrioAct κ} (hok : s.FromNormal act)
    (henq : ∀ proc prio, act = .enqueue proc prio → enqueued proc prio)
    (hs : s.step code act = some s') : ∃ L', Homed enqueued s' L' := by
  cases act with
  | work k => exact h.work hok hs
  | enqueue proc prio =>
    obtain ⟨⟨rq', r⟩, hr, rfl⟩ := Option.map_eq_some_iff.mp hs
    rcases RunQueue.insert_cases h.holds hr with ⟨_, _, hh⟩ | ⟨_, _, hh⟩
    · exact ⟨L, hh, h.waiting, h.taken⟩
    · exact ⟨_, hh, waiting_append h.waiting (henq proc prio rfl) _, h.taken⟩
  | written proc =>
    rw [PrioPool.step] at hs
    split at hs
    · cases hs
      exact ⟨L, h.holds, h.waiting, h.taken⟩
    · cases hs

theorem idxOf_firstLevel {rq : RunQueue} (h : rq.Holds L) {order : List Priority}
    {prio prio' : Priority} (hf : rq.firstLevel order = some prio) (hne : L prio' ≠ []) :
    order.idxOf prio ≤ order.idxOf prio' := by
  obtain ⟨hp, as, bs, horder, hbefore⟩ := List.find?_eq_some_iff_append.mp hf
  have hin : ∀ p, (rq.queues p).head.isSome = true → p ∉ as := fun p hhead hm => by
    simpa [hhead] using hbefore p hm
  have hprio' := hin prio' ((RunQueue.head_isSome_iff h prio').mpr hne)
  rw [horder, List.idxOf_append_of_notMem (hin prio hp), List.idxOf_append_of_notMem hprio',
    List.idxOf_cons_self]
  omega

omit [DecidableEq κ] in
/-- Where everyone waits at a level of its own, the next one to be served is of the first level. -/
theorem Homed.servesInOrder (h : Homed enqueued s L) : s.ServesInOrder enqueued := by
  refine ⟨L, h.holds, h.waiting, fun order horder proc hnext => ?_⟩
  have hall : ∀ prio, prio ∈ order := by
    intro prio
    simp only [List.mem_cons, List.not_mem_nil, or_false] at horder
    rcases horder with rfl | rfl
    · exact mem_dequeueOrder prio
    · exact mem_stealOrder prio
  rw [Pool.next] at hnext
  rcases RunQueue.take_level h.holds hall with ⟨_, ht⟩ | ⟨prio, x, R, hf, hL, rq', ht, _, _⟩
  · rw [ht] at hnext
    cases hnext
  · rw [ht] at hnext
    cases hnext
    exact ⟨prio, h.waiting prio x (hL ▸ List.mem_cons_self), fun _ => idxOf_firstLevel h.holds hf⟩

/-- **Priorities over a run.**  For any workers and every interleaving of their steps and the
host's, from any queue: a process that is put back is placed at the level it was taken from exactly
if that is the normal one, and in a run where this is so each time, every process waits at a level
it was enqueued at and is served in its turn. -/
theorem keepsPriority (code : List Instruction) {rq : RunQueue} (hrq : rq.Holds L) (world : World)
    (acts : List (PrioAct κ)) (s : PrioPool κ)
    (hrun : run (PrioPool.step code) (PrioPool.start rq world) acts = some s) :
    (∀ k, (s.pool.workers k).requeues = true → s.pool.rq.alloc 0 = true →
      (s.KeepsLevel code k ↔ s.level k = .normal)) ∧
    (Along (PrioPool.step code) PrioPool.FromNormal (PrioPool.start rq world) acts →
      s.ServesInOrder fun proc prio =>
        (∃ node, (node, proc) ∈ L prio) ∨ PrioAct.enqueue proc prio ∈ acts) := by
  obtain ⟨M, hM⟩ := run_invariant (fun s : PrioPool κ => ∃ L, s.pool.rq.Holds L)
    (fun _ _ _ hi hs => prioPool_holds hi hs) ⟨L, hrq⟩ hrun
  refine ⟨fun k hput hgrant => keepsLevel_iff hM hput hgrant, fun hok => ?_⟩
  let enqueued : ProcId → Priority → Prop := fun proc prio =>
    (∃ node, (node, proc) ∈ L prio) ∨ PrioAct.enqueue proc prio ∈ acts
  have hstart : ∃ L, Homed enqueued (PrioPool.start rq world : PrioPool κ) L := by
    refine ⟨L, hrq, fun prio x hx => Or.inl ⟨x.1, hx⟩, fun k proc hk => ?_⟩
    cases hk
  have henq : Along (PrioPool.step code)
      (fun _ act => ∀ proc prio, act = .enqueue proc prio → enqueued proc prio)
      (PrioPool.start rq world) acts :=
    Along.of_forall _ fun act hact proc prio he => Or.inr (he ▸ hact)
  obtain ⟨L', h⟩ := run_induct (fun s : PrioPool κ => ∃ L, Homed enqueued s L)
    (fun _ _ _ ⟨_, hi⟩ hu hs => hi.step hu.1 hu.2 hs) hstart (hok.and henq) hrun
  exact h.servesInOrder

end Runs

/-- A process with a single reduction left is enqueued at this level, taken and cut short; another
one is enqueued at the second level; the worker is about to put its process back. -/
def cutOnce (prio : Priority) : List (PrioAct Unit) :=
  [.enqueue 0 prio, .written 0, .work (), .work (), .work (), .enqueue 1 .high, .written 1,
    .work ()]

theorem keepsPriority_cutOnce :
    ∃ s, run (PrioPool.step haltCode)
        (PrioPool.start (RunQueue.create fun _ => true) ⟨freshMachine, budget 1⟩)
        (cutOnce .normal) = some s ∧
      s.KeepsLevel haltCode () ∧ s.ServesInOrder fun proc prio =>
        (∃ node, (node, proc) ∈ ([] : List (Nat × ProcId))) ∨
          PrioAct.enqueue proc prio ∈ cutOnce .normal := by
  obtain ⟨s, hs, hv⟩ := Option.map_eq_some_iff.mp
    (show (run (PrioPool.step haltCode)
      (PrioPool.start (RunQueue.create fun _ => true) ⟨freshMachine, budget 1⟩)
      (cutOnce .normal)).map (fun s => (s.level (), s.pool.workers (), s.pool.rq.alloc 0)) =
        some (.normal, .requeueing 0 false .ok, true) by decide)
  simp only [Prod.mk.injEq] at hv
  obtain ⟨hlevel, hpc, hgrant⟩ := hv
  obtain ⟨hone, hall⟩ := keepsPriority haltCode (RunQueue.holds_create fun _ => true)
    ⟨freshMachine, budget 1⟩ (cutOnce .normal) s hs
  exact ⟨s, hs, (hone () (by rw [hpc]; rfl) hgrant).mpr hlevel, hall (by decide)⟩

/-- **A process of the highest priority is put back behind one of a lower priority**, which the next
removal takes. -/
theorem maxPriority_lost :
    ∃ s s', run (PrioPool.step haltCode)
        (PrioPool.start (RunQueue.create fun _ => true) ⟨freshMachine, budget 1⟩)
        (cutOnce .max) = some s ∧
      s.level () = .max ∧ (s.pool.workers ()).holds = some 0 ∧ ¬s.KeepsLevel haltCode () ∧
      s.step haltCode (.work ()) = some s' ∧ s'.pool.next dequeueOrder = some 1 := by
  obtain ⟨s, hs, hv⟩ := Option.map_eq_some_iff.mp
    (show (run (PrioPool.step haltCode)
      (PrioPool.start (RunQueue.create fun _ => true) ⟨freshMachine, budget 1⟩)
      (cutOnce .max)).map (fun s => (s.level (), s.pool.workers (), s.pool.rq.alloc 0,
        (s.step haltCode (.work ())).map fun s' => s'.pool.next dequeueOrder)) =
        some (.max, .requeueing 0 false .ok, true, some (some 1)) by decide)
  simp only [Prod.mk.injEq] at hv
  obtain ⟨hlevel, hpc, hgrant, hnext⟩ := hv
  obtain ⟨s', hs', hn⟩ := Option.map_eq_some_iff.mp hnext
  obtain ⟨M, hM⟩ := run_invariant (fun s : PrioPool Unit => ∃ L, s.pool.rq.Holds L)
    (fun _ _ _ hi hs => prioPool_holds hi hs) ⟨_, RunQueue.holds_create fun _ => true⟩ hs
  refine ⟨s, s', hs, hlevel, by rw [hpc]; rfl, fun hkeeps => ?_, hs', hn⟩
  rw [keepsLevel_iff hM (by rw [hpc]; rfl) hgrant, hlevel] at hkeeps
  cases hkeeps

end BeamModular
