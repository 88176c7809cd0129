import BeamModular.Scheduler.Priority
import Mathlib.Algebra.BigOperators.Group.Finset.Basic

/-!
# No process is lost

A pool of workers over one run queue, with a host that enqueues processes while they
run.  A process is in the queue, in the hands of a worker, or gone.  `entered` is what
the host puts in with a step and `departed` what a step lets go: a process that was
executed and is not put back, because it has halted, exited or waits, and a process whose
node the allocator refuses when it is put back.

`Pool.step_balance` is one step of a worker, in these terms; `pool_conserves` is every
run, whatever the order of the workers' steps and the host's.
-/

namespace BeamModular

/-- The processes in a hand. -/
def inHand (held : Option ProcId) : Multiset ProcId := held.elim 0 fun proc => {proc}

/-- What a step of a worker lets go. -/
def Pool.departed {κ : Type} (s : Pool κ) (k : κ) : Multiset ProcId :=
  match s.workers k with
  | .executed proc _ res => if mustRequeue res (s.world.sched proc).state then 0 else {proc}
  | .requeueing proc _ _ => if s.rq.alloc 0 then 0 else {proc}
  | _ => 0

namespace PrioPool

variable {κ : Type}

/-- What the host puts in. -/
def entered (s : PrioPool κ) : PrioAct κ → Multiset ProcId
  | .enqueue proc _ => if s.pool.rq.alloc 0 then {proc} else 0
  | _ => 0

def departed (s : PrioPool κ) : PrioAct κ → Multiset ProcId
  | .work k => s.pool.departed k
  | _ => 0

/-- A step, with what came in and what went out. -/
def ledger [DecidableEq κ] (code : List Instruction) (s : PrioPool κ) (act : PrioAct κ) :
    Option (PrioPool κ × Multiset ProcId × Multiset ProcId) :=
  (s.step code act).map fun s' => (s', s.entered act, s.departed act)

end PrioPool

/-- The processes in the workers' hands. -/
def Pool.inHands {κ : Type} [Fintype κ] (s : Pool κ) : Multiset ProcId :=
  ∑ k, inHand (s.workers k).holds

/-! ### One step -/

section Steps

variable {κ : Type} [DecidableEq κ] {s s' : Pool κ} {L : Priority → List (Nat × ProcId)} {k : κ}

/-- What the queue and the worker's hand have before a step, they have after it or it is gone. -/
def Pool.Balances (s : Pool κ) (L : Priority → List (Nat × ProcId)) (k : κ) (s' : Pool κ) : Prop :=
  ∃ L', s'.rq.Holds L' ∧ queued L + inHand (s.workers k).holds =
    queued L' + inHand (s'.workers k).holds + s.departed k

theorem remove_balance (h : s.rq.Holds L) {order : List Priority} {stolen : Bool} {other : WorkerPc}
    (hall : ∀ prio, prio ∈ order) (hhold : (s.workers k).holds = none) (hother : other.holds = none)
    (hgone : s.departed k = 0) (hs : s.remove k order stolen other = some s') :
    s.Balances L k s' := by
  obtain ⟨r, hr, rfl⟩ := Option.map_eq_some_iff.mp hs
  unfold Pool.Balances
  rw [hhold, hgone]
  dsimp only
  rw [Function.update_self]
  rcases RunQueue.take_level h hall with ⟨_, ht⟩ | ⟨prio, x, R, _, hL, rq', ht, hh', _⟩
  · rw [ht] at hr
    cases hr
    exact ⟨L, h, by rw [hother, add_zero]⟩
  · rw [ht] at hr
    cases hr
    refine ⟨_, hh', ?_⟩
    rw [queued_take hL, ← Multiset.singleton_add, add_comm {x.2}]
    rfl

theorem putBack_balance (h : s.rq.Holds L) {proc : ProcId} {stolen : Bool} {res : Result}
    (hk : s.workers k = .requeueing proc stolen res) (hs : s.putBack k proc stolen res = some s') :
    s.Balances L k s' := by
  obtain ⟨⟨rq', r⟩, hr, rfl⟩ := Option.map_eq_some_iff.mp hs
  unfold Pool.Balances Pool.departed
  rw [hk]
  rcases RunQueue.insert_cases h hr with ⟨hg, rfl, hh'⟩ | ⟨hg, rfl, hh'⟩
  · refine ⟨L, hh', ?_⟩
    change _ = queued L + inHand (Function.update s.workers k (.done stolen res) k).holds + _
    rw [Function.update_self, (done_holds stolen res).1, hg]
    exact congrArg (· + {proc}) (add_zero (queued L)).symm
  · refine ⟨_, hh', ?_⟩
    change _ = _ + inHand (Function.update s.workers k (.inserted proc stolen res) k).holds + _
    rw [Function.update_self, hg, queued_insert, ← Multiset.singleton_add]
    change queued L + {proc} = {proc} + queued L + 0 + 0
    rw [add_zero, add_zero, add_comm]

theorem keep_balance (h : s.rq.Holds L) {world : World} {pc : WorkerPc} {halted : ProcId → Bool}
    {again : Bool} (hpc : inHand (s.workers k).holds = inHand pc.holds + s.departed k) :
    s.Balances L k ⟨s.rq, world, Function.update s.workers k pc, halted, again⟩ := by
  refine ⟨L, h, ?_⟩
  dsimp only
  rw [Function.update_self, add_assoc, ← hpc]

/-- **One step of a worker** moves processes between the queue and its hand, or lets one go. -/
theorem Pool.step_balance {code : List Instruction} (h : s.rq.Holds L)
    (hs : s.step code k = some s') : s.Balances L k s' := by
  unfold Pool.step at hs
  cases hk : s.workers k with
  | idle =>
    rw [hk] at hs
    exact remove_balance h mem_dequeueOrder (by rw [hk]; rfl) rfl (by rw [departed, hk]) hs
  | stealing =>
    rw [hk] at hs
    exact remove_balance h mem_stealOrder (by rw [hk]; rfl) rfl (by rw [departed, hk]) hs
  | got proc stolen =>
    rw [hk] at hs
    cases hs
    exact keep_balance h (by rw [departed, hk]; rfl)
  | ready proc stolen =>
    rw [hk] at hs
    obtain ⟨sl, _, rfl⟩ := Option.map_eq_some_iff.mp hs
    exact keep_balance h (by rw [departed, hk]; rfl)
  | executed proc stolen res =>
    rw [hk] at hs
    cases hs
    refine keep_balance h ?_
    rw [departed, hk]
    dsimp only
    split
    · rfl
    · rw [(done_holds stolen res).1]
      rfl
  | requeueing proc stolen res =>
    rw [hk] at hs
    exact putBack_balance h hk hs
  | inserted proc stolen res =>
    rw [hk] at hs
    cases hs
    refine keep_balance h ?_
    rw [departed, hk, (done_holds stolen res).1]
    rfl

variable [Fintype κ]

theorem inHands_step {code : List Instruction} (hs : s.step code k = some s') :
    s'.inHands + inHand (s.workers k).holds = s.inHands + inHand (s'.workers k).holds := by
  have hrest : ∑ j ∈ Finset.univ.erase k, inHand (s'.workers j).holds =
      ∑ j ∈ Finset.univ.erase k, inHand (s.workers j).holds :=
    Finset.sum_congr rfl fun j hj => by rw [step_workers_other (Finset.ne_of_mem_erase hj) hs]
  rw [Pool.inHands, Pool.inHands, ← Finset.add_sum_erase _ _ (Finset.mem_univ k),
    ← Finset.add_sum_erase _ (fun j => inHand (s.workers j).holds) (Finset.mem_univ k), hrest]
  abel

end Steps

/-! ### Every run -/

section Runs

variable {κ : Type} [DecidableEq κ] [Fintype κ] {code : List Instruction}

/-- The processes that are in the queue and in the hands. -/
def PrioPool.Stock (s : PrioPool κ) (m : Multiset ProcId) : Prop :=
  ∃ L, s.pool.rq.Holds L ∧ m = queued L + s.pool.inHands

/-- **One step of a worker or of the host.** -/
theorem stock_step {s s' : PrioPool κ} {act : PrioAct κ} {i o m : Multiset ProcId}
    (h : s.Stock m) (hs : s.ledger code act = some (s', i, o)) :
    ∃ m', s'.Stock m' ∧ m + i = m' + o := by
  obtain ⟨L, hL, rfl⟩ := h
  obtain ⟨s₁, hstep, he⟩ := Option.map_eq_some_iff.mp hs
  cases he
  cases act with
  | work k =>
    obtain ⟨pool, hp, rfl⟩ := Option.map_eq_some_iff.mp hstep
    obtain ⟨L', hL', hbal⟩ := Pool.step_balance hL hp
    have hhands := inHands_step hp
    refine ⟨_, ⟨L', hL', rfl⟩, ?_⟩
    have hcancel : queued L + s.pool.inHands + inHand (s.pool.workers k).holds =
        queued L' + pool.inHands + s.pool.departed k + inHand (s.pool.workers k).holds := by
      calc queued L + s.pool.inHands + inHand (s.pool.workers k).holds
          = queued L' + s.pool.departed k +
              (s.pool.inHands + inHand (pool.workers k).holds) := by
            rw [add_right_comm, hbal]
            abel
        _ = _ := by rw [← hhands]; abel
    exact (add_zero _).trans (add_right_cancel hcancel)
  | enqueue proc prio =>
    obtain ⟨⟨rq', r⟩, hr, rfl⟩ := Option.map_eq_some_iff.mp hstep
    rcases RunQueue.insert_cases hL hr with ⟨hg, _, hh⟩ | ⟨hg, _, hh⟩
    · refine ⟨_, ⟨L, hh, rfl⟩, ?_⟩
      rw [PrioPool.entered, hg]
      rfl
    · refine ⟨_, ⟨_, hh, rfl⟩, ?_⟩
      rw [PrioPool.entered, hg, queued_insert, ← Multiset.singleton_add]
      change queued L + s.pool.inHands + {proc} = {proc} + queued L + s.pool.inHands + 0
      abel
  | written proc =>
    rw [PrioPool.step] at hstep
    split at hstep
    · cases hstep
      exact ⟨_, ⟨L, hL, rfl⟩, rfl⟩
    · cases hstep

/-- **The pool loses no process and makes up none.**  In every run of any number of workers and a
host over a new run queue, their steps in any order and the allocator refusing what it likes, the
processes that the host has put in are those in the queue, those in the workers' hands, and those
that were let go: executed and not put back because of what they returned, or refused a node. -/
theorem pool_conserves (code : List Instruction) (alloc : Nat → Bool) (w : World)
    (acts : List (PrioAct κ)) {s : PrioPool κ} {moves : List (Multiset ProcId × Multiset ProcId)}
    (hrun : answers (PrioPool.ledger code) (.start (.create alloc) w) acts = some (s, moves)) :
    ∃ L, s.pool.rq.Holds L ∧
      (moves.map Prod.fst).sum = queued L + s.pool.inHands + (moves.map Prod.snd).sum := by
  have hstart : PrioPool.Stock (.start (.create alloc) w : PrioPool κ) 0 := by
    refine ⟨fun _ => [], RunQueue.holds_create alloc, ?_⟩
    have hnone : Pool.inHands (Pool.start (.create alloc) w : Pool κ) = 0 :=
      Finset.sum_eq_zero fun _ _ => rfl
    change 0 = queued (fun _ => []) + Pool.inHands (Pool.start (.create alloc) w)
    rw [hnone]
    rfl
  obtain ⟨m, ⟨L, hL, rfl⟩, hsum⟩ := answers_balance PrioPool.Stock
    (fun _ _ _ _ _ _ hm hs => stock_step hm hs) hstart hrun
  exact ⟨L, hL, by rwa [zero_add] at hsum⟩

end Runs

/-- Two processes and two workers: the one of the higher level is in the first worker's hand, the
other one is run by the second and halts. -/
def oneHalts : List (PrioAct (Fin 2)) :=
  [.enqueue 0 .normal, .written 0, .enqueue 1 .high, .work 0, .work 1, .work 1, .work 1, .work 1]

theorem pool_conserves_oneHalts :
    ∃ s moves L, answers (PrioPool.ledger haltCode)
        (.start (.create fun _ => true) ⟨freshMachine, budget 2⟩) oneHalts = some (s, moves) ∧
      s.pool.rq.Holds L ∧ (s.pool.workers 0).holds = some 1 ∧ (moves.map Prod.snd).sum = {0} ∧
      (moves.map Prod.fst).sum = queued L + s.pool.inHands + (moves.map Prod.snd).sum := by
  obtain ⟨⟨s, moves⟩, hs, hv⟩ := Option.map_eq_some_iff.mp
    (show (answers (PrioPool.ledger haltCode)
      (.start (.create fun _ => true) ⟨freshMachine, budget 2⟩) oneHalts).map
        (fun r => ((r.1.pool.workers 0).holds, (r.2.map Prod.snd).sum)) = some (some 1, {0}) by
      decide)
  simp only [Prod.mk.injEq] at hv
  obtain ⟨L, hL, hsum⟩ := pool_conserves haltCode _ _ oneHalts hs
  exact ⟨s, moves, L, hs, hL, hv.1, hv.2, hsum⟩

end BeamModular
