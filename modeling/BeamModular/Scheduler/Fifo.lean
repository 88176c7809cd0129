import BeamModular.Lib.Run
import BeamModular.Scheduler.RunQueue
import Mathlib.Data.Finset.Max

/-!
# The run queue as four lists

What the run queue is for: a list of waiting processes for each priority.  `Fifo` is
that, with the answers its allocator will give; an insertion appends, `dequeue` takes
the first process of the most urgent level that has one and `steal` that of the least
urgent.  The urgency is the priority's value, not the order of a loop: that the two
loops of the source follow it is `mostUrgent_eq` and `leastUrgent_eq`.

`Represents rq L` adds the levels' counters to `Holds`, and `queueStep_refines` says
that each operation of the pointer structure is the one on lists.  `refines_fifo` is the
same for every sequence of operations, with the accounting of `Fifo` itself: what went
in has come out or is still there.
-/

namespace BeamModular

/-! ### Four lists -/

/-- The value in `beam_priority_t`: the lower, the more urgent. -/
def Priority.value : Priority → Nat
  | .max => 0
  | .high => 1
  | .normal => 2
  | .low => 3

theorem Priority.value_injective : Function.Injective Priority.value := by
  intro prio prio' h
  cases prio <;> cases prio' <;> first | rfl | cases h

instance : LinearOrder Priority := LinearOrder.lift' Priority.value Priority.value_injective

instance : Fintype Priority := ⟨{.max, .high, .normal, .low}, fun prio => by cases prio <;> decide⟩

/-- The waiting processes at each priority, oldest first. -/
structure Fifo where
  levels : Priority → List ProcId
  alloc : Nat → Bool

/-- An operation on the queue. -/
inductive QueueOp
  | enqueue (proc : ProcId) (prio : Priority)
  | dequeue
  | steal
  deriving DecidableEq, Repr

/-- What an operation returns. -/
inductive QueueAnswer
  | result (res : Result)
  | taken (proc : Option ProcId)
  deriving DecidableEq, Repr

namespace Fifo

def create (alloc : Nat → Bool) : Fifo := ⟨fun _ => [], alloc⟩

/-- Append, if there is memory for the entry. -/
def enqueue (q : Fifo) (proc : ProcId) (prio : Priority) : Fifo × Result :=
  let rest := fun n => q.alloc (n + 1)
  if q.alloc 0 then (⟨Function.update q.levels prio (q.levels prio ++ [proc]), rest⟩, .ok)
  else (⟨q.levels, rest⟩, .errNoMemory)

/-- The levels that are not empty. -/
def occupied (q : Fifo) : Finset Priority := Finset.univ.filter fun prio => q.levels prio ≠ []

/-- The most urgent of them. -/
def mostUrgent (q : Fifo) : Option Priority := q.occupied.min

/-- The least urgent of them. -/
def leastUrgent (q : Fifo) : Option Priority := q.occupied.max

/-- Take the oldest process of a level. -/
def take (q : Fifo) : Option Priority → Fifo × Option ProcId
  | none => (q, none)
  | some prio =>
    (⟨Function.update q.levels prio (q.levels prio).tail, q.alloc⟩, (q.levels prio).head?)

def step (q : Fifo) : QueueOp → Fifo × QueueAnswer
  | .enqueue proc prio => ((q.enqueue proc prio).1, .result (q.enqueue proc prio).2)
  | .dequeue => ((q.take q.mostUrgent).1, .taken (q.take q.mostUrgent).2)
  | .steal => ((q.take q.leastUrgent).1, .taken (q.take q.leastUrgent).2)

/-- All waiting processes. -/
def waiting (q : Fifo) : Multiset ProcId := ∑ prio, (q.levels prio : Multiset ProcId)

end Fifo

/-- The process that an operation has put into the queue. -/
def QueueOp.entered : QueueOp → QueueAnswer → Multiset ProcId
  | .enqueue proc _, .result .ok => {proc}
  | _, _ => 0

/-- The process that an operation has taken out. -/
def QueueAnswer.left : QueueAnswer → Multiset ProcId
  | .taken (some proc) => {proc}
  | _ => 0

/-! ### The levels a loop goes through -/

section

variable {α : Type*} [LinearOrder α] {order : List α}

/-- A search through an ascending list finds the least of what it looks for. -/
theorem find?_eq_min (h : order.Pairwise (· < ·)) (p : α → Bool) :
    order.find? p = (order.toFinset.filter fun a => p a = true).min := by
  induction order with
  | nil => rfl
  | cons a order ih =>
    have hrest := ih h.of_cons
    rw [List.find?_cons, List.toFinset_cons, Finset.filter_insert]
    cases hp : p a with
    | false => exact hrest
    | true =>
      refine (Finset.min_insert.trans (min_eq_left (Finset.le_min fun b hb => ?_))).symm
      have hlt := List.rel_of_pairwise_cons h (List.mem_toFinset.mp (Finset.mem_filter.mp hb).1)
      exact WithTop.coe_le_coe.mpr hlt.le

theorem find?_eq_max (h : order.Pairwise (· > ·)) (p : α → Bool) :
    order.find? p = (order.toFinset.filter fun a => p a = true).max := by
  induction order with
  | nil => rfl
  | cons a order ih =>
    have hrest := ih h.of_cons
    rw [List.find?_cons, List.toFinset_cons, Finset.filter_insert]
    cases hp : p a with
    | false => exact hrest
    | true =>
      refine (Finset.max_insert.trans (max_eq_left (Finset.max_le fun b hb => ?_))).symm
      have hlt := List.rel_of_pairwise_cons h (List.mem_toFinset.mp (Finset.mem_filter.mp hb).1)
      exact WithBot.coe_le_coe.mpr hlt.le

end

namespace Fifo

/-- The first level that is not empty, as a loop over the levels comes to it. -/
def firstLevel (q : Fifo) (order : List Priority) : Option Priority :=
  order.find? fun prio => q.levels prio ≠ []

theorem occupied_eq (q : Fifo) {order : List Priority} (hall : ∀ prio, prio ∈ order) :
    q.occupied = order.toFinset.filter fun prio => decide (q.levels prio ≠ []) = true := by
  rw [occupied, (Finset.eq_univ_iff_forall.mpr fun prio => List.mem_toFinset.mpr (hall prio) :
    order.toFinset = Finset.univ)]
  exact Finset.filter_congr fun prio _ => decide_eq_true_iff.symm

theorem mostUrgent_eq (q : Fifo) : q.mostUrgent = q.firstLevel dequeueOrder := by
  have hsorted : dequeueOrder.Pairwise (· < ·) := by decide
  rw [mostUrgent, q.occupied_eq mem_dequeueOrder]
  exact (find?_eq_min hsorted _).symm

theorem leastUrgent_eq (q : Fifo) : q.leastUrgent = q.firstLevel stealOrder := by
  have hsorted : stealOrder.Pairwise (· > ·) := by decide
  rw [leastUrgent, q.occupied_eq mem_stealOrder]
  exact (find?_eq_max hsorted _).symm

end Fifo

/-! ### Accounting -/

namespace Fifo

theorem waiting_update (q : Fifo) (prio : Priority) (L : List ProcId) (alloc : Nat → Bool) :
    waiting ⟨Function.update q.levels prio L, alloc⟩ + (q.levels prio : Multiset ProcId) =
      q.waiting + (L : Multiset ProcId) := by
  have hmem := Finset.mem_univ prio
  have hrest : ∑ p ∈ Finset.univ.erase prio, (Function.update q.levels prio L p : Multiset ProcId)
      = ∑ p ∈ Finset.univ.erase prio, (q.levels p : Multiset ProcId) :=
    Finset.sum_congr rfl fun p hp => by rw [Function.update_of_ne (Finset.ne_of_mem_erase hp)]
  have hself : Function.update q.levels prio L prio = L := Function.update_self ..
  rw [waiting, waiting, ← Finset.add_sum_erase _ _ hmem, ← Finset.add_sum_erase _ _ hmem, hrest]
  dsimp only
  rw [hself]
  abel

/-- What can be taken is the first process of a level that is not empty. -/
theorem firstLevel_ne_nil {q : Fifo} {order : List Priority} {prio : Priority}
    (h : q.firstLevel order = some prio) : q.levels prio ≠ [] := by
  simpa using List.find?_some h

/-- **A removal finds nothing exactly when all levels are empty.** -/
theorem take_eq_none_iff (q : Fifo) {order : List Priority} (hall : ∀ prio, prio ∈ order) :
    (q.take (q.firstLevel order)).2 = none ↔ ∀ prio, q.levels prio = [] := by
  cases hf : q.firstLevel order with
  | none =>
    rw [firstLevel, List.find?_eq_none] at hf
    refine ⟨fun _ prio => ?_, fun _ => rfl⟩
    simpa using hf prio (hall prio)
  | some prio =>
    have hne := firstLevel_ne_nil hf
    refine ⟨fun h => absurd (List.head?_eq_none_iff.mp h) hne, fun h => absurd (h prio) hne⟩

theorem waiting_take (q : Fifo) (order : List Priority) :
    (q.take (q.firstLevel order)).1.waiting +
      QueueAnswer.left (.taken (q.take (q.firstLevel order)).2) = q.waiting := by
  cases hf : q.firstLevel order with
  | none => exact add_zero q.waiting
  | some prio =>
    obtain ⟨proc, rest, hL⟩ := List.exists_cons_of_ne_nil (firstLevel_ne_nil hf)
    have hup := q.waiting_update prio (q.levels prio).tail q.alloc
    rw [hL, List.tail_cons, ← Multiset.cons_coe, ← Multiset.singleton_add, ← add_assoc] at hup
    rw [take, hL]
    exact add_right_cancel hup

theorem waiting_step (q : Fifo) (op : QueueOp) :
    (q.step op).1.waiting + (q.step op).2.left = q.waiting + op.entered (q.step op).2 := by
  cases op with
  | enqueue proc prio =>
    by_cases hg : q.alloc 0
    · have hup := q.waiting_update prio (q.levels prio ++ [proc]) fun n => q.alloc (n + 1)
      rw [← Multiset.coe_add, ← add_assoc, add_right_comm] at hup
      simp only [step, enqueue, hg, if_true]
      exact (add_zero _).trans (add_right_cancel hup)
    · simp only [step, enqueue, hg]
      rfl
  | dequeue =>
    rw [step, mostUrgent_eq]
    exact (q.waiting_take dequeueOrder).trans (add_zero _).symm
  | steal =>
    rw [step, leastUrgent_eq]
    exact (q.waiting_take stealOrder).trans (add_zero _).symm

/-- **Nothing is lost or duplicated** in a run. -/
theorem waiting_run : ∀ (ops : List QueueOp) (q : Fifo),
    (specAnswers step q ops).1.waiting + ((specAnswers step q ops).2.map QueueAnswer.left).sum =
      q.waiting + (List.zipWith QueueOp.entered ops (specAnswers step q ops).2).sum := by
  intro ops
  induction ops with
  | nil => intro q; rfl
  | cons op ops ih =>
    intro q
    have hrest := ih (q.step op).1
    have hone := q.waiting_step op
    simp only [specAnswers, List.map_cons, List.sum_cons, List.zipWith_cons_cons]
    rw [add_left_comm, hrest, ← add_assoc, ← add_assoc, ← hone]
    abel

end Fifo

/-! ### The pointers -/

namespace RunQueue

variable {rq rq' : RunQueue} {L : Priority → List (Nat × ProcId)}

/-- The chains, and the counter of each level. -/
structure Represents (rq : RunQueue) (L : Priority → List (Nat × ProcId)) : Prop
    extends rq.Holds L where
  counts : ∀ prio, (rq.queues prio).count = (L prio).length

theorem linkNode_counts {prio : Priority} {node : Nat} (h : rq.linkNode prio node = some rq')
    (p : Priority) :
    (rq'.queues p).count = (rq.queues p).count + if p = prio then 1 else 0 := by
  have hcount : ∀ q : LevelQueue, q.count = (rq.queues prio).count + 1 →
      (Function.update rq.queues prio q p).count =
        (rq.queues p).count + if p = prio then 1 else 0 := by
    intro q hq
    rw [Function.update_apply]
    split
    · rename_i hp
      rw [hq, hp]
    · rfl
  unfold linkNode at h
  dsimp only at h
  split at h
  · cases h
    exact hcount _ rfl
  · obtain ⟨ns, _, rfl⟩ := Option.map_eq_some_iff.mp h
    exact hcount _ rfl

theorem insert_counts {proc : ProcId} {prio : Priority}
    (h : rq.insert proc prio = some (rq', .ok)) (p : Priority) :
    (rq'.queues p).count = (rq.queues p).count + if p = prio then 1 else 0 := by
  unfold insert at h
  dsimp only at h
  split at h
  · obtain ⟨rq₁, hl, hr⟩ := Option.map_eq_some_iff.mp h
    cases hr
    exact linkNode_counts hl p
  · cases h

theorem unlinkNode_counts {prio : Priority} {node : Nat} {proc : ProcId}
    (h : rq.unlinkNode prio node = some (rq', proc)) (p : Priority) :
    (rq'.queues p).count = (rq.queues p).count - if p = prio then 1 else 0 := by
  obtain ⟨n, _, hr⟩ := Option.map_eq_some_iff.mp h
  cases hr
  dsimp only
  rw [Function.update_apply]
  split
  · rename_i hp
    rw [hp]
  · rfl

theorem Represents.insert (h : rq.Represents L) (proc : ProcId) (prio : Priority)
    (hgrant : rq.alloc 0 = true) :
    ∃ rq', rq.insert proc prio = some (rq', .ok) ∧
      rq'.Represents (Function.update L prio (L prio ++ [(rq.nodes.length, proc)])) ∧
      rq'.alloc = fun n => rq.alloc (n + 1) := by
  obtain ⟨rq', hi, hh, ha⟩ := insert_holds h.toHolds proc prio hgrant
  refine ⟨rq', hi, ⟨hh, fun p => ?_⟩, ha⟩
  rw [insert_counts hi p, h.counts p, Function.update_apply]
  split
  · rename_i hp
    rw [hp, List.length_append, List.length_singleton]
  · rfl

theorem Represents.total_counts (h : rq.Represents L) :
    rq.totalCount = (dequeueOrder.map fun prio => (rq.queues prio).count).sum := by
  rw [h.total, List.map_map]
  congr 1
  exact List.map_congr_left fun prio _ => (h.counts prio).symm

theorem Represents.take (h : rq.Represents L) (order : List Priority) :
    match order.find? fun prio => L prio ≠ [] with
    | none => rq.take order = some (rq, none)
    | some prio => ∃ x R, L prio = x :: R ∧ ∃ rq', rq.take order = some (rq', some x.2) ∧
        rq'.Represents (Function.update L prio R) ∧ rq'.alloc = rq.alloc := by
  have hr := take_first h.toHolds order
  rw [firstLevel_eq h.toHolds] at hr
  cases hf : order.find? fun prio => L prio ≠ [] with
  | none =>
    rw [hf] at hr
    exact hr
  | some prio =>
    rw [hf] at hr
    obtain ⟨x, R, hL, rq', ht, hu, hh, ha⟩ := hr
    refine ⟨x, R, hL, rq', ht, ⟨hh, fun p => ?_⟩, ha⟩
    rw [unlinkNode_counts hu p, h.counts p, Function.update_apply]
    split
    · rename_i hp
      rw [hp, hL, List.length_cons, Nat.add_sub_cancel]
    · rfl

end RunQueue

/-! ### Refinement -/

/-- An operation on the queue and the processes' states. -/
def queueStep (s : RunQueue × World) : QueueOp → Option ((RunQueue × World) × QueueAnswer)
  | .enqueue proc prio => (beamRunQueueEnqueue s.1 s.2 proc prio).map fun r =>
      ((r.1, r.2.1), .result r.2.2)
  | .dequeue => (beamRunQueueDequeue s.1 s.2).map fun r => ((r.1, r.2.1), .taken r.2.2)
  | .steal => (beamRunQueueSteal s.1 s.2).map fun r => ((r.1, r.2.1), .taken r.2.2)

/-- The pointer structure stands for the four lists. -/
def RunQueue.Models (rq : RunQueue) (q : Fifo) : Prop :=
  ∃ L, rq.Represents L ∧ (∀ prio, q.levels prio = (L prio).map Prod.snd) ∧ q.alloc = rq.alloc

namespace RunQueue.Models

variable {rq : RunQueue} {q : Fifo}

theorem insert (h : rq.Models q) (proc : ProcId) (prio : Priority) :
    ∃ rq', rq.insert proc prio = some (rq', (q.enqueue proc prio).2) ∧
      rq'.Models (q.enqueue proc prio).1 := by
  obtain ⟨L, hr, hl, ha⟩ := h
  by_cases hg : rq.alloc 0 = true
  · obtain ⟨rq', hi, hr', ha'⟩ := hr.insert proc prio hg
    rw [Fifo.enqueue, ha, if_pos hg]
    refine ⟨rq', hi, _, hr', fun p => ?_, ha'.symm⟩
    dsimp only
    rw [Function.update_apply, Function.update_apply]
    split
    · rw [hl prio, List.map_append]
      rfl
    · exact hl p
  · rw [Fifo.enqueue, ha, if_neg hg]
    refine ⟨_, insert_refused (by simpa using hg) proc prio, L, ?_, hl, rfl⟩
    exact ⟨⟨hr.chain, hr.tail, hr.apart, hr.total⟩, hr.counts⟩

theorem firstLevel_eq {L : Priority → List (Nat × ProcId)}
    (hl : ∀ prio, q.levels prio = (L prio).map Prod.snd) (order : List Priority) :
    q.firstLevel order = order.find? fun prio => L prio ≠ [] := by
  unfold Fifo.firstLevel
  congr 1
  funext prio
  simp [hl prio]

theorem take (h : rq.Models q) (order : List Priority) :
    ∃ rq', rq.take order = some (rq', (q.take (q.firstLevel order)).2) ∧
      rq'.Models (q.take (q.firstLevel order)).1 := by
  obtain ⟨L, hr, hl, ha⟩ := h
  have ht := hr.take order
  rw [firstLevel_eq hl]
  cases hf : order.find? fun prio => L prio ≠ [] with
  | none =>
    rw [hf] at ht
    exact ⟨rq, ht, L, hr, hl, ha⟩
  | some prio =>
    rw [hf] at ht
    obtain ⟨x, R, hL, rq', htake, hr', ha'⟩ := ht
    refine ⟨rq', ?_, _, hr', fun p => ?_, ha.trans ha'.symm⟩
    · rw [htake, Fifo.take, hl prio, hL]
      rfl
    · rw [Fifo.take]
      dsimp only
      rw [Function.update_apply, Function.update_apply]
      split
      · rw [hl prio, hL]
        rfl
      · exact hl p

end RunQueue.Models

/-- **One operation of the run queue is one operation on the lists.** -/
theorem queueStep_refines (s : RunQueue × World) (q : Fifo) (op : QueueOp) (h : s.1.Models q) :
    ∃ s', queueStep s op = some (s', (q.step op).2) ∧ s'.1.Models (q.step op).1 := by
  obtain ⟨rq, w⟩ := s
  cases op with
  | enqueue proc prio =>
    obtain ⟨rq', hi, hm⟩ := h.insert proc prio
    refine ⟨(rq', if (q.enqueue proc prio).2 = .ok then w.setState proc .runnable else w), ?_, hm⟩
    rw [queueStep, beamRunQueueEnqueue, hi]
    rfl
  | dequeue =>
    obtain ⟨rq', ht, hm⟩ := h.take dequeueOrder
    rw [← q.mostUrgent_eq] at ht hm
    refine ⟨(rq', ((q.take q.mostUrgent).2.elim w fun proc => w.setState proc .running)), ?_, hm⟩
    rw [queueStep, beamRunQueueDequeue, ht, Fifo.step]
    cases (q.take q.mostUrgent).2 <;> rfl
  | steal =>
    obtain ⟨rq', ht, hm⟩ := h.take stealOrder
    rw [← q.leastUrgent_eq] at ht hm
    refine ⟨(rq', ((q.take q.leastUrgent).2.elim w fun proc => w.setState proc .running)), ?_, hm⟩
    rw [queueStep, beamRunQueueSteal, ht, Fifo.step]
    cases (q.take q.leastUrgent).2 <;> rfl

theorem models_create (alloc : Nat → Bool) : (RunQueue.create alloc).Models (Fifo.create alloc) :=
  ⟨fun _ => [], ⟨RunQueue.holds_create alloc, fun _ => rfl⟩, fun _ => rfl, rfl⟩

/-- **The run queue refines four lists.**  Every sequence of operations on a new queue returns what
it would return on the lists; the queue it leaves has at each level a chain of nodes with the
list's processes, ending at the level's tail and counted by its counter; a removal finds nothing
exactly when all lists are empty; and what went in has come out once or is there once. -/
theorem refines_fifo (alloc : Nat → Bool) (w : World) (ops : List QueueOp) :
    let q := (specAnswers Fifo.step (Fifo.create alloc) ops).1
    let as := (specAnswers Fifo.step (Fifo.create alloc) ops).2
    ∃ rq w' L, answers queueStep (RunQueue.create alloc, w) ops = some ((rq, w'), as) ∧
      rq.Represents L ∧ (∀ prio, q.levels prio = (L prio).map Prod.snd) ∧
      (∀ prio, (rq.queues prio).count = (q.levels prio).length ∧
        ((rq.queues prio).tail = none ↔ q.levels prio = [])) ∧
      rq.totalCount = (dequeueOrder.map fun prio => (rq.queues prio).count).sum ∧
      (∀ level ∈ [q.mostUrgent, q.leastUrgent],
        ((q.take level).2 = none ↔ ∀ prio, q.levels prio = [])) ∧
      (List.zipWith QueueOp.entered ops as).sum = (as.map QueueAnswer.left).sum + q.waiting := by
  intro q as
  obtain ⟨⟨rq, w'⟩, hrun, L, hr, hl, ha⟩ := refines_answers
    (R := fun (s : RunQueue × World) q => s.1.Models q) queueStep_refines ops
    (s := (RunQueue.create alloc, w)) (models_create alloc)
  refine ⟨rq, w', L, hrun, hr, hl, fun prio => ⟨?_, ?_⟩, hr.total_counts, ?_, ?_⟩
  · rw [hr.counts prio, hl prio, List.length_map]
  · rw [hr.tail prio, hl prio, List.map_eq_nil_iff, Option.map_eq_none_iff,
      List.getLast?_eq_none_iff]
  · intro level hlevel
    simp only [List.mem_cons, List.not_mem_nil, or_false, q.mostUrgent_eq, q.leastUrgent_eq]
      at hlevel
    rcases hlevel with rfl | rfl
    · exact q.take_eq_none_iff mem_dequeueOrder
    · exact q.take_eq_none_iff mem_stealOrder
  · have hcount := Fifo.waiting_run ops (Fifo.create alloc)
    rw [show (Fifo.create alloc).waiting = 0 from rfl, zero_add] at hcount
    rw [← hcount, add_comm]

/-- A queue that is filled and emptied: the levels in their order, and the memory short once. -/
example : (specAnswers Fifo.step (Fifo.create fun n => n ≠ 1)
    [.enqueue 5 .low, .enqueue 6 .max, .enqueue 7 .high, .enqueue 8 .low, .dequeue, .steal,
      .dequeue, .dequeue]).2 =
    [.result .ok, .result .errNoMemory, .result .ok, .result .ok, .taken (some 7),
      .taken (some 5), .taken (some 8), .taken none] := by decide

end BeamModular
