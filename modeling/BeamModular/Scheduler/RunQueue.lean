import BeamModular.Scheduler.Process
import BeamModular.Emulator.Emu

/-!
# The run queue

`src/scheduler/run_queue.c`: one linked queue of processes for each priority, under
one lock.  `insert` and `take` are the parts under the lock; the state of the
process is written after the unlock, so it is a step of its own and
`beamRunQueueEnqueue` and `beamRunQueueDequeue` are the two put together, as one
thread sees them.

`Holds rq L` says what the pointers mean: at each priority the chain of nodes `L`,
no node in two chains, and a total that counts them all.  `insert_holds` and
`take_holds` are the two operations in these terms; `queued L` forgets the order, and
`queued_insert` and `queued_take` say what they do to the processes that wait.
-/

namespace BeamModular

/-- `priority_level_queue_t`. -/
structure LevelQueue where
  head : Option Nat
  tail : Option Nat
  count : Nat

/-- `struct beam_run_queue`; `alloc` is what the injected allocator will answer to the next
requests for a node. -/
structure RunQueue where
  nodes : Nodes ProcId
  queues : Priority → LevelQueue
  totalCount : Nat
  alloc : Nat → Bool

/-- The levels as `beam_run_queue_dequeue` goes through them. -/
def dequeueOrder : List Priority := [.max, .high, .normal, .low]

/-- The levels as `beam_run_queue_steal` goes through them. -/
def stealOrder : List Priority := [.low, .normal, .high, .max]

theorem mem_dequeueOrder (prio : Priority) : prio ∈ dequeueOrder := by
  cases prio <;> decide

theorem mem_stealOrder (prio : Priority) : prio ∈ stealOrder := by
  cases prio <;> decide

namespace RunQueue

/-- A queue as `beam_run_queue_create` leaves it. -/
def create (alloc : Nat → Bool) : RunQueue where
  nodes := []
  queues _ := ⟨none, none, 0⟩
  totalCount := 0
  alloc := alloc

/-- Link a node behind the last one of its level. -/
def linkNode (rq : RunQueue) (prio : Priority) (node : Nat) : Option RunQueue :=
  let q := rq.queues prio
  match q.tail with
  | none => some { rq with
      queues := Function.update rq.queues prio ⟨some node, some node, q.count + 1⟩ }
  | some t => (rq.nodes.setNext t (some node)).map fun ns =>
      { rq with
        nodes := ns
        queues := Function.update rq.queues prio ⟨q.head, some node, q.count + 1⟩ }

/-- `beam_run_queue_enqueue` up to the unlock. -/
def insert (rq : RunQueue) (proc : ProcId) (prio : Priority) : Option (RunQueue × Result) :=
  let granted := rq.alloc 0
  let rq := { rq with alloc := fun n => rq.alloc (n + 1) }
  if granted then
    let node := rq.nodes.length
    let rq := { rq with nodes := rq.nodes.alloc ⟨proc, none⟩ }
    (rq.linkNode prio node).map fun rq => ({ rq with totalCount := rq.totalCount + 1 }, .ok)
  else some (rq, .errNoMemory)

/-- Take the first node of a level. -/
def unlinkNode (rq : RunQueue) (prio : Priority) (node : Nat) : Option (RunQueue × ProcId) :=
  (rq.nodes.get node).map fun n =>
    let q := rq.queues prio
    let tail := if n.next = none then none else q.tail
    ({ rq with
        nodes := rq.nodes.free node
        queues := Function.update rq.queues prio ⟨n.next, tail, q.count - 1⟩
        totalCount := rq.totalCount - 1 }, n.val)

/-- The loop over the levels: the first process of the first level that has one. -/
def takeFirst (rq : RunQueue) : List Priority → Option (RunQueue × Option ProcId)
  | [] => some (rq, none)
  | prio :: rest =>
    match (rq.queues prio).head with
    | none => takeFirst rq rest
    | some node => (rq.unlinkNode prio node).map fun r => (r.1, some r.2)

/-- `beam_run_queue_dequeue` and `beam_run_queue_steal` up to the unlock. -/
def take (rq : RunQueue) (order : List Priority) : Option (RunQueue × Option ProcId) :=
  if rq.totalCount = 0 then some (rq, none) else rq.takeFirst order

/-! ### What the pointers mean -/

/-- At each priority the chain of nodes `L`. -/
structure Holds (rq : RunQueue) (L : Priority → List (Nat × ProcId)) : Prop where
  chain : ∀ prio, Chain rq.nodes (rq.queues prio).head (L prio) none
  tail : ∀ prio, (rq.queues prio).tail = (L prio).getLast?.map Prod.fst
  apart : ∀ prio prio', prio ≠ prio' → ∀ x ∈ L prio, ∀ y ∈ L prio', x.1 ≠ y.1
  total : rq.totalCount = ((dequeueOrder.map L).map List.length).sum

variable {rq : RunQueue} {L : Priority → List (Nat × ProcId)}

theorem Holds.unique {L' : Priority → List (Nat × ProcId)} (h : rq.Holds L) (h' : rq.Holds L') :
    L = L' := by
  funext prio
  exact (h.chain prio).unique (h'.chain prio)

theorem holds_create (alloc : Nat → Bool) : (create alloc).Holds fun _ => [] :=
  ⟨fun _ => rfl, fun _ => rfl, fun _ _ _ x hx => absurd hx (by simp), rfl⟩

theorem total_update (L : Priority → List (Nat × ProcId)) (prio : Priority)
    (M : List (Nat × ProcId)) :
    ((dequeueOrder.map (Function.update L prio M)).map List.length).sum + (L prio).length
      = ((dequeueOrder.map L).map List.length).sum + M.length := by
  cases prio <;> simp [dequeueOrder] <;> omega

theorem Holds.chain_of_ne (h : rq.Holds L) {prio prio' : Priority} (hne : prio' ≠ prio)
    {s : Nodes ProcId} (hs : ∀ i, i ∉ (L prio).map Prod.fst → i < rq.nodes.length →
      s.get i = rq.nodes.get i) : Chain s (rq.queues prio').head (L prio') none := by
  refine (h.chain prio').congr fun x hx => hs x.1 ?_ ?_
  · intro hm
    obtain ⟨y, hy, hyx⟩ := List.mem_map.mp hm
    exact h.apart prio prio' hne.symm y hy x hx hyx
  · exact (h.chain prio').lt_length x.1 (List.mem_map_of_mem hx)

section Insert

variable (h : rq.Holds L) (proc : ProcId) (prio : Priority)
include h

theorem Holds.apart_append {p p' : Priority} (hne : p ≠ p') {x y : Nat × ProcId}
    (hx : x ∈ Function.update L prio (L prio ++ [(rq.nodes.length, proc)]) p)
    (hy : y ∈ Function.update L prio (L prio ++ [(rq.nodes.length, proc)]) p') : x.1 ≠ y.1 := by
  have hfresh : ∀ p, ∀ x ∈ L p, x.1 ≠ rq.nodes.length := fun p x hx =>
    Nat.ne_of_lt ((h.chain p).lt_length x.1 (List.mem_map_of_mem hx))
  rw [Function.update_apply] at hx hy
  split at hx
  · rename_i hp
    rw [if_neg (fun he => hne (hp.trans he.symm))] at hy
    rcases List.mem_append.mp hx with hx | hx
    · exact h.apart prio p' (hp ▸ hne) x hx y hy
    · rw [List.mem_singleton.mp hx]
      exact (hfresh p' y hy).symm
  · split at hy
    · rcases List.mem_append.mp hy with hy | hy
      · exact h.apart p prio ‹_› x hx y hy
      · rw [List.mem_singleton.mp hy]
        exact hfresh p x hx
    · exact h.apart p p' hne x hx y hy

theorem Holds.append {s : Nodes ProcId} {q : LevelQueue} {alloc : Nat → Bool}
    (hc : Chain s q.head (L prio ++ [(rq.nodes.length, proc)]) none)
    (hq : q.tail = some rq.nodes.length)
    (hs : ∀ i, i ∉ (L prio).map Prod.fst → i < rq.nodes.length → s.get i = rq.nodes.get i) :
    Holds ⟨s, Function.update rq.queues prio q, rq.totalCount + 1, alloc⟩
      (Function.update L prio (L prio ++ [(rq.nodes.length, proc)])) where
  chain p := by
    dsimp only
    rw [Function.update_apply, Function.update_apply]
    split
    · exact hc
    · exact h.chain_of_ne ‹_› hs
  tail p := by
    dsimp only
    rw [Function.update_apply, Function.update_apply]
    split
    · rw [hq]; simp
    · exact h.tail p
  apart _ _ hne _ hx _ hy := h.apart_append proc prio hne hx hy
  total := by
    have := total_update L prio (L prio ++ [(rq.nodes.length, proc)])
    dsimp only
    rw [h.total]
    simp only [List.length_append, List.length_singleton] at this
    omega

/-- **An insertion appends the process to its level.** -/
theorem insert_holds (hgrant : rq.alloc 0 = true) :
    ∃ rq', rq.insert proc prio = some (rq', .ok) ∧
      rq'.Holds (Function.update L prio (L prio ++ [(rq.nodes.length, proc)])) ∧
      rq'.alloc = fun n => rq.alloc (n + 1) := by
  have htail := h.tail prio
  rcases List.eq_nil_or_concat' (L prio) with hnil | ⟨K, t, hcons⟩
  · -- an empty level: the node becomes head and tail
    rw [hnil] at htail
    refine ⟨⟨rq.nodes.alloc ⟨proc, none⟩, _, _, _⟩, by simp [insert, hgrant, linkNode, htail]; rfl,
      h.append proc prio ?_ rfl fun i _ hi => Nodes.get_alloc_of_lt _ hi, rfl⟩
    rw [hnil]
    exact ⟨rfl, none, Nodes.get_alloc_new _ _, rfl⟩
  · -- the node is linked behind the last one
    have hc := h.chain prio
    rw [hcons] at htail hc
    simp only [List.getLast?_concat, Option.map_some] at htail
    obtain ⟨s, hs, hchain, hout⟩ := Chain.snoc (w := proc) hc
    refine ⟨⟨s, _, _, _⟩, by simp [insert, hgrant, linkNode, htail, hs]; rfl,
      h.append proc prio (by rw [hcons]; exact hchain) rfl fun i hi hlt => ?_, rfl⟩
    rw [hcons] at hi
    rw [hout i (fun he => hi (by simp [he])), Nodes.get_alloc_of_lt _ hlt]

end Insert

/-- A refused insertion loses the process. -/
theorem insert_refused (hrefuse : rq.alloc 0 = false) (proc : ProcId) (prio : Priority) :
    rq.insert proc prio = some ({ rq with alloc := fun n => rq.alloc (n + 1) }, .errNoMemory) := by
  simp [insert, hrefuse]

/-- **What an insertion can do**: append the process, or lose it. -/
theorem insert_cases (h : rq.Holds L) {rq' : RunQueue} {proc : ProcId} {prio : Priority}
    {res : Result} (hi : rq.insert proc prio = some (rq', res)) :
    (rq.alloc 0 = false ∧ res = .errNoMemory ∧ rq'.Holds L) ∨
    (rq.alloc 0 = true ∧ res = .ok ∧
      rq'.Holds (Function.update L prio (L prio ++ [(rq.nodes.length, proc)]))) := by
  cases hg : rq.alloc 0 with
  | false =>
    rw [insert_refused hg] at hi
    cases hi
    exact Or.inl ⟨rfl, rfl, h.chain, h.tail, h.apart, h.total⟩
  | true =>
    obtain ⟨rq₁, h₁, hh, _⟩ := insert_holds h proc prio hg
    rw [hi] at h₁
    cases h₁
    exact Or.inr ⟨rfl, rfl, hh⟩

theorem unlinkNode_holds (h : rq.Holds L) {prio : Priority} {x : Nat × ProcId}
    {R : List (Nat × ProcId)} (hL : L prio = x :: R) :
    ∃ rq', rq.unlinkNode prio x.1 = some (rq', x.2) ∧ rq'.Holds (Function.update L prio R) ∧
      rq'.alloc = rq.alloc := by
  have hc := h.chain prio
  have ht := h.tail prio
  rw [hL] at hc ht
  obtain ⟨link, hg, hR, hfree⟩ := Chain.dropFirst (c := x.1) (w := x.2) hc
  have hlink := hR.head_eq
  let q := rq.queues prio
  refine ⟨⟨rq.nodes.free x.1, Function.update rq.queues prio
      ⟨link, if link = none then none else q.tail, q.count - 1⟩, rq.totalCount - 1, rq.alloc⟩,
    by rw [unlinkNode, hg]; rfl, ⟨fun p => ?_, fun p => ?_, ?_, ?_⟩, rfl⟩
  · dsimp only
    rw [Function.update_apply, Function.update_apply]
    split
    · exact hfree
    · refine h.chain_of_ne ‹_› fun i hi hlt => ?_
      rw [Nodes.get_free (hc.lt_length x.1 (by simp)), if_neg]
      rintro rfl
      exact hi (by rw [hL]; simp)
  · dsimp only
    rw [Function.update_apply, Function.update_apply]
    split
    · rw [hlink]
      dsimp only [q]
      rw [ht]
      cases R with
      | nil => rfl
      | cons y K => simp [List.getLast?_cons]
    · exact h.tail p
  · have hsub : ∀ p, ∀ y ∈ Function.update L prio R p, y ∈ L p := by
      intro p y hy
      rw [Function.update_apply] at hy
      split at hy
      · rename_i hp
        rw [hp, hL]
        exact List.mem_cons_of_mem x hy
      · exact hy
    intro p p' hne y hy z hz
    exact h.apart p p' hne y (hsub p y hy) z (hsub p' z hz)
  · have := total_update L prio R
    rw [hL] at this
    dsimp only
    rw [h.total]
    simp only [List.length_cons] at this
    omega

/-- The first level, in this order, that has a process. -/
def firstLevel (rq : RunQueue) (order : List Priority) : Option Priority :=
  order.find? fun prio => (rq.queues prio).head.isSome

theorem head_isSome_iff (h : rq.Holds L) (prio : Priority) :
    (rq.queues prio).head.isSome = true ↔ L prio ≠ [] := by
  rw [(h.chain prio).head_eq]
  cases L prio <;> simp

theorem firstLevel_eq (h : rq.Holds L) (order : List Priority) :
    rq.firstLevel order = order.find? fun prio => L prio ≠ [] := by
  unfold firstLevel
  congr 1
  funext prio
  exact Bool.eq_iff_iff.mpr ((head_isSome_iff h prio).trans decide_eq_true_iff.symm)

/-- The loop over the levels unlinks the first node of the first level that has one. -/
theorem takeFirst_holds (h : rq.Holds L) : ∀ order : List Priority,
    match rq.firstLevel order with
    | none => rq.takeFirst order = some (rq, none)
    | some prio => ∃ x R, L prio = x :: R ∧ ∃ rq', rq.takeFirst order = some (rq', some x.2) ∧
        rq.unlinkNode prio x.1 = some (rq', x.2) ∧
        rq'.Holds (Function.update L prio R) ∧ rq'.alloc = rq.alloc := by
  intro order
  induction order with
  | nil => rfl
  | cons prio rest ih =>
    have hhead := (h.chain prio).head_eq
    cases hL : L prio with
    | nil =>
      rw [hL, List.head?_nil, Option.map_none] at hhead
      rw [firstLevel, List.find?_cons_of_neg (by simp [hhead]), takeFirst, hhead]
      exact ih
    | cons x R =>
      rw [hL, List.head?_cons, Option.map_some] at hhead
      obtain ⟨rq', hu, hh, ha⟩ := unlinkNode_holds h hL
      rw [firstLevel, List.find?_cons_of_pos (by simp [hhead]), takeFirst, hhead]
      exact ⟨x, R, hL, rq', by simp [hu], hu, hh, ha⟩

/-- The same with the test of the total in front, which is zero only if the loop finds nothing. -/
theorem take_first (h : rq.Holds L) (order : List Priority) :
    match rq.firstLevel order with
    | none => rq.take order = some (rq, none)
    | some prio => ∃ x R, L prio = x :: R ∧ ∃ rq', rq.take order = some (rq', some x.2) ∧
        rq.unlinkNode prio x.1 = some (rq', x.2) ∧
        rq'.Holds (Function.update L prio R) ∧ rq'.alloc = rq.alloc := by
  have hr := takeFirst_holds h order
  cases hf : rq.firstLevel order with
  | none =>
    rw [hf] at hr
    dsimp only
    rw [take, hr, ite_self]
  | some prio =>
    rw [hf] at hr
    obtain ⟨x, R, hL, rq', hr, hu, hh, ha⟩ := hr
    have hne : rq.totalCount ≠ 0 := by
      rw [h.total]
      have := total_update L prio []
      rw [hL] at this
      simp only [List.length_cons, List.length_nil] at this
      omega
    exact ⟨x, R, hL, rq', by rw [take, if_neg hne, hr], hu, hh, ha⟩

/-- **A removal** takes the first process of the first level that has one, or finds none. -/
theorem take_level (h : rq.Holds L) {order : List Priority} (hall : ∀ prio, prio ∈ order) :
    ((∀ prio, L prio = []) ∧ rq.take order = some (rq, none)) ∨
    ∃ prio x R, rq.firstLevel order = some prio ∧ L prio = x :: R ∧
      ∃ rq', rq.take order = some (rq', some x.2) ∧
        rq'.Holds (Function.update L prio R) ∧ rq'.alloc = rq.alloc := by
  have hr := take_first h order
  cases hf : rq.firstLevel order with
  | none =>
    rw [hf] at hr
    refine Or.inl ⟨fun prio => ?_, hr⟩
    rw [firstLevel_eq h, List.find?_eq_none] at hf
    simpa using hf prio (hall prio)
  | some prio =>
    rw [hf] at hr
    obtain ⟨x, R, hL, rq', hr, _, hh, ha⟩ := hr
    exact Or.inr ⟨prio, x, R, rfl, hL, rq', hr, hh, ha⟩

/-- The same for a caller that does not care which level it was. -/
theorem take_holds (h : rq.Holds L) (order : List Priority) (hall : ∀ prio, prio ∈ order) :
    ((∀ prio, L prio = []) ∧ rq.take order = some (rq, none)) ∨
    ∃ prio x R, L prio = x :: R ∧
      ∃ rq', rq.take order = some (rq', some x.2) ∧
        rq'.Holds (Function.update L prio R) ∧ rq'.alloc = rq.alloc := by
  rcases take_level h hall with hnone | ⟨prio, x, R, _, hL, hr⟩
  · exact Or.inl hnone
  · exact Or.inr ⟨prio, x, R, hL, hr⟩

end RunQueue

/-! ### The processes in the queue -/

/-- The processes in the queue, at whatever level. -/
def queued (L : Priority → List (Nat × ProcId)) : Multiset ProcId :=
  (dequeueOrder.map fun prio => ((L prio).map Prod.snd : Multiset ProcId)).sum

theorem queued_update (L : Priority → List (Nat × ProcId)) (prio : Priority)
    (M : List (Nat × ProcId)) :
    queued (Function.update L prio M) + ((L prio).map Prod.snd : Multiset ProcId) =
      queued L + (M.map Prod.snd : Multiset ProcId) := by
  cases prio <;>
    simp only [queued, dequeueOrder, List.map_cons, List.map_nil, List.sum_cons, List.sum_nil,
      Function.update_apply, reduceCtorEq, if_true, if_false] <;>
    abel

theorem queued_take {L : Priority → List (Nat × ProcId)} {prio : Priority} {x : Nat × ProcId}
    {R : List (Nat × ProcId)} (hL : L prio = x :: R) :
    queued L = x.2 ::ₘ queued (Function.update L prio R) := by
  have h := queued_update L prio R
  rw [hL, List.map_cons, ← Multiset.cons_coe, ← Multiset.singleton_add] at h
  rw [← Multiset.singleton_add]
  refine (add_right_cancel (b := (R.map Prod.snd : Multiset ProcId)) ?_).symm
  rw [← h]
  abel

theorem queued_insert (L : Priority → List (Nat × ProcId)) (prio : Priority) (x : Nat × ProcId) :
    queued (Function.update L prio (L prio ++ [x])) = x.2 ::ₘ queued L := by
  have h := queued_update L prio (L prio ++ [x])
  rw [List.map_append, ← Multiset.coe_add, ← add_assoc, List.map_singleton,
    Multiset.coe_singleton] at h
  rw [← Multiset.singleton_add]
  refine add_right_cancel (b := ((L prio).map Prod.snd : Multiset ProcId)) ?_
  rw [h]
  abel

/-! ### With the state of the process -/

/-- `beam_run_queue_enqueue`. -/
def beamRunQueueEnqueue (rq : RunQueue) (w : World) (proc : ProcId) (prio : Priority) :
    Option (RunQueue × World × Result) :=
  (rq.insert proc prio).map fun r =>
    (r.1, if r.2 = .ok then w.setState proc .runnable else w, r.2)

/-- `beam_run_queue_dequeue`. -/
def beamRunQueueDequeue (rq : RunQueue) (w : World) : Option (RunQueue × World × Option ProcId) :=
  (rq.take dequeueOrder).map fun r =>
    match r.2 with
    | none => (r.1, w, none)
    | some proc => (r.1, w.setState proc .running, some proc)

/-- `beam_run_queue_steal`. -/
def beamRunQueueSteal (rq : RunQueue) (w : World) : Option (RunQueue × World × Option ProcId) :=
  (rq.take stealOrder).map fun r =>
    match r.2 with
    | none => (r.1, w, none)
    | some proc => (r.1, w.setState proc .running, some proc)

end BeamModular
