import BeamModular.Messaging.Conservation

/-!
# Producers without a consumer

Any number of producers enqueue into an empty mailbox while nobody dequeues.  The
order in which the tail is exchanged is the order in which the messages will come
out, and since a producer makes one call after the other, its own messages are
exchanged in the order of its calls.  `Arrived` carries that order through every
step: each producer's part of it, with the message it holds and has not exchanged,
is what the producer has sent.

`drained_in_order` is the result: once all calls have returned, dequeues give every
message once, each producer's in its own order, and then nothing.
-/

namespace BeamModular

variable {ι : Type} [DecidableEq ι]

/-- The messages that got a node, with their producers, in the order of the calls; `alloc` is what
the allocator answers to the calls in turn. -/
def accepted (alloc : Nat → Bool) : List (Access ι) → List (ι × Eterm)
  | [] => []
  | .call i msg :: as =>
    (if alloc 0 then [(i, msg)] else []) ++ accepted (fun n => alloc (n + 1)) as
  | _ :: as => accepted alloc as

/-- The messages of one producer. -/
def ofProducer (i : ι) (L : List (ι × Eterm)) : List Eterm :=
  (L.filter fun x => x.1 = i).map Prod.snd

/-- A dequeue, as an action that answers. -/
def Mailbox.dequeueStep (mb : Mailbox) (_ : Unit) : Option (Mailbox × Except Result Eterm) :=
  mb.dequeue

/-- An enqueue that has its node and has not been added to `atomic_count`. -/
def ProducerPc.uncounted : ProducerPc → Nat
  | .ready _ _ => 1
  | .linking _ _ _ => 1
  | .linked _ => 1
  | _ => 0

/-! ### One producer's part -/

@[simp] theorem ofProducer_append (i : ι) (L K : List (ι × Eterm)) :
    ofProducer i (L ++ K) = ofProducer i L ++ ofProducer i K := by
  rw [ofProducer, List.filter_append, List.map_append]
  rfl

@[simp] theorem ofProducer_self (i : ι) (msg : Eterm) : ofProducer i [(i, msg)] = [msg] := by
  simp [ofProducer]

theorem ofProducer_ne {i j : ι} (h : i ≠ j) (msg : Eterm) : ofProducer j [(i, msg)] = [] := by
  simp [ofProducer, h]

theorem count_ofProducer (i : ι) (msg : Eterm) (L : List (ι × Eterm)) :
    (ofProducer i L).count msg = L.count (i, msg) := by
  induction L with
  | nil => rfl
  | cons x L ih =>
    obtain ⟨j, v⟩ := x
    rw [← List.singleton_append, ofProducer_append, List.count_append, List.count_append, ih]
    congr 1
    by_cases h : j = i
    · subst h
      rw [ofProducer_self]
      by_cases hv : v = msg
      · simp [hv]
      · simp [hv]
    · rw [ofProducer_ne h]
      simp [h]

/-- Lists with the same part for every producer hold the same messages. -/
theorem perm_of_ofProducer {L K : List (ι × Eterm)}
    (h : ∀ i, ofProducer i L = ofProducer i K) : L.Perm K := by
  rw [List.perm_iff_count]
  intro x
  rw [← count_ofProducer, ← count_ofProducer, h x.1]

/-! ### The invariant -/

/-- Nobody dequeues; the queue holds the messages of `order`, each producer's part of which is what
it has sent without the message it has not exchanged yet; and what is not counted yet is under
way. -/
structure Arrived [Fintype ι] (s : Traffic ι) (order sent : List (ι × Eterm)) : Prop where
  idle : s.consumer = .idle
  queue : ∃ q, Sound s q ∧ q.map Queued.msg = order.map Prod.snd
  parts : ∀ i, ofProducer i order ++ (s.producers i).unshared = ofProducer i sent
  counted : s.mailbox.atomicCount + ∑ i, (s.producers i).uncounted = sent.length

section Steps

variable [Fintype ι] {s s' : Traffic ι} {order sent : List (ι × Eterm)} {i : ι}

theorem arrived_start (alloc : Nat → Bool) : Arrived (Traffic.start alloc : Traffic ι) [] [] where
  idle := rfl
  queue := ⟨[], sound_initial alloc, rfl⟩
  parts _ := rfl
  counted := by simp [Traffic.start, Mailbox.create, ProducerPc.uncounted]

theorem arrived_call {msg : Eterm} (h : Arrived s order sent) (hs : s.call i msg = some s') :
    Arrived s' order (sent ++ if s.mailbox.alloc 0 then [(i, msg)] else []) ∧
      s'.mailbox.alloc = fun n => s.mailbox.alloc (n + 1) := by
  obtain ⟨q, hq, hmsgs⟩ := h.queue
  have hq' := sound_call hq hs
  unfold Traffic.call at hs
  split at hs
  swap
  · cases hs
  rename_i hi
  dsimp only at hs
  split at hs
  · rename_i hg
    cases hs
    rw [if_pos hg]
    refine ⟨⟨h.idle, ⟨q, hq', hmsgs⟩, fun j => ?_, ?_⟩, rfl⟩
    · have hp := h.parts j
      dsimp only [Traffic.setProducer]
      rw [ofProducer_append, ← hp]
      by_cases hj : j = i
      · subst hj
        rw [hi, Function.update_self, ofProducer_self]
        simp [ProducerPc.unshared]
      · rw [Function.update_of_ne hj, ofProducer_ne (Ne.symm hj), List.append_nil]
    · have hsum := sum_producers_update ProducerPc.uncounted s.producers i
        (.ready s.mailbox.nodes.length msg)
      have hc := h.counted
      rw [hi] at hsum
      simp only [ProducerPc.uncounted, List.length_append, List.length_singleton,
        Traffic.setProducer] at hsum hc ⊢
      omega
  · rename_i hg
    cases hs
    rw [if_neg hg, List.append_nil]
    exact ⟨⟨h.idle, ⟨q, hq', hmsgs⟩, h.parts, h.counted⟩, rfl⟩

omit [Fintype ι] in
theorem produce_cases (hs : s.produce i = some s') :
    s'.consumer = s.consumer ∧ s'.mailbox.alloc = s.mailbox.alloc ∧
      ∃ pc, s'.producers = Function.update s.producers i pc ∧ pc.unshared = [] ∧
        s'.mailbox.atomicCount + pc.uncounted
          = s.mailbox.atomicCount + (s.producers i).uncounted := by
  unfold Traffic.produce at hs
  split at hs
  · cases hs
  · rename_i hi
    cases hs
    exact ⟨rfl, rfl, _, rfl, rfl, by rw [hi]; rfl⟩
  · rename_i node msg prevTail hi
    split at hs
    · rename_i mb hl
      cases hs
      obtain ⟨_, _, halloc, _, hcount⟩ := Mailbox.linkNode_keeps hl
      exact ⟨rfl, halloc, _, rfl, rfl, by rw [hi]; simp [ProducerPc.uncounted, hcount]⟩
    · cases hs
      exact ⟨rfl, rfl, _, rfl, rfl, by rw [hi]; rfl⟩
  · rename_i hi
    cases hs
    exact ⟨rfl, rfl, _, rfl, rfl, by rw [hi]; rfl⟩
  · rename_i hi
    cases hs
    exact ⟨rfl, rfl, _, rfl, rfl, by rw [hi]; rfl⟩

/-- A step of an enqueue: when the tail is exchanged, the message takes its place in the order. -/
theorem arrived_produce (h : Arrived s order sent) (hs : s.produce i = some s') :
    (∃ order', Arrived s' order' sent) ∧ s'.mailbox.alloc = s.mailbox.alloc := by
  obtain ⟨q, hq, hmsgs⟩ := h.queue
  have hok : s.Undisturbed (.produce i) := by
    unfold Traffic.Undisturbed
    dsimp only
    split
    · rw [Traffic.Emptying, h.idle]
      exact id
    · exact trivial
  obtain ⟨q', hq', hmsgs'⟩ := sound_produce hq hok hs
  obtain ⟨hcons, halloc, pc, hpcs, hun, hcount⟩ := produce_cases hs
  refine ⟨⟨order ++ (s.producers i).unshared.map (Prod.mk i), hcons.trans h.idle,
    ⟨q', hq', ?_⟩, fun j => ?_, ?_⟩, halloc⟩
  · rw [hmsgs', hmsgs, List.map_append, List.map_map]
    exact congrArg _ (List.map_id' _).symm
  · rw [hpcs, ofProducer_append, ← h.parts j]
    by_cases hj : j = i
    · subst hj
      rw [Function.update_self, hun, List.append_nil]
      congr 1
      cases s.producers j <;> simp [ProducerPc.unshared, ofProducer]
    · rw [Function.update_of_ne hj]
      have hnone : ofProducer j ((s.producers i).unshared.map (Prod.mk i)) = [] := by
        cases s.producers i <;> simp [ProducerPc.unshared, ofProducer, Ne.symm hj]
      rw [hnone, List.append_nil]
  · have hsum := sum_producers_update ProducerPc.uncounted s.producers i pc
    have hc := h.counted
    rw [hpcs]
    omega

theorem arrived_run : ∀ {as : List (Access ι)} {s s' : Traffic ι} {order sent : List (ι × Eterm)},
    Arrived s order sent → .consume ∉ as → run Traffic.step s as = some s' →
      ∃ order', Arrived s' order' (sent ++ accepted s.mailbox.alloc as) := by
  intro as
  induction as with
  | nil =>
    intro s s' order sent h _ hr
    cases hr
    exact ⟨order, by rwa [accepted, List.append_nil]⟩
  | cons a as ih =>
    intro s s' order sent h hno hr
    obtain ⟨s₁, hs, hr'⟩ := run_cons_eq_some hr
    rw [List.mem_cons, not_or] at hno
    cases a with
    | call i msg =>
      obtain ⟨h₁, halloc⟩ := arrived_call h hs
      obtain ⟨order', h'⟩ := ih h₁ hno.2 hr'
      exact ⟨order', by rwa [halloc, List.append_assoc] at h'⟩
    | produce i =>
      obtain ⟨⟨order₁, h₁⟩, halloc⟩ := arrived_produce h hs
      obtain ⟨order', h'⟩ := ih h₁ hno.2 hr'
      exact ⟨order', by rwa [halloc] at h'⟩
    | consume => exact absurd rfl hno.1

end Steps

/-! ### Afterwards -/

/-- Dequeues empty the chain from the head and then find nothing. -/
theorem dequeue_all : ∀ {L : List (Nat × Eterm)} {mb : Mailbox}, Chain mb.nodes mb.head L none →
    mb.tail = L.getLast?.map Prod.fst → ∀ n,
      ∃ mb', answers Mailbox.dequeueStep mb (List.replicate (L.length + n) ()) =
        some (mb', L.map (fun x => .ok x.2) ++ List.replicate n (.error .errNotFound)) := by
  intro L
  induction L with
  | nil =>
    intro mb hc _ n
    have hhead : mb.head = none := hc
    have hd : mb.dequeueStep () = some (mb, .error .errNotFound) := by
      rw [Mailbox.dequeueStep, Mailbox.dequeue, hhead]
    refine ⟨mb, ?_⟩
    rw [List.length_nil, Nat.zero_add, List.map_nil, List.nil_append]
    induction n with
    | zero => rfl
    | succ n ih => rw [List.replicate_succ, answers, hd, Option.bind_some, ih]; rfl
  | cons x L ih =>
    intro mb hc ht n
    obtain ⟨mb₁, hd, hc₁, ht₁, _⟩ := Mailbox.dequeue_chain hc ht
    obtain ⟨mb', ha⟩ := ih hc₁ ht₁ n
    refine ⟨mb', ?_⟩
    rw [List.length_cons, Nat.add_right_comm, List.replicate_succ, answers, Mailbox.dequeueStep, hd,
      Option.bind_some, ha]
    rfl

/-- **Concurrent producers lose and reorder nothing.** Over any finite number of producers and every
interleaving of their steps without a consumer, once all calls have returned: there is an order of
the messages that were accepted, with each producer's messages in the order of its calls, in which
dequeues give them, every later dequeue finds nothing, and `atomic_count` is their number. -/
theorem drained_in_order [Fintype ι] (alloc : Nat → Bool) (as : List (Access ι)) (s : Traffic ι)
    (hno : .consume ∉ as) (hrun : run Traffic.step (Traffic.start alloc) as = some s)
    (hquiet : s.Quiet) :
    ∃ order : List (ι × Eterm), order.Perm (accepted alloc as) ∧
      (∀ i, ofProducer i order = ofProducer i (accepted alloc as)) ∧
      (∀ n, ∃ mb, answers Mailbox.dequeueStep s.mailbox
          (List.replicate ((accepted alloc as).length + n) ()) =
        some (mb, order.map (fun x => .ok x.2) ++ List.replicate n (.error .errNotFound))) ∧
      s.mailbox.atomicCount = (accepted alloc as).length := by
  obtain ⟨order, h⟩ := arrived_run (arrived_start alloc) hno hrun
  rw [List.nil_append, show (Traffic.start alloc : Traffic ι).mailbox.alloc = alloc from rfl] at h
  obtain ⟨q, hq, hmsgs⟩ := h.queue
  have hparts : ∀ i, ofProducer i order = ofProducer i (accepted alloc as) := by
    intro i
    have hp := h.parts i
    rw [hquiet.2 i] at hp
    simpa [ProducerPc.unshared] using hp
  have hperm := perm_of_ofProducer hparts
  refine ⟨order, hperm, hparts, fun n => ?_, ?_⟩
  · have htail : s.mailbox.tail = lastOf none q := by
      have hc := hq.consuming
      rw [hquiet.1] at hc
      exact hc
    rw [lastOf_eq_getLast] at htail
    obtain ⟨mb, ha⟩ := dequeue_all (hq.chain_of_quiet hquiet)
      (by rw [htail, List.getLast?_map, List.getLast?_map, Option.map_map]; rfl) n
    refine ⟨mb, ?_⟩
    have hlen : order.length = q.length := by simpa using congrArg List.length hmsgs.symm
    have hbodies : q.map (fun x => (Except.ok x.msg : Except Result Eterm))
        = order.map fun x => Except.ok x.2 := by
      simpa [List.map_map, Function.comp_def] using
        congrArg (List.map fun v => (Except.ok v : Except Result Eterm)) hmsgs
    rw [List.length_map, List.map_map] at ha
    rw [← hperm.length_eq, hlen, ← hbodies]
    exact ha
  · have hc := h.counted
    simpa [hquiet.2, ProducerPc.uncounted] using hc

/-- Two producers at once: the second one links its node before the first one has set the head, and
the first one sends again. -/
def twoProducers : List (Access (Fin 2)) :=
  [.call 0 1#64, .call 1 2#64, .produce 0, .produce 1, .produce 1, .produce 0, .produce 1,
    .produce 0, .produce 0, .call 0 3#64, .produce 0, .produce 1, .produce 0, .produce 0, .produce 0]

theorem drained_in_order_twoProducers :
    ∃ s, run Traffic.step (Traffic.start fun _ => true) twoProducers = some s ∧ s.Quiet ∧
      ∃ order : List (Fin 2 × Eterm), order.Perm [(0, 1#64), (1, 2#64), (0, 3#64)] ∧
        ofProducer 0 order = [1#64, 3#64] ∧ s.mailbox.atomicCount = 3 := by
  obtain ⟨s, hs, hv⟩ := Option.map_eq_some_iff.mp
    (show (run Traffic.step (Traffic.start fun _ => true) twoProducers).map (fun s =>
      (s.consumer, s.producers 0, s.producers 1)) = some (.idle, .idle, .idle) by decide)
  simp only [Prod.mk.injEq] at hv
  have hquiet : s.Quiet := by
    refine ⟨hv.1, fun i => ?_⟩
    fin_cases i
    · exact hv.2.1
    · exact hv.2.2
  obtain ⟨order, hperm, hparts, _, hcount⟩ :=
    drained_in_order (fun _ => true) twoProducers s (by decide) hs hquiet
  exact ⟨s, hs, hquiet, order, hperm, hparts 0, hcount⟩

end BeamModular
