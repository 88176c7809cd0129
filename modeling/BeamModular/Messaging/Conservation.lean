import BeamModular.Messaging.Concurrent
import Mathlib.Algebra.BigOperators.Group.Finset.Basic

/-!
# No message is lost

`Sound` is the invariant of the concurrent mailbox: the links that exist follow the
order of the exchanges, every missing one has a producer on its way, and every
message is in exactly one place.

A dequeue that finds no link behind its node empties the mailbox: it clears the
head, then the tail.  That is right only where the node was the last one and stays
the last one until the tail is cleared; `Undisturbed` says so step by step, and
`sound_step` shows that the invariant survives every step that meets it.  Where a
producer comes in between, its message is gone (`overtaken_lost`).
-/

namespace BeamModular

/-! ### The invariant -/

/-- The node the consumer works on. -/
def ConsumerPc.node : ConsumerPc → Option Nat
  | .idle => none
  | .found => none
  | .reading node => some node
  | .loaded node _ _ => some node
  | .advanced node _ => some node
  | .emptied node _ => some node
  | .counting node _ => some node
  | .releasing node _ => some node

/-- The message the consumer has taken off the chain and not yet returned. -/
def ConsumerPc.held : ConsumerPc → Multiset Eterm
  | .advanced _ msg => {msg}
  | .emptied _ msg => {msg}
  | .counting _ msg => {msg}
  | .releasing _ msg => {msg}
  | _ => 0

/-- The message of an enqueue that has exchanged the tail and not yet returned. -/
def ProducerPc.inFlight : ProducerPc → Multiset Eterm
  | .linking _ msg _ => {msg}
  | .linked msg => {msg}
  | .counted msg => {msg}
  | _ => 0

/-- The message of an enqueue that has its node and has not exchanged the tail. -/
def ProducerPc.unshared : ProducerPc → List Eterm
  | .ready _ msg => [msg]
  | _ => []

/-- What the consumer relies on, at each of its steps. -/
def Consuming {ι : Type} (head tail : Option Nat) (q : List (Queued ι)) : ConsumerPc → Prop
  | .idle => tail = lastOf none q
  | .found => tail = lastOf none q ∧ head ≠ none
  | .reading node => tail = lastOf none q ∧ ∃ v q', q = ⟨node, v, none⟩ :: q'
  | .loaded node msg next => tail = lastOf none q ∧ ∃ q', q = ⟨node, msg, none⟩ :: q' ∧
    (next = none → q' = []) ∧ ∀ b, next = some b → ∃ w q'', q' = ⟨b, w, none⟩ :: q''
  | .advanced node _ => node ∉ q.map Queued.id ∧ (head = none → q = []) ∧
    (head ≠ none → tail = lastOf none q)
  | .emptied node _ => node ∉ q.map Queued.id ∧ q = []
  | .counting node _ => node ∉ q.map Queued.id ∧ tail = lastOf none q
  | .releasing node _ => node ∉ q.map Queued.id ∧ tail = lastOf none q

/-- **The invariant**: the mailbox holds the queue `q`, every missing link is owed, nodes that are
not shared yet are nobody else's, and no message is lost or doubled. -/
structure Sound {ι : Type} [Fintype ι] (s : Traffic ι) (q : List (Queued ι)) : Prop where
  nodup : (q.map Queued.id).Nodup
  follows : Follows s.mailbox.nodes s.producers s.mailbox.head none q
  owed : ∀ i n v p, s.producers i = .linking n v p → (⟨n, v, some i⟩ : Queued ι) ∈ q
  ready : ∀ i n v, s.producers i = .ready n v → s.mailbox.nodes.get n = some ⟨v, none⟩ ∧
    n ∉ q.map Queued.id ∧ s.consumer.node ≠ some n
  distinct : ∀ i j n v w, s.producers i = .ready n v → s.producers j = .ready n w → i = j
  below : ∀ n, s.consumer.node = some n → n < s.mailbox.nodes.length
  consuming : Consuming s.mailbox.head s.mailbox.tail q s.consumer
  account : (s.dequeued : Multiset Eterm) + s.consumer.held + (q.map Queued.msg : Multiset Eterm) =
    (s.enqueued : Multiset Eterm) + ∑ i, (s.producers i).inFlight
  late : s.lateWrite = false

section Steps

variable {ι : Type} [Fintype ι] {s s' : Traffic ι} {q : List (Queued ι)} {i : ι}

theorem sum_producers_update [DecidableEq ι] {β : Type} [AddCommMonoid β] (f : ProducerPc → β)
    (pcs : ι → ProducerPc) (i : ι) (pc : ProducerPc) :
    (∑ j, f (Function.update pcs i pc j)) + f (pcs i) = (∑ j, f (pcs j)) + f pc := by
  rw [← Finset.add_sum_erase _ _ (Finset.mem_univ i),
    ← Finset.add_sum_erase _ (fun j => f (pcs j)) (Finset.mem_univ i), Function.update_self]
  have hrest : ∑ j ∈ Finset.univ.erase i, f (Function.update pcs i pc j) =
      ∑ j ∈ Finset.univ.erase i, f (pcs j) :=
    Finset.sum_congr rfl fun j hj => by rw [Function.update_of_ne (Finset.ne_of_mem_erase hj)]
  rw [hrest, add_right_comm, add_comm (f pc), add_right_comm]

theorem account_update [DecidableEq ι] {taken taken' done done' : Multiset Eterm}
    {pcs : ι → ProducerPc} {pc : ProducerPc} (h : taken = done + ∑ j, (pcs j).inFlight)
    (hbal : taken' + done + (pcs i).inFlight = taken + done' + pc.inFlight) :
    taken' = done' + ∑ j, (Function.update pcs i pc j).inFlight := by
  have hsum := sum_producers_update ProducerPc.inFlight pcs i pc
  have hcancel : taken' + (done + (pcs i).inFlight) =
      done' + (∑ j, (Function.update pcs i pc j).inFlight) + (done + (pcs i).inFlight) := by
    calc taken' + (done + (pcs i).inFlight)
        = done + ∑ j, (pcs j).inFlight + done' + pc.inFlight := by rw [← add_assoc, hbal, h]
      _ = done + done' + ((∑ j, (pcs j).inFlight) + pc.inFlight) := by abel
      _ = _ := by rw [← hsum]; abel
  exact add_right_cancel hcancel

theorem Sound.lt_length (h : Sound s q) : ∀ n ∈ q.map Queued.id, n < s.mailbox.nodes.length := by
  intro n hn
  obtain ⟨x, hx, rfl⟩ := List.mem_map.mp hn
  obtain ⟨next, hg⟩ := h.follows.get_of_mem x hx
  exact Nodes.lt_length_of_get hg

theorem Sound.owner_ne (h : Sound s q) (hi : ∀ n v p, s.producers i ≠ .linking n v p) :
    ∀ x ∈ q, x.owner ≠ some i := by
  intro x hx ho
  obtain ⟨p, hp⟩ := h.follows.owner_of_mem x hx i ho
  exact hi _ _ _ hp

variable [DecidableEq ι]

theorem Sound.update_owner (h : Sound s q) (hi : ∀ n v p, s.producers i ≠ .linking n v p)
    (pc : ProducerPc) : ∀ x ∈ q, ∀ j, x.owner = some j →
      Function.update s.producers i pc j = s.producers j := by
  intro x hx
  exact update_of_owner_ne pc (h.owner_ne hi x hx)

omit [Fintype ι] in
theorem of_update_eq {pcs : ι → ProducerPc} {j : ι} {pc pc' : ProducerPc}
    (h : Function.update pcs i pc j = pc') (hne : pc ≠ pc') : j ≠ i ∧ pcs j = pc' := by
  have hji : j ≠ i := by
    rintro rfl
    rw [Function.update_self] at h
    exact hne h
  rw [Function.update_of_ne hji] at h
  exact ⟨hji, h⟩

/-- Nodes that are not shared stay apart when a producer gives its own away. -/
theorem Sound.distinct_update (h : Sound s q) {pc : ProducerPc} (hpc : ∀ n v, pc ≠ .ready n v) :
    ∀ j k n v w, Function.update s.producers i pc j = .ready n v →
      Function.update s.producers i pc k = .ready n w → j = k := by
  intro j k n v w hj hk
  exact h.distinct j k n v w (of_update_eq hj (hpc n v)).2 (of_update_eq hk (hpc n w)).2

theorem sound_call {msg : Eterm} (h : Sound s q) (hs : s.call i msg = some s') : Sound s' q := by
  unfold Traffic.call at hs
  split at hs
  swap
  · cases hs
  rename_i hidle
  have hno : ∀ n v p, s.producers i ≠ .linking n v p := fun n v p he => by
    rw [hidle] at he
    cases he
  dsimp only at hs
  split at hs
  swap
  · cases hs
    exact { h with }
  cases hs
  have hold : ∀ n, n < s.mailbox.nodes.length →
      (s.mailbox.nodes.alloc ⟨msg, none⟩).get n = s.mailbox.nodes.get n := fun n hn =>
    Nodes.get_alloc_of_lt _ hn
  refine {
    nodup := h.nodup
    follows := h.follows.congr (fun x hx => hold _ (h.lt_length _ (List.mem_map_of_mem hx)))
      (h.update_owner hno _)
    owed := fun j n v p hj => ?_
    ready := fun j n v hj => ?_
    distinct := fun j k n v w hj hk => ?_
    below := fun n hn => ?_
    consuming := h.consuming
    account := ?_
    late := h.late }
  · exact h.owed j n v p (of_update_eq hj (by simp)).2
  · dsimp only [Traffic.setProducer] at hj ⊢
    rw [Function.update_apply] at hj
    split at hj
    · cases hj
      refine ⟨Nodes.get_alloc_new _ _, fun hm => ?_, fun hc => ?_⟩
      · exact absurd (h.lt_length _ hm) (lt_irrefl _)
      · exact absurd (h.below _ hc) (lt_irrefl _)
    · obtain ⟨hg, hrest⟩ := h.ready j n v hj
      exact ⟨Nodes.get_alloc_of_get hg, hrest⟩
  · dsimp only [Traffic.setProducer] at hj hk
    rw [Function.update_apply] at hj hk
    split at hj <;> split at hk
    · rename_i h1 h2
      rw [h1, h2]
    · cases hj
      exact absurd (Nodes.lt_length_of_get (h.ready k _ w hk).1) (lt_irrefl _)
    · cases hk
      exact absurd (Nodes.lt_length_of_get (h.ready j _ v hj).1) (lt_irrefl _)
    · exact h.distinct j k n v w hj hk
  · dsimp only [Traffic.setProducer] at hn ⊢
    have := h.below n hn
    simp only [Nodes.length_alloc]
    omega
  · exact account_update h.account (by rw [hidle]; rfl)

omit [DecidableEq ι] in
/-- Unless a dequeue is emptying the mailbox, the tail is the last node of the queue. -/
theorem Sound.tail_eq (h : Sound s q) (hok : ¬ s.Emptying) : s.mailbox.tail = lastOf none q := by
  have hc := h.consuming
  unfold Traffic.Emptying at hok
  cases hs : s.consumer with
  | idle => rw [hs] at hc; exact hc
  | found => rw [hs] at hc; exact hc.1
  | reading node => rw [hs] at hc; exact hc.1
  | loaded node msg next => rw [hs] at hc; exact hc.1
  | advanced node msg => rw [hs] at hc hok; exact hc.2.2 hok
  | emptied node msg => rw [hs] at hok; exact absurd trivial hok
  | counting node msg => rw [hs] at hc; exact hc.2
  | releasing node msg => rw [hs] at hc; exact hc.2

omit [DecidableEq ι] in
/-- What the consumer relies on is not disturbed by a new node at the end of the queue, unless it
is emptying the mailbox. -/
theorem Sound.consuming_snoc {n : Nat} {v : Eterm} (h : Sound s q) (hok : ¬ s.Emptying)
    (hcn : s.consumer.node ≠ some n) :
    Consuming s.mailbox.head (some n) (q ++ [⟨n, v, some i⟩]) s.consumer := by
  have hlast : some n = lastOf none (q ++ [⟨n, v, some i⟩]) :=
    (lastOf_append q ⟨n, v, some i⟩ none).symm
  have hout : ∀ {node : Nat}, s.consumer.node = some node → node ∉ q.map Queued.id →
      node ∉ (q ++ [(⟨n, v, some i⟩ : Queued ι)]).map Queued.id := by
    intro node hnode hnot
    rw [List.map_append, List.mem_append, not_or]
    refine ⟨hnot, fun hm => hcn ?_⟩
    rw [List.map_singleton, List.mem_singleton] at hm
    rw [hnode, hm]
  have hc := h.consuming
  unfold Traffic.Emptying at hok
  cases hs : s.consumer with
  | idle => exact hlast
  | found => rw [hs] at hc; exact ⟨hlast, hc.2⟩
  | reading node =>
    rw [hs] at hc
    obtain ⟨_, w, q', rfl⟩ := hc
    exact ⟨hlast, w, _, rfl⟩
  | loaded node msg next =>
    rw [hs] at hc hok
    cases next with
    | none => exact absurd trivial hok
    | some b =>
      obtain ⟨_, q', rfl, _, hb⟩ := hc
      obtain ⟨w, q'', rfl⟩ := hb b rfl
      exact ⟨hlast, _, rfl, by simp, fun b' hb' => by cases hb'; exact ⟨w, _, rfl⟩⟩
  | advanced node msg =>
    rw [hs] at hc hok
    exact ⟨hout (by rw [hs]; rfl) hc.1, fun h0 => absurd h0 hok, fun _ => hlast⟩
  | emptied node msg => rw [hs] at hok; exact absurd trivial hok
  | counting node msg => rw [hs] at hc; exact ⟨hout (by rw [hs]; rfl) hc.1, hlast⟩
  | releasing node msg => rw [hs] at hc; exact ⟨hout (by rw [hs]; rfl) hc.1, hlast⟩

/-- **The exchange**: the node joins the queue, its link owed. -/
theorem sound_exchange {n : Nat} {v : Eterm} (h : Sound s q) (hi : s.producers i = .ready n v)
    (hok : ¬ s.Emptying) :
    Sound { s.setProducer i (.linking n v s.mailbox.tail) with
      mailbox := { s.mailbox with tail := some n } } (q ++ [⟨n, v, some i⟩]) := by
  obtain ⟨hg, hnq, hcn⟩ := h.ready i n v hi
  have hno : ∀ n v p, s.producers i ≠ .linking n v p := fun n v p he => by
    rw [hi] at he
    cases he
  refine {
    nodup := ?_
    follows := ?_
    owed := fun j m w p hj => ?_
    ready := fun j m w hj => ?_
    distinct := h.distinct_update (by simp)
    below := h.below
    consuming := h.consuming_snoc hok hcn
    account := ?_
    late := h.late }
  · rw [List.map_append, List.nodup_append]
    refine ⟨h.nodup, by simp, fun a ha b hb => ?_⟩
    rw [List.map_singleton, List.mem_singleton] at hb
    intro hab
    rw [hab, hb] at ha
    exact hnq ha
  · refine Follows.snoc hg (h.follows.congr (fun _ _ => rfl) (h.update_owner hno _)) ?_
    show Function.update s.producers i _ i = _
    rw [Function.update_self, h.tail_eq hok]
  · dsimp only [Traffic.setProducer] at hj
    rw [Function.update_apply] at hj
    split at hj
    · rename_i hji
      cases hj
      rw [hji]
      simp
    · exact List.mem_append_left _ (h.owed j m w p hj)
  · obtain ⟨hji, hold⟩ := of_update_eq hj (by simp)
    obtain ⟨hgm, hmq, hmc⟩ := h.ready j m w hold
    refine ⟨hgm, ?_, hmc⟩
    rw [List.map_append, List.mem_append, not_or]
    refine ⟨hmq, fun hm => hji ?_⟩
    rw [List.map_singleton, List.mem_singleton] at hm
    subst hm
    exact h.distinct j i m w v hold hi
  · refine account_update h.account ?_
    rw [hi, List.map_append, ← Multiset.coe_add]
    simp only [Traffic.setProducer, ProducerPc.inFlight, List.map_singleton,
      Multiset.coe_singleton, add_zero]
    abel

omit [Fintype ι] in
theorem Consuming.settle {head tail : Option Nat} {c : ConsumerPc} (h : Consuming head tail q c)
    {n : Nat} {v : Eterm} (hm : (⟨n, v, some i⟩ : Queued ι) ∈ q) {head' : Option Nat}
    (hhead : head ≠ none → head' ≠ none) : Consuming head' tail (settle i q) c := by
  have hne : q ≠ [] := List.ne_nil_of_mem hm
  cases c with
  | idle => exact h.trans (settle_lastOf q none).symm
  | found => exact ⟨h.1.trans (settle_lastOf q none).symm, hhead h.2⟩
  | reading node =>
    obtain ⟨ht, w, q', rfl⟩ := h
    exact ⟨ht.trans (settle_lastOf _ none).symm, w, _, settle_cons_none node w q'⟩
  | loaded node msg next =>
    obtain ⟨ht, q', rfl, hnone, hsome⟩ := h
    refine ⟨ht.trans (settle_lastOf _ none).symm, _, settle_cons_none node msg q', fun h0 => ?_,
      fun b hb => ?_⟩
    · rw [hnone h0] at hm
      simp at hm
    · obtain ⟨w, q'', rfl⟩ := hsome b hb
      exact ⟨w, _, settle_cons_none b w q''⟩
  | advanced node msg =>
    obtain ⟨hn, h0, h1⟩ := h
    have hh : head ≠ none := fun he => hne (h0 he)
    refine ⟨by rwa [settle_ids], fun he => absurd he (hhead hh), fun _ => ?_⟩
    rw [settle_lastOf]
    exact h1 hh
  | emptied node msg => exact absurd h.2 hne
  | counting node msg => exact ⟨by rw [settle_ids]; exact h.1, h.2.trans (settle_lastOf q none).symm⟩
  | releasing node msg =>
    exact ⟨by rw [settle_ids]; exact h.1, h.2.trans (settle_lastOf q none).symm⟩

/-- A link store into a queue: the store is not late, and the link is no longer owed. -/
theorem Sound.linkNode {n : Nat} {v : Eterm} {p : Option Nat} (pc : ProducerPc) (h : Sound s q)
    (hi : s.producers i = .linking n v p) :
    ∃ mb, s.mailbox.linkNode p n = some mb ∧ mb.tail = s.mailbox.tail ∧
      (s.mailbox.head ≠ none → mb.head ≠ none) ∧ mb.nodes.length = s.mailbox.nodes.length ∧
      (∀ j, j ∉ q.map Queued.id → mb.nodes.get j = s.mailbox.nodes.get j) ∧
      Follows mb.nodes (Function.update s.producers i pc) mb.head none (settle i q) := by
  rcases h.follows.link pc hi h.nodup (h.owed i n v p hi) with
    ⟨rfl, hf⟩ | ⟨t, ns, rfl, ht, hs, hout, hf⟩
  · exact ⟨_, rfl, rfl, fun _ => by simp, rfl, fun _ _ => rfl, hf⟩
  · refine ⟨{ s.mailbox with nodes := ns }, ?_, rfl, fun h0 => h0, ?_, hout, hf⟩
    · simp only [Mailbox.linkNode, hs, Option.map_some]
    · obtain ⟨_, _, rfl⟩ := Nodes.setNext_eq_some hs
      exact List.length_set

/-- **The link store.** -/
theorem sound_link {n : Nat} {v : Eterm} {p : Option Nat} (h : Sound s q)
    (hi : s.producers i = .linking n v p) (hs : s.produce i = some s') :
    Sound s' (settle i q) := by
  obtain ⟨mb, hmb, htail, hhead, hlen, hout, hf⟩ := h.linkNode (.linked v) hi
  have hm := h.owed i n v p hi
  simp only [Traffic.produce, hi, hmb] at hs
  cases hs
  refine {
    nodup := by rw [settle_ids]; exact h.nodup
    follows := hf
    owed := fun j m w p' hj => ?_
    ready := fun j m w hj => ?_
    distinct := h.distinct_update (by simp)
    below := fun m hm => ?_
    consuming := ?_
    account := ?_
    late := h.late }
  · obtain ⟨hji, hj⟩ := of_update_eq hj (by simp)
    exact mem_settle (h.owed j m w p' hj) fun he => hji (Option.some.inj he)
  · obtain ⟨hg, hmq, hmc⟩ := h.ready j m w (of_update_eq hj (by simp)).2
    exact ⟨by rw [← hg]; exact hout m hmq, by rwa [settle_ids], hmc⟩
  · show m < mb.nodes.length
    rw [hlen]
    exact h.below m hm
  · show Consuming mb.head mb.tail _ s.consumer
    rw [htail]
    exact h.consuming.settle hm hhead
  · refine account_update h.account ?_
    rw [hi, settle_msgs]
    rfl

theorem sound_producer (pc : ProducerPc) (h : Sound s q)
    (hold : ∀ n v p, s.producers i ≠ .linking n v p) (hnew : ∀ n v p, pc ≠ .linking n v p)
    (hready : ∀ n v, pc ≠ .ready n v) (hp : s'.producers = Function.update s.producers i pc)
    (hn : s'.mailbox.nodes = s.mailbox.nodes) (hh : s'.mailbox.head = s.mailbox.head)
    (ht : s'.mailbox.tail = s.mailbox.tail) (hc : s'.consumer = s.consumer)
    (hd : s'.dequeued = s.dequeued) (hl : s'.lateWrite = s.lateWrite)
    (hbal : (s.enqueued : Multiset Eterm) + (s.producers i).inFlight =
      (s'.enqueued : Multiset Eterm) + pc.inFlight) : Sound s' q := by
  refine {
    nodup := h.nodup
    follows := ?_
    owed := fun j m w p hj => ?_
    ready := fun j m w hj => ?_
    distinct := by rw [hp]; exact h.distinct_update hready
    below := fun m hm => by rw [hn]; exact h.below m (by rwa [hc] at hm)
    consuming := by rw [hh, ht, hc]; exact h.consuming
    account := ?_
    late := hl.trans h.late }
  · rw [hn, hh, hp]
    exact h.follows.congr (fun _ _ => rfl) (h.update_owner hold pc)
  · rw [hp] at hj
    exact h.owed j m w p (of_update_eq hj (hnew m w p)).2
  · rw [hp] at hj
    rw [hn, hc]
    exact h.ready j m w (of_update_eq hj (hready m w)).2
  · rw [hp, hd, hc]
    refine account_update h.account ?_
    rw [add_assoc, add_assoc _ _ pc.inFlight, hbal]

theorem sound_produce (h : Sound s q) (hok : s.Undisturbed (.produce i))
    (hs : s.produce i = some s') :
    ∃ q', Sound s' q' ∧ q'.map Queued.msg = q.map Queued.msg ++ (s.producers i).unshared := by
  cases hi : s.producers i with
  | idle =>
    simp only [Traffic.produce, hi] at hs
    cases hs
  | ready n v =>
    simp only [Traffic.Undisturbed, hi] at hok
    simp only [Traffic.produce, hi] at hs
    cases hs
    exact ⟨_, sound_exchange h hi hok, List.map_append⟩
  | linking n v p =>
    exact ⟨_, sound_link h hi hs, (settle_msgs q).trans (List.append_nil _).symm⟩
  | linked v =>
    simp only [Traffic.produce, hi] at hs
    cases hs
    exact ⟨q, sound_producer (.counted v) h (by simp [hi]) (by simp) (by simp) rfl rfl rfl rfl
      rfl rfl rfl (by rw [hi]; rfl), (List.append_nil _).symm⟩
  | counted v =>
    simp only [Traffic.produce, hi] at hs
    cases hs
    refine ⟨q, sound_producer .idle h (by simp [hi]) (by simp) (by simp) rfl rfl rfl rfl
      rfl rfl rfl ?_, (List.append_nil _).symm⟩
    rw [hi]
    show (s.enqueued : Multiset Eterm) + {v} = ((v :: s.enqueued : List Eterm) : Multiset Eterm) + 0
    rw [← Multiset.cons_coe, add_zero, ← Multiset.singleton_add, add_comm]

end Steps

section Consumer

variable {ι : Type} [Fintype ι] {s s' : Traffic ι} {q : List (Queued ι)}

theorem sound_consumer {c : ConsumerPc} (h : Sound s q) (hnode : c.node = s.consumer.node)
    (hheld : c.held = s.consumer.held) {tail : Option Nat} {count : Nat}
    (hc : Consuming s.mailbox.head tail q c) :
    Sound { s with mailbox := { s.mailbox with tail := tail, count := count }, consumer := c } q where
  nodup := h.nodup
  follows := h.follows
  owed := h.owed
  ready i n v hi := by
    obtain ⟨hg, hnq, hcn⟩ := h.ready i n v hi
    exact ⟨hg, hnq, by rwa [hnode]⟩
  distinct := h.distinct
  below n hn := h.below n (by rwa [← hnode])
  consuming := hc
  account := by rw [hheld]; exact h.account
  late := h.late

theorem sound_reading {node : Nat} (h : Sound s q) (hf : s.consumer = .found)
    (hh : s.mailbox.head = some node) : Sound { s with consumer := .reading node } q := by
  have hc := h.consuming
  rw [hf] at hc
  have hfol := h.follows
  rw [hh] at hfol
  obtain ⟨v, q', rfl⟩ := hfol.of_some
  refine { h with
    ready := fun i n w hi => ?_
    below := fun n hn => ?_
    consuming := ⟨hc.1, v, q', rfl⟩
    account := ?_ }
  · obtain ⟨hg, hnq, _⟩ := h.ready i n w hi
    refine ⟨hg, hnq, fun he => hnq ?_⟩
    cases he
    simp
  · cases hn
    exact h.lt_length _ (by simp)
  · have hacc := h.account
    rw [hf] at hacc
    exact hacc

theorem sound_loaded {node : Nat} {n : Node Eterm} (h : Sound s q)
    (hr : s.consumer = .reading node) (hg : s.mailbox.nodes.get node = some n)
    (hok : n.next = none → s.mailbox.tail = some node) :
    Sound { s with consumer := .loaded node n.val n.next } q := by
  have hc := h.consuming
  rw [hr] at hc
  obtain ⟨htail, v, q', rfl⟩ := hc
  obtain ⟨_, next, hget, hq⟩ := h.follows
  rw [hg] at hget
  cases hget
  have hnd := h.nodup
  rw [List.map_cons, List.nodup_cons] at hnd
  refine sound_consumer h (by rw [hr]; rfl) (by rw [hr]; rfl)
    ⟨htail, q', rfl, fun h0 => ?_, fun b hb => ?_⟩
  · -- the tail is this node, so nothing was exchanged behind it
    have hlast : lastOf (some node) q' = some node := htail.symm.trans (hok h0)
    cases q' with
    | nil => rfl
    | cons y q' =>
      rcases lastOf_mem (show lastOf (some y.id) q' = some node from hlast) with he | hm
      · exact absurd (by simp [Option.some.inj he]) hnd.1
      · exact absurd (by simp [hm]) hnd.1
  · dsimp only at hb
    rw [hb] at hq
    exact hq.of_some

/-- **The head moves on**: the first node leaves the queue. -/
theorem sound_advance {node : Nat} {msg : Eterm} {next : Option Nat} (h : Sound s q)
    (hl : s.consumer = .loaded node msg next) :
    ∃ q', Sound { s with
      mailbox := { s.mailbox with head := next }, consumer := .advanced node msg } q' := by
  have hc := h.consuming
  rw [hl] at hc
  obtain ⟨htail, q', rfl, hnone, hsome⟩ := hc
  obtain ⟨_, next', _, hq⟩ := h.follows
  have hnd := h.nodup
  rw [List.map_cons, List.nodup_cons] at hnd
  -- the first link is there, so it does not matter what stood before it
  have hfol : Follows s.mailbox.nodes s.producers next none q' := by
    cases next with
    | none => rw [hnone rfl]; rfl
    | some b =>
      obtain ⟨w, q'', rfl⟩ := hsome b rfl
      exact ⟨rfl, hq.2⟩
  refine ⟨q', {
    nodup := hnd.2
    follows := hfol
    owed := fun i n v p hi => ?_
    ready := fun i n v hi => ?_
    distinct := h.distinct
    below := fun n hn => h.below n (by rw [hl]; exact hn)
    consuming := ⟨hnd.1, hnone, fun hne => ?_⟩
    account := ?_
    late := h.late }⟩
  · rcases List.mem_cons.mp (h.owed i n v p hi) with he | hm
    · cases he
    · exact hm
  · obtain ⟨hg, hnq, hcn⟩ := h.ready i n v hi
    rw [List.map_cons, List.mem_cons, not_or] at hnq
    exact ⟨hg, hnq.2, by rw [hl] at hcn; exact hcn⟩
  · obtain ⟨b, rfl⟩ := Option.ne_none_iff_exists'.mp hne
    obtain ⟨w, q'', rfl⟩ := hsome b rfl
    exact htail
  · have hacc := h.account
    rw [hl, List.map_cons, ← Multiset.cons_coe, ← Multiset.singleton_add] at hacc
    simp only [ConsumerPc.held, add_zero] at hacc ⊢
    rw [← hacc, add_assoc]

theorem sound_release {node : Nat} {msg : Eterm} (h : Sound s q)
    (hr : s.consumer = .releasing node msg) :
    Sound { s with
      mailbox := { s.mailbox with nodes := s.mailbox.nodes.free node }
      consumer := .idle
      dequeued := msg :: s.dequeued } q := by
  have hc := h.consuming
  rw [hr] at hc
  have hlt : node < s.mailbox.nodes.length := h.below node (by rw [hr]; rfl)
  have hkeep : ∀ n, n ≠ node → (s.mailbox.nodes.free node).get n = s.mailbox.nodes.get n :=
    fun n hn => by rw [Nodes.get_free hlt, if_neg hn]
  refine { h with
    follows := ?_
    ready := fun i n v hi => ?_
    below := fun n hn => ?_
    consuming := hc.2
    account := ?_ }
  · refine h.follows.congr (fun x hx => hkeep _ ?_) fun _ _ _ _ => rfl
    rintro rfl
    exact hc.1 (List.mem_map_of_mem hx)
  · obtain ⟨hg, hnq, hcn⟩ := h.ready i n v hi
    refine ⟨(hkeep n ?_).trans hg, hnq, by simp [ConsumerPc.node]⟩
    rintro rfl
    exact hcn (by rw [hr]; rfl)
  · cases hn
  · have hacc := h.account
    rw [hr] at hacc
    simp only [ConsumerPc.held, add_zero] at hacc ⊢
    rw [← hacc, ← Multiset.cons_coe, ← Multiset.singleton_add, add_comm ({msg} : Multiset Eterm)]

theorem sound_consume [DecidableEq ι] (h : Sound s q) (hok : s.Undisturbed .consume)
    (hs : s.consume = some s') : ∃ q', Sound s' q' := by
  have hc := h.consuming
  cases hp : s.consumer with
  | idle =>
    rw [hp] at hc
    simp only [Traffic.consume, hp] at hs
    cases hh : s.mailbox.head with
    | none => rw [hh] at hs; cases hs; exact ⟨q, h⟩
    | some n =>
      rw [hh] at hs
      cases hs
      exact ⟨q, sound_consumer h (by rw [hp]; rfl) (by rw [hp]; rfl) ⟨hc, by simp [hh]⟩⟩
  | found =>
    simp only [Traffic.consume, hp, Option.map_eq_some_iff] at hs
    obtain ⟨node, hh, rfl⟩ := hs
    exact ⟨q, sound_reading h hp hh⟩
  | reading node =>
    simp only [Traffic.consume, hp, Option.map_eq_some_iff] at hs
    obtain ⟨n, hg, rfl⟩ := hs
    simp only [Traffic.Undisturbed, hp, hg, Option.map_some, Option.some.injEq] at hok
    exact ⟨q, sound_loaded h hp hg hok⟩
  | loaded node msg next =>
    simp only [Traffic.consume, hp] at hs
    cases hs
    exact sound_advance h hp
  | advanced node msg =>
    rw [hp] at hc
    simp only [Traffic.consume, hp] at hs
    split at hs
    · rename_i h0
      cases hs
      exact ⟨q, sound_consumer h (by rw [hp]; rfl) (by rw [hp]; rfl) ⟨hc.1, hc.2.1 h0⟩⟩
    · rename_i h0
      cases hs
      exact ⟨q, sound_consumer h (by rw [hp]; rfl) (by rw [hp]; rfl) ⟨hc.1, hc.2.2 h0⟩⟩
  | emptied node msg =>
    rw [hp] at hc
    simp only [Traffic.consume, hp] at hs
    cases hs
    refine ⟨q, sound_consumer h (by rw [hp]; rfl) (by rw [hp]; rfl) ⟨hc.1, ?_⟩⟩
    rw [hc.2]
    rfl
  | counting node msg =>
    rw [hp] at hc
    simp only [Traffic.consume, hp] at hs
    cases hs
    exact ⟨q, sound_consumer h (by rw [hp]; rfl) (by rw [hp]; rfl) hc⟩
  | releasing node msg =>
    simp only [Traffic.consume, hp] at hs
    cases hs
    exact ⟨q, sound_release h hp⟩

end Consumer

/-! ### Every interleaving -/

section Runs

variable {ι : Type} [Fintype ι] {s s' : Traffic ι}

/-- Some queue explains the state. -/
def InOrder (s : Traffic ι) : Prop := ∃ q, Sound s q

theorem sound_initial (alloc : Nat → Bool) : Sound (Traffic.start alloc : Traffic ι) [] := by
  refine ⟨List.nodup_nil, rfl, ?_, ?_, ?_, ?_, rfl, ?_, rfl⟩
  · intro i n v p h
    cases h
  · intro i n v h
    cases h
  · intro i j n v w h
    cases h
  · intro n h
    cases h
  · simp [Traffic.start, ProducerPc.inFlight, ConsumerPc.held]

theorem sound_step [DecidableEq ι] {a : Access ι} (h : InOrder s) (hok : s.Undisturbed a)
    (hs : s.step a = some s') : InOrder s' := by
  obtain ⟨q, h⟩ := h
  cases a with
  | call i msg => exact ⟨q, sound_call h hs⟩
  | produce i =>
    obtain ⟨q', h', _⟩ := sound_produce h hok hs
    exact ⟨q', h'⟩
  | consume => exact sound_consume h hok hs

/-- The consumer never follows a null or freed pointer. -/
theorem InOrder.consume_isSome (h : InOrder s) : s.consume.isSome := by
  obtain ⟨q, h⟩ := h
  have hc := h.consuming
  unfold Traffic.consume
  cases hp : s.consumer with
  | idle => cases s.mailbox.head <;> rfl
  | found =>
    rw [hp] at hc
    obtain ⟨n, hn⟩ := Option.ne_none_iff_exists'.mp hc.2
    simp [hn]
  | reading node =>
    rw [hp] at hc
    obtain ⟨_, v, q', rfl⟩ := hc
    obtain ⟨next, hg⟩ := h.follows.get_of_mem ⟨node, v, none⟩ (by simp)
    dsimp only at hg ⊢
    rw [hg]
    rfl
  | advanced node msg => dsimp only; split <;> rfl
  | loaded node msg next => rfl
  | emptied node msg => rfl
  | counting node msg => rfl
  | releasing node msg => rfl

/-- Once every call has returned, no link is owed: the queue is the chain from the head. -/
theorem Sound.chain_of_quiet {q : List (Queued ι)} (h : Sound s q) (hq : s.Quiet) :
    Chain s.mailbox.nodes s.mailbox.head (q.map fun x => (x.id, x.msg)) none := by
  apply h.follows.chain
  intro x hx
  cases ho : x.owner with
  | none => rfl
  | some i =>
    obtain ⟨p, hp⟩ := h.follows.owner_of_mem x hx i ho
    rw [hq.2 i] at hp
    cases hp

/-- Once every call has returned, nothing is in flight. -/
theorem InOrder.conserved (h : InOrder s) (hq : s.Quiet) : s.Conserved := by
  obtain ⟨q, h⟩ := h
  have hchain := h.chain_of_quiet hq
  obtain ⟨hidle, hprod⟩ := hq
  have hwait : s.waiting = q.map Queued.msg := by
    rw [Traffic.waiting, Mailbox.messages, hchain.walk_eq hchain.length_le, List.map_map]
    rfl
  have hacc := h.account
  rw [hidle] at hacc
  simp only [hprod, ProducerPc.inFlight, ConsumerPc.held, Finset.sum_const_zero, add_zero] at hacc
  rw [Traffic.Conserved, hwait, hacc]

end Runs

/-- **No message is lost, where no dequeue is disturbed.**  Over any finite number of producers and
every interleaving in which no dequeue is disturbed while it empties the mailbox: no node is written
after it was freed, the consumer never follows a bad pointer, and whenever all calls have returned,
what was dequeued and what is on the chain is what was enqueued. -/
theorem conserved_of_run {ι : Type} [Fintype ι] [DecidableEq ι] (alloc : Nat → Bool)
    (as : List (Access ι)) (s : Traffic ι)
    (hok : Along Traffic.step Traffic.Undisturbed (Traffic.start alloc) as)
    (hrun : run Traffic.step (Traffic.start alloc) as = some s) :
    s.lateWrite = false ∧ s.consume.isSome ∧ (s.Quiet → s.Conserved) := by
  have h : InOrder s := run_induct InOrder (fun _ _ _ hi hu hs => sound_step hi hu hs)
    ⟨[], sound_initial alloc⟩ hok hrun
  refine ⟨?_, h.consume_isSome, h.conserved⟩
  obtain ⟨q, hq⟩ := h
  exact hq.late

/-- One producer sends 1, the consumer receives it, and the producer sends 2. -/
def orderly : List (Access (Fin 1)) :=
  .call 0 1#64 :: List.replicate 4 (.produce 0) ++ .call 0 2#64 :: List.replicate 8 .consume ++
    List.replicate 4 (.produce 0)

/-- The same calls, but the second send exchanges the tail before the dequeue and stores its link
after it. -/
def overtaken : List (Access (Fin 1)) :=
  .call 0 1#64 :: List.replicate 4 (.produce 0) ++ .call 0 2#64 :: .produce 0 ::
    List.replicate 8 .consume ++ List.replicate 3 (.produce 0)

theorem conserved_of_run_orderly :
    ∃ s, run Traffic.step (Traffic.start fun _ => true) orderly = some s ∧ s.Quiet ∧
      s.dequeued = [1#64] ∧ s.enqueued = [2#64, 1#64] ∧ s.Conserved := by
  obtain ⟨s, hs, hd⟩ := Option.map_eq_some_iff.mp
    (show (run Traffic.step (Traffic.start fun _ => true) orderly).map (fun s =>
      (s.consumer, s.producers 0, s.dequeued, s.enqueued)) =
        some (.idle, .idle, [1#64], [2#64, 1#64]) by decide +kernel)
  simp only [Prod.mk.injEq] at hd
  obtain ⟨hc, hp, hdq, heq⟩ := hd
  have hquiet : s.Quiet := ⟨hc, fun i => by rw [Subsingleton.elim i 0, hp]⟩
  exact ⟨s, hs, hquiet, hdq, heq,
    (conserved_of_run (fun _ => true) orderly s (by decide +kernel) hs).2.2 hquiet⟩

/-- **A message is lost**, and its link store goes into a freed node. -/
theorem overtaken_lost :
    ∃ s, run Traffic.step (Traffic.start fun _ => true) overtaken = some s ∧ s.Quiet ∧
      s.dequeued = [1#64] ∧ s.enqueued = [2#64, 1#64] ∧ s.waiting = [] ∧ ¬ s.Conserved ∧
      s.lateWrite = true := by
  obtain ⟨s, hs, hd⟩ := Option.map_eq_some_iff.mp
    (show (run Traffic.step (Traffic.start fun _ => true) overtaken).map (fun s =>
      (s.consumer, s.producers 0, s.dequeued, s.enqueued, s.waiting, s.lateWrite)) =
        some (.idle, .idle, [1#64], [2#64, 1#64], [], true) from rfl)
  simp only [Prod.mk.injEq] at hd
  obtain ⟨hc, hp, hdq, heq, hw, hl⟩ := hd
  refine ⟨s, hs, ⟨hc, fun i => by rw [Subsingleton.elim i 0, hp]⟩, hdq, heq, hw, ?_, hl⟩
  rw [Traffic.Conserved, hdq, heq, hw]
  decide

end BeamModular
