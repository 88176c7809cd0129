import BeamModular.Lib.Run
import BeamModular.Messaging.Mailbox

/-!
# The mailbox under concurrent producers

`beam_mailbox_enqueue` and `beam_mailbox_dequeue` again, this time cut into their
accesses to `tail`, `head` and `next`: any number of producers and one consumer
take these steps in any order, and every step sees what the ones before it did.
Taken in a row, the steps of a call are the operation of `Messaging.Mailbox`
(`run_enqueue`, `run_dequeue`).

An enqueue exchanges the tail first and links its node behind the old tail later.
`Follows` reads the nodes in the order of the exchanges, whether or not they are
linked yet; a node whose link is still missing carries the producer that owes it.
The two steps of an enqueue are `Follows.snoc` and `Follows.link`.
-/

namespace BeamModular

/-! ### The source, one access at a time -/

/-- Where a producer stands in `beam_mailbox_enqueue`. -/
inductive ProducerPc
  | idle
  /-- The node is allocated and filled in. -/
  | ready (node : Nat) (msg : Eterm)
  /-- The tail is exchanged, the link not yet stored. -/
  | linking (node : Nat) (msg : Eterm) (prevTail : Option Nat)
  | linked (msg : Eterm)
  /-- `atomic_count` is incremented, `count` not yet. -/
  | counted (msg : Eterm)
  deriving DecidableEq, Repr

/-- Where the consumer stands in `beam_mailbox_dequeue`. -/
inductive ConsumerPc
  | idle
  /-- The head was tested and not null. -/
  | found
  /-- `node = mbox->head`. -/
  | reading (node : Nat)
  /-- The body and the link of the node are read. -/
  | loaded (node : Nat) (msg : Eterm) (next : Option Nat)
  /-- `mbox->head = next`. -/
  | advanced (node : Nat) (msg : Eterm)
  /-- The head was tested again and is null. -/
  | emptied (node : Nat) (msg : Eterm)
  | counting (node : Nat) (msg : Eterm)
  | releasing (node : Nat) (msg : Eterm)
  deriving DecidableEq, Repr

/-- The mailbox with its producers and its consumer.  `enqueued` and `dequeued` are the bodies of
the calls that have returned `BEAM_OK`; `lateWrite` is set by a store into a freed node. -/
structure Traffic (ι : Type) where
  mailbox : Mailbox
  producers : ι → ProducerPc
  consumer : ConsumerPc
  enqueued : List Eterm
  dequeued : List Eterm
  lateWrite : Bool

/-- One step: a producer calls with a message, a producer goes on, the consumer goes on (and calls
again when it is idle). -/
inductive Access (ι : Type)
  | call (i : ι) (msg : Eterm)
  | produce (i : ι)
  | consume
  deriving DecidableEq, Repr

namespace Traffic

variable {ι : Type} [DecidableEq ι]

/-- An empty mailbox that nobody is using yet. -/
def start (alloc : Nat → Bool) : Traffic ι where
  mailbox := Mailbox.create alloc
  producers _ := .idle
  consumer := .idle
  enqueued := []
  dequeued := []
  lateWrite := false

def setProducer (s : Traffic ι) (i : ι) (pc : ProducerPc) : Traffic ι :=
  { s with producers := Function.update s.producers i pc }

/-- An enqueue up to its first shared access: the node is allocated and filled in, or the call
returns `BEAM_ERR_NO_MEMORY`. -/
def call (s : Traffic ι) (i : ι) (msg : Eterm) : Option (Traffic ι) :=
  match s.producers i with
  | .idle =>
    let granted := s.mailbox.alloc 0
    let mb := { s.mailbox with alloc := fun n => s.mailbox.alloc (n + 1) }
    if granted then
      some { s.setProducer i (.ready mb.nodes.length msg) with
        mailbox := { mb with nodes := mb.nodes.alloc ⟨msg, none⟩ } }
    else some { s with mailbox := mb }
  | _ => none

/-- The rest of an enqueue. -/
def produce (s : Traffic ι) (i : ι) : Option (Traffic ι) :=
  match s.producers i with
  | .idle => none
  | .ready node msg =>
    some { s.setProducer i (.linking node msg s.mailbox.tail) with
      mailbox := { s.mailbox with tail := some node } }
  | .linking node msg prevTail =>
    match s.mailbox.linkNode prevTail node with
    | some mb => some { s.setProducer i (.linked msg) with mailbox := mb }
    | none => some { s.setProducer i (.linked msg) with lateWrite := true }
  | .linked msg =>
    some { s.setProducer i (.counted msg) with
      mailbox := { s.mailbox with atomicCount := s.mailbox.atomicCount + 1 } }
  | .counted msg =>
    some { s.setProducer i .idle with
      mailbox := { s.mailbox with count := s.mailbox.count + 1 }
      enqueued := msg :: s.enqueued }

/-- A dequeue.  There is no result where the code would follow a null or freed pointer. -/
def consume (s : Traffic ι) : Option (Traffic ι) :=
  match s.consumer with
  | .idle =>
    match s.mailbox.head with
    | none => some s
    | some _ => some { s with consumer := .found }
  | .found => s.mailbox.head.map fun node => { s with consumer := .reading node }
  | .reading node =>
    (s.mailbox.nodes.get node).map fun n => { s with consumer := .loaded node n.val n.next }
  | .loaded node msg next =>
    some { s with mailbox := { s.mailbox with head := next }, consumer := .advanced node msg }
  | .advanced node msg =>
    if s.mailbox.head = none then some { s with consumer := .emptied node msg }
    else some { s with consumer := .counting node msg }
  | .emptied node msg =>
    some { s with mailbox := { s.mailbox with tail := none }, consumer := .counting node msg }
  | .counting node msg =>
    some { s with
      mailbox := { s.mailbox with count := s.mailbox.count - 1 }
      consumer := .releasing node msg }
  | .releasing node msg =>
    some { s with
      mailbox := { s.mailbox with nodes := s.mailbox.nodes.free node }
      consumer := .idle
      dequeued := msg :: s.dequeued }

def step (s : Traffic ι) : Access ι → Option (Traffic ι)
  | .call i msg => s.call i msg
  | .produce i => s.produce i
  | .consume => s.consume

/-- Every call has returned. -/
def Quiet (s : Traffic ι) : Prop := s.consumer = .idle ∧ ∀ i, s.producers i = .idle

/-- The dequeue under way has read a null link and has not cleared the tail yet. -/
def Emptying (s : Traffic ι) : Prop :=
  match s.consumer with
  | .loaded _ _ none => True
  | .advanced _ _ => s.mailbox.head = none
  | .emptied _ _ => True
  | _ => False

/-- A step that does not come between a dequeue and the last message: no tail is exchanged while
the mailbox is being emptied, and a null link is read only at the tail. -/
def Undisturbed (s : Traffic ι) : Access ι → Prop
  | .call _ _ => True
  | .produce i =>
    match s.producers i with
    | .ready _ _ => ¬ s.Emptying
    | _ => True
  | .consume =>
    match s.consumer with
    | .reading node =>
      (s.mailbox.nodes.get node).map Node.next = some none → s.mailbox.tail = some node
    | _ => True

instance (s : Traffic ι) : Decidable s.Emptying :=
  decidable_of_iff ((match s.consumer with
    | .loaded _ _ none => true
    | .advanced _ _ => s.mailbox.head.isNone
    | .emptied _ _ => true
    | _ => false : Bool) = true) (by unfold Emptying; split <;> simp)

instance (s : Traffic ι) : (a : Access ι) → Decidable (s.Undisturbed a)
  | .call _ _ => .isTrue trivial
  | .produce i =>
    decidable_of_iff ((match s.producers i with
      | .ready _ _ => !decide s.Emptying
      | _ => true : Bool) = true) (by unfold Undisturbed; dsimp only; split <;> simp)
  | .consume =>
    decidable_of_iff ((match s.consumer with
      | .reading node => (s.mailbox.nodes.get node).map Node.next != some none ||
        s.mailbox.tail == some node
      | _ => true : Bool) = true) (by
        unfold Undisturbed
        dsimp only
        split
        · simp [imp_iff_not_or]
        · simp)

/-- The bodies on the chain from the head. -/
def waiting (s : Traffic ι) : List Eterm := s.mailbox.messages.map Prod.snd

/-- What was dequeued and what is still on the chain is what was enqueued. -/
def Conserved (s : Traffic ι) : Prop :=
  (s.dequeued : Multiset Eterm) + (s.waiting : Multiset Eterm) = (s.enqueued : Multiset Eterm)

end Traffic

/-! ### A call that nobody interrupts -/

section Alone

variable {ι : Type} [DecidableEq ι] {s : Traffic ι}

/-- The steps of one enqueue in a row are `beam_mailbox_enqueue`. -/
theorem run_enqueue {i : ι} {msg : Eterm} {mb : Mailbox} (hi : s.producers i = .idle)
    (h : s.mailbox.enqueue msg = some (mb, .ok)) :
    run Traffic.step s (.call i msg :: List.replicate 4 (.produce i)) =
      some { s with mailbox := mb, enqueued := msg :: s.enqueued } := by
  unfold Mailbox.enqueue at h
  dsimp only at h
  split at h
  · rename_i hg
    obtain ⟨mb₁, hl, he⟩ := Option.map_eq_some_iff.mp h
    cases he
    have hback : Function.update s.producers i .idle = s.producers := by
      rw [← hi, Function.update_eq_self]
    simp only [List.replicate, run, Traffic.step, Traffic.call, hi, hg, if_true, Traffic.produce,
      Traffic.setProducer, Function.update_self, Option.bind_some, hl, Function.update_idem, hback]
  · cases h

/-- The steps of one dequeue in a row are `beam_mailbox_dequeue`. -/
theorem run_dequeue {msg : Eterm} {mb : Mailbox} (hi : s.consumer = .idle)
    (h : s.mailbox.dequeue = some (mb, .ok msg)) :
    ∃ n, run Traffic.step s (List.replicate n .consume) =
      some { s with mailbox := mb, dequeued := msg :: s.dequeued } := by
  unfold Mailbox.dequeue at h
  split at h
  · cases h
  · rename_i node hh
    obtain ⟨n, hg, he⟩ := Option.map_eq_some_iff.mp h
    cases he
    -- one step more when the mailbox becomes empty
    by_cases hn : n.next = none
    · refine ⟨8, ?_⟩
      simp only [List.replicate, run, Traffic.step, Traffic.consume, hi, hh, hg, hn, if_true,
        Option.map_some, Option.bind_some]
    · refine ⟨7, ?_⟩
      simp only [List.replicate, run, Traffic.step, Traffic.consume, hi, hh, hg, hn, if_false,
        Option.map_some, Option.bind_some]

end Alone

/-! ### The nodes in the order of the exchanges -/

/-- A node of the queue; the owner is the producer that still owes the link to it. -/
structure Queued (ι : Type) where
  id : Nat
  msg : Eterm
  owner : Option ι

/-- The link to a node is there, or missing and owed by its owner. -/
def Joined {ι : Type} (pcs : ι → ProducerPc) (link prev : Option Nat) (x : Queued ι) : Prop :=
  match x.owner with
  | none => link = some x.id
  | some i => link = none ∧ pcs i = .linking x.id x.msg prev

/-- The nodes follow each other from `link` on, up to links that are owed. -/
def Follows {ι : Type} (nodes : Nodes Eterm) (pcs : ι → ProducerPc) :
    Option Nat → Option Nat → List (Queued ι) → Prop
  | link, _, [] => link = none
  | link, prev, x :: q => Joined pcs link prev x ∧
    ∃ next, nodes.get x.id = some ⟨x.msg, next⟩ ∧ Follows nodes pcs next (some x.id) q

/-- The last node, or `prev` when there is none. -/
def lastOf {ι : Type} : Option Nat → List (Queued ι) → Option Nat
  | prev, [] => prev
  | _, x :: q => lastOf (some x.id) q

section Queue

variable {ι : Type} {nodes nodes' : Nodes Eterm} {pcs pcs' : ι → ProducerPc}

theorem lastOf_append (q : List (Queued ι)) (x : Queued ι) :
    ∀ prev, lastOf prev (q ++ [x]) = some x.id := by
  induction q with
  | nil => intro prev; rfl
  | cons y q ih => intro prev; exact ih (some y.id)

theorem lastOf_eq_getLast (q : List (Queued ι)) :
    lastOf none q = (q.map Queued.id).getLast? := by
  rcases List.eq_nil_or_concat' q with rfl | ⟨q, x, rfl⟩
  · rfl
  · rw [lastOf_append, List.map_append, List.map_singleton, List.getLast?_concat]

theorem lastOf_mem {q : List (Queued ι)} : ∀ {prev : Option Nat} {n : Nat},
    lastOf prev q = some n → prev = some n ∨ n ∈ q.map Queued.id := by
  induction q with
  | nil => intro prev n h; exact Or.inl h
  | cons x q ih =>
    intro prev n h
    rcases ih h with hx | hm
    · exact Or.inr (by simp [Option.some.inj hx])
    · exact Or.inr (by simp [hm])

theorem Joined.congr {x : Queued ι} {link prev : Option Nat} (h : Joined pcs link prev x)
    (hp : ∀ i, x.owner = some i → pcs' i = pcs i) : Joined pcs' link prev x := by
  unfold Joined at h ⊢
  cases ho : x.owner with
  | none => simpa [ho] using h
  | some i =>
    rw [ho] at h
    exact ⟨h.1, by rw [hp i ho, h.2]⟩

theorem update_of_owner_ne [DecidableEq ι] {x : Queued ι} {i : ι} (pc : ProducerPc)
    (ho : x.owner ≠ some i) : ∀ j, x.owner = some j → Function.update pcs i pc j = pcs j := by
  intro j hj
  have hne : j ≠ i := by
    rintro rfl
    exact ho hj
  exact Function.update_of_ne hne _ _

namespace Follows

theorem congr {q : List (Queued ι)} : ∀ {link prev : Option Nat}, Follows nodes pcs link prev q →
    (∀ x ∈ q, nodes'.get x.id = nodes.get x.id) →
    (∀ x ∈ q, ∀ i, x.owner = some i → pcs' i = pcs i) → Follows nodes' pcs' link prev q := by
  induction q with
  | nil => intro link prev h _ _; exact h
  | cons x q ih =>
    rintro link prev ⟨hj, next, hg, hq⟩ hn hp
    exact ⟨hj.congr (hp x (by simp)), next, by rw [hn x (by simp), hg],
      ih hq (fun y hy => hn y (by simp [hy])) fun y hy => hp y (by simp [hy])⟩

theorem get_of_mem {q : List (Queued ι)} : ∀ {link prev : Option Nat},
    Follows nodes pcs link prev q → ∀ x ∈ q, ∃ next, nodes.get x.id = some ⟨x.msg, next⟩ := by
  induction q with
  | nil => intro link prev _ x hx; exact absurd hx (by simp)
  | cons y q ih =>
    rintro link prev ⟨_, next, hg, hq⟩ x hx
    rcases List.mem_cons.mp hx with rfl | hm
    · exact ⟨next, hg⟩
    · exact ih hq x hm

theorem owner_of_mem {q : List (Queued ι)} : ∀ {link prev : Option Nat},
    Follows nodes pcs link prev q → ∀ x ∈ q, ∀ i, x.owner = some i →
      ∃ p, pcs i = .linking x.id x.msg p := by
  induction q with
  | nil => intro link prev _ x hx; exact absurd hx (by simp)
  | cons y q ih =>
    rintro link prev ⟨hj, next, hg, hq⟩ x hx i ho
    rcases List.mem_cons.mp hx with rfl | hm
    · rw [Joined, ho] at hj
      exact ⟨prev, hj.2⟩
    · exact ih hq x hm i ho

/-- A link that is there leads to a first node that is not owed. -/
theorem of_some {q : List (Queued ι)} {prev : Option Nat} {n : Nat}
    (h : Follows nodes pcs (some n) prev q) : ∃ v q', q = ⟨n, v, none⟩ :: q' := by
  cases q with
  | nil => cases h
  | cons x q =>
    obtain ⟨id, msg, owner⟩ := x
    cases owner with
    | none =>
      have hid : some n = some id := h.1
      cases hid
      exact ⟨msg, q, rfl⟩
    | some i => exact absurd h.1.1 (by simp)

/-- Without owed links the queue is a chain. -/
theorem chain {q : List (Queued ι)} : ∀ {link prev : Option Nat}, Follows nodes pcs link prev q →
    (∀ x ∈ q, x.owner = none) → Chain nodes link (q.map fun x => (x.id, x.msg)) none := by
  induction q with
  | nil => intro link prev h _; exact h
  | cons x q ih =>
    rintro link prev ⟨hj, next, hg, hq⟩ ho
    rw [Joined, ho x (by simp)] at hj
    exact ⟨hj, next, hg, ih hq fun y hy => ho y (by simp [hy])⟩

/-- **An exchange** puts its node behind the last one; its link is owed. -/
theorem snoc {q : List (Queued ι)} {i : ι} {n : Nat} {v : Eterm}
    (hnew : nodes.get n = some ⟨v, none⟩) : ∀ {link prev : Option Nat},
    Follows nodes pcs link prev q → pcs i = .linking n v (lastOf prev q) →
      Follows nodes pcs link prev (q ++ [⟨n, v, some i⟩]) := by
  induction q with
  | nil =>
    intro link prev h hi
    exact ⟨⟨h, hi⟩, none, hnew, rfl⟩
  | cons x q ih =>
    rintro link prev ⟨hj, next, hg, hq⟩ hi
    exact ⟨hj, next, hg, ih hq hi⟩

end Follows

/-- The queue once producer `i` owes nothing any more. -/
def settle [DecidableEq ι] (i : ι) (q : List (Queued ι)) : List (Queued ι) :=
  q.map fun x => if x.owner = some i then { x with owner := none } else x

section Settle

variable [DecidableEq ι] {i : ι}

theorem settle_map {β : Type} {f : Queued ι → β} (hf : ∀ x, f { x with owner := none } = f x)
    (q : List (Queued ι)) : (settle i q).map f = q.map f := by
  rw [settle, List.map_map]
  apply List.map_congr_left
  intro x _
  simp only [Function.comp]
  split
  · exact hf x
  · rfl

@[simp] theorem settle_ids (q : List (Queued ι)) :
    (settle i q).map Queued.id = q.map Queued.id :=
  settle_map (fun _ => rfl) q

@[simp] theorem settle_msgs (q : List (Queued ι)) :
    (settle i q).map Queued.msg = q.map Queued.msg :=
  settle_map (fun _ => rfl) q

@[simp] theorem settle_lastOf (q : List (Queued ι)) :
    ∀ prev, lastOf prev (settle i q) = lastOf prev q := by
  induction q with
  | nil => intro prev; rfl
  | cons x q ih =>
    intro prev
    rw [settle, List.map_cons, lastOf, lastOf, ← settle, ih]
    split <;> rfl

theorem settle_cons_none (n : Nat) (v : Eterm) (q : List (Queued ι)) :
    settle i (⟨n, v, none⟩ :: q) = ⟨n, v, none⟩ :: settle i q := rfl

theorem settle_eq_self {q : List (Queued ι)} (h : ∀ x ∈ q, x.owner ≠ some i) : settle i q = q := by
  rw [settle]
  conv_rhs => rw [← List.map_id q]
  apply List.map_congr_left
  intro x hx
  rw [if_neg (h x hx)]
  rfl

theorem mem_settle {q : List (Queued ι)} {x : Queued ι} (hx : x ∈ q) (ho : x.owner ≠ some i) :
    x ∈ settle i q := List.mem_map.mpr ⟨x, hx, if_neg ho⟩

theorem settle_cons_self {x : Queued ι} (h : x.owner = some i) (q : List (Queued ι)) :
    settle i (x :: q) = { x with owner := none } :: settle i q := by
  rw [settle, List.map_cons, if_pos h]
  rfl

theorem settle_cons_ne {x : Queued ι} (h : x.owner ≠ some i) (q : List (Queued ι)) :
    settle i (x :: q) = x :: settle i q := by
  rw [settle, List.map_cons, if_neg h]
  rfl

omit [DecidableEq ι] in
/-- A producer owes one node at most. -/
theorem Follows.owner_ne {q : List (Queued ι)} {link prev p : Option Nat} {n : Nat} {v : Eterm}
    (h : Follows nodes pcs link prev q) (hi : pcs i = .linking n v p)
    (hn : n ∉ q.map Queued.id) : ∀ x ∈ q, x.owner ≠ some i := by
  intro x hx ho
  obtain ⟨p', hp'⟩ := h.owner_of_mem x hx i ho
  rw [hi] at hp'
  injection hp' with hid
  exact hn (hid ▸ List.mem_map_of_mem hx)

/-- **A link store** either fills the link the queue starts from or the link of the node before:
the queue stays what it is, with one link less owed. -/
theorem Follows.link {q : List (Queued ι)} {n : Nat} {v : Eterm} {p : Option Nat}
    (pc : ProducerPc) (hi : pcs i = .linking n v p) : ∀ {link prev : Option Nat},
    Follows nodes pcs link prev q → (q.map Queued.id).Nodup → (⟨n, v, some i⟩ : Queued ι) ∈ q →
    (p = prev ∧ Follows nodes (Function.update pcs i pc) (some n) prev (settle i q)) ∨
    ∃ t ns, p = some t ∧ t ∈ q.map Queued.id ∧ nodes.setNext t (some n) = some ns ∧
      (∀ j, j ∉ q.map Queued.id → ns.get j = nodes.get j) ∧
      Follows ns (Function.update pcs i pc) link prev (settle i q) := by
  induction q with
  | nil => intro link prev _ _ hm; exact absurd hm (by simp)
  | cons x q ih =>
    rintro link prev ⟨hj, next, hg, hq⟩ hnd hm
    rw [List.map_cons, List.nodup_cons] at hnd
    by_cases ho : x.owner = some i
    · -- the owed node is the first one, and no later node is owed by the same producer
      rw [Joined, ho] at hj
      obtain ⟨hl, hpc⟩ := hj
      rw [hi] at hpc
      cases hpc
      have hother := hq.owner_ne hi hnd.1
      refine Or.inl ⟨rfl, ?_⟩
      rw [settle_cons_self ho, settle_eq_self hother]
      exact ⟨rfl, next, hg, hq.congr (fun _ _ => rfl) fun y hy =>
        update_of_owner_ne pc (hother y hy)⟩
    · have hm' : (⟨n, v, some i⟩ : Queued ι) ∈ q := by
        rcases List.mem_cons.mp hm with he | hm'
        · exact absurd (by rw [← he]) ho
        · exact hm'
      have hjoin := hj.congr (update_of_owner_ne pc ho)
      rw [settle_cons_ne ho]
      refine Or.inr ?_
      rcases ih hq hnd.2 hm' with ⟨rfl, hf⟩ | ⟨t, ns, rfl, ht, hs, hout, hf⟩
      · -- the owed node is the next one: the link store writes into `x`
        have hlt := Nodes.lt_length_of_get hg
        refine ⟨x.id, _, rfl, by simp, Nodes.setNext_of_get _ hg, fun j hjn => ?_, hjoin, some n,
          ?_, hf.congr (fun y hy => ?_) fun _ _ _ _ => rfl⟩
        · rw [Nodes.get_set _ hlt, if_neg]
          rintro rfl
          exact hjn (by simp)
        · rw [Nodes.get_set _ hlt, if_pos rfl]
        · rw [Nodes.get_set _ hlt, if_neg]
          intro he
          have hmem := List.mem_map_of_mem (f := Queued.id) hy
          rw [settle_ids, he] at hmem
          exact hnd.1 hmem
      · refine ⟨t, ns, rfl, by simp [ht], hs, fun j hjn => hout j fun hm => hjn (by simp [hm]),
          hjoin, next, ?_, hf⟩
        rw [hout x.id hnd.1, hg]

end Settle

end Queue

end BeamModular
