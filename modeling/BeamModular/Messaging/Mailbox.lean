import BeamModular.Lib.Chain
import BeamModular.Core.Term

/-!
# The mailbox

`src/messaging/erl_message.c`, one thread at a time: a linked chain of messages
with a head, a tail and the save cursor of selective receive.  The cursor is a
pair of pointers, the node to look at next and the node before it; a null cursor
stands for two things, "not started" and "past the last message".

The part of the file after the definitions reads the pointers as a list cut at
the cursor.  `View mb before after` says that the chain holds `before ++ after`
and the cursor stands on the first message of `after` (`after = []`: the cursor is
null).  Each operation has one lemma in these terms: `peekSave_view`,
`advanceSave_view`, `removeCurrent_view`, `resetSaveCursor_view`, `enqueue_view`.

`alloc` is what the injected allocator will answer to the next requests for a
node.  The unused mutex is left out.
-/

namespace BeamModular

/-- `struct beam_mailbox`. -/
structure Mailbox where
  nodes : Nodes Eterm
  head : Option Nat
  tail : Option Nat
  saveCursor : Option Nat
  savePrev : Option Nat
  atomicCount : Nat
  count : Nat
  alloc : Nat → Bool

namespace Mailbox

/-- A mailbox as `beam_mailbox_create` leaves it. -/
def create (alloc : Nat → Bool) : Mailbox where
  nodes := []
  head := none
  tail := none
  saveCursor := none
  savePrev := none
  atomicCount := 0
  count := 0
  alloc := alloc

/-- Link a new node behind `prevTail`, or make it the head when there is none. -/
def linkNode (mb : Mailbox) (prevTail : Option Nat) (node : Nat) : Option Mailbox :=
  match prevTail with
  | none => some { mb with head := some node }
  | some t => (mb.nodes.setNext t (some node)).map fun ns => { mb with nodes := ns }

/-- `beam_mailbox_enqueue`. -/
def enqueue (mb : Mailbox) (msg : Eterm) : Option (Mailbox × Result) :=
  let granted := mb.alloc 0
  let mb := { mb with alloc := fun n => mb.alloc (n + 1) }
  if granted then
    let node := mb.nodes.length
    let prevTail := mb.tail
    let mb := { mb with nodes := mb.nodes.alloc ⟨msg, none⟩, tail := some node }
    (mb.linkNode prevTail node).map fun mb =>
      ({ mb with atomicCount := mb.atomicCount + 1, count := mb.count + 1 }, .ok)
  else some (mb, .errNoMemory)

/-- `beam_mailbox_dequeue`. -/
def dequeue (mb : Mailbox) : Option (Mailbox × Except Result Eterm) :=
  match mb.head with
  | none => some (mb, .error .errNotFound)
  | some node =>
    (mb.nodes.get node).map fun n =>
      let mb := { mb with head := n.next }
      let mb := { mb with tail := if mb.head = none then none else mb.tail }
      ({ mb with count := mb.count - 1, nodes := mb.nodes.free node }, .ok n.val)

/-- `beam_mailbox_reset_save_cursor`. -/
def resetSaveCursor (mb : Mailbox) : Mailbox :=
  { mb with saveCursor := mb.head, savePrev := none }

/-- `beam_mailbox_peek_save`: a null cursor is taken for one that has not started. -/
def peekSave (mb : Mailbox) : Option (Mailbox × Except Result Eterm) :=
  let mb := if mb.saveCursor = none then mb.resetSaveCursor else mb
  match mb.saveCursor with
  | none => some (mb, .error .errNotFound)
  | some c => (mb.nodes.get c).map fun n => (mb, .ok n.val)

/-- Point past a removed node: from the node before it, or from the head. -/
def relink (mb : Mailbox) (link : Option Nat) : Option Mailbox :=
  match mb.savePrev with
  | none => some { mb with head := link }
  | some p => (mb.nodes.setNext p link).map fun ns => { mb with nodes := ns }

/-- `beam_mailbox_remove_current`. -/
def removeCurrent (mb : Mailbox) : Option (Mailbox × Result) :=
  match mb.saveCursor with
  | none => some (mb, .errNotFound)
  | some target =>
    (mb.nodes.get target).bind fun n =>
      (mb.relink n.next).map fun mb =>
        let mb := { mb with tail := if mb.tail = some target then mb.savePrev else mb.tail }
        ({ mb with
            saveCursor := n.next
            count := mb.count - 1
            nodes := mb.nodes.free target }, .ok)

/-- The cursor's part of `BEAM_OP_LOOP_REC_END`. -/
def advanceSave (mb : Mailbox) : Option Mailbox :=
  match mb.saveCursor with
  | none => some mb
  | some c => (mb.nodes.get c).map fun n => { mb with savePrev := some c, saveCursor := n.next }

/-! ### A list cut at the cursor -/

/-- The chain holds `before ++ after` and the cursor stands on the first message of `after`. -/
structure View (mb : Mailbox) (before after : List (Nat × Eterm)) : Prop where
  chain : Chain mb.nodes mb.head (before ++ after) none
  tail : mb.tail = (before ++ after).getLast?.map Prod.fst
  cursor : mb.saveCursor = after.head?.map Prod.fst
  prev : after ≠ [] → mb.savePrev = before.getLast?.map Prod.fst

variable {mb : Mailbox} {before after : List (Nat × Eterm)}

theorem view_create (alloc : Nat → Bool) : (create alloc).View [] [] :=
  ⟨rfl, rfl, rfl, fun h => absurd rfl h⟩

theorem View.head_eq (h : mb.View before after) :
    mb.head = (before ++ after).head?.map Prod.fst := h.chain.head_eq

theorem resetSaveCursor_view (h : mb.View before after) :
    mb.resetSaveCursor.View [] (before ++ after) :=
  ⟨h.chain, h.tail, h.head_eq, fun _ => rfl⟩

theorem peekSave_view {x : Nat × Eterm} (h : mb.View before (x :: after)) :
    mb.peekSave = some (mb, .ok x.2) := by
  have hcur : mb.saveCursor = some x.1 := h.cursor
  obtain ⟨link, hg⟩ := h.chain.get_of_mem x (by simp)
  simp [peekSave, hcur, hg]

/-- **A null cursor starts again at the head**, also when it stood past the last message. -/
theorem peekSave_view_restart {x : Nat × Eterm} (h : mb.View (x :: before) []) :
    mb.peekSave = some (mb.resetSaveCursor, .ok x.2) := by
  have hcur : mb.saveCursor = none := h.cursor
  have hreset : mb.resetSaveCursor.View [] (x :: before) := by
    simpa using resetSaveCursor_view h
  have hr := peekSave_view hreset
  have hhead : mb.head = some x.1 := by simpa using h.head_eq
  rw [← hr]
  simp [peekSave, hcur, resetSaveCursor, hhead]

theorem peekSave_view_empty (h : mb.View [] []) :
    mb.peekSave = some (mb.resetSaveCursor, .error .errNotFound) := by
  have hcur : mb.saveCursor = none := h.cursor
  have hhead : mb.head = none := h.head_eq
  simp [peekSave, hcur, resetSaveCursor, hhead]

theorem advanceSave_view {x : Nat × Eterm} (h : mb.View before (x :: after)) :
    ∃ mb', mb.advanceSave = some mb' ∧ mb'.View (before ++ [x]) after ∧
      mb'.nodes = mb.nodes ∧ mb'.head = mb.head := by
  have hcur : mb.saveCursor = some x.1 := h.cursor
  obtain ⟨b, _, hb, link, hg, hr⟩ := h.chain.split
  refine ⟨{ mb with savePrev := some x.1, saveCursor := link }, ?_, ⟨?_, ?_, hr.head_eq, ?_⟩, rfl,
    rfl⟩
  · simp [advanceSave, hcur, hg]
  · rw [List.append_assoc]; exact h.chain
  · rw [List.append_assoc]; exact h.tail
  · intro _; simp

theorem advanceSave_view_null (h : mb.View before []) : mb.advanceSave = some mb := by
  have hcur : mb.saveCursor = none := h.cursor
  rw [advanceSave, hcur]

/-- The tail after a removal: the node before the cursor when the last message went. -/
theorem View.tail_removed {x : Nat × Eterm} (h : mb.View before (x :: after)) :
    (if mb.tail = some x.1 then mb.savePrev else mb.tail)
      = (before ++ after).getLast?.map Prod.fst := by
  have hprev := h.prev (by simp)
  have hnd := h.chain.nodup
  rw [h.tail, hprev]
  rcases List.eq_nil_or_concat' after with rfl | ⟨K, y, rfl⟩
  · simp
  · have hne : y.1 ≠ x.1 := by
      rw [List.map_append, List.nodup_append] at hnd
      have hx := hnd.2.1
      rw [List.map_cons, List.nodup_cons] at hx
      exact fun he => hx.1 (he ▸ List.mem_map_of_mem (by simp))
    have hlast : (before ++ x :: (K ++ [y])).getLast? = some y := by
      rw [← List.cons_append, ← List.append_assoc, List.getLast?_concat]
    rw [hlast, ← List.append_assoc, List.getLast?_concat]
    simp [hne]

/-- **Removing the message at the cursor** leaves all others in order and the cursor on the
next one. -/
theorem removeCurrent_view {x : Nat × Eterm} (h : mb.View before (x :: after)) :
    ∃ mb', mb.removeCurrent = some (mb', .ok) ∧ mb'.View before after := by
  have hcur : mb.saveCursor = some x.1 := h.cursor
  have hprev : mb.savePrev = before.getLast?.map Prod.fst := h.prev (by simp)
  have htail := h.tail_removed
  rcases List.eq_nil_or_concat' before with rfl | ⟨L, p, rfl⟩
  · -- the first message: the head moves on
    obtain ⟨link, hg, hR, hfree⟩ := Chain.dropFirst (c := x.1) (w := x.2) h.chain
    exact ⟨{ mb with
        nodes := mb.nodes.free x.1, head := link, saveCursor := link, count := mb.count - 1
        tail := if mb.tail = some x.1 then mb.savePrev else mb.tail },
      by simp [removeCurrent, hcur, hg, relink, hprev], hfree, htail, hR.head_eq, fun _ => hprev⟩
  · -- a later one: the node before the cursor is linked past it
    have hc := h.chain
    rw [List.append_assoc] at hc
    obtain ⟨link, ns, hg, hR, hs, hfree, _⟩ := Chain.unlink (p := p.1) (v := p.2) (c := x.1)
      (w := x.2) hc
    have hprev' : mb.savePrev = some p.1 := by rw [hprev]; simp
    refine ⟨{ mb with
        nodes := ns.free x.1, saveCursor := link, count := mb.count - 1
        tail := if mb.tail = some x.1 then mb.savePrev else mb.tail },
      by simp [removeCurrent, hcur, hg, relink, hprev', hs], ?_, htail, hR.head_eq,
      fun _ => hprev⟩
    rw [List.append_assoc]
    exact hfree

/-- **A new message goes to the end.**  It is ahead of a cursor that stands on a message; a null
cursor stays null. -/
theorem enqueue_view (h : mb.View before after) (hgrant : mb.alloc 0 = true) (msg : Eterm) :
    ∃ mb', mb.enqueue msg = some (mb', .ok) ∧
      mb'.View (if after = [] then before ++ [(mb.nodes.length, msg)] else before)
        (if after = [] then [] else after ++ [(mb.nodes.length, msg)]) := by
  have hsum : (if after = [] then before ++ [(mb.nodes.length, msg)] else before) ++
      (if after = [] then [] else after ++ [(mb.nodes.length, msg)])
        = before ++ after ++ [(mb.nodes.length, msg)] := by
    split
    · simp [*]
    · simp
  have hcur : mb.saveCursor = (if after = [] then [] else
      after ++ [(mb.nodes.length, msg)]).head?.map Prod.fst := by
    rw [h.cursor]
    cases after <;> simp
  have hprev : (if after = [] then [] else after ++ [(mb.nodes.length, msg)]) ≠ [] →
      mb.savePrev = (if after = [] then before ++ [(mb.nodes.length, msg)]
        else before).getLast?.map Prod.fst := by
    intro hne
    split at hne
    · exact absurd rfl hne
    · rename_i hafter
      rw [if_neg hafter]
      exact h.prev hafter
  have htail := h.tail
  have hchain := h.chain
  rcases List.eq_nil_or_concat' (before ++ after) with hnil | ⟨K, t, hcons⟩
  · -- an empty mailbox: the node becomes the head
    rw [hnil] at htail
    refine ⟨⟨mb.nodes.alloc ⟨msg, none⟩, some mb.nodes.length, some mb.nodes.length,
        mb.saveCursor, mb.savePrev, mb.atomicCount + 1, mb.count + 1, fun n => mb.alloc (n + 1)⟩,
      by simp [enqueue, hgrant, linkNode, htail], ⟨?_, ?_, hcur, hprev⟩⟩
    · rw [hsum, hnil]
      exact ⟨rfl, none, Nodes.get_alloc_new _ _, rfl⟩
    · rw [hsum]; simp
  · -- the node is linked behind the last one
    rw [hcons] at htail hchain
    simp only [List.getLast?_concat, Option.map_some] at htail
    obtain ⟨s, hs, hc, _⟩ := Chain.snoc (w := msg) hchain
    refine ⟨⟨s, mb.head, some mb.nodes.length, mb.saveCursor, mb.savePrev, mb.atomicCount + 1,
        mb.count + 1, fun n => mb.alloc (n + 1)⟩,
      by simp [enqueue, hgrant, linkNode, htail, hs], ⟨?_, ?_, hcur, hprev⟩⟩
    · rw [hsum, hcons]
      exact hc
    · rw [hsum]; simp

/-- **The oldest message leaves.**  The save cursor is not looked at. -/
theorem dequeue_chain {x : Nat × Eterm} {L : List (Nat × Eterm)}
    (hc : Chain mb.nodes mb.head (x :: L) none)
    (ht : mb.tail = (x :: L).getLast?.map Prod.fst) :
    ∃ mb', mb.dequeue = some (mb', .ok x.2) ∧ Chain mb'.nodes mb'.head L none ∧
      mb'.tail = L.getLast?.map Prod.fst ∧ mb'.saveCursor = mb.saveCursor ∧
      mb'.savePrev = mb.savePrev := by
  have hhead : mb.head = some x.1 := hc.1
  obtain ⟨link, hg, hL, hfree⟩ := Chain.dropFirst (c := x.1) (w := x.2) hc
  refine ⟨{ mb with
      nodes := mb.nodes.free x.1, head := link, count := mb.count - 1
      tail := if link = none then none else mb.tail },
    by simp [dequeue, hhead, hg], hfree, ?_, rfl, rfl⟩
  cases L with
  | nil => rw [if_pos (show link = none from hL)]; rfl
  | cons y L =>
    have hlink : link = some y.1 := hL.1
    simp only [hlink, reduceCtorEq, if_false]
    rw [ht, List.getLast?_cons_cons]

/-! ### What an operation leaves alone -/

theorem linkNode_keeps {prevTail : Option Nat} {node : Nat} {mb' : Mailbox}
    (h : mb.linkNode prevTail node = some mb') :
    mb'.savePrev = mb.savePrev ∧ mb'.count = mb.count ∧ mb'.alloc = mb.alloc ∧
      mb'.nodes.length = mb.nodes.length ∧ mb'.atomicCount = mb.atomicCount := by
  cases prevTail with
  | none => cases h; exact ⟨rfl, rfl, rfl, rfl, rfl⟩
  | some t =>
    obtain ⟨ns, hs, rfl⟩ := Option.map_eq_some_iff.mp h
    obtain ⟨n, _, rfl⟩ := Nodes.setNext_eq_some hs
    exact ⟨rfl, rfl, rfl, List.length_set, rfl⟩

theorem enqueue_keeps {msg : Eterm} {mb' : Mailbox} (h : mb.enqueue msg = some (mb', .ok)) :
    mb'.savePrev = mb.savePrev ∧ mb'.count = mb.count + 1 ∧
      (mb'.alloc = fun n => mb.alloc (n + 1)) ∧ mb'.nodes.length = mb.nodes.length + 1 := by
  unfold enqueue at h
  dsimp only at h
  split at h
  · obtain ⟨mb₁, hl, he⟩ := Option.map_eq_some_iff.mp h
    cases he
    obtain ⟨hp, hc, ha, hn, _⟩ := linkNode_keeps hl
    exact ⟨hp, by rw [hc], ha, by rw [hn, Nodes.length_alloc]⟩
  · cases h

theorem removeCurrent_keeps {mb' : Mailbox} (h : mb.removeCurrent = some (mb', .ok)) :
    mb'.savePrev = mb.savePrev ∧ mb'.count = mb.count - 1 ∧ mb'.alloc = mb.alloc ∧
      mb'.nodes.length = mb.nodes.length := by
  unfold removeCurrent at h
  split at h
  · cases h
  · obtain ⟨n, _, h⟩ := Option.bind_eq_some_iff.mp h
    obtain ⟨mb₁, hr, he⟩ := Option.map_eq_some_iff.mp h
    cases he
    unfold relink at hr
    split at hr
    · cases hr
      exact ⟨rfl, rfl, rfl, List.length_set⟩
    · obtain ⟨ns, hs, rfl⟩ := Option.map_eq_some_iff.mp hr
      obtain ⟨k, _, rfl⟩ := Nodes.setNext_eq_some hs
      exact ⟨rfl, rfl, rfl, List.length_set.trans List.length_set⟩

theorem advanceSave_keeps {mb' : Mailbox} (h : mb.advanceSave = some mb') :
    mb'.count = mb.count ∧ mb'.alloc = mb.alloc ∧ mb'.nodes = mb.nodes ∧
      mb'.head = mb.head := by
  unfold advanceSave at h
  split at h
  · cases h; exact ⟨rfl, rfl, rfl, rfl⟩
  · obtain ⟨n, _, rfl⟩ := Option.map_eq_some_iff.mp h
    exact ⟨rfl, rfl, rfl, rfl⟩

/-! ### The messages, from the pointers -/

/-- The messages in the mailbox, oldest first. -/
def messages (mb : Mailbox) : List (Nat × Eterm) := mb.nodes.walk mb.nodes.length mb.head

/-- The messages the cursor has passed; a null cursor has passed them all. -/
def passed (mb : Mailbox) : List (Nat × Eterm) :=
  mb.messages.takeWhile fun x => mb.saveCursor ≠ some x.1

/-- The messages from the cursor on. -/
def ahead (mb : Mailbox) : List (Nat × Eterm) :=
  mb.messages.dropWhile fun x => mb.saveCursor ≠ some x.1

theorem View.messages_eq (h : mb.View before after) : mb.messages = before ++ after :=
  h.chain.walk_eq h.chain.length_le

theorem View.cut_eq (h : mb.View before after) : mb.passed = before ∧ mb.ahead = after := by
  have hbefore : ∀ x ∈ before, decide (mb.saveCursor ≠ some x.1) = true := by
    intro x hx
    rw [decide_eq_true_iff, h.cursor]
    cases after with
    | nil => simp
    | cons y after =>
      have hnd := h.chain.nodup
      rw [List.map_append, List.nodup_append] at hnd
      intro he
      exact hnd.2.2 x.1 (List.mem_map_of_mem hx) y.1 (by simp) (Option.some.inj he).symm
  rw [passed, ahead, h.messages_eq, List.takeWhile_append_of_pos hbefore,
    List.dropWhile_append_of_pos hbefore]
  cases after with
  | nil => simp
  | cons y after =>
    have hcur : mb.saveCursor = some y.1 := h.cursor
    simp [hcur]

end Mailbox

end BeamModular
