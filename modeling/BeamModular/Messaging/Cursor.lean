import BeamModular.Lib.Run
import BeamModular.Messaging.Mailbox

/-!
# The save cursor

The mailbox of one process, used by one thread.  Without `beam_mailbox_dequeue`
the five pointers of the mailbox are a list with a position: `refines_step` compares
each operation with the same operation on a `CursorList`, and
`answers_eq_cursorList` follows every sequence of them.  A message is known by the
number it got when it was accepted, so that two equal bodies are not confused.

`beam_mailbox_dequeue` frees the node at the head and does not look at the cursor.
`cursorLive_iff_along` says which sequences that hurts: the cursor and the pointer
behind it stay on the chain exactly as long as no dequeue takes the node that one of
them points at.
-/

namespace BeamModular

/-- An operation of selective receive, or the arrival of a message. -/
inductive CursorOp
  | enqueue (msg : Eterm)
  | resetSaveCursor
  | peekSave
  | removeCurrent
  /-- The cursor's part of `BEAM_OP_LOOP_REC_END`. -/
  | advanceSave
  deriving DecidableEq, Repr

/-- What a call gives back: nothing, a status, or a status with a message. -/
inductive CursorReply
  | void
  | status (r : Result)
  | message (r : Except Result Eterm)
  deriving DecidableEq, Repr

namespace Mailbox

def cursorStep (mb : Mailbox) : CursorOp → Option (Mailbox × CursorReply)
  | .enqueue msg => (mb.enqueue msg).map fun r => (r.1, .status r.2)
  | .resetSaveCursor => some (mb.resetSaveCursor, .void)
  | .peekSave => mb.peekSave.map fun r => (r.1, .message r.2)
  | .removeCurrent => mb.removeCurrent.map fun r => (r.1, .status r.2)
  | .advanceSave => mb.advanceSave.map fun mb => (mb, .void)

end Mailbox

/-! ### A list with a position -/

/-- The messages before the position and from it on, with the number and the body of each;
`ahead = []` is no position.  `accepted` is the number of the next message, `alloc` the answers of
the allocator. -/
structure CursorList where
  passed : List (Nat × Eterm)
  ahead : List (Nat × Eterm)
  accepted : Nat
  alloc : Nat → Bool

namespace CursorList

def empty (alloc : Nat → Bool) : CursorList := ⟨[], [], 0, alloc⟩

/-- All messages, oldest first. -/
def all (t : CursorList) : List (Nat × Eterm) := t.passed ++ t.ahead

def reset (t : CursorList) : CursorList := { t with passed := [], ahead := t.all }

/-- A message goes to the end; without a position it is behind where the position would be. -/
def push (t : CursorList) (msg : Eterm) : CursorList × CursorReply :=
  let granted := t.alloc 0
  let t := { t with alloc := fun n => t.alloc (n + 1) }
  let x := (t.accepted, msg)
  if granted then
    match t.ahead with
    | [] => ({ t with passed := t.passed ++ [x], accepted := t.accepted + 1 }, .status .ok)
    | y :: ys => ({ t with ahead := y :: ys ++ [x], accepted := t.accepted + 1 }, .status .ok)
  else (t, .status .errNoMemory)

/-- The message at the position; without one, the position is the oldest message. -/
def peek (t : CursorList) : CursorList × CursorReply :=
  let t := if t.ahead = [] then t.reset else t
  match t.ahead with
  | [] => (t, .message (.error .errNotFound))
  | x :: _ => (t, .message (.ok x.2))

/-- Delete the message at the position. -/
def remove (t : CursorList) : CursorList × CursorReply :=
  match t.ahead with
  | [] => (t, .status .errNotFound)
  | _ :: ys => ({ t with ahead := ys }, .status .ok)

/-- Move over one message. -/
def advance (t : CursorList) : CursorList :=
  match t.ahead with
  | [] => t
  | x :: ys => { t with passed := t.passed ++ [x], ahead := ys }

def step (t : CursorList) : CursorOp → CursorList × CursorReply
  | .enqueue msg => t.push msg
  | .resetSaveCursor => (t.reset, .void)
  | .peekSave => t.peek
  | .removeCurrent => t.remove
  | .advanceSave => (t.advance, .void)

end CursorList

/-- The mailbox is the list: the chain holds its messages, `tail` is the last node, the cursor is at
the position with `save_prev` on the node before it, and `count` is the length. -/
structure Mailbox.Implements (mb : Mailbox) (t : CursorList) : Prop where
  view : mb.View t.passed t.ahead
  count : mb.count = t.all.length
  accepted : mb.nodes.length = t.accepted
  alloc : mb.alloc = t.alloc

namespace Mailbox

variable {mb : Mailbox} {t : CursorList}

theorem implements_empty (alloc : Nat → Bool) : (create alloc).Implements (.empty alloc) :=
  ⟨view_create alloc, rfl, rfl, rfl⟩

theorem Implements.reset (h : mb.Implements t) : mb.resetSaveCursor.Implements t.reset :=
  ⟨resetSaveCursor_view h.view, h.count, h.accepted, h.alloc⟩

theorem Implements.push (h : mb.Implements t) (msg : Eterm) :
    ∃ mb', mb.cursorStep (.enqueue msg) = some (mb', (t.push msg).2) ∧
      mb'.Implements (t.push msg).1 := by
  have ha := congrFun h.alloc 0
  cases hg : mb.alloc 0 with
  | false =>
    rw [hg] at ha
    refine ⟨{ mb with alloc := fun n => mb.alloc (n + 1) }, ?_, ?_⟩
    · simp [cursorStep, enqueue, hg, CursorList.push, ← ha]
    · simp only [CursorList.push, ← ha, Bool.false_eq_true, if_false]
      refine ⟨⟨h.view.chain, h.view.tail, h.view.cursor, h.view.prev⟩, h.count, h.accepted, ?_⟩
      simp only [h.alloc]
  | true =>
    obtain ⟨mb', he, hv⟩ := enqueue_view h.view hg msg
    obtain ⟨_, hcount, halloc, hlen⟩ := enqueue_keeps he
    rw [hg] at ha
    refine ⟨mb', ?_, ?_⟩
    · rw [cursorStep, he, CursorList.push, ← ha]
      cases t.ahead <;> rfl
    · rw [h.accepted] at hv hlen
      rw [h.count] at hcount
      rw [h.alloc] at halloc
      unfold CursorList.push
      rw [← ha]
      cases hah : t.ahead with
      | nil =>
        rw [hah] at hv
        exact ⟨by simpa [hah] using hv, by simp [hcount, CursorList.all, hah], hlen, halloc⟩
      | cons y ys =>
        rw [hah] at hv
        exact ⟨by simpa using hv, by simp [hcount, CursorList.all, hah]; omega, hlen, halloc⟩

theorem Implements.peek (h : mb.Implements t) :
    ∃ mb', mb.cursorStep .peekSave = some (mb', t.peek.2) ∧ mb'.Implements t.peek.1 := by
  have hv := h.view
  cases hah : t.ahead with
  | cons x ys =>
    rw [hah] at hv
    refine ⟨mb, ?_, ?_⟩
    · simp [cursorStep, peekSave_view hv, CursorList.peek, hah]
    · simpa [CursorList.peek, hah] using h
  | nil =>
    -- no position: the cursor starts again at the oldest message
    have hreset := h.reset
    rw [hah] at hv
    cases hp : t.passed with
    | nil =>
      rw [hp] at hv
      refine ⟨mb.resetSaveCursor, ?_, ?_⟩
      · simp [cursorStep, peekSave_view_empty hv, CursorList.peek, CursorList.reset,
          CursorList.all, hah, hp]
      · simpa [CursorList.peek, CursorList.reset, CursorList.all, hah, hp] using hreset
    | cons x L =>
      rw [hp] at hv
      refine ⟨mb.resetSaveCursor, ?_, ?_⟩
      · simp [cursorStep, peekSave_view_restart hv, CursorList.peek, CursorList.reset,
          CursorList.all, hah, hp]
      · simpa [CursorList.peek, CursorList.reset, CursorList.all, hah, hp] using hreset

theorem Implements.remove (h : mb.Implements t) :
    ∃ mb', mb.cursorStep .removeCurrent = some (mb', t.remove.2) ∧
      mb'.Implements t.remove.1 := by
  have hv := h.view
  cases hah : t.ahead with
  | nil =>
    rw [hah] at hv
    have hcur : mb.saveCursor = none := hv.cursor
    refine ⟨mb, ?_, ?_⟩
    · simp [cursorStep, removeCurrent, hcur, CursorList.remove, hah]
    · simpa [CursorList.remove, hah] using h
  | cons x ys =>
    rw [hah] at hv
    obtain ⟨mb', hr, hv'⟩ := removeCurrent_view hv
    obtain ⟨_, hcount, halloc, hlen⟩ := removeCurrent_keeps hr
    refine ⟨mb', ?_, ?_⟩
    · simp [cursorStep, hr, CursorList.remove, hah]
    · simp only [CursorList.remove, hah]
      refine ⟨hv', ?_, hlen.trans h.accepted, halloc.trans h.alloc⟩
      rw [hcount, h.count]
      simp [CursorList.all, hah]

theorem Implements.advance (h : mb.Implements t) :
    ∃ mb', mb.cursorStep .advanceSave = some (mb', .void) ∧ mb'.Implements t.advance := by
  have hv := h.view
  cases hah : t.ahead with
  | nil =>
    rw [hah] at hv
    refine ⟨mb, ?_, ?_⟩
    · simp [cursorStep, advanceSave_view_null hv]
    · simpa [CursorList.advance, hah] using h
  | cons x ys =>
    rw [hah] at hv
    obtain ⟨mb', ha, hv', _⟩ := advanceSave_view hv
    obtain ⟨hcount, halloc, hnodes, _⟩ := advanceSave_keeps ha
    refine ⟨mb', ?_, ?_⟩
    · simp [cursorStep, ha]
    · simp only [CursorList.advance, hah]
      refine ⟨hv', ?_, (congrArg List.length hnodes).trans h.accepted, halloc.trans h.alloc⟩
      rw [hcount, h.count]
      simp [CursorList.all, hah]

/-- **Each operation is the operation on the list.** -/
theorem refines_step (h : mb.Implements t) (op : CursorOp) :
    ∃ mb', mb.cursorStep op = some (mb', (t.step op).2) ∧ mb'.Implements (t.step op).1 := by
  cases op with
  | enqueue msg => exact h.push msg
  | resetSaveCursor => exact ⟨_, rfl, h.reset⟩
  | peekSave => exact h.peek
  | removeCurrent => exact h.remove
  | advanceSave => exact h.advance

end Mailbox

/-- **The mailbox with its cursor is a list with a position.**  Every sequence of enqueues, resets,
peeks, removals and advances runs, answers what the list answers and leaves a mailbox that is the
list: its messages in order, the tail on the last one, the cursor on the position and the node
before it behind, the count equal to the length.  A removal without a position leaves the whole
mailbox as it is. -/
theorem answers_eq_cursorList (alloc : Nat → Bool) (ops : List CursorOp) :
    ∃ mb, answers Mailbox.cursorStep (Mailbox.create alloc) ops
        = some (mb, (specAnswers CursorList.step (.empty alloc) ops).2) ∧
      mb.Implements (specAnswers CursorList.step (.empty alloc) ops).1 ∧
      (mb.saveCursor = none → mb.removeCurrent = some (mb, .errNotFound)) := by
  obtain ⟨mb, ha, hi⟩ := refines_answers (R := Mailbox.Implements)
    (fun _ _ op h => Mailbox.refines_step h op) ops (Mailbox.implements_empty alloc)
  refine ⟨mb, ha, hi, fun hcur => ?_⟩
  rw [Mailbox.removeCurrent, hcur]

/-! ### With dequeues -/

/-- Any operation of the mailbox; `beam_process_receive_message` is a dequeue. -/
inductive MailboxOp
  | cursor (op : CursorOp)
  | dequeue
  deriving DecidableEq, Repr

namespace Mailbox

def step (mb : Mailbox) : MailboxOp → Option Mailbox
  | .cursor op => (mb.cursorStep op).map Prod.fst
  | .dequeue => mb.dequeue.map Prod.fst

/-- A pointer that is null or leads to a node of the chain from the head. -/
def OnChain (mb : Mailbox) (p : Option Nat) : Prop := ∀ i ∈ p, i ∈ mb.messages.map Prod.fst

/-- The save cursor and the pointer behind it are null or on the chain. -/
def CursorLive (mb : Mailbox) : Prop := mb.OnChain mb.saveCursor ∧ mb.OnChain mb.savePrev

/-- A dequeue takes neither the node under the cursor nor the one before it. -/
def DequeueClear (mb : Mailbox) : MailboxOp → Prop
  | .cursor _ => True
  | .dequeue => ∀ i ∈ mb.head, mb.saveCursor ≠ some i ∧ mb.savePrev ≠ some i

instance (mb : Mailbox) (p : Option Nat) : Decidable (mb.OnChain p) :=
  inferInstanceAs (Decidable (∀ i ∈ p, i ∈ mb.messages.map Prod.fst))

instance (mb : Mailbox) : Decidable mb.CursorLive :=
  inferInstanceAs (Decidable (mb.OnChain mb.saveCursor ∧ mb.OnChain mb.savePrev))

/-- The pointers are a list with a position, and `save_prev` is on the chain also when the cursor
is null. -/
structure Cut (mb : Mailbox) (before after : List (Nat × Eterm)) : Prop where
  view : mb.View before after
  prevMem : ∀ i ∈ mb.savePrev, i ∈ (before ++ after).map Prod.fst

variable {mb mb' : Mailbox} {before after : List (Nat × Eterm)}

theorem View.prev_mem (h : mb.View before after) (hne : after ≠ []) :
    ∀ i ∈ mb.savePrev, i ∈ before.map Prod.fst := by
  intro i hi
  rw [h.prev hne] at hi
  obtain ⟨x, hx, rfl⟩ := Option.map_eq_some_iff.mp hi
  exact List.mem_map_of_mem (List.mem_of_getLast? hx)

theorem Cut.live (h : mb.Cut before after) : mb.CursorLive := by
  unfold CursorLive OnChain
  rw [h.view.messages_eq]
  refine ⟨fun i hi => ?_, h.prevMem⟩
  rw [h.view.cursor] at hi
  obtain ⟨x, hx, rfl⟩ := Option.map_eq_some_iff.mp hi
  exact List.mem_map_of_mem (List.mem_append_right _ (List.mem_of_head? hx))

theorem Cut.reset (h : mb.Cut before after) : mb.resetSaveCursor.Cut [] (before ++ after) :=
  ⟨resetSaveCursor_view h.view, fun i hi => by cases hi⟩

theorem Cut.enqueue (h : mb.Cut before after) {msg : Eterm} {r : Result}
    (hr : mb.enqueue msg = some (mb', r)) : ∃ b a, mb'.Cut b a := by
  cases hg : mb.alloc 0 with
  | false =>
    rw [Mailbox.enqueue, hg] at hr
    cases hr
    exact ⟨before, after, ⟨h.view.chain, h.view.tail, h.view.cursor, h.view.prev⟩, h.prevMem⟩
  | true =>
    obtain ⟨mb₁, he, hv⟩ := enqueue_view h.view hg msg
    rw [he] at hr
    cases hr
    refine ⟨_, _, hv, fun i hi => ?_⟩
    rw [(enqueue_keeps he).1] at hi
    have hmem := h.prevMem i hi
    by_cases ha : after = []
    · rw [ha, List.append_nil] at hmem
      rw [if_pos ha, if_pos ha, List.append_nil, List.map_append]
      exact List.mem_append_left _ hmem
    · rw [if_neg ha, if_neg ha, ← List.append_assoc, List.map_append]
      exact List.mem_append_left _ hmem

theorem Cut.peekSave (h : mb.Cut before after) {r : Except Result Eterm}
    (hr : mb.peekSave = some (mb', r)) : ∃ b a, mb'.Cut b a := by
  have hv := h.view
  cases after with
  | cons x after =>
    rw [peekSave_view hv] at hr
    cases hr
    exact ⟨_, _, h⟩
  | nil =>
    cases before with
    | nil =>
      rw [peekSave_view_empty hv] at hr
      cases hr
      exact ⟨_, _, h.reset⟩
    | cons x before =>
      rw [peekSave_view_restart hv] at hr
      cases hr
      exact ⟨_, _, h.reset⟩

theorem Cut.removeCurrent (h : mb.Cut before after) {r : Result}
    (hr : mb.removeCurrent = some (mb', r)) : ∃ b a, mb'.Cut b a := by
  have hv := h.view
  cases after with
  | nil =>
    have hcur : mb.saveCursor = none := hv.cursor
    rw [Mailbox.removeCurrent, hcur] at hr
    cases hr
    exact ⟨_, _, h⟩
  | cons x after =>
    obtain ⟨mb₁, hr₁, hv₁⟩ := removeCurrent_view hv
    rw [hr₁] at hr
    cases hr
    refine ⟨before, after, hv₁, fun i hi => ?_⟩
    rw [(removeCurrent_keeps hr₁).1] at hi
    rw [List.map_append]
    exact List.mem_append_left _ (hv.prev_mem (by simp) i hi)

theorem Cut.advanceSave (h : mb.Cut before after) (ha : mb.advanceSave = some mb') :
    ∃ b a, mb'.Cut b a := by
  have hv := h.view
  cases after with
  | nil =>
    rw [advanceSave_view_null hv] at ha
    cases ha
    exact ⟨_, _, h⟩
  | cons x after =>
    obtain ⟨mb₁, ha₁, hv₁, _⟩ := advanceSave_view hv
    rw [ha₁] at ha
    cases ha
    refine ⟨_, _, hv₁, fun i hi => ?_⟩
    have hcur : mb.saveCursor = some x.1 := hv.cursor
    simp only [Mailbox.advanceSave, hcur, Option.map_eq_some_iff] at ha₁
    obtain ⟨n, _, rfl⟩ := ha₁
    cases hi
    simp

theorem Cut.cursorStep (h : mb.Cut before after) (op : CursorOp) {r : CursorReply}
    (hs : mb.cursorStep op = some (mb', r)) : ∃ b a, mb'.Cut b a := by
  cases op with
  | enqueue msg =>
    obtain ⟨r, hr, he⟩ := Option.map_eq_some_iff.mp hs
    cases he
    exact h.enqueue hr
  | resetSaveCursor =>
    cases hs
    exact ⟨_, _, h.reset⟩
  | peekSave =>
    obtain ⟨r, hr, he⟩ := Option.map_eq_some_iff.mp hs
    cases he
    exact h.peekSave hr
  | removeCurrent =>
    obtain ⟨r, hr, he⟩ := Option.map_eq_some_iff.mp hs
    cases he
    exact h.removeCurrent hr
  | advanceSave =>
    obtain ⟨mb₁, ha, he⟩ := Option.map_eq_some_iff.mp hs
    cases he
    exact h.advanceSave ha

/-- The messages are `x` and then `L`: a dequeue takes `x` and keeps both pointers. -/
theorem View.dequeue {x : Nat × Eterm} {L : List (Nat × Eterm)} (h : mb.View before after)
    (hall : before ++ after = x :: L) :
    ∃ mb', mb.dequeue = some (mb', .ok x.2) ∧ Chain mb'.nodes mb'.head L none ∧
      mb'.tail = L.getLast?.map Prod.fst ∧ mb'.saveCursor = mb.saveCursor ∧
      mb'.savePrev = mb.savePrev := by
  have hc := h.chain
  have ht := h.tail
  rw [hall] at hc ht
  exact dequeue_chain hc ht

/-- **A dequeue that is clear of the cursor** keeps the list cut where it was. -/
theorem Cut.dequeue (h : mb.Cut before after) (hok : mb.DequeueClear .dequeue)
    {r : Except Result Eterm} (hs : mb.dequeue = some (mb', r)) : ∃ b a, mb'.Cut b a := by
  have hv := h.view
  have hhead := hv.head_eq
  cases before with
  | nil =>
    cases after with
    | nil =>
      rw [Mailbox.dequeue, hhead] at hs
      cases hs
      exact ⟨_, _, h⟩
    | cons x after =>
      -- the cursor is on the head
      have hclear := hok x.1 hhead
      exact absurd hv.cursor hclear.1
  | cons x before =>
    have hclear := hok x.1 hhead
    obtain ⟨mb₁, hd, hc, ht, hcur, hprev⟩ := hv.dequeue (List.cons_append)
    rw [hd] at hs
    cases hs
    refine ⟨before, after, ⟨hc, ht, hcur.trans hv.cursor, fun hne => ?_⟩, fun i hi => ?_⟩
    · have hp := hv.prev hne
      cases before with
      | nil => exact absurd hp hclear.2
      | cons y before => rw [hprev, hp, List.getLast?_cons_cons]
    · rw [hprev] at hi
      rcases List.mem_cons.mp (h.prevMem i hi) with rfl | hmem
      · exact absurd hi hclear.2
      · exact hmem

theorem Cut.dequeue_dangles (h : mb.Cut before after) (hbad : ¬ mb.DequeueClear .dequeue) :
    ∃ mb', mb.step .dequeue = some mb' ∧ ¬ mb'.CursorLive := by
  have hv := h.view
  simp only [DequeueClear, not_forall] at hbad
  obtain ⟨i, hi, hpoint⟩ := hbad
  rw [hv.head_eq] at hi
  cases hall : before ++ after with
  | nil => rw [hall] at hi; cases hi
  | cons x L =>
    rw [hall] at hi
    cases hi
    obtain ⟨mb₁, hd, hc, _, hcur, hprev⟩ := hv.dequeue hall
    have hmsgs : mb₁.messages = L := hc.walk_eq hc.length_le
    have hnd := hv.chain.nodup
    rw [hall, List.map_cons, List.nodup_cons] at hnd
    refine ⟨mb₁, by rw [step, hd]; rfl, fun hlive => ?_⟩
    unfold CursorLive OnChain at hlive
    rw [hmsgs, hcur, hprev] at hlive
    apply hpoint
    exact ⟨fun he => hnd.1 (hlive.1 x.1 he), fun he => hnd.1 (hlive.2 x.1 he)⟩

theorem Cut.step (h : ∃ b a, mb.Cut b a) {op : MailboxOp} (hok : mb.DequeueClear op)
    (hs : mb.step op = some mb') : ∃ b a, mb'.Cut b a := by
  obtain ⟨before, after, h⟩ := h
  cases op with
  | cursor op =>
    obtain ⟨⟨_, r⟩, hr, rfl⟩ := Option.map_eq_some_iff.mp hs
    exact h.cursorStep op hr
  | dequeue =>
    obtain ⟨⟨_, r⟩, hr, rfl⟩ := Option.map_eq_some_iff.mp hs
    exact h.dequeue hok hr

theorem Cut.clear_of_live (h : ∃ b a, mb.Cut b a) {op : MailboxOp}
    (hlive : ∀ mb', mb.step op = some mb' → mb'.CursorLive) : mb.DequeueClear op := by
  cases op with
  | cursor op => exact trivial
  | dequeue =>
    obtain ⟨before, after, hcut⟩ := h
    by_contra hbad
    obtain ⟨mb₁, hs, hdead⟩ := hcut.dequeue_dangles hbad
    exact hdead (hlive mb₁ hs)

end Mailbox

/-- **The save cursor dangles exactly when a dequeue takes its node.**  From a new mailbox, in every
state along the operations `save_cursor` and `save_prev` are null or on the chain from the head if
and only if no dequeue among them takes the node that one of the two points at. -/
theorem cursorLive_iff_along (alloc : Nat → Bool) (ops : List MailboxOp) :
    (∀ n mb, run Mailbox.step (Mailbox.create alloc) (ops.take n) = some mb → mb.CursorLive) ↔
      Along Mailbox.step Mailbox.DequeueClear (Mailbox.create alloc) ops := by
  apply always_iff_along (fun mb : Mailbox => ∃ b a, mb.Cut b a)
  · rintro mb ⟨_, _, hcut⟩
    exact hcut.live
  · exact fun _ _ _ h hc hs => Mailbox.Cut.step h hc hs
  · exact fun _ _ h hlive => Mailbox.Cut.clear_of_live h hlive
  · exact ⟨[], [], Mailbox.view_create alloc, fun i hi => by cases hi⟩

/-- **A dequeue frees the message under the cursor**: one message, a peek at it, a dequeue. -/
theorem peek_then_dequeue_dangles :
    ∃ mb, run Mailbox.step (Mailbox.create fun _ => true)
        [.cursor (.enqueue 1#64), .cursor .peekSave, .dequeue] = some mb ∧
      mb.saveCursor = some 0 ∧ mb.nodes.get 0 = none ∧ ¬ mb.CursorLive := by
  obtain ⟨mb, hrun, hv⟩ := Option.map_eq_some_iff.mp
    (show (run Mailbox.step (Mailbox.create fun _ => true)
        [.cursor (.enqueue 1#64), .cursor .peekSave, .dequeue]).map
          (fun mb => (mb.saveCursor, mb.nodes.get 0, decide mb.CursorLive))
        = some (some 0, none, false) by decide)
  simp only [Prod.mk.injEq, decide_eq_false_iff_not] at hv
  exact ⟨mb, hrun, hv⟩

end BeamModular
