import BeamModular.Lib.Teardown
import BeamModular.Messaging.Cursor
import BeamModular.Scheduler.Fifo
import BeamModular.Global.EtsKinds
import BeamModular.Global.Lookup

/-!
# What is allocated is freed

The mailbox, the run queue, the ETS table and the atom table each ask the allocator for a
node when something comes in and free it when it goes out, and each has a counter and a
`destroy` that follows its links.  Three things have to agree: the nodes in use, the
counter, and the nodes that the links lead to.

The first two agree because every operation that allocates counts up and every one that
frees counts down, whatever the pointers are.  The last two agree because the links are
chains.  For the mailbox that needs an argument: a dequeue may free the node under the
save cursor, and then the pointers are not a list with a position any more.  `Detached`
says what they still are.  A cursor that dangles can only be read, which has no result, or
reset; so whatever order of operations has led to a mailbox, its chain is whole.
-/

namespace BeamModular

/-! ### The mailbox -/

namespace Mailbox

/-- `beam_mailbox_destroy`: what is left of the nodes. -/
def destroy (mb : Mailbox) : Option (Nodes Eterm) := mb.nodes.release mb.nodes.length mb.head

/-- `beam_mailbox_count`. -/
def beamMailboxCount (mb : Mailbox) : Nat := mb.count

/-- A pointer to a node that was freed. -/
def Freed (mb : Mailbox) (i : Nat) : Prop := i < mb.nodes.length ∧ mb.nodes.get i = none

variable {mb mb' : Mailbox}

/-! #### The counter -/

theorem linkNode_live {prevTail : Option Nat} {node : Nat}
    (h : mb.linkNode prevTail node = some mb') : mb'.nodes.live = mb.nodes.live := by
  cases prevTail with
  | none => cases h; rfl
  | some t =>
    obtain ⟨ns, hs, rfl⟩ := Option.map_eq_some_iff.mp h
    exact Nodes.live_setNext hs

theorem enqueue_live {msg : Eterm} {r : Result} (hlive : mb.nodes.live = mb.count)
    (h : mb.enqueue msg = some (mb', r)) : mb'.nodes.live = mb'.count := by
  unfold enqueue at h
  dsimp only at h
  split at h
  · obtain ⟨mb₁, hl, he⟩ := Option.map_eq_some_iff.mp h
    cases he
    obtain ⟨_, hcount, _⟩ := linkNode_keeps hl
    dsimp only at hcount ⊢
    rw [linkNode_live hl, hcount, Nodes.live_alloc, hlive]
  · cases h
    exact hlive

theorem dequeue_live {r : Except Result Eterm} (hlive : mb.nodes.live = mb.count)
    (h : mb.dequeue = some (mb', r)) : mb'.nodes.live = mb'.count := by
  unfold dequeue at h
  split at h
  · cases h
    exact hlive
  · obtain ⟨n, hn, he⟩ := Option.map_eq_some_iff.mp h
    cases he
    have := Nodes.live_free hn
    dsimp only
    omega

theorem peekSave_live {r : Except Result Eterm} (hlive : mb.nodes.live = mb.count)
    (h : mb.peekSave = some (mb', r)) : mb'.nodes.live = mb'.count := by
  have hsame : (if mb.saveCursor = none then mb.resetSaveCursor else mb).nodes.live
      = (if mb.saveCursor = none then mb.resetSaveCursor else mb).count := by
    split <;> exact hlive
  unfold peekSave at h
  dsimp only at h
  split at h
  · cases h
    exact hsame
  · obtain ⟨n, _, he⟩ := Option.map_eq_some_iff.mp h
    cases he
    exact hsame

theorem removeCurrent_live {r : Result} (hlive : mb.nodes.live = mb.count)
    (h : mb.removeCurrent = some (mb', r)) : mb'.nodes.live = mb'.count := by
  unfold removeCurrent at h
  split at h
  · cases h
    exact hlive
  · rename_i target _
    obtain ⟨n, hn, h⟩ := Option.bind_eq_some_iff.mp h
    obtain ⟨mb₁, hr, he⟩ := Option.map_eq_some_iff.mp h
    cases he
    -- the node is in use also after a link was stored
    have hstill : mb₁.count = mb.count ∧ mb₁.nodes.live = mb.nodes.live ∧
        ∃ k, mb₁.nodes.get target = some k := by
      unfold relink at hr
      split at hr
      · cases hr
        exact ⟨rfl, rfl, n, hn⟩
      · obtain ⟨ns, hs, rfl⟩ := Option.map_eq_some_iff.mp hr
        refine ⟨rfl, Nodes.live_setNext hs, ?_⟩
        obtain ⟨m, hm, rfl⟩ := Nodes.setNext_eq_some hs
        rw [Nodes.get_set _ (Nodes.lt_length_of_get hm)]
        split
        · exact ⟨_, rfl⟩
        · exact ⟨n, hn⟩
    obtain ⟨hcount, hsame, k, hk⟩ := hstill
    have := Nodes.live_free hk
    dsimp only
    omega

/-- **The counter counts the nodes in use**, whatever the operation and the pointers. -/
theorem step_live {op : MailboxOp} (hlive : mb.nodes.live = mb.count)
    (h : mb.step op = some mb') : mb'.nodes.live = mb'.count := by
  cases op with
  | dequeue =>
    obtain ⟨⟨_, r⟩, hr, rfl⟩ := Option.map_eq_some_iff.mp h
    exact dequeue_live hlive hr
  | cursor op =>
    obtain ⟨r, hs, rfl⟩ := Option.map_eq_some_iff.mp h
    cases op with
    | enqueue msg =>
      obtain ⟨⟨mb₁, res⟩, hr, rfl⟩ := Option.map_eq_some_iff.mp hs
      exact enqueue_live hlive hr
    | resetSaveCursor =>
      cases hs
      exact hlive
    | peekSave =>
      obtain ⟨⟨mb₁, res⟩, hr, rfl⟩ := Option.map_eq_some_iff.mp hs
      exact peekSave_live hlive hr
    | removeCurrent =>
      obtain ⟨⟨mb₁, res⟩, hr, rfl⟩ := Option.map_eq_some_iff.mp hs
      exact removeCurrent_live hlive hr
    | advanceSave =>
      obtain ⟨mb₁, ha, rfl⟩ := Option.map_eq_some_iff.mp hs
      obtain ⟨hcount, _, hnodes, _⟩ := advanceSave_keeps ha
      dsimp only
      rw [hnodes, hcount, hlive]

/-! #### The chain -/

/-- A dequeue has taken the node under the cursor, or the one behind it. -/
structure Detached (mb : Mailbox) (L : List (Nat × Eterm)) : Prop where
  chain : Chain mb.nodes mb.head L none
  tail : mb.tail = L.getLast?.map Prod.fst
  count : mb.count = L.length
  cursor : (∃ c, mb.saveCursor = some c ∧ mb.Freed c) ∨
    (L ≠ [] ∧ mb.saveCursor = mb.head ∧ ∃ p, mb.savePrev = some p ∧ mb.Freed p)

/-- The messages are on the chain, as many as are counted. -/
inductive Whole (mb : Mailbox) : Prop
  | cut (before after : List (Nat × Eterm)) (view : mb.View before after)
      (count : mb.count = (before ++ after).length)
  | detached (L : List (Nat × Eterm)) (h : mb.Detached L)

variable {before after L : List (Nat × Eterm)}

theorem Whole.of_implements {t : CursorList} (h : mb.Implements t) : mb.Whole :=
  .cut t.passed t.ahead h.view h.count

theorem View.implements (h : mb.View before after) (hcount : mb.count = (before ++ after).length) :
    mb.Implements ⟨before, after, mb.nodes.length, mb.alloc⟩ :=
  ⟨h, hcount, rfl, rfl⟩

theorem dequeue_freed {r : Except Result Eterm} (h : mb.dequeue = some (mb', r)) :
    (∀ i, mb.Freed i → mb'.Freed i) ∧
      ∀ i ∈ mb.head, mb'.Freed i ∧ mb'.count = mb.count - 1 := by
  unfold dequeue at h
  split at h
  · rename_i hhead
    cases h
    rw [hhead]
    exact ⟨fun _ hi => hi, fun _ hi => by cases hi⟩
  · rename_i node hhead
    obtain ⟨n, hn, he⟩ := Option.map_eq_some_iff.mp h
    cases he
    have hlen : node < mb.nodes.length := Nodes.lt_length_of_get hn
    have hfreed : ∀ i, i < mb.nodes.length → i = node ∨ mb.nodes.get i = none →
        i < (mb.nodes.free node).length ∧ (mb.nodes.free node).get i = none := by
      intro i hi hgone
      refine ⟨by rwa [Nodes.free, List.length_set], ?_⟩
      rw [Nodes.get_free hlen]
      split
      · rfl
      · exact hgone.resolve_left ‹_›
    refine ⟨fun i hi => hfreed i hi.1 (Or.inr hi.2), fun i hi => ?_⟩
    rw [hhead] at hi
    cases hi
    exact ⟨hfreed node hlen (Or.inl rfl), rfl⟩

theorem View.whole_dequeue (h : mb.View before after) (hcount : mb.count = (before ++ after).length)
    {r : Except Result Eterm} (hs : mb.dequeue = some (mb', r)) : mb'.Whole := by
  obtain ⟨_, hfreed⟩ := dequeue_freed hs
  cases hall : before ++ after with
  | nil =>
    have hhead := h.head_eq
    rw [hall] at hhead
    rw [Mailbox.dequeue, hhead] at hs
    cases hs
    exact .cut before after h hcount
  | cons x L =>
    obtain ⟨mb₁, hd, hc, ht, hcur, hprev⟩ := h.dequeue hall
    rw [hs] at hd
    cases hd
    have hx : x.1 ∈ mb.head := by rw [h.head_eq, hall]; rfl
    obtain ⟨hgone, hless⟩ := hfreed x.1 hx
    have hlen : mb'.count = L.length := by
      rw [hless, hcount, hall, List.length_cons, Nat.add_sub_cancel]
    cases before with
    | nil =>
      -- the node under the cursor
      refine .detached L ⟨hc, ht, hlen, Or.inl ⟨x.1, ?_, hgone⟩⟩
      rw [hcur, h.cursor, show after = x :: L from hall]
      rfl
    | cons y before =>
      obtain ⟨rfl, rfl⟩ := List.cons.inj hall
      cases after with
      | nil => exact .cut before [] ⟨hc, ht, hcur.trans h.cursor, fun hne => absurd rfl hne⟩ hlen
      | cons z after =>
        have hp := h.prev (by simp)
        cases before with
        | nil =>
          -- the node behind the cursor
          refine .detached _ ⟨hc, ht, hlen, Or.inr ⟨by simp, ?_, y.1, hprev.trans hp, hgone⟩⟩
          rw [hcur, h.cursor, hc.head_eq]
          rfl
        | cons w before =>
          refine .cut _ _ ⟨hc, ht, hcur.trans h.cursor, fun _ => ?_⟩ hlen
          rw [hprev, hp, List.getLast?_cons_cons]

theorem enqueue_cursor (mb : Mailbox) (c p : Option Nat) (msg : Eterm) :
    Mailbox.enqueue { mb with saveCursor := c, savePrev := p } msg =
      (mb.enqueue msg).map fun r => ({ r.1 with saveCursor := c, savePrev := p }, r.2) := by
  cases hg : mb.alloc 0 with
  | false => simp [enqueue, hg]
  | true =>
    cases ht : mb.tail with
    | none => simp [enqueue, hg, linkNode, ht]
    | some t => simp [enqueue, hg, linkNode, ht, Option.map_map, Function.comp_def]

theorem enqueue_freed {msg : Eterm} {r : Result} (h : mb.enqueue msg = some (mb', r)) {i : Nat}
    (hi : mb.Freed i) : mb'.Freed i := by
  unfold enqueue at h
  dsimp only at h
  split at h
  · obtain ⟨mb₁, hl, he⟩ := Option.map_eq_some_iff.mp h
    cases he
    obtain ⟨hlt, hgone⟩ := hi
    have halloc : (mb.nodes.alloc ⟨msg, none⟩).get i = none := by
      rw [Nodes.get_alloc_of_lt _ hlt, hgone]
    unfold linkNode at hl
    split at hl
    · cases hl
      exact ⟨by simp; omega, halloc⟩
    · obtain ⟨ns, hs, rfl⟩ := Option.map_eq_some_iff.mp hl
      obtain ⟨n, hn, rfl⟩ := Nodes.setNext_eq_some hs
      refine ⟨by simp; omega, ?_⟩
      rw [Nodes.get_set _ (Nodes.lt_length_of_get hn), if_neg fun he => ?_, halloc]
      rw [he, hn] at halloc
      cases halloc
  · cases h
    exact hi

theorem push_all (t : CursorList) (msg : Eterm) :
    (t.push msg).1.all = t.all ∨ (t.push msg).1.all = t.all ++ [(t.accepted, msg)] := by
  unfold CursorList.push
  dsimp only
  split
  · split
    · rename_i hnil
      exact Or.inr (by simp [CursorList.all, hnil])
    · rename_i hcons
      exact Or.inr (by simp [CursorList.all, hcons])
  · exact Or.inl rfl

namespace Detached

variable (h : mb.Detached L)
include h

theorem enqueue {msg : Eterm} {r : Result} (hs : mb.enqueue msg = some (mb', r)) :
    ∃ L', mb'.Detached L' := by
  -- the same mailbox with its cursor at rest
  have hrest : Mailbox.View { mb with saveCursor := none, savePrev := none } L [] :=
    ⟨by rw [List.append_nil]; exact h.chain, by rw [List.append_nil]; exact h.tail, rfl,
      fun hne => absurd rfl hne⟩
  obtain ⟨mb₁, hstep, hi⟩ := (hrest.implements (by rw [List.append_nil]; exact h.count)).push msg
  obtain ⟨⟨mb₂, r₁⟩, henq, he⟩ := Option.map_eq_some_iff.mp hstep
  obtain ⟨rfl, -⟩ := Prod.mk.inj he
  have hback := enqueue_cursor { mb with saveCursor := none, savePrev := none } mb.saveCursor
    mb.savePrev msg
  rw [henq] at hback
  rw [show mb.enqueue msg = _ from hback] at hs
  cases hs
  have hfreed : ∀ i, mb.Freed i → mb₂.Freed i := fun i hi => enqueue_freed henq hi
  have hc := hi.view.chain
  have ht := hi.view.tail
  refine ⟨_, hc, ht, hi.count, ?_⟩
  rcases h.cursor with ⟨c, hcur, hgone⟩ | ⟨hne, hcur, p, hprev, hgone⟩
  · exact Or.inl ⟨c, hcur, hfreed c hgone⟩
  · have hall : ∃ K, (CursorList.push ⟨L, [], mb.nodes.length, mb.alloc⟩ msg).1.all = L ++ K := by
      rcases push_all ⟨L, [], mb.nodes.length, mb.alloc⟩ msg with he | he
      · exact ⟨[], he⟩
      · exact ⟨[(mb.nodes.length, msg)], by rw [he]; simp [CursorList.all]⟩
    obtain ⟨K, hK⟩ := hall
    have hhead : mb₂.head = mb.head := by
      rw [hi.view.head_eq, h.chain.head_eq]
      change (CursorList.all _).head?.map Prod.fst = _
      rw [hK, List.head?_append_of_ne_nil _ hne]
    refine Or.inr ⟨?_, hcur.trans hhead.symm, p, hprev, hfreed p hgone⟩
    change CursorList.all _ ≠ []
    rw [hK]
    simp [hne]

theorem dequeue {r : Except Result Eterm} (hs : mb.dequeue = some (mb', r)) :
    ∃ L', mb'.Detached L' := by
  obtain ⟨hkeep, hfreed⟩ := dequeue_freed hs
  cases L with
  | nil =>
    have hhead : mb.head = none := h.chain
    rw [Mailbox.dequeue, hhead] at hs
    cases hs
    exact ⟨[], h⟩
  | cons x R =>
    obtain ⟨mb₁, hd, hc, ht, hcur, hprev⟩ := dequeue_chain h.chain h.tail
    rw [hs] at hd
    cases hd
    have hhead : mb.head = some x.1 := h.chain.1
    obtain ⟨hgone, hless⟩ := hfreed x.1 hhead
    refine ⟨R, hc, ht, by rw [hless, h.count, List.length_cons, Nat.add_sub_cancel], Or.inl ?_⟩
    rcases h.cursor with ⟨c, hc, hold⟩ | ⟨_, hc, _⟩
    · exact ⟨c, hcur.trans hc, hkeep c hold⟩
    · exact ⟨x.1, (hcur.trans hc).trans hhead, hgone⟩

theorem advance (hs : mb.advanceSave = some mb') : mb'.Whole := by
  rcases h.cursor with ⟨c, hcur, _, hgone⟩ | ⟨hne, hcur, _⟩
  · rw [advanceSave, hcur] at hs
    simp [hgone] at hs
  · obtain ⟨x, R, rfl⟩ := List.exists_cons_of_ne_nil hne
    obtain ⟨hhead, link, hg, hR⟩ := h.chain
    rw [advanceSave, hcur.trans hhead] at hs
    simp only [hg, Option.map_some, Option.some_inj] at hs
    cases hs
    exact .cut [x] R ⟨h.chain, h.tail, hR.head_eq, fun _ => rfl⟩ h.count

/-- **A cursor that dangles can only be read or put back.** -/
theorem cursorStep (op : CursorOp) {r : CursorReply} (hs : mb.cursorStep op = some (mb', r)) :
    mb'.Whole := by
  cases op with
  | enqueue msg =>
    obtain ⟨r, hr, he⟩ := Option.map_eq_some_iff.mp hs
    cases he
    obtain ⟨L', h'⟩ := h.enqueue hr
    exact .detached L' h'
  | resetSaveCursor =>
    cases hs
    exact .cut [] L ⟨h.chain, h.tail, h.chain.head_eq, fun _ => rfl⟩ h.count
  | peekSave =>
    obtain ⟨r, hr, he⟩ := Option.map_eq_some_iff.mp hs
    cases he
    rcases h.cursor with ⟨c, hcur, _, hgone⟩ | ⟨hne, hcur, _⟩
    · simp [Mailbox.peekSave, hcur, hgone] at hr
    · obtain ⟨x, R, rfl⟩ := List.exists_cons_of_ne_nil hne
      obtain ⟨hhead, link, hg, _⟩ := h.chain
      rw [hhead] at hcur
      simp only [Mailbox.peekSave, hcur, reduceCtorEq, if_false, hg, Option.map_some,
        Option.some_inj] at hr
      cases hr
      exact .detached _ h
  | removeCurrent =>
    obtain ⟨r, hr, he⟩ := Option.map_eq_some_iff.mp hs
    cases he
    rcases h.cursor with ⟨c, hcur, _, hgone⟩ | ⟨hne, hcur, p, hprev, _, hgone⟩
    · simp [Mailbox.removeCurrent, hcur, hgone] at hr
    · obtain ⟨x, R, rfl⟩ := List.exists_cons_of_ne_nil hne
      obtain ⟨hhead, link, hg, _⟩ := h.chain
      rw [hhead] at hcur
      simp [Mailbox.removeCurrent, hcur, hg, relink, hprev, Nodes.setNext, hgone] at hr
  | advanceSave =>
    obtain ⟨mb₁, ha, he⟩ := Option.map_eq_some_iff.mp hs
    cases he
    exact h.advance ha

end Detached

theorem Whole.step (h : mb.Whole) {op : MailboxOp} (hs : mb.step op = some mb') : mb'.Whole := by
  cases op with
  | cursor op =>
    obtain ⟨⟨_, r⟩, hr, rfl⟩ := Option.map_eq_some_iff.mp hs
    cases h with
    | cut before after view count =>
      obtain ⟨mb₁, hr₁, hi⟩ := refines_step (view.implements count) op
      rw [hr] at hr₁
      cases hr₁
      exact .of_implements hi
    | detached L h => exact h.cursorStep op hr
  | dequeue =>
    obtain ⟨⟨_, r⟩, hr, rfl⟩ := Option.map_eq_some_iff.mp hs
    cases h with
    | cut before after view count => exact view.whole_dequeue count hr
    | detached L h =>
      obtain ⟨L', h'⟩ := h.dequeue hr
      exact .detached L' h'

theorem Whole.chain (h : mb.Whole) :
    ∃ L, Chain mb.nodes mb.head L none ∧ mb.count = L.length := by
  cases h with
  | cut before after view count => exact ⟨_, view.chain, count⟩
  | detached L h => exact ⟨L, h.chain, h.count⟩

end Mailbox

/-- **A mailbox loses no node.**  Whatever operations have led to it without reading a freed node,
dequeues under the save cursor included, `beam_mailbox_count` is the number of nodes that were
allocated and not freed and the number of messages from the head; and `beam_mailbox_destroy` frees
each of them, meets no freed node and leaves none. -/
theorem mailbox_clears (alloc : Nat → Bool) (ops : List MailboxOp) {mb : Mailbox}
    (hrun : run Mailbox.step (Mailbox.create alloc) ops = some mb) :
    mb.nodes.live = mb.beamMailboxCount ∧ mb.messages.length = mb.beamMailboxCount ∧
      ∃ s, mb.destroy = some s ∧ s.live = 0 := by
  have hlive : mb.nodes.live = mb.count :=
    run_invariant (fun mb : Mailbox => mb.nodes.live = mb.count)
      (fun _ _ _ hi hs => Mailbox.step_live hi hs) rfl hrun
  have hwhole : mb.Whole := run_invariant Mailbox.Whole (fun _ _ _ hi hs => hi.step hs)
    (.cut [] [] (Mailbox.view_create alloc) rfl) hrun
  obtain ⟨L, hchain, hcount⟩ := hwhole.chain
  have hmessages : mb.messages = L := hchain.walk_eq hchain.length_le
  exact ⟨hlive, by rw [hmessages]; exact hcount.symm, hchain.release_clears (hlive.trans hcount)⟩

/-- Two messages, the first of them peeked at and then taken from under the cursor. -/
theorem mailbox_clears_detached :
    ∃ mb, run Mailbox.step (Mailbox.create fun _ => true)
        [.cursor (.enqueue 1#64), .cursor (.enqueue 2#64), .cursor .peekSave, .dequeue] = some mb ∧
      ¬mb.CursorLive ∧ mb.nodes.live = mb.beamMailboxCount ∧ mb.beamMailboxCount = 1 ∧
      ∃ s, mb.destroy = some s ∧ s.live = 0 := by
  obtain ⟨mb, hrun, hv⟩ := Option.map_eq_some_iff.mp
    (show (run Mailbox.step (Mailbox.create fun _ => true)
        [.cursor (.enqueue 1#64), .cursor (.enqueue 2#64), .cursor .peekSave, .dequeue]).map
          (fun mb => (mb.beamMailboxCount, decide mb.CursorLive)) = some (1, false) by decide)
  simp only [Prod.mk.injEq, decide_eq_false_iff_not] at hv
  obtain ⟨hlive, _, hdestroy⟩ := mailbox_clears _ _ hrun
  exact ⟨mb, hrun, hv.2, hlive, hv.1, hdestroy⟩

/-! ### The run queue -/

/-- `beam_run_queue_destroy`: what is left of the nodes.  The priorities are numbered in the order
of `dequeueOrder`. -/
def beamRunQueueDestroy (rq : RunQueue) : Option (Nodes ProcId) :=
  Nodes.releaseAll (fun prio => (rq.queues prio).head) dequeueOrder rq.nodes

/-- `beam_run_queue_count`. -/
def beamRunQueueCount (rq : RunQueue) : Nat := rq.totalCount

namespace RunQueue

variable {rq rq' : RunQueue}

theorem linkNode_live {prio : Priority} {node : Nat} (h : rq.linkNode prio node = some rq') :
    rq'.nodes.live = rq.nodes.live ∧ rq'.totalCount = rq.totalCount := by
  unfold linkNode at h
  dsimp only at h
  split at h
  · cases h
    exact ⟨rfl, rfl⟩
  · obtain ⟨ns, hs, rfl⟩ := Option.map_eq_some_iff.mp h
    exact ⟨Nodes.live_setNext hs, rfl⟩

theorem insert_live {proc : ProcId} {prio : Priority} {r : Result}
    (hlive : rq.nodes.live = rq.totalCount) (h : rq.insert proc prio = some (rq', r)) :
    rq'.nodes.live = rq'.totalCount := by
  unfold insert at h
  dsimp only at h
  split at h
  · obtain ⟨rq₁, hl, he⟩ := Option.map_eq_some_iff.mp h
    cases he
    obtain ⟨hnodes, htotal⟩ := linkNode_live hl
    rw [Nodes.live_alloc] at hnodes
    dsimp only at htotal ⊢
    omega
  · cases h
    exact hlive

theorem takeFirst_live (hlive : rq.nodes.live = rq.totalCount) : ∀ {order : List Priority}
    {taken : Option ProcId}, rq.takeFirst order = some (rq', taken) →
      rq'.nodes.live = rq'.totalCount := by
  intro order
  induction order with
  | nil =>
    intro taken h
    cases h
    exact hlive
  | cons prio rest ih =>
    intro taken h
    unfold takeFirst at h
    split at h
    · exact ih h
    · obtain ⟨⟨rq₁, proc⟩, hu, he⟩ := Option.map_eq_some_iff.mp h
      cases he
      obtain ⟨n, hn, he⟩ := Option.map_eq_some_iff.mp hu
      cases he
      have := Nodes.live_free hn
      dsimp only
      omega

theorem take_live {order : List Priority} {taken : Option ProcId}
    (hlive : rq.nodes.live = rq.totalCount) (h : rq.take order = some (rq', taken)) :
    rq'.nodes.live = rq'.totalCount := by
  unfold take at h
  split at h
  · cases h
    exact hlive
  · exact takeFirst_live hlive h

/-- **The chains have all the nodes**: the queue can be taken down. -/
theorem Holds.destroy {L : Priority → List (Nat × ProcId)} (h : rq.Holds L)
    (hlive : rq.nodes.live = rq.totalCount) :
    ∃ s, beamRunQueueDestroy rq = some s ∧ s.live = 0 := by
  refine releaseAll_clears h.chain h.apart (by decide) (le_of_eq ?_)
  rw [hlive, h.total, List.map_map]
  rfl

end RunQueue

theorem queueStep_live {s s' : RunQueue × World} {op : QueueOp} {answer : QueueAnswer}
    (hlive : s.1.nodes.live = s.1.totalCount) (h : queueStep s op = some (s', answer)) :
    s'.1.nodes.live = s'.1.totalCount := by
  cases op with
  | enqueue proc prio =>
    obtain ⟨r, hr, he⟩ := Option.map_eq_some_iff.mp h
    cases he
    obtain ⟨⟨rq', res⟩, hi, rfl⟩ := Option.map_eq_some_iff.mp hr
    exact RunQueue.insert_live hlive hi
  | dequeue =>
    obtain ⟨r, hr, he⟩ := Option.map_eq_some_iff.mp h
    cases he
    obtain ⟨⟨rq', taken⟩, ht, rfl⟩ := Option.map_eq_some_iff.mp hr
    cases taken <;> exact RunQueue.take_live hlive ht
  | steal =>
    obtain ⟨r, hr, he⟩ := Option.map_eq_some_iff.mp h
    cases he
    obtain ⟨⟨rq', taken⟩, ht, rfl⟩ := Option.map_eq_some_iff.mp hr
    cases taken <;> exact RunQueue.take_live hlive ht

/-- **A run queue loses no node.**  After every sequence of enqueues, dequeues and steals, none of
which reads a freed node, `beam_run_queue_count` is the number of nodes that were allocated and not
freed and the number of processes in the four queues; and `beam_run_queue_destroy` frees each of
them, meets no freed node and leaves none. -/
theorem runQueue_clears (alloc : Nat → Bool) (w : World) (ops : List QueueOp) :
    ∃ rq w' as L, answers queueStep (RunQueue.create alloc, w) ops = some ((rq, w'), as) ∧
      (∀ prio, Chain rq.nodes (rq.queues prio).head (L prio) none) ∧
      rq.nodes.live = beamRunQueueCount rq ∧
      beamRunQueueCount rq = ((dequeueOrder.map L).map List.length).sum ∧
      ∃ s, beamRunQueueDestroy rq = some s ∧ s.live = 0 := by
  have hstep : ∀ (s : RunQueue × World) q op, s.1.nodes.live = s.1.totalCount ∧ s.1.Models q →
      ∃ s', queueStep s op = some (s', (Fifo.step q op).2) ∧
        s'.1.nodes.live = s'.1.totalCount ∧ s'.1.Models (Fifo.step q op).1 := fun s q op h => by
    obtain ⟨s', hs, hm⟩ := queueStep_refines s q op h.2
    exact ⟨s', hs, queueStep_live h.1 hs, hm⟩
  obtain ⟨⟨rq, w'⟩, hrun, hlive, L, hr, _⟩ := refines_answers
    (R := fun (s : RunQueue × World) q => s.1.nodes.live = s.1.totalCount ∧ s.1.Models q) hstep ops
    (show (RunQueue.create alloc, w).1.nodes.live = _ ∧ _ from ⟨rfl, models_create alloc⟩)
  exact ⟨rq, w', _, L, hrun, hr.chain, hlive, hr.total, hr.toHolds.destroy hlive⟩

/-! ### The ETS table -/

/-- `beam_ets_table_destroy`: what is left of the entries. -/
def beamEtsTableDestroy (t : EtsTable) : Option (Nodes EtsEntry) :=
  Nodes.releaseAll t.buckets (List.range t.bucketCount) t.nodes

namespace EtsTable

variable {t t' : EtsTable}

theorem addEntry_live {key value : Eterm} (hlive : t.nodes.live = t.itemCount) :
    (t.addEntry key value).1.nodes.live = (t.addEntry key value).1.itemCount := by
  unfold addEntry
  dsimp only
  split
  · dsimp only
    rw [Nodes.live_alloc, hlive]
  · exact hlive

theorem setValue_live {i : Nat} {e : EtsEntry} {value : Eterm} (hlive : t.nodes.live = t.itemCount)
    (h : t.setValue i e value = some t') : t'.nodes.live = t'.itemCount := by
  obtain ⟨ns, hs, rfl⟩ := Option.map_eq_some_iff.mp h
  exact (Nodes.live_setVal hs).trans hlive

theorem insert_live {key value : Eterm} {r : Result} (hlive : t.nodes.live = t.itemCount)
    (h : beamEtsInsert t key value = some (t', r)) : t'.nodes.live = t'.itemCount := by
  have hadd : ∀ {r : Result}, t.addEntry key value = (t', r) →
      t'.nodes.live = t'.itemCount := fun he => by
    have hentry : (t.addEntry key value).1.nodes.live = (t.addEntry key value).1.itemCount :=
      addEntry_live hlive
    rwa [he] at hentry
  have hset : ∀ {i : Nat} {e : EtsEntry}, ((t.setValue i e value).map fun t => (t, Result.ok))
      = some (t', r) → t'.nodes.live = t'.itemCount := fun h => by
    obtain ⟨t₁, hs, he⟩ := Option.map_eq_some_iff.mp h
    cases he
    exact setValue_live hlive hs
  unfold beamEtsInsert at h
  split at h
  · obtain ⟨found, _, h⟩ := Option.bind_eq_some_iff.mp h
    cases found with
    | none => exact hadd (Option.some.inj h)
    | some x => exact hset h
  · obtain ⟨found, _, h⟩ := Option.bind_eq_some_iff.mp h
    cases found with
    | none => exact hadd (Option.some.inj h)
    | some x => exact hset h
  · obtain ⟨found, _, h⟩ := Option.map_eq_some_iff.mp h
    cases found with
    | none => exact hadd h
    | some x =>
      cases h
      exact hlive
  · exact hadd (Option.some.inj h)

theorem delete_live {key : Eterm} {r : Result} (hlive : t.nodes.live = t.itemCount)
    (h : beamEtsDelete t key = some (t', r)) : t'.nodes.live = t'.itemCount := by
  obtain ⟨found, _, h⟩ := Option.bind_eq_some_iff.mp h
  cases found with
  | none =>
    cases h
    exact hlive
  | some x =>
    obtain ⟨⟨ns, head⟩, hu, he⟩ := Option.map_eq_some_iff.mp h
    cases he
    have := Nodes.live_unlinkAt hu
    dsimp only
    omega

theorem updateCounter_live {key : Eterm} {increment : Word} {r : Result × Option Eterm}
    (hlive : t.nodes.live = t.itemCount)
    (h : beamEtsUpdateCounter t key increment = some (t', r)) : t'.nodes.live = t'.itemCount := by
  obtain ⟨found, _, h⟩ := Option.bind_eq_some_iff.mp h
  cases found with
  | none =>
    cases h
    exact hlive
  | some x =>
    obtain ⟨t₁, hs, he⟩ := Option.map_eq_some_iff.mp h
    cases he
    exact setValue_live hlive hs

end EtsTable

theorem etsNext_live {t t' : EtsTable} {op : EtsOp} (hlive : t.nodes.live = t.itemCount)
    (h : etsNext t op = some t') : t'.nodes.live = t'.itemCount := by
  obtain ⟨⟨t₁, r⟩, hs, rfl⟩ := Option.map_eq_some_iff.mp h
  cases op with
  | insert key value =>
    obtain ⟨⟨t₂, r⟩, hr, he⟩ := Option.map_eq_some_iff.mp hs
    cases he
    exact EtsTable.insert_live hlive hr
  | lookup key =>
    obtain ⟨r, _, he⟩ := Option.map_eq_some_iff.mp hs
    cases he
    exact hlive
  | delete key =>
    obtain ⟨⟨t₂, r⟩, hr, he⟩ := Option.map_eq_some_iff.mp hs
    cases he
    exact EtsTable.delete_live hlive hr
  | updateCounter key increment => exact EtsTable.updateCounter_live hlive hs

/-- **The buckets have all the entries**: the table can be taken down. -/
theorem EtsTable.Sound.destroy {t : EtsTable} (h : t.Sound) (hlive : t.nodes.live = t.itemCount) :
    ∃ s, beamEtsTableDestroy t = some s ∧ s.live = 0 := by
  obtain ⟨L, hL⟩ := h.linked
  refine releaseAll_clears hL.bucketed.chain
    (fun b b' hne x hx y hy he => hne (hL.bucketed.apart hx hy he))
    List.nodup_range (le_of_eq ?_)
  rw [hlive, h.count, EtsTable.entries, List.length_flatMap]
  congr 1
  exact List.map_congr_left fun b _ => by rw [bucketEntries_eq hL, List.length_map]

/-- **A table of any type loses no entry.**  After every sequence of insertions, lookups, deletions
and counter updates, none of which reads a freed entry, `beam_ets_count` is the number of entries
that were allocated and not freed and the number of entries in the buckets; and
`beam_ets_table_destroy` frees each of them, meets no freed entry and leaves none. -/
theorem etsTable_clears {type : EtsType} {alloc : Nat → Bool} {t₀ : EtsTable}
    (hnew : beamEtsTableCreateTyped type alloc = some t₀) (ops : List EtsOp) :
    ∃ t, run etsNext t₀ ops = some t ∧ t.nodes.live = beamEtsCount t ∧
      beamEtsCount t = t.entries.length ∧ ∃ s, beamEtsTableDestroy t = some s ∧ s.live = 0 := by
  have hlive : t₀.nodes.live = t₀.itemCount := by
    unfold beamEtsTableCreateTyped at hnew
    split at hnew
    · cases hnew
      rfl
    · cases hnew
  have hstep : ∀ (t : EtsTable) (op : EtsOp), t.nodes.live = t.itemCount ∧ t.Sound → True →
      True ∧ ∃ t', etsNext t op = some t' ∧ t'.nodes.live = t'.itemCount ∧ t'.Sound :=
    fun t op hi _ => by
      obtain ⟨t', ht⟩ := etsNext_total hi.2 op
      exact ⟨trivial, t', ht, etsNext_live hi.1 ht, (etsNext_changes hi.2 ht).2.1⟩
  have hall : Along etsNext (fun _ _ => True) t₀ ops := .of_forall t₀ fun _ _ => trivial
  obtain ⟨_, t, hrun, hl, hs⟩ := run_total
    (fun t : EtsTable => t.nodes.live = t.itemCount ∧ t.Sound) hstep
    ⟨hlive, (sound_create hnew).2.1⟩ hall
  exact ⟨t, hrun, hl, hs.count, hs.destroy hl⟩

/-- A pair twice, in a table that takes everything, and one of the two dropped. -/
theorem etsTable_clears_duplicates :
    ∃ t₀ t, beamEtsTableCreateTyped .duplicateBag (fun _ => true) = some t₀ ∧
      run etsNext t₀ [.insert 1#64 2#64, .insert 1#64 2#64, .delete 1#64] = some t ∧
      beamEtsCount t = t.entries.length ∧ ∃ s, beamEtsTableDestroy t = some s ∧ s.live = 0 := by
  obtain ⟨t, hrun, _, hcount, hdestroy⟩ := etsTable_clears
    (show beamEtsTableCreateTyped .duplicateBag (fun _ => true) = some _ from rfl)
    [.insert 1#64 2#64, .insert 1#64 2#64, .delete 1#64]
  exact ⟨_, t, rfl, hrun, hcount, hdestroy⟩

/-! ### The atom table -/

/-- `beam_atom_table_destroy`: what is left of the entries, each of them with its name. -/
def beamAtomTableDestroy (t : AtomTable) : Option (Nodes AtomEntry) :=
  Nodes.releaseAll t.buckets (List.range t.bucketCount) t.nodes

namespace AtomTable

variable {t t' : AtomTable} {name : List Byte}

theorem grow_live (h : t.grow = some t') :
    t'.nodes = t.nodes ∧ t'.count = t.count ∧ t'.bucketCount = t.bucketCount := by
  unfold grow at h
  split at h
  · obtain ⟨fill, _, rfl⟩ := Option.map_eq_some_iff.mp h
    exact ⟨rfl, rfl, rfl⟩
  · cases h
    exact ⟨rfl, rfl, rfl⟩

theorem link_live (hlive : t.nodes.live = t.count) (h : t.link name = some t') :
    t'.nodes.live = t'.count ∧ t'.bucketCount = t.bucketCount := by
  unfold link at h
  dsimp only at h
  split at h
  · cases h
    refine ⟨?_, rfl⟩
    dsimp only
    rw [Nodes.live_alloc, hlive]
  · cases h

theorem insert_live {term : Eterm} (hlive : t.nodes.live = t.count)
    (h : t.insert name = some (t', term)) :
    t'.nodes.live = t'.count ∧ t'.bucketCount = t.bucketCount := by
  unfold insert at h
  split at h
  · cases h
  cases hg : t.grow with
  | none =>
    rw [hg] at h
    cases h
    exact ⟨hlive, rfl⟩
  | some t₁ =>
    obtain ⟨hnodes, hcount, hsize⟩ := grow_live hg
    have hlive₁ : t₁.nodes.live = t₁.count := by rw [hnodes, hcount, hlive]
    rw [hg] at h
    dsimp only at h
    split at h
    · cases h
      exact ⟨hlive₁, hsize⟩
    · split at h
      · cases h
        exact ⟨hlive₁, hsize⟩
      · obtain ⟨t₂, hl, he⟩ := Option.map_eq_some_iff.mp h
        cases he
        obtain ⟨hlive₂, hsize₂⟩ := link_live (t := { t₁ with alloc := fun n => t₁.alloc (n + 2) })
          hlive₁ hl
        exact ⟨hlive₂, hsize₂.trans hsize⟩

end AtomTable

section Atoms

variable {κ : Type} [DecidableEq κ] {names : List (List Byte)} {L : Nat → List (Nat × AtomEntry)}

theorem Interning.step_live {s s' : Interning κ} {act : AtomAct κ}
    (hlive : s.table.nodes.live = s.table.count) (h : s.step act = some s') :
    s'.table.nodes.live = s'.table.count ∧ s'.table.bucketCount = s.table.bucketCount := by
  cases act with
  | search k call =>
    rw [Interning.step] at h
    cases hk : s.threads k with
    | missed name => rw [hk] at h; cases h
    | idle =>
      rw [hk] at h
      obtain ⟨found, _, rfl⟩ := Option.map_eq_some_iff.mp h
      cases found <;> exact ⟨hlive, rfl⟩
  | insert k =>
    rw [Interning.step] at h
    cases hk : s.threads k with
    | idle => rw [hk] at h; cases h
    | missed name =>
      rw [hk] at h
      obtain ⟨found, _, h⟩ := Option.bind_eq_some_iff.mp h
      cases found with
      | some x => cases h; exact ⟨hlive, rfl⟩
      | none =>
        obtain ⟨⟨t', term⟩, hi, rfl⟩ := Option.map_eq_some_iff.mp h
        exact AtomTable.insert_live hlive hi

theorem Interned.names_le {t : AtomTable} (h : Interned t names L) (hpos : 0 < t.bucketCount) :
    names.length ≤ ((List.range t.bucketCount).map fun b => (L b).length).sum := by
  have hsub : names ⊆
      ((List.range t.bucketCount).flatMap L).map fun x => x.2.name.dropLast := by
    intro name hname
    obtain ⟨i, hi⟩ := List.getElem?_of_mem hname
    obtain ⟨node, _, hx⟩ := h.mapped i name hi
    have hbucket : t.bucketIdx name ∈ List.range t.bucketCount :=
      List.mem_range.mpr (Nat.mod_lt _ hpos)
    refine List.mem_map.mpr ⟨_, List.mem_flatMap.mpr ⟨_, hbucket, hx⟩, ?_⟩
    simp [entryFor]
  have hle := (List.subperm_of_subset h.distinct hsub).length_le
  rwa [List.length_map, List.length_flatMap] at hle

/-- **The atom table loses no entry.**  However many threads intern names and however their steps
interleave, with an allocator that may refuse but gives no block of a size that has wrapped around,
`beam_atom_table_count` is the number of entries that
were allocated and not freed and the number of different names that a search finds; and
`beam_atom_table_destroy` frees each of them, meets no freed entry and leaves none. -/
theorem atomTable_clears {initialCapacity : Nat} {alloc : Nat → Bool}
    {realloc : Nat → Option (Nat → Option Nat)} {t : AtomTable}
    (hsize : 8 * initialCapacity < 2 ^ 64)
    (hnew : beamAtomTableCreate initialCapacity alloc realloc = some t) {acts : List (AtomAct κ)}
    {s : Interning κ} (hrun : run Interning.step (Interning.start t) acts = some s) :
    s.table.nodes.live = beamAtomTableCount s.table ∧
      (∃ names : List (List Byte), names.Nodup ∧ beamAtomTableCount s.table = names.length ∧
        ∀ name, name ∈ names ↔ ∃ x, s.table.findEntry name = some (some x)) ∧
      ∃ ns, beamAtomTableDestroy s.table = some ns ∧ ns.live = 0 := by
  have hstart : t.nodes.live = t.count ∧ 0 < t.bucketCount := by
    unfold beamAtomTableCreate at hnew
    dsimp only at hnew
    split at hnew
    · cases hnew
      exact ⟨rfl, atomCapacity_pos _⟩
    · cases hnew
  obtain ⟨names, L, hnum⟩ := Interning.Numbered.of_run hsize hnew hrun
  have hinterned := hnum.interned
  obtain ⟨hlive, hpos⟩ := run_invariant
    (fun s : Interning κ => s.table.nodes.live = s.table.count ∧ 0 < s.table.bucketCount)
    (fun s act s' hi hs => by
      obtain ⟨hlive, hsize⟩ := Interning.step_live hi.1 hs
      exact ⟨hlive, hsize ▸ hi.2⟩) hstart hrun
  have hb := hinterned.bucketed
  refine ⟨hlive, ⟨names, hinterned.distinct, hinterned.count, fun name => ?_⟩,
    releaseAll_clears hb.chain (fun b b' hne x hx y hy he => hne (hb.apart hx hy he))
      List.nodup_range ?_⟩
  · rcases hinterned.findEntry name with ⟨hnot, hf⟩ | ⟨i, node, hi, hf⟩
    · exact iff_of_false hnot fun ⟨x, hx⟩ => by rw [hf] at hx; cases hx
    · exact iff_of_true (List.mem_of_getElem? hi) ⟨_, hf⟩
  · rw [hlive, hinterned.count]
    exact hinterned.names_le hpos

/-- Two threads race for one name, and there is no room for the other two. -/
theorem atomTable_clears_sameName :
    ∃ t s, beamAtomTableCreate 1 (fun _ => true) (fun _ => none) = some t ∧
      run Interning.step (Interning.start t) sameName = some s ∧
      beamAtomTableCount s.table = 1 ∧
      ∃ ns, beamAtomTableDestroy s.table = some ns ∧ ns.live = 0 := by
  obtain ⟨s, hs, hcount⟩ := Option.map_eq_some_iff.mp
    (show (run Interning.step (Interning.start ⟨[], fun _ => none, [none], 1, 0, 1, fun _ => true,
      fun _ => none⟩) sameName).map (fun s => beamAtomTableCount s.table) = some 1 by decide)
  obtain ⟨_, _, hdestroy⟩ := atomTable_clears (by decide)
    (show beamAtomTableCreate 1 (fun _ => true) (fun _ => none) = some _ from rfl) hs
  exact ⟨_, s, rfl, hs, hcount, hdestroy⟩

end Atoms

end BeamModular
