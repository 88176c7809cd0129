import BeamModular.Emulator.Faithful

/-!
# What a mailbox is sent and what it holds

A message is put into a mailbox by `BEAM_OP_SEND` of any process, and taken out of it by
`BEAM_OP_REMOVE_MESSAGE` of its owner, with the cursor moved about in between.  `Handled`
is all of that: a number of operations of the mailbox, with the messages they brought and
those they looked at.  It composes, so it goes from an instruction to a run of
instructions, to a call, and to calls of any processes in any order (`messages_in_order`).

`Delivers` is what such a number of operations comes to: the mailbox holds a part of what
it held and was sent, in that order, and the owner has looked at nothing else.  Where the
owner has no `BEAM_OP_REMOVE_MESSAGE` and every node is granted, it holds all of it.
-/

namespace BeamModular

/-! ### A list with a position -/

/-- What an operation brings. -/
def CursorOp.brings : CursorOp → List Eterm
  | .enqueue msg => [msg]
  | _ => []

/-- The message a reply shows. -/
def CursorReply.shown : CursorReply → List Eterm
  | .message (.ok msg) => [msg]
  | _ => []

namespace CursorList

variable (t : CursorList)

/-- The messages that wait, oldest first. -/
def bodies : List Eterm := t.all.map Prod.snd

theorem peek_all : t.peek.1.all = t.all := by
  have hrest : (if t.ahead = [] then t.reset else t).all = t.all := by split <;> rfl
  unfold peek
  dsimp only
  split <;> exact hrest

theorem remove_all : t.remove.1.all.Sublist t.all := by
  unfold remove
  split
  · exact .refl _
  · rename_i x ys hx
    rw [all, all, hx]
    exact (List.Sublist.refl _).append (List.sublist_cons_self x ys)

theorem advance_all : t.advance.all = t.all := by
  unfold advance
  split
  · rfl
  · rename_i x ys hx
    rw [all, all, hx, List.append_assoc]
    rfl

theorem shown_peek : t.peek.2.shown ⊆ t.peek.1.bodies := by
  unfold peek
  dsimp only
  split
  · exact List.nil_subset _
  · rename_i x ys hx
    rintro y hy
    rw [CursorReply.shown, List.mem_singleton] at hy
    rw [hy, bodies, all, hx]
    exact List.mem_map_of_mem (List.mem_append_right _ List.mem_cons_self)

/-- Only a message that comes is added, and only a removal takes one away. -/
theorem step_bodies (op : CursorOp) : (t.step op).1.bodies.Sublist (t.bodies ++ op.brings) ∧
    (op ≠ .removeCurrent → t.alloc 0 = true → (t.step op).1.bodies = t.bodies ++ op.brings) := by
  cases op with
  | enqueue msg =>
    unfold bodies step CursorOp.brings push
    dsimp only
    split
    · split <;> simp_all [all]
    · simp_all [all]
  | resetSaveCursor => simp [step, bodies, CursorOp.brings, reset, all]
  | peekSave =>
    simp only [step, bodies, CursorOp.brings, peek_all, List.append_nil]
    exact ⟨.refl _, fun _ _ => trivial⟩
  | removeCurrent =>
    simp only [step, bodies, CursorOp.brings, List.append_nil]
    exact ⟨t.remove_all.map _, fun hne => absurd rfl hne⟩
  | advanceSave =>
    simp only [step, bodies, CursorOp.brings, advance_all, List.append_nil]
    exact ⟨.refl _, fun _ _ => trivial⟩

theorem step_granted (op : CursorOp) (hgrant : ∀ n, t.alloc n = true) :
    ∀ n, (t.step op).1.alloc n = true := by
  intro n
  cases op with
  | enqueue msg =>
    unfold step push
    dsimp only
    split
    · split <;> exact hgrant _
    · exact hgrant _
  | resetSaveCursor => exact hgrant n
  | peekSave =>
    unfold step peek
    dsimp only
    split <;> split <;> exact hgrant n
  | removeCurrent =>
    unfold step remove
    dsimp only
    split <;> exact hgrant n
  | advanceSave =>
    unfold step advance
    dsimp only
    split <;> exact hgrant n

theorem step_shown (op : CursorOp) : (t.step op).2.shown ⊆ t.bodies := by
  cases op with
  | enqueue msg =>
    unfold step push
    dsimp only
    split
    · split <;> exact List.nil_subset _
    · exact List.nil_subset _
  | resetSaveCursor => exact List.nil_subset _
  | peekSave =>
    have hall : t.peek.1.bodies = t.bodies := congrArg (List.map Prod.snd) t.peek_all
    exact hall ▸ t.shown_peek
  | removeCurrent =>
    unfold step remove
    dsimp only
    split <;> exact List.nil_subset _
  | advanceSave => exact List.nil_subset _

end CursorList

/-! ### A mailbox -/

namespace Mailbox

/-- The messages that wait, oldest first. -/
def bodies (mb : Mailbox) : List Eterm := mb.messages.map Prod.snd

/-- From `mb` to `mb'` the messages `msgs` were sent and the messages `seen` looked at, and if
`keeps` none was taken out. -/
structure Delivers (keeps : Prop) (mb mb' : Mailbox) (msgs seen : List Eterm) : Prop where
  linked : ∃ t, mb'.Implements t
  order : mb'.bodies.Sublist (mb.bodies ++ msgs)
  seen : seen ⊆ mb.bodies ++ msgs
  kept : keeps → (∀ n, mb.alloc n = true) →
    mb'.bodies = mb.bodies ++ msgs ∧ ∀ n, mb'.alloc n = true

variable {keeps keeps' : Prop} {mb mb' mb'' : Mailbox} {t : CursorList}
  {msgs msgs' seen seen' : List Eterm}

theorem Implements.bodies_eq (h : mb.Implements t) : mb.bodies = t.bodies :=
  congrArg _ h.view.messages_eq

theorem Delivers.refl (h : ∃ t, mb.Implements t) : Delivers keeps mb mb [] [] where
  linked := h
  order := by rw [List.append_nil]
  seen := List.nil_subset _
  kept _ hgrant := ⟨(List.append_nil _).symm, hgrant⟩

theorem Delivers.trans (h : Delivers keeps mb mb' msgs seen)
    (h' : Delivers keeps mb' mb'' msgs' seen') :
    Delivers keeps mb mb'' (msgs ++ msgs') (seen ++ seen') where
  linked := h'.linked
  order := by
    rw [← List.append_assoc]
    exact h'.order.trans (h.order.append (.refl _))
  seen := by
    rw [← List.append_assoc]
    refine List.append_subset.mpr ⟨List.subset_append_of_subset_left _ h.seen, fun x hx => ?_⟩
    exact (h.order.append (.refl msgs')).subset (h'.seen hx)
  kept hk hgrant := by
    obtain ⟨hb, hg⟩ := h.kept hk hgrant
    obtain ⟨hb', hg'⟩ := h'.kept hk hg
    exact ⟨by rw [hb', hb, List.append_assoc], hg'⟩

theorem Delivers.imp (h : Delivers keeps mb mb' msgs seen) (hk : keeps' → keeps) :
    Delivers keeps' mb mb' msgs seen :=
  { h with kept := fun hkeeps => h.kept (hk hkeeps) }

theorem cursorStep_delivers (h : ∃ t, mb.Implements t) {op : CursorOp} {reply : CursorReply}
    (hs : mb.cursorStep op = some (mb', reply)) :
    Delivers (op ≠ .removeCurrent) mb mb' op.brings reply.shown := by
  obtain ⟨t, ht⟩ := h
  obtain ⟨mb₁, hs₁, ht'⟩ := refines_step ht op
  rw [hs] at hs₁
  cases hs₁
  obtain ⟨hsub, hall⟩ := t.step_bodies op
  rw [← ht.bodies_eq, ← ht'.bodies_eq] at hsub
  refine ⟨⟨_, ht'⟩, hsub, ?_, fun hne hgrant => ?_⟩
  · rw [ht.bodies_eq]
    exact List.subset_append_of_subset_left _ (t.step_shown op)
  · rw [ht.alloc] at hgrant
    rw [ht.bodies_eq, ht'.bodies_eq, ht'.alloc]
    exact ⟨hall hne (hgrant 0), t.step_granted op hgrant⟩

/-! #### Any number of operations -/

/-- **Operations of a mailbox** other than dequeues lead from `mb` to `mb'`, bring `msgs` and look
at `seen`, and if `keeps` none takes a message out. -/
inductive Handled (keeps : Prop) (mb : Mailbox) : Mailbox → List Eterm → List Eterm → Prop
  | refl : Handled keeps mb mb [] []
  | step {mb' mb'' : Mailbox} {msgs seen : List Eterm} {op : CursorOp} {reply : CursorReply}
      (h : Handled keeps mb mb' msgs seen) (hs : mb'.cursorStep op = some (mb'', reply))
      (hk : keeps → op ≠ .removeCurrent) :
      Handled keeps mb mb'' (msgs ++ op.brings) (seen ++ reply.shown)

theorem Handled.of_step {op : CursorOp} {reply : CursorReply}
    (hs : mb.cursorStep op = some (mb', reply)) (hk : keeps → op ≠ .removeCurrent) :
    Handled keeps mb mb' op.brings reply.shown := Handled.refl.step hs hk

theorem Handled.trans (h : Handled keeps mb mb' msgs seen)
    (h' : Handled keeps mb' mb'' msgs' seen') :
    Handled keeps mb mb'' (msgs ++ msgs') (seen ++ seen') := by
  induction h' with
  | refl => simpa using h
  | step _ hs hk ih =>
    rw [← List.append_assoc, ← List.append_assoc]
    exact ih.step hs hk

theorem Handled.imp (h : Handled keeps mb mb' msgs seen) (hk : keeps' → keeps) :
    Handled keeps' mb mb' msgs seen := by
  induction h with
  | refl => exact .refl
  | step _ hs hkeep ih => exact ih.step hs fun hkeeps => hkeep (hk hkeeps)

theorem Handled.delivers (h : Handled keeps mb mb' msgs seen) (hl : ∃ t, mb.Implements t) :
    Delivers keeps mb mb' msgs seen := by
  induction h with
  | refl => exact .refl hl
  | step _ hs hk ih => exact ih.trans ((cursorStep_delivers ih.linked hs).imp hk)

end Mailbox

/-! ### The owner -/

section Calls

variable {code : List Instruction} {instr : Instruction} {m : Memory} {p : Process} {s : Machine}
  {self q : ProcId} {ip : Nat} {e : Effect}

theorem beamProcessAllocHeap_mailbox (m : Memory) (p : Process) (n : Word) :
    (beamProcessAllocHeap m p n).2.1.mailbox = p.mailbox := by
  rcases beamProcessAllocHeap_cases m p n with ⟨_, h⟩ | ⟨_, _, h⟩ | ⟨_, _, _, _, h⟩ <;>
    rw [h] <;> rfl

/-- The instructions that move the save cursor. -/
def Opcode.Receives : Opcode → Bool
  | .loopRec | .removeMessage | .loopRecEnd => true
  | _ => false

/-- **Only the instructions of selective receive** touch the mailbox. -/
theorem execInstr_mailbox (hr : instr.opcode.Receives = false)
    (he : execInstr code instr m p ip = some e) : e.proc.mailbox = p.mailbox := by
  cases hl : instr.opcode.Light with
  | true => rw [(execInstr_light he hl).proc]
  | false =>
    rw [execInstr] at he
    cases hop : instr.opcode <;>
      simp only [hop, Opcode.Light, Opcode.Receives, reduceCtorEq] at he hl hr
    case allocate => exact (execAllocate_movesStack he).moved.mailbox
    case deallocate | callLast => exact (execDropFrame_movesStack he).moved.mailbox
    case send =>
      cases he
      unfold execSend
      split <;> rfl
    case wait => cases he; rfl
    case «try» =>
      cases he
      unfold execTry
      split <;> rfl
    case «catch» =>
      cases he
      unfold execTry
      split <;> rfl
    case tryEnd =>
      unfold execTryEnd at he
      split at he
      · cases he; rfl
      · cases he; rfl
      · obtain ⟨prev, _, rfl⟩ := Option.map_eq_some_iff.mp he
        rfl
    case raise =>
      unfold execRaise at he
      dsimp only at he
      split at he
      · cases he; rfl
      · obtain ⟨cf, _, rfl⟩ := Option.map_eq_some_iff.mp he
        rfl
    case makeFun2 =>
      have ha := beamProcessAllocHeap_mailbox m p ((instr.arg2 + 2#32).setWidth 64)
      unfold execMakeFun2 at he
      dsimp only at he
      split at he
      · rename_i hnone
        rw [hnone] at ha
        cases he
        exact ha
      · rename_i hsome
        rw [hsome] at ha
        obtain ⟨m₁, _, h2⟩ := Option.bind_eq_some_iff.mp he
        obtain ⟨m₂, _, rfl⟩ := Option.map_eq_some_iff.mp h2
        split <;> exact ha

/-- The messages that were looked at. -/
def examinedIn (events : List Event) : List Eterm :=
  events.filterMap fun
    | .sent _ _ => none
    | .examined msg => some msg

/-- The messages that `q` has looked at, when the events are those of `self`. -/
def seenBy (self q : ProcId) (events : List Event) : List Eterm :=
  if self = q then examinedIn events else []

theorem seenBy_append (self q : ProcId) (first rest : List Event) :
    seenBy self q (first ++ rest) = seenBy self q first ++ seenBy self q rest := by
  unfold seenBy
  split
  · exact List.filterMap_append
  · rfl

theorem execInstr_examined (hr : instr.opcode.Receives = false)
    (he : execInstr code instr m p ip = some e) : examinedIn e.event.toList = [] := by
  have hnone : e.event = none → examinedIn e.event.toList = [] := fun h => by rw [h]; rfl
  cases hl : instr.opcode.Light with
  | true => exact hnone (execInstr_light he hl).event
  | false =>
    rw [execInstr] at he
    cases hop : instr.opcode <;>
      simp only [hop, Opcode.Light, Opcode.Receives, reduceCtorEq] at he hl hr
    case allocate => exact hnone (execAllocate_movesStack he).event
    case deallocate | callLast => exact hnone (execDropFrame_movesStack he).event
    case send =>
      cases he
      unfold execSend
      split <;> rfl
    case wait => cases he; rfl
    case «try» => cases he; exact hnone execTry_event
    case «catch» => cases he; exact hnone execTry_event
    case tryEnd => exact hnone (execTryEnd_event he)
    case raise => exact hnone (execRaise_event he)
    case makeFun2 => exact hnone (execMakeFun2_event he)

open Mailbox (Handled)

theorem execLoopRec_handled (he : execLoopRec code instr m p ip = some e) :
    Handled True p.mailbox e.proc.mailbox [] (examinedIn e.event.toList) := by
  obtain ⟨⟨mb, reply⟩, hpeek, rfl⟩ := Option.map_eq_some_iff.mp he
  have hstep : p.mailbox.cursorStep .peekSave = some (mb, .message reply) := by
    rw [Mailbox.cursorStep, hpeek]
    rfl
  have hlook : Handled True p.mailbox mb [] (CursorReply.message reply).shown :=
    .of_step hstep fun _ => by simp
  cases reply with
  | ok msg =>
    dsimp only
    split <;> exact hlook
  | error err =>
    -- nothing to look at: the cursor goes back to the head
    have hreset : mb.cursorStep .resetSaveCursor = some (mb.resetSaveCursor, .void) := rfl
    exact hlook.step hreset fun _ => by simp

theorem execLoopRecEnd_handled (he : execLoopRecEnd code instr m p ip = some e) :
    Handled True p.mailbox e.proc.mailbox [] (examinedIn e.event.toList) := by
  obtain ⟨mb, hadv, rfl⟩ := Option.map_eq_some_iff.mp he
  have hstep : p.mailbox.cursorStep .advanceSave = some (mb, .void) := by
    rw [Mailbox.cursorStep, hadv]
    rfl
  exact .of_step hstep fun _ => by simp

theorem execRemoveMessage_handled (he : execRemoveMessage m p ip = some e) :
    Handled False p.mailbox e.proc.mailbox [] (examinedIn e.event.toList) := by
  obtain ⟨⟨mb, res⟩, hrem, rfl⟩ := Option.map_eq_some_iff.mp he
  have hstep : p.mailbox.cursorStep .removeCurrent = some (mb, .status res) := by
    rw [Mailbox.cursorStep, hrem]
    rfl
  exact .of_step hstep False.elim

/-- **One instruction** and the mailbox of its process. -/
theorem execInstr_handled (he : execInstr code instr m p ip = some e) :
    Handled (instr.opcode ≠ .removeMessage) p.mailbox e.proc.mailbox []
      (examinedIn e.event.toList) := by
  cases hr : instr.opcode.Receives with
  | false =>
    rw [execInstr_mailbox hr he, execInstr_examined hr he]
    exact .refl
  | true =>
    rw [execInstr] at he
    cases hop : instr.opcode <;> simp only [hop, Opcode.Receives, reduceCtorEq] at he hr
    case loopRec => exact (execLoopRec_handled he).imp fun _ => trivial
    case loopRecEnd => exact (execLoopRecEnd_handled he).imp fun _ => trivial
    case removeMessage => exact (execRemoveMessage_handled he).imp fun hne => hne rfl

/-! ### The others -/

theorem perform_handled {s' : Machine} {event : Option Event} (hp : s.perform event = some s') :
    Handled True (s.procs q).mailbox (s'.procs q).mailbox (sentTo q event.toList) [] := by
  rcases perform_cases hp with ⟨hno, rfl⟩ | ⟨target, msg, mb, res, rfl, hmb, rfl⟩
  · have hnil : sentTo q event.toList = [] := by
      cases event with
      | none => rfl
      | some event =>
        cases event with
        | sent target msg => exact absurd rfl (hno target msg)
        | examined msg => rfl
    rw [hnil]
    exact .refl
  · rw [sentTo_sent]
    dsimp only
    by_cases hq : q = target
    · subst hq
      have hstep : (s.procs q).mailbox.cursorStep (.enqueue msg) = some (mb, .status res) := by
        rw [Mailbox.cursorStep, hmb]
        rfl
      rw [Function.update_self, if_pos rfl]
      exact .of_step hstep fun _ => by simp
    · rw [Function.update_of_ne hq, if_neg fun he => hq he.symm]
      exact .refl

/-- The process whose mailbox it is does not take a message out with this instruction. -/
def KeepsMail (self q : ProcId) (instr : Instruction) : Prop :=
  self = q → instr.opcode ≠ .removeMessage

theorem exec_handled {r : Machine × Option Event × Next}
    (hx : s.exec code self instr ip = some r) :
    Handled (KeepsMail self q instr) (s.procs q).mailbox (r.1.procs q).mailbox
      (sentTo q r.2.1.toList) (seenBy self q r.2.1.toList) := by
  obtain ⟨e, he, h2⟩ := Option.bind_eq_some_iff.mp hx
  obtain ⟨s', hp, rfl⟩ := Option.map_eq_some_iff.mp h2
  -- first the own instruction, then the delivery
  have hown : Handled (KeepsMail self q instr) (s.procs q).mailbox
      (Function.update s.procs self e.proc q).mailbox [] (seenBy self q e.event.toList) := by
    by_cases hq : q = self
    · subst hq
      rw [Function.update_self, seenBy, if_pos rfl]
      exact (execInstr_handled he).imp fun hk => hk rfl
    · rw [Function.update_of_ne hq, seenBy, if_neg fun he => hq he.symm]
      exact .refl
  have hall := hown.trans ((perform_handled hp).imp fun _ => trivial)
  rwa [List.nil_append, List.append_nil] at hall

theorem runFor_handled : ∀ (n : Nat) {s : Machine} {ip : Nat} {pr : Progress},
    s.runFor code self n ip = some pr →
      Handled (∀ instr ∈ code, KeepsMail self q instr) (s.procs q).mailbox
        (pr.machine.procs q).mailbox (sentTo q pr.events) (seenBy self q pr.events) := by
  intro n
  induction n with
  | zero =>
    intro s ip pr hrun
    cases hrun
    unfold seenBy
    split <;> exact .refl
  | succ n ih =>
    intro s ip pr hrun
    rcases Machine.runFor_succ_cases hrun with ⟨_, rfl⟩ |
      ⟨instr, r, ip', pr', hc, hx, hn, hrun', rfl⟩ | ⟨instr, r, _, _, _, hc, hx, _, rfl⟩
    · unfold seenBy
      split <;> exact .refl
    · have hfirst := (exec_handled hx).imp
        fun hk : ∀ instr ∈ code, KeepsMail self q instr => hk instr (List.mem_of_getElem? hc)
      have hall := hfirst.trans (ih hrun')
      rwa [← sentTo_append, ← seenBy_append] at hall
    · exact (exec_handled hx).imp fun hk => hk instr (List.mem_of_getElem? hc)

theorem beamEmuExecuteCode_handled {w : World} {sl : Slice}
    (hcall : beamEmuExecuteCode code self w = some sl) :
    Handled (∀ instr ∈ code, KeepsMail self q instr) (w.procs q).mailbox
      (sl.world.procs q).mailbox (sentTo q sl.events) (seenBy self q sl.events) := by
  by_cases hcode : code = []
  · rw [beamEmuExecuteCode, if_pos hcode] at hcall
    cases hcall
    unfold seenBy
    split <;> exact .refl
  obtain ⟨s, sched⟩ := w
  rw [beamEmuExecuteCode_eq hcode] at hcall
  obtain ⟨pr, hrun, rfl⟩ := Option.map_eq_some_iff.mp hcall
  have hstart : ((s.start code self).procs q).mailbox = (s.procs q).mailbox := by
    unfold Machine.start
    dsimp only
    by_cases hq : q = self
    · rw [hq, Function.update_self, initCp_mailbox]
    · rw [Function.update_of_ne hq]
  have hlast : ((pr.slice code self sched).world.procs q).mailbox
      = (pr.machine.procs q).mailbox := by
    obtain ⟨p', hmachine, hsame⟩ := slice_machine code self sched pr
    rw [hmachine]
    dsimp only
    by_cases hq : q = self
    · rw [hq, Function.update_self, hsame]
    · rw [Function.update_of_ne hq]
  have hran := runFor_handled (q := q) _ hrun
  rw [hstart] at hran
  rw [slice_events, hlast]
  exact hran

end Calls

/-! ### Calls of any processes -/

/-- What `q` has looked at in the calls. -/
def seenIn (q : ProcId) (calls : List (List Instruction × ProcId)) (sls : List Slice) :
    List Eterm :=
  (calls.zip sls).flatMap fun c => seenBy c.1.2 q c.2.events

/-- **Messages stay in order**: whatever calls of whatever processes are made in whatever order, a
process holds a part of what it held at first and was sent since, in the order of the sends, and
has looked at nothing else.  Without a `BEAM_OP_REMOVE_MESSAGE` of its own, and with a node for
every message, it holds all of it. -/
theorem messages_in_order {q : ProcId} {calls : List (List Instruction × ProcId)} {w w' : World}
    {sls : List Slice} (h : ∃ t, (w.procs q).mailbox.Implements t)
    (hrun : answers World.visit w calls = some (w', sls)) :
    Mailbox.Delivers (∀ call ∈ calls, ∀ instr ∈ call.1, KeepsMail call.2 q instr)
      (w.procs q).mailbox (w'.procs q).mailbox (sentTo q (sls.flatMap Slice.events))
      (seenIn q calls sls) := by
  suffices hall : Mailbox.Handled (∀ call ∈ calls, ∀ instr ∈ call.1, KeepsMail call.2 q instr)
      (w.procs q).mailbox (w'.procs q).mailbox (sentTo q (sls.flatMap Slice.events))
      (seenIn q calls sls) from hall.delivers h
  clear h
  induction calls generalizing w sls with
  | nil => cases hrun; exact .refl
  | cons call calls ih =>
    obtain ⟨⟨w₁, sl⟩, hcall, hrest⟩ := Option.bind_eq_some_iff.mp hrun
    obtain ⟨⟨w₂, sls'⟩, hrun', he⟩ := Option.map_eq_some_iff.mp hrest
    cases he
    obtain ⟨sl', hsl, he⟩ := Option.map_eq_some_iff.mp hcall
    cases he
    have hfirst := (beamEmuExecuteCode_handled hsl).imp
      fun hk : ∀ c ∈ call :: calls, ∀ instr ∈ c.1, KeepsMail c.2 q instr =>
        hk call List.mem_cons_self
    rw [List.flatMap_cons, sentTo_append]
    exact hfirst.trans ((ih hrun').imp fun hk c hc => hk c (List.mem_cons_of_mem _ hc))

theorem messages_in_order_neighbours : ∃ w' sls,
    answers World.visit neighbours [(sendPair, 0), (takePair, 1)] = some (w', sls) ∧
      (w'.procs 1).mailbox.bodies = [tagAddr 4096 tagPrimaryBoxed] := by
  obtain ⟨⟨w', sls⟩, hrun, hsent⟩ := Option.map_eq_some_iff.mp
    (show (answers World.visit neighbours [(sendPair, 0), (takePair, 1)]).map
      (fun r => sentTo 1 (r.2.flatMap Slice.events)) = some [tagAddr 4096 tagPrimaryBoxed] by
        decide +kernel)
  have hd := messages_in_order (q := 1) ⟨_, Mailbox.implements_empty _⟩ hrun
  have hkeeps : ∀ call ∈ [(sendPair, (0 : ProcId)), (takePair, 1)], ∀ instr ∈ call.1,
      KeepsMail call.2 1 instr := by
    unfold KeepsMail
    decide
  obtain ⟨hbodies, _⟩ := hd.kept hkeeps fun _ => rfl
  exact ⟨w', sls, hrun, hbodies.trans hsent⟩

end BeamModular
