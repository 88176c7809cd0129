import BeamModular.Emulator.Emu
import BeamModular.Lib.Run
import BeamModular.Memory.Gc

/-!
# What a message shares with its sender

`beam_message_send_to_process` and `BEAM_OP_SEND` put the term's word in the receiver's
mailbox.  A list or a tuple is a pointer, and what it points to stays on the sender's
heap: the receiver reads it there.

`SenderAct` is what the sender can do afterwards, and a run of such acts is any list of
them.  A message can be counted on to read back as it was sent, whatever the sender does,
exactly when it is an immediate (`readsBack_iff_immediate`).  For a list or a tuple, one
collection of the sender is enough to lose it (`not_denotes_of_collect`).
-/

namespace BeamModular

/-! ### The sender afterwards -/

/-- What a process can do after it has sent a message. -/
inductive SenderAct
  | allocHeap (words : Word)
  | collect
  | overwrite (i : Nat) (v : Word)
  | exec (code : List Instruction) (instr : Instruction) (ip : Nat)
  | destroy

/-- The memory and the sender, until it is destroyed. -/
structure Sender where
  mem : Memory
  proc : Option Process

/-- One act of the sender. -/
def Sender.step (s : Sender) (act : SenderAct) : Option Sender :=
  s.proc.bind fun p =>
    match act with
    | .allocHeap words =>
      let r := beamProcessAllocHeap s.mem p words
      some ⟨r.1, some r.2.1⟩
    | .collect => (beamGcCollectProcess s.mem p).map fun r => ⟨r.1, some r.2.1⟩
    | .overwrite i v =>
      if i < p.heapCapacity.toNat then
        (s.mem.write (p.heap + 8 * i) v).map fun m => ⟨m, some p⟩
      else none
    | .exec code instr ip => (execInstr code instr s.mem p ip).map fun e => ⟨e.mem, some e.proc⟩
    | .destroy => some ⟨beamProcessDestroy s.mem p, none⟩

/-- The sender's message goes to the receiver, through a call of `beam_message_send_to_process` or
through the instruction `SEND`. -/
def Sends (s : Machine) (sender receiver : ProcId) (msg : Eterm) (s' : Machine) : Prop :=
  (∃ res, beamMessageSendToProcess s receiver msg = some (s', res)) ∨
    ∃ code instr ip next, instr.opcode = .send ∧
      s.exec code sender instr ip = some (s', some (.sent receiver msg), next)

/-! ### What sending does -/

section Sends

variable {s s' : Machine} {sender receiver : ProcId} {msg : Eterm}

theorem Sends.call (h : Sends s sender receiver msg s') :
    ∃ res, beamMessageSendToProcess s receiver msg = some (s', res) := by
  rcases h with h | ⟨code, instr, ip, next, hop, hexec⟩
  · exact h
  · obtain ⟨e, he, h2⟩ := Option.bind_eq_some_iff.mp hexec
    obtain ⟨s₁, hp, h3⟩ := Option.map_eq_some_iff.mp h2
    simp only [Prod.mk.injEq] at h3
    obtain ⟨rfl, hev, -⟩ := h3
    rw [execInstr, hop] at he
    have he' : execSend instr s.mem (s.procs sender) ip = e := Option.some.inj he
    -- the process itself is not changed, so the update of the machine is none
    have hsame : (⟨s.mem, Function.update s.procs sender (s.procs sender)⟩ : Machine) = s := by
      rw [Function.update_eq_self]
    unfold execSend at he'
    split at he'
    · rw [← he'] at hp hev
      cases hev
      rw [hsame] at hp
      obtain ⟨r, hr, rfl⟩ := Option.map_eq_some_iff.mp hp
      exact ⟨r.2, hr⟩
    · rw [← he'] at hev
      cases hev

theorem beamMessageSendToProcess_cases {res : Result}
    (h : beamMessageSendToProcess s receiver msg = some (s', res)) :
    ∃ mb, (s.procs receiver).mailbox.enqueue msg = some (mb, res) ∧
      s' = { s with procs :=
        Function.update s.procs receiver { s.procs receiver with mailbox := mb } } := by
  obtain ⟨r, hr, h2⟩ := Option.map_eq_some_iff.mp h
  cases h2
  exact ⟨r.1, hr, rfl⟩

theorem Sends.mem (h : Sends s sender receiver msg s') : s'.mem = s.mem := by
  obtain ⟨res, hcall⟩ := h.call
  obtain ⟨mb, _, rfl⟩ := beamMessageSendToProcess_cases hcall
  rfl

theorem Sends.heap (h : Sends s sender receiver msg s') (q : ProcId) :
    (s'.procs q).heap = (s.procs q).heap := by
  obtain ⟨res, hcall⟩ := h.call
  obtain ⟨mb, _, rfl⟩ := beamMessageSendToProcess_cases hcall
  dsimp only
  rw [Function.update_apply]
  split
  · rename_i hq
    rw [hq]
  · rfl

/-- **The receiver gets the sender's word.** -/
theorem Sends.messages {before after : List (Nat × Eterm)} (h : Sends s sender receiver msg s')
    (hview : (s.procs receiver).mailbox.View before after)
    (hgrant : (s.procs receiver).mailbox.alloc 0 = true) :
    ∃ node, (s'.procs receiver).mailbox.messages = before ++ after ++ [(node, msg)] := by
  obtain ⟨res, hcall⟩ := h.call
  obtain ⟨mb, hmb, rfl⟩ := beamMessageSendToProcess_cases hcall
  obtain ⟨mb', hmb', hview'⟩ := Mailbox.enqueue_view hview hgrant msg
  rw [hmb] at hmb'
  cases hmb'
  refine ⟨(s.procs receiver).mailbox.nodes.length, ?_⟩
  dsimp only
  rw [Function.update_self, hview'.messages_eq]
  split
  · rename_i hnil
    simp [hnil]
  · simp

end Sends

/-! ### What the sender takes away -/

/-- A list or a tuple cannot be read where its first word cannot. -/
theorem not_denotes_of_unreadable {m : Memory} {w : Eterm} {t : Term} (hw : ¬ IsImmediate w)
    (hnone : m.cell (addrOf w) = none) : ¬ Denotes m w t := by
  intro h
  cases t with
  | imm v => exact hw h.2
  | cons head tail =>
    obtain ⟨hl, ⟨a, ha, _⟩, _⟩ := h
    rw [beamListHead, if_pos hl, hnone] at ha
    cases ha
  | tuple arity element =>
    obtain ⟨_, _, header, hc, _⟩ := beamIsTuple_eq_true h.1
    rw [hnone] at hc
    cases hc

/-- **One collection is enough**: after any that succeeds, a list or a tuple of the old heap shows
no tree. -/
theorem not_denotes_of_collect {m m' : Memory} {p p' : Process} {w : Eterm} {t : Term}
    (hok : HeapOk m p) (hw : ¬ IsImmediate w)
    (hin : InBlock p.heap p.heapCapacity.toNat (addrOf w))
    (h : beamGcCollectProcess m p = some (m', p', .ok)) : ¬ Denotes m' w t := by
  obtain ⟨i, hi, ha⟩ := hin.exists_slot
  refine not_denotes_of_unreadable hw ?_
  rw [ha]
  exact collect_releases hok h hi

/-- **Messages and their sender.**  A term on the sender's heap is sent, by the call or by the
instruction, and the receiver has its word behind the messages it had.  Whatever the sender does
from then on, the word reads back as the term that was sent, exactly when the term is an
immediate. -/
theorem readsBack_iff_immediate {s s' : Machine} {sender receiver : ProcId} {msg : Eterm} {t : Term}
    {before after : List (Nat × Eterm)} (hsent : Sends s sender receiver msg s')
    (hview : (s.procs receiver).mailbox.View before after)
    (hgrant : (s.procs receiver).mailbox.alloc 0 = true) (hok : HeapOk s.mem (s.procs sender))
    (hterm : Denotes s.mem msg t)
    (hown : IsImmediate msg ∨
      InBlock (s.procs sender).heap (s.procs sender).heapCapacity.toNat (addrOf msg)) :
    (∃ node, (s'.procs receiver).mailbox.messages = before ++ after ++ [(node, msg)]) ∧
    ((∀ acts σ, run Sender.step ⟨s'.mem, some (s'.procs sender)⟩ acts = some σ →
        Denotes σ.mem msg t) ↔ IsImmediate msg) := by
  refine ⟨hsent.messages hview hgrant, fun h => ?_, fun himm acts σ _ => ?_⟩
  · -- it is enough that the sender ends
    by_contra hnot
    have hin := hown.resolve_left hnot
    have hd := h [.destroy] _ rfl
    refine not_denotes_of_unreadable hnot ?_ hd
    show (beamProcessDestroy s'.mem (s'.procs sender)).cell (addrOf msg) = none
    rw [beamProcessDestroy, hsent.heap, if_pos hok.nonnull, hsent.mem, Memory.free,
      Memory.wordsAt, hok.block]
    exact Memory.cell_unmap_in hin
  · -- an immediate is its own tree, in every memory
    have himmTree : t = .imm msg := hterm.unique ⟨rfl, himm⟩
    rw [himmTree]
    exact ⟨rfl, himm⟩

/-- Two processes, each with a heap of its own. -/
def twoProcesses (sender : Process) (m : Memory) : Machine where
  mem := m
  procs q := if q = 0 then sender else { freshProcess with pid := 2#32, heap := 8192 }

/-- The memory of the two. -/
def twoHeaps : Memory := freshMemory.map 8192 4 fun _ => 0#64

theorem readsBack_iff_immediate_seven : ∃ s',
    Sends (twoProcesses freshProcess twoHeaps) 0 1 (makeSmallInt 7#64) s' ∧
    ∀ acts σ, run Sender.step ⟨s'.mem, some (s'.procs 0)⟩ acts = some σ →
      Denotes σ.mem (makeSmallInt 7#64) (.imm (makeSmallInt 7#64)) := by
  have himm : IsImmediate (makeSmallInt 7#64) := by decide
  obtain ⟨r, hr⟩ : ∃ r, beamMessageSendToProcess (twoProcesses freshProcess twoHeaps) 1
      (makeSmallInt 7#64) = some r := ⟨_, rfl⟩
  have hsent : Sends (twoProcesses freshProcess twoHeaps) 0 1 (makeSmallInt 7#64) r.1 :=
    Or.inl ⟨r.2, hr⟩
  have hterm : Denotes (twoProcesses freshProcess twoHeaps).mem (makeSmallInt 7#64)
      (.imm (makeSmallInt 7#64)) := ⟨rfl, himm⟩
  have h := readsBack_iff_immediate hsent (Mailbox.view_create _) rfl
    ⟨by decide, by decide, by decide, rfl, by decide, by decide⟩ hterm (Or.inl himm)
  exact ⟨r.1, hsent, h.2.mpr himm⟩

/-- The sender has the tuple `{7}` on its heap. -/
def tupleSender : Option (Machine × Eterm) :=
  (beamMakeTuple twoHeaps freshProcess 1#64 (some [makeSmallInt 7#64])).map fun (m, p, t) =>
    (twoProcesses p m, t)

/-- **A tuple is lost**: the sender collects its heap, and the message reads nothing any more. -/
theorem tuple_message_lost : ∃ s t s' σ, tupleSender = some (s, t) ∧ Denotes s.mem t sevenTuple ∧
    Sends s 0 1 t s' ∧ (s'.procs 1).mailbox.messages = [(0, t)] ∧
    run Sender.step ⟨s'.mem, some (s'.procs 0)⟩ [.collect] = some σ ∧
    ¬ Denotes σ.mem t sevenTuple := by
  obtain ⟨⟨s, t⟩, hr⟩ : ∃ r, tupleSender = some r := ⟨_, rfl⟩
  have hterm : Denotes s.mem t sevenTuple := by
    cases hr
    refine ⟨by decide, ⟨1#64, by decide, rfl⟩, fun i => ⟨makeSmallInt 7#64, ?_, rfl, by decide⟩⟩
    revert i
    decide
  obtain ⟨⟨s', res⟩, hs⟩ : ∃ r, beamMessageSendToProcess s 1 t = some r := by
    cases hr
    exact ⟨_, rfl⟩
  have hsent : Sends s 0 1 t s' := Or.inl ⟨res, hs⟩
  have hok : HeapOk s'.mem (s'.procs 0) := by
    cases hr
    cases hs
    exact ⟨by decide, by decide, by decide, rfl, by decide, by decide⟩
  obtain ⟨⟨m', p', _⟩, hc, rfl⟩ := Option.map_eq_some_iff.mp
    (show (beamGcCollectProcess s'.mem (s'.procs 0)).map (fun r => r.2.2) = some .ok by
      cases hr
      cases hs
      decide +kernel)
  refine ⟨s, t, s', ⟨m', some p'⟩, hr, hterm, hsent, by cases hr; cases hs; decide, ?_, ?_⟩
  · simp only [run, Sender.step, Option.bind_some, hc, Option.map_some]
  · exact not_denotes_of_collect hok (by cases hr; decide) (by cases hr; cases hs; decide) hc

end BeamModular
