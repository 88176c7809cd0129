import BeamModular.Lib.Run
import BeamModular.Emulator.Emu

/-!
# Selective receive

A receive is the loop `LOOP_REC`, a test of the message, and then `REMOVE_MESSAGE`
when it passes or `LOOP_REC_END` and the next message when it does not.  The loop
starts wherever the mailbox's save cursor stands, and nothing sets the cursor back
to the oldest message when a receive begins or ends: `beam_mailbox_remove_current`
leaves it on the message behind the one it took.

So a receive looks at the messages from the cursor on first and at the ones it has
passed only when it finds nothing there.  `receive_takes_iff` says what follows: it takes
the oldest match exactly when there is not a match on both sides of the cursor.
-/

namespace BeamModular

/-- A receive: the register `LOOP_REC` puts the message into, and the test it has to pass. -/
structure Receive where
  dst : Fin numXRegisters
  pred : Eterm → Bool

namespace Receive

/-- The `LOOP_REC` of the receive. -/
def loopRec (rc : Receive) : Instruction := { opcode := .loopRec, arg2 := BitVec.ofNat 32 rc.dst.val }

/-- Its `LOOP_REC_END`. -/
def loopRecEnd : Instruction := { opcode := .loopRecEnd }

/-- The test on a node of the mailbox. -/
def accepts (rc : Receive) (x : Nat × Eterm) : Bool := rc.pred x.2

end Receive

section

variable (code : List Instruction) (m : Memory) (rc : Receive)

/-- The receive loop: the message it takes, or `none` when the mailbox is empty. -/
def receiveLoop : Nat → Process → Option (Process × Option Eterm)
  | 0, _ => none
  | fuel + 1, p =>
    (execLoopRec code rc.loopRec m p 0).bind fun e =>
      match e.event with
      | some (.examined _) =>
        if rc.pred (e.proc.x rc.dst) then
          (execRemoveMessage m e.proc 0).map fun e => (e.proc, some (e.proc.x rc.dst))
        else (execLoopRecEnd code Receive.loopRecEnd m e.proc 0).bind fun e =>
          receiveLoop fuel e.proc
      | _ => some (e.proc, none)

/-- A receive.  Twice the mailbox is as long as a search can take; one that takes longer has no
match and never ends. -/
def receive (p : Process) : Option (Process × Option Eterm) :=
  receiveLoop code m rc (2 * p.mailbox.nodes.length + 2) p

end

/-- What happens to a mailbox: its process receives, or a message arrives. -/
inductive MailOp
  | receive (rc : Receive)
  | arrive (msg : Eterm)

/-- One operation on the mailbox of a process. -/
def mailStep (code : List Instruction) (m : Memory) (p : Process) : MailOp → Option Process
  | .receive rc => (receive code m rc p).map Prod.fst
  | .arrive msg => (p.mailbox.enqueue msg).map fun r => { p with mailbox := r.1 }

/-- The receive took the oldest message that passes its test and left the others in order. -/
def TakesOldest (rc : Receive) (p p' : Process) : Prop :=
  ∃ x, p.mailbox.messages.find? rc.accepts = some x ∧ p'.x rc.dst = x.2 ∧
    p'.mailbox.messages = p.mailbox.messages.eraseP rc.accepts

/-- There is not a match on both sides of the cursor. -/
def CursorClear (rc : Receive) (mb : Mailbox) : Prop :=
  ¬ (mb.passed.any rc.accepts = true ∧ mb.ahead.any rc.accepts = true)

instance (rc : Receive) (mb : Mailbox) : Decidable (CursorClear rc mb) :=
  inferInstanceAs (Decidable (¬ (mb.passed.any rc.accepts = true ∧ mb.ahead.any rc.accepts = true)))

/-! ### The three instructions on a mailbox cut at the cursor -/

section Instructions

variable {code : List Instruction} {instr : Instruction} {m : Memory} {p : Process} {ip : Nat}
  {before after : List (Nat × Eterm)} {x : Nat × Eterm} {dst : Fin numXRegisters}

theorem xReg_ofNat (dst : Fin numXRegisters) : xReg (BitVec.ofNat 32 dst.val) = some dst := by
  have hlt := dst.isLt
  have he : (BitVec.ofNat 32 dst.val).toNat = dst.val := by
    rw [BitVec.toNat_ofNat]
    unfold numXRegisters at hlt
    omega
  rw [xReg, dif_pos (by rw [he]; exact hlt)]
  simp only [he]

theorem execLoopRec_view (h : p.mailbox.View before (x :: after))
    (hdst : xReg instr.arg2 = some dst) :
    execLoopRec code instr m p ip
      = some ⟨m, p.setX dst x.2, some (.examined x.2), .goto (ip + 1)⟩ := by
  simp only [execLoopRec, Mailbox.peekSave_view h, Option.map_some, hdst]

theorem execLoopRec_restart (h : p.mailbox.View (x :: before) [])
    (hdst : xReg instr.arg2 = some dst) :
    execLoopRec code instr m p ip
      = some ⟨m, { p with mailbox := p.mailbox.resetSaveCursor }.setX dst x.2,
          some (.examined x.2), .goto (ip + 1)⟩ := by
  simp only [execLoopRec, Mailbox.peekSave_view_restart h, Option.map_some, hdst]

theorem execLoopRec_empty (h : p.mailbox.View [] []) :
    execLoopRec code instr m p ip
      = some (.goto m { p with mailbox := p.mailbox.resetSaveCursor.resetSaveCursor }
          (jumpToLabel code instr.arg1.toNat ip)) := by
  simp only [execLoopRec, Mailbox.peekSave_view_empty h, Option.map_some]

variable (m ip) in
theorem execRemoveMessage_view (h : p.mailbox.View before (x :: after)) :
    ∃ mb, execRemoveMessage m p ip = some (.goto m { p with mailbox := mb } (ip + 1)) ∧
      mb.View before after := by
  obtain ⟨mb, hr, hv⟩ := Mailbox.removeCurrent_view h
  exact ⟨mb, by rw [execRemoveMessage, hr]; rfl, hv⟩

variable (code instr m ip) in
theorem execLoopRecEnd_view (h : p.mailbox.View before (x :: after)) :
    ∃ mb, execLoopRecEnd code instr m p ip
        = some (.goto m { p with mailbox := mb } (jumpToLabel code instr.arg1.toNat ip)) ∧
      mb.View (before ++ [x]) after ∧ mb.nodes = p.mailbox.nodes ∧ mb.head = p.mailbox.head := by
  obtain ⟨mb, hr, hv⟩ := Mailbox.advanceSave_view h
  exact ⟨mb, by rw [execLoopRecEnd, hr]; rfl, hv⟩

end Instructions

/-! ### The loop -/

variable (code : List Instruction) (m : Memory) {rc : Receive} {p : Process}
  {before after : List (Nat × Eterm)} {x : Nat × Eterm}

theorem receiveLoop_skip (h : p.mailbox.View before (x :: after)) (hx : rc.accepts x = false)
    (fuel : Nat) :
    ∃ p', receiveLoop code m rc (fuel + 1) p = receiveLoop code m rc fuel p' ∧
      p'.mailbox.View (before ++ [x]) after := by
  obtain ⟨mb, he, hv, _⟩ := execLoopRecEnd_view code Receive.loopRecEnd m 0
    (p := p.setX rc.dst x.2) h
  have hpred : rc.pred ((p.setX rc.dst x.2).x rc.dst) = false := by
    rw [Process.x_setX_self]
    exact hx
  refine ⟨{ p.setX rc.dst x.2 with mailbox := mb }, ?_, hv⟩
  rw [receiveLoop, execLoopRec_view h (xReg_ofNat rc.dst)]
  simp only [Option.bind_some, hpred, Bool.false_eq_true, if_false, he, Effect.goto]

theorem receiveLoop_take (h : p.mailbox.View before (x :: after)) (hx : rc.accepts x = true)
    (fuel : Nat) :
    ∃ p', receiveLoop code m rc (fuel + 1) p = some (p', some x.2) ∧ p'.x rc.dst = x.2 ∧
      p'.mailbox.View before after := by
  obtain ⟨mb, he, hv⟩ := execRemoveMessage_view m 0 (p := p.setX rc.dst x.2) h
  have hreg : (p.setX rc.dst x.2).x rc.dst = x.2 := p.x_setX_self rc.dst x.2
  have hpred : rc.pred ((p.setX rc.dst x.2).x rc.dst) = true := by rw [hreg]; exact hx
  refine ⟨{ p.setX rc.dst x.2 with mailbox := mb }, ?_, hreg, hv⟩
  rw [receiveLoop, execLoopRec_view h (xReg_ofNat rc.dst)]
  simp only [Option.bind_some, hpred, if_true, he, Effect.goto, Option.map_some]
  exact congrArg (fun v => some (_, some v)) hreg

theorem receiveLoop_restart (h : p.mailbox.View before []) (hne : before ≠ []) (fuel : Nat) :
    receiveLoop code m rc fuel p
      = receiveLoop code m rc fuel { p with mailbox := p.mailbox.resetSaveCursor } := by
  cases fuel with
  | zero => rfl
  | succ fuel =>
    cases before with
    | nil => exact absurd rfl hne
    | cons x before =>
      have hreset := Mailbox.resetSaveCursor_view h
      simp only [List.append_nil] at hreset
      rw [receiveLoop, receiveLoop, execLoopRec_restart h (xReg_ofNat rc.dst),
        execLoopRec_view (p := { p with mailbox := p.mailbox.resetSaveCursor }) hreset
          (xReg_ofNat rc.dst)]

theorem receiveLoop_pass : ∀ {after before : List (Nat × Eterm)} {p : Process},
    p.mailbox.View before after → (∀ x ∈ after, rc.accepts x = false) → ∀ fuel,
      ∃ p', receiveLoop code m rc (after.length + fuel) p = receiveLoop code m rc fuel p' ∧
        p'.mailbox.View (before ++ after) [] := by
  intro after
  induction after with
  | nil =>
    intro before p h _ fuel
    exact ⟨p, by rw [List.length_nil, Nat.zero_add], by simpa using h⟩
  | cons x after ih =>
    intro before p h hall fuel
    obtain ⟨p₁, h1, hv₁⟩ := receiveLoop_skip code m h (hall x (by simp))
      (after.length + fuel)
    obtain ⟨p₂, h2, hv₂⟩ := ih hv₁ (fun y hy => hall y (by simp [hy])) fuel
    refine ⟨p₂, ?_, by simpa using hv₂⟩
    rw [List.length_cons, show after.length + 1 + fuel = after.length + fuel + 1 by omega, h1, h2]

theorem receiveLoop_find : ∀ {skip before rest : List (Nat × Eterm)} {x : Nat × Eterm}
    {p : Process}, p.mailbox.View before (skip ++ x :: rest) →
      (∀ y ∈ skip, rc.accepts y = false) → rc.accepts x = true → ∀ fuel, skip.length < fuel →
      ∃ p', receiveLoop code m rc fuel p = some (p', some x.2) ∧ p'.x rc.dst = x.2 ∧
        p'.mailbox.View (before ++ skip) rest := by
  intro skip
  induction skip with
  | nil =>
    intro before rest x p h _ hx fuel hf
    obtain ⟨k, rfl⟩ : ∃ k, fuel = k + 1 := ⟨fuel - 1, by simp at hf; omega⟩
    simpa using receiveLoop_take code m h hx k
  | cons y skip ih =>
    intro before rest x p h hall hx fuel hf
    obtain ⟨k, rfl⟩ : ∃ k, fuel = k + 1 := ⟨fuel - 1, by simp at hf; omega⟩
    obtain ⟨p₁, h1, hv₁⟩ := receiveLoop_skip code m h (hall y (by simp)) k
    obtain ⟨p₂, h2, hr, hv₂⟩ := ih hv₁ (fun z hz => hall z (by simp [hz])) hx k (by simpa using hf)
    exact ⟨p₂, h1.trans h2, hr, by simpa using hv₂⟩

/-- **Without a match and with messages a receive never ends.** -/
theorem receiveLoop_none : ∀ (fuel : Nat) {before after : List (Nat × Eterm)} {p : Process},
    p.mailbox.View before after → before ++ after ≠ [] →
      (∀ x ∈ before ++ after, rc.accepts x = false) → receiveLoop code m rc fuel p = none := by
  intro fuel
  induction fuel with
  | zero => intro before after p _ _ _; rfl
  | succ fuel ih =>
    intro before after p h hne hall
    cases after with
    | cons x after =>
      obtain ⟨p₁, h1, hv₁⟩ := receiveLoop_skip code m h (hall x (by simp)) fuel
      rw [h1]
      exact ih hv₁ (by simp) (by simpa using hall)
    | nil =>
      rw [List.append_nil] at hne
      have hreset := Mailbox.resetSaveCursor_view h
      rw [receiveLoop_restart code m h hne]
      cases before with
      | nil => exact absurd rfl hne
      | cons x before =>
        obtain ⟨p₁, h1, hv₁⟩ := receiveLoop_skip code m
          (p := { p with mailbox := p.mailbox.resetSaveCursor }) hreset (hall x (by simp)) fuel
        rw [h1]
        exact ih hv₁ (by simp) (by simpa using hall)

theorem receiveLoop_empty (h : p.mailbox.View [] []) (fuel : Nat) :
    receiveLoop code m rc (fuel + 1) p
      = some ({ p with mailbox := p.mailbox.resetSaveCursor.resetSaveCursor }, none) := by
  rw [receiveLoop, execLoopRec_empty h]
  rfl

/-! ### A whole receive -/

theorem exists_first_match {L : List (Nat × Eterm)} (h : L.any rc.accepts = true) :
    ∃ skip x rest, L = skip ++ x :: rest ∧ (∀ y ∈ skip, rc.accepts y = false) ∧
      rc.accepts x = true := by
  induction L with
  | nil => cases h
  | cons y L ih =>
    cases hy : rc.accepts y with
    | true => exact ⟨[], y, L, rfl, fun _ hm => absurd hm (by simp), hy⟩
    | false =>
      rw [List.any_cons, hy, Bool.false_or] at h
      obtain ⟨skip, x, rest, rfl, hskip, hx⟩ := ih h
      refine ⟨y :: skip, x, rest, rfl, fun z hz => ?_, hx⟩
      rcases List.mem_cons.mp hz with rfl | hz
      · exact hy
      · exact hskip z hz

theorem receive_ahead {skip rest : List (Nat × Eterm)}
    (h : p.mailbox.View before (skip ++ x :: rest)) (hskip : ∀ y ∈ skip, rc.accepts y = false)
    (hx : rc.accepts x = true) :
    ∃ p', receive code m rc p = some (p', some x.2) ∧ p'.x rc.dst = x.2 ∧
      p'.mailbox.View (before ++ skip) rest := by
  have hlen := h.chain.length_le
  simp only [List.length_append, List.length_cons] at hlen
  exact receiveLoop_find code m h hskip hx _ (by omega)

theorem receive_wrapped {skip rest : List (Nat × Eterm)}
    (h : p.mailbox.View (skip ++ x :: rest) after) (hafter : ∀ y ∈ after, rc.accepts y = false)
    (hskip : ∀ y ∈ skip, rc.accepts y = false) (hx : rc.accepts x = true) :
    ∃ p', receive code m rc p = some (p', some x.2) ∧ p'.x rc.dst = x.2 ∧
      p'.mailbox.View skip (rest ++ after) := by
  have hlen := h.chain.length_le
  simp only [List.length_append, List.length_cons] at hlen
  obtain ⟨fuel, hfuel⟩ : ∃ fuel, 2 * p.mailbox.nodes.length + 2 = after.length + fuel :=
    ⟨2 * p.mailbox.nodes.length + 2 - after.length, by omega⟩
  obtain ⟨p₁, h1, hv₁⟩ := receiveLoop_pass code m h hafter fuel
  have hreset := Mailbox.resetSaveCursor_view hv₁
  simp only [List.append_nil, List.append_assoc, List.cons_append] at hreset
  obtain ⟨p₂, h2, hr, hv₂⟩ := receiveLoop_find code m
    (p := { p₁ with mailbox := p₁.mailbox.resetSaveCursor }) hreset hskip hx fuel (by omega)
  refine ⟨p₂, ?_, hr, by simpa using hv₂⟩
  rw [receive, hfuel, h1, receiveLoop_restart code m hv₁ (by simp), h2]

theorem takesOldest_of_first {p' : Process} {skip rest : List (Nat × Eterm)}
    (hmsgs : p.mailbox.messages = skip ++ x :: rest) (hskip : ∀ y ∈ skip, rc.accepts y = false)
    (hx : rc.accepts x = true) (hreg : p'.x rc.dst = x.2)
    (hmsgs' : p'.mailbox.messages = skip ++ rest) : TakesOldest rc p p' := by
  have hskip' : ∀ y ∈ skip, ¬ rc.accepts y = true := fun y hy => by rw [hskip y hy]; decide
  refine ⟨x, ?_, hreg, ?_⟩
  · rw [hmsgs, List.find?_append, List.find?_eq_none.mpr hskip', List.find?_cons, hx]
    rfl
  · rw [hmsgs, hmsgs', List.eraseP_append_right _ hskip', List.eraseP_cons_of_pos hx]

/-- With a match on both sides of the cursor, the one taken is not the oldest. -/
theorem not_takesOldest_of_both {p' : Process} {skip rest : List (Nat × Eterm)}
    (h : p.mailbox.View before (skip ++ x :: rest)) (hbefore : before.any rc.accepts = true)
    (h' : p'.mailbox.View (before ++ skip) rest) : ¬ TakesOldest rc p p' := by
  rintro ⟨_, _, _, hmsgs⟩
  obtain ⟨s₀, y, r₀, rfl, hs₀, hy⟩ := exists_first_match hbefore
  have herase : (s₀ ++ y :: r₀ ++ (skip ++ x :: rest)).eraseP rc.accepts
      = s₀ ++ (r₀ ++ (skip ++ x :: rest)) := by
    rw [List.append_assoc, List.eraseP_append_right _ (fun z hz => by rw [hs₀ z hz]; decide),
      List.cons_append, List.eraseP_cons_of_pos hy]
  rw [h.messages_eq, h'.messages_eq, herase] at hmsgs
  -- the message that was taken would still be there, and no node is there twice
  have hmem : x ∈ s₀ ++ y :: r₀ ++ skip ++ rest := by rw [hmsgs]; simp
  have hnd := h.chain.nodup
  have hperm : (s₀ ++ y :: r₀ ++ (skip ++ x :: rest)).Perm
      (x :: (s₀ ++ y :: r₀ ++ skip ++ rest)) := by
    rw [← List.append_assoc]
    exact List.perm_middle
  have hcons := (hperm.map Prod.fst).nodup_iff.mp hnd
  rw [List.map_cons, List.nodup_cons] at hcons
  exact hcons.1 (List.mem_map_of_mem hmem)

/-- **One receive**: it ends when there is a match, and takes the oldest one exactly when there
is not a match on both sides of the cursor. -/
theorem receive_takes_iff (h : p.mailbox.View before after)
    (hm : (before ++ after).any rc.accepts = true) :
    ∃ p', mailStep code m p (.receive rc) = some p' ∧ (∃ b a, p'.mailbox.View b a) ∧
      (TakesOldest rc p p' ↔ CursorClear rc p.mailbox) := by
  obtain ⟨hpassed, hahead⟩ := h.cut_eq
  rw [CursorClear, hpassed, hahead]
  cases hafter : after.any rc.accepts with
  | true =>
    obtain ⟨skip, x, rest, rfl, hskip, hx⟩ := exists_first_match hafter
    obtain ⟨p', hr, hreg, hv⟩ := receive_ahead code m h hskip hx
    refine ⟨p', by rw [mailStep, hr]; rfl, ⟨_, _, hv⟩, ?_⟩
    cases hbefore : before.any rc.accepts with
    | true =>
      exact iff_of_false (not_takesOldest_of_both h hbefore hv) (fun hc => hc ⟨rfl, rfl⟩)
    | false =>
      have hmsgs : p.mailbox.messages = (before ++ skip) ++ x :: rest := by
        rw [h.messages_eq]; simp
      refine iff_of_true (takesOldest_of_first hmsgs (fun y hy => ?_) hx hreg hv.messages_eq)
        (fun hc => by cases hc.1)
      rcases List.mem_append.mp hy with hy | hy
      · exact Bool.eq_false_iff.mpr (List.any_eq_false.mp hbefore y hy)
      · exact hskip y hy
  | false =>
    have hnone : ∀ y ∈ after, rc.accepts y = false := fun y hy =>
      Bool.eq_false_iff.mpr (List.any_eq_false.mp hafter y hy)
    rw [List.any_append, hafter, Bool.or_false] at hm
    obtain ⟨skip, x, rest, rfl, hskip, hx⟩ := exists_first_match hm
    obtain ⟨p', hr, hreg, hv⟩ := receive_wrapped code m h hnone hskip hx
    have hmsgs : p.mailbox.messages = skip ++ x :: (rest ++ after) := by
      rw [h.messages_eq]; simp
    exact ⟨p', by rw [mailStep, hr]; rfl, ⟨_, _, hv⟩, iff_of_true
      (takesOldest_of_first hmsgs hskip hx hreg hv.messages_eq) (fun hc => by cases hc.2)⟩

/-! ### Every sequence of receives -/

theorem mailStep_view {p' : Process} {op : MailOp} (h : ∃ b a, p.mailbox.View b a)
    (hs : mailStep code m p op = some p') : ∃ b a, p'.mailbox.View b a := by
  obtain ⟨before, after, hv⟩ := h
  cases op with
  | arrive msg =>
    obtain ⟨r, hr, rfl⟩ := Option.map_eq_some_iff.mp hs
    cases hgrant : p.mailbox.alloc 0 with
    | true =>
      obtain ⟨mb, he, hv'⟩ := Mailbox.enqueue_view hv hgrant msg
      rw [he] at hr
      cases hr
      exact ⟨_, _, hv'⟩
    | false =>
      rw [Mailbox.enqueue, hgrant] at hr
      cases hr
      exact ⟨before, after, hv.chain, hv.tail, hv.cursor, hv.prev⟩
  | receive rc =>
    cases hm : (before ++ after).any rc.accepts with
    | true =>
      obtain ⟨p₁, h1, hv₁, _⟩ := receive_takes_iff code m hv hm
      rw [h1] at hs
      cases hs
      exact hv₁
    | false =>
      have hnone : ∀ y ∈ before ++ after, rc.accepts y = false := fun y hy =>
        Bool.eq_false_iff.mpr (List.any_eq_false.mp hm y hy)
      by_cases hne : before ++ after = []
      · obtain ⟨rfl, rfl⟩ := List.append_eq_nil_iff.mp hne
        rw [mailStep, receive, receiveLoop_empty code m hv] at hs
        cases hs
        exact ⟨[], [], Mailbox.resetSaveCursor_view (Mailbox.resetSaveCursor_view hv)⟩
      · rw [mailStep, receive, receiveLoop_none code m _ hv hne hnone] at hs
        cases hs

/-- **Selective receive takes the oldest match exactly when the cursor is clear of it.**  After
any sequence of receives and arrivals, from any mailbox, a receive for which there is a match ends,
and the message it takes is the oldest match if and only if there is not a match on both sides of
the save cursor. -/
theorem takesOldest_iff_cursorClear (h : p.mailbox.View before after) (ops : List MailOp)
    {p' : Process} (hrun : run (mailStep code m) p ops = some p') (rc : Receive)
    (hm : p'.mailbox.messages.any rc.accepts = true) :
    ∃ p'', mailStep code m p' (.receive rc) = some p'' ∧
      (TakesOldest rc p' p'' ↔ CursorClear rc p'.mailbox) := by
  have hinv : ∃ b a, p'.mailbox.View b a :=
    run_invariant (fun p : Process => ∃ b a, p.mailbox.View b a)
      (fun _ _ _ hi hs => mailStep_view code m hi hs) ⟨before, after, h⟩ hrun
  obtain ⟨b, a, hv⟩ := hinv
  rw [hv.messages_eq] at hm
  obtain ⟨p'', hs, _, hiff⟩ := receive_takes_iff code m hv hm
  exact ⟨p'', hs, hiff⟩

/-- Two messages received in the order they came. -/
theorem takesOldest_inOrder :
    ∃ p' p'', run (mailStep [] freshMemory) freshProcess
        [.arrive 1#64, .arrive 2#64, .receive ⟨0, fun t => t == 1#64⟩] = some p' ∧
      mailStep [] freshMemory p' (.receive ⟨0, fun t => t == 2#64⟩) = some p'' ∧
      TakesOldest ⟨0, fun t => t == 2#64⟩ p' p'' := by
  obtain ⟨p', hp, hv⟩ := Option.map_eq_some_iff.mp
    (show (run (mailStep [] freshMemory) freshProcess
        [.arrive 1#64, .arrive 2#64, .receive ⟨0, fun t => t == 1#64⟩]).map
          (fun p => (p.mailbox.messages.any (Receive.accepts ⟨0, fun t => t == 2#64⟩),
            decide (CursorClear ⟨0, fun t => t == 2#64⟩ p.mailbox))) = some (true, true) by decide)
  simp only [Prod.mk.injEq, decide_eq_true_iff] at hv
  obtain ⟨p'', hs, hiff⟩ := takesOldest_iff_cursorClear [] freshMemory (p := freshProcess)
    (Mailbox.view_create _) _ hp _ hv.1
  exact ⟨p', p'', hp, hs, hiff.mpr hv.2⟩

/-- **The cursor stays behind the last message taken.**  With 1, 2 and 3 in the mailbox, a receive
of 2 leaves the cursor on 3, and a receive of anything then takes 3 and not 1. -/
theorem receive_takes_newer :
    ∃ p' p'', run (mailStep [] freshMemory) freshProcess
        [.arrive 1#64, .arrive 2#64, .arrive 3#64, .receive ⟨0, fun t => t == 2#64⟩] = some p' ∧
      mailStep [] freshMemory p' (.receive ⟨0, fun _ => true⟩) = some p'' ∧
      p'.mailbox.messages.map Prod.snd = [1#64, 3#64] ∧ p''.x 0 = 3#64 ∧
      ¬ TakesOldest ⟨0, fun _ => true⟩ p' p'' := by
  obtain ⟨p', hp, hv⟩ := Option.map_eq_some_iff.mp
    (show (run (mailStep [] freshMemory) freshProcess
        [.arrive 1#64, .arrive 2#64, .arrive 3#64, .receive ⟨0, fun t => t == 2#64⟩]).map
          (fun p => (p.mailbox.messages,
            (mailStep [] freshMemory p (.receive ⟨0, fun _ => true⟩)).map fun p => p.x 0))
        = some ([(0, 1#64), (2, 3#64)], some 3#64) by decide)
  simp only [Prod.mk.injEq] at hv
  obtain ⟨p'', hs, hx⟩ := Option.map_eq_some_iff.mp hv.2
  refine ⟨p', p'', hp, hs, by rw [hv.1]; rfl, hx, ?_⟩
  rintro ⟨x, hfind, hreg, _⟩
  rw [hv.1] at hfind
  cases hfind
  rw [show p''.x 0 = 3#64 from hx] at hreg
  exact absurd hreg (by decide)

end BeamModular
