import BeamModular.Emulator.Budget
import BeamModular.Emulator.Footprint
import BeamModular.Lib.Run

/-!
# Processes beside a call

`Separated` is the invariant of a set of processes: each keeps its bounds and no two blocks meet.
New processes have it (`Separated.create`), and a call of one of them keeps it
(`separated_of_calls`).  All that a call does to another process is to put messages at the end of
its mailbox: `OnlyReceives` is this relation, which composes like the steps do, and
`beamEmuExecuteCode_leavesAlone` has it for the whole call with the messages of the `SEND`
instructions that were executed, in their order.
-/

namespace BeamModular

/-! ### A set of processes -/

/-- The processes keep their bounds, and no two of them have a word in common. -/
structure Separated (live : ProcId → Prop) (s : Machine) : Prop where
  ok : ∀ p, live p → ProcOk s.mem (s.procs p)
  apart : ∀ p q, live p → live q → p ≠ q → Apart (s.procs p) (s.procs q)

/-- The messages for `q` among the events. -/
def sentTo (q : ProcId) (events : List Event) : List Eterm :=
  events.filterMap fun
    | .sent target msg => if target = q then some msg else none
    | .examined _ => none

theorem sentTo_sent (q target : ProcId) (msg : Eterm) :
    sentTo q (some (Event.sent target msg)).toList = if target = q then [msg] else [] := by
  by_cases h : target = q <;> simp [sentTo, h]

theorem sentTo_append (q : ProcId) (first rest : List Event) :
    sentTo q (first ++ rest) = sentTo q first ++ sentTo q rest := List.filterMap_append

/-- **All that happens to `q`** is that the messages are put at the end of its mailbox: its part of
the process table, its block and the cursor of its mailbox are as they were. -/
structure OnlyReceives (s s' : Machine) (q : ProcId) (msgs : List Eterm) : Prop where
  proc : s'.procs q = { s.procs q with mailbox := (s'.procs q).mailbox }
  words : ∀ i < (s.procs q).heapCapacity.toNat,
    s'.mem.cell ((s.procs q).heap + 8 * i) = s.mem.cell ((s.procs q).heap + 8 * i)
  saveCursor : (s'.procs q).mailbox.saveCursor = (s.procs q).mailbox.saveCursor
  savePrev : (s'.procs q).mailbox.savePrev = (s.procs q).mailbox.savePrev
  messages : (s'.procs q).mailbox.messages.map Prod.snd
    = (s.procs q).mailbox.messages.map Prod.snd ++ msgs
  granted : ∀ n, (s'.procs q).mailbox.alloc n = true

namespace OnlyReceives

variable {s s' s'' : Machine} {q : ProcId} {msgs msgs' : List Eterm}

theorem of_same (hproc : s'.procs q = s.procs q)
    (hwords : ∀ i < (s.procs q).heapCapacity.toNat,
      s'.mem.cell ((s.procs q).heap + 8 * i) = s.mem.cell ((s.procs q).heap + 8 * i))
    (hgrant : ∀ n, (s.procs q).mailbox.alloc n = true) : OnlyReceives s s' q [] := by
  refine ⟨?_, hwords, ?_, ?_, ?_, ?_⟩ <;> rw [hproc]
  · rw [List.append_nil]
  · exact hgrant

theorem trans (h : OnlyReceives s s' q msgs) (h' : OnlyReceives s' s'' q msgs') :
    OnlyReceives s s'' q (msgs ++ msgs') where
  proc := by rw [h'.proc, h.proc]
  words i hi := by
    have hwords := h'.words i (by rw [h.proc]; exact hi)
    rw [h.proc] at hwords
    exact hwords.trans (h.words i hi)
  saveCursor := h'.saveCursor.trans h.saveCursor
  savePrev := h'.savePrev.trans h.savePrev
  messages := by rw [h'.messages, h.messages, List.append_assoc]
  granted := h'.granted

end OnlyReceives

namespace Mailbox

/-- **An enqueue that is granted** puts the message at the end and leaves the cursor. -/
theorem Cut.enqueue_granted {mb mb' : Mailbox} {before after : List (Nat × Eterm)} {msg : Eterm}
    {r : Result} (h : mb.Cut before after) (hgrant : mb.alloc 0 = true)
    (hr : mb.enqueue msg = some (mb', r)) :
    mb'.messages.map Prod.snd = mb.messages.map Prod.snd ++ [msg] ∧
      mb'.saveCursor = mb.saveCursor ∧ mb'.savePrev = mb.savePrev ∧
      mb'.alloc = fun n => mb.alloc (n + 1) := by
  obtain ⟨mb₁, he, hv⟩ := enqueue_view h.view hgrant msg
  rw [he] at hr
  cases hr
  obtain ⟨hprev, _, halloc, _⟩ := enqueue_keeps he
  refine ⟨?_, ?_, hprev, halloc⟩
  · rw [hv.messages_eq, h.view.messages_eq]
    cases after <;> simp
  · rw [hv.cursor, h.view.cursor]
    cases after <;> simp

end Mailbox

section Separated

variable {live : ProcId → Prop} {code : List Instruction} {instr : Instruction} {s s' : Machine}
  {self q : ProcId} {ip : Nat}

theorem Separated.update {live' : ProcId → Prop} (h : Separated live s)
    (hlive : ∀ q, live' q → q ≠ self → live q) {m : Memory} {p : Process} (hp : ProcOk m p)
    (hothers : ∀ q, live q → q ≠ self → ProcOk m (s.procs q) ∧ Apart p (s.procs q)) :
    Separated live' ⟨m, Function.update s.procs self p⟩ := by
  refine ⟨fun q hq => ?_, fun q q' hq hq' hne => ?_⟩
  · dsimp only
    rw [Function.update_apply]
    split
    · exact hp
    · exact (hothers q (hlive q hq ‹_›) ‹_›).1
  · dsimp only
    rw [Function.update_apply, Function.update_apply]
    split
    · rename_i he
      have hne' : q' ≠ self := fun he' => hne (he.trans he'.symm)
      rw [if_neg hne']
      exact (hothers q' (hlive q' hq' hne') hne').2
    · rename_i hne₁
      split
      · exact (hothers q (hlive q hq hne₁) hne₁).2.symm
      · exact h.apart q q' (hlive q hq hne₁) (hlive q' hq' ‹_›) hne

theorem Separated.confined (h : Separated live s) (hself : live self) {m : Memory} {p : Process}
    (hc : Confined s.mem (s.procs self) m p) :
    Separated live ⟨m, Function.update s.procs self p⟩ := by
  refine h.update (fun q hq _ => hq) hc.ok fun q hq hne => ?_
  obtain ⟨_, hheap, hapart⟩ := hc.writes.other (h.ok q hq).heap (h.apart self q hself hq hne.symm)
  exact ⟨(h.ok q hq).of_heap hheap, hapart⟩

theorem Separated.perform (h : Separated live s) {event : Option Event}
    (hp : s.perform event = some s') : Separated live s' := by
  have hsame := fun q => (perform_same hp q).2
  rcases perform_cases hp with ⟨_, rfl⟩ | ⟨target, msg, mb, _, _, hmb, rfl⟩
  · exact h
  · refine ⟨fun q hq => ?_, fun q q' hq hq' hne => ?_⟩
    · have hok := h.ok q hq
      by_cases hqt : q = target
      · subst hqt
        obtain ⟨before, after, hcut⟩ := hok.mailbox
        dsimp only
        rw [Function.update_self]
        exact (hok.setMailbox (hcut.enqueue hmb)).ok
      · dsimp only
        rw [Function.update_of_ne hqt]
        exact hok
    · rw [hsame q, hsame q']
      exact ⟨(h.apart q q' hq hq' hne).base, (h.apart q q' hq hq' hne).words⟩

/-- A delivery is all that happens to its receiver, and nothing happens to the others. -/
theorem Separated.delivers (h : Separated live s) (hq : live q)
    (hgrant : ∀ n, (s.procs q).mailbox.alloc n = true) {event : Option Event}
    (hp : s.perform event = some s') : OnlyReceives s s' q (sentTo q event.toList) := by
  rcases perform_cases hp with ⟨hno, rfl⟩ | ⟨target, msg, mb, _, rfl, hmb, rfl⟩
  swap
  · by_cases hqt : q = target
    · subst hqt
      obtain ⟨before, after, hcut⟩ := (h.ok q hq).mailbox
      obtain ⟨hmsgs, hcur, hprev, halloc⟩ := hcut.enqueue_granted (hgrant 0) hmb
      refine ⟨?_, fun _ _ => rfl, ?_, ?_, ?_, ?_⟩ <;> dsimp only <;> rw [Function.update_self]
      · exact hcur
      · exact hprev
      · rw [hmsgs, sentTo_sent, if_pos rfl]
      · intro n
        rw [halloc]
        exact hgrant (n + 1)
    · rw [sentTo_sent, if_neg fun he => hqt he.symm]
      exact .of_same (Function.update_of_ne hqt _ _) (fun _ _ => rfl) hgrant
  · have hnil : sentTo q event.toList = [] := by
      cases event with
      | none => rfl
      | some event =>
        cases event with
        | sent target msg => exact absurd rfl (hno target msg)
        | examined msg => rfl
    rw [hnil]
    exact .of_same rfl (fun _ _ => rfl) hgrant

/-- What `MAKE_FUN2` needs, and the other instructions do not. -/
def FunFits (m : Memory) (p : Process) (instr : Instruction) : Prop :=
  instr.opcode = .makeFun2 → instr.arg2.toNat < 2 ^ 26 ∧
    GrantsInFull m p ((instr.arg2 + 2#32).setWidth 64)

/-- **One instruction** keeps the processes apart, and all that happens to another one is what it
is sent. -/
theorem Separated.exec (h : Separated live s) (hself : live self)
    (hfun : FunFits s.mem (s.procs self) instr) {r : Machine × Option Event × Next}
    (hx : s.exec code self instr ip = some r) :
    Separated live r.1 ∧ ∀ q, live q → q ≠ self → (∀ n, (s.procs q).mailbox.alloc n = true) →
      OnlyReceives s r.1 q (sentTo q r.2.1.toList) := by
  obtain ⟨e, he, h2⟩ := Option.bind_eq_some_iff.mp hx
  obtain ⟨s', hp, rfl⟩ := Option.map_eq_some_iff.mp h2
  have hc := execInstr_confined (h.ok self hself) hfun he
  have hsep := h.confined hself hc
  refine ⟨hsep.perform hp, fun q hq hne hgrant => ?_⟩
  have hproc : Function.update s.procs self e.proc q = s.procs q := Function.update_of_ne hne _ _
  have hwords := (hc.writes.other (h.ok q hq).heap (h.apart self q hself hq hne.symm)).1
  have hfirst : OnlyReceives s ⟨e.mem, Function.update s.procs self e.proc⟩ q [] :=
    .of_same hproc hwords hgrant
  exact hfirst.trans (hsep.delivers hq hfirst.granted hp)

/-! ### Every run -/

/-- A run of `n` instructions comes to execute `instr` with the machine `t`. -/
def ComesTo (code : List Instruction) (self : ProcId) (n : Nat) (s : Machine) (ip : Nat)
    (t : Machine) (instr : Instruction) : Prop :=
  ∃ k pr ip', k < n ∧ s.runFor code self k ip = some pr ∧ pr.status = .running ip' ∧
    pr.machine = t ∧ code[ip']? = some instr

theorem ComesTo.step {n ip' : Nat} {t : Machine} {instr' : Instruction}
    {r : Machine × Option Event × Next} (hc : code[ip]? = some instr)
    (hx : s.exec code self instr ip = some r) (hn : r.2.2 = .goto ip')
    (h : ComesTo code self n r.1 ip' t instr') : ComesTo code self (n + 1) s ip t instr' := by
  obtain ⟨k, pr, i, hk, hrun, hst, hm, hi⟩ := h
  refine ⟨k + 1, pr.cons ip r.2.1, i, Nat.succ_lt_succ hk, ?_, hst, hm, hi⟩
  rw [Machine.runFor_goto hc hx hn, hrun]
  rfl

theorem Separated.runFor : ∀ (n : Nat) {s : Machine} {ip : Nat} {pr : Progress}, Separated live s →
    live self → (∀ t instr, ComesTo code self n s ip t instr → FunFits t.mem (t.procs self) instr) →
      s.runFor code self n ip = some pr →
        Separated live pr.machine ∧ ∀ q, live q → q ≠ self →
          (∀ n, (s.procs q).mailbox.alloc n = true) →
            OnlyReceives s pr.machine q (sentTo q pr.events) := by
  intro n
  induction n with
  | zero =>
    intro s ip pr h _ _ hrun
    cases hrun
    exact ⟨h, fun q _ _ hgrant => .of_same rfl (fun _ _ => rfl) hgrant⟩
  | succ n ih =>
    intro s ip pr h hself hfun hrun
    rcases Machine.runFor_succ_cases hrun with ⟨_, rfl⟩ |
      ⟨instr, r, ip', q', hc, hx, hn, hq', rfl⟩ | ⟨instr, r, _, _, _, hc, hx, _, rfl⟩
    · exact ⟨h, fun q _ _ hgrant => .of_same rfl (fun _ _ => rfl) hgrant⟩
    · have hhead := hfun s instr ⟨0, _, ip, Nat.succ_pos n, rfl, rfl, rfl, hc⟩
      obtain ⟨hsep, hrec⟩ := h.exec hself hhead hx
      obtain ⟨hsep', hrec'⟩ := ih hsep hself
        (fun t instr' ht => hfun t instr' (ht.step hc hx hn)) hq'
      refine ⟨hsep', fun q hq hne hgrant => ?_⟩
      have hfirst := hrec q hq hne hgrant
      have hall := hfirst.trans (hrec' q hq hne hfirst.granted)
      rwa [← sentTo_append] at hall
    · have hhead := hfun s instr ⟨0, _, ip, Nat.succ_pos n, rfl, rfl, rfl, hc⟩
      exact h.exec hself hhead hx

/-! ### What is sent -/

/-- What an instruction sends to `q`. -/
def Instruction.messageTo (instr : Instruction) (q : ProcId) (p : Process) : List Eterm :=
  match instr.message p with
  | some (target, msg) => if target = q then [msg] else []
  | none => []

/-- What the instruction after the first `k` sends to `q`. -/
def sentAt (code : List Instruction) (self q : ProcId) (s : Machine) (ip k : Nat) : List Eterm :=
  match s.runFor code self k ip with
  | some ⟨t, .running ip', _, _⟩ =>
    match code[ip']? with
    | some instr => instr.messageTo q (t.procs self)
    | none => []
  | _ => []

theorem messageTo_of_not_sent {e : Effect}
    (he : execInstr code instr s.mem (s.procs self) ip = some e)
    (hnot : ∀ target msg, e.event ≠ some (.sent target msg)) (q : ProcId) :
    instr.messageTo q (s.procs self) = [] := by
  unfold Instruction.messageTo
  cases hm : instr.message (s.procs self) with
  | none => rfl
  | some m => exact absurd ((execInstr_sent he m.1 m.2).mpr hm) (hnot m.1 m.2)

theorem sentTo_event {e : Effect} (he : execInstr code instr s.mem (s.procs self) ip = some e)
    (q : ProcId) : sentTo q e.event.toList = instr.messageTo q (s.procs self) := by
  cases hev : e.event with
  | none => rw [messageTo_of_not_sent he (by simp [hev])]; rfl
  | some event =>
    cases event with
    | sent target msg =>
      unfold Instruction.messageTo
      rw [sentTo_sent, (execInstr_sent he target msg).mp hev]
    | examined msg => rw [messageTo_of_not_sent he (by simp [hev])]; rfl

theorem sentAt_zero (hc : code[ip]? = some instr) :
    sentAt code self q s ip 0 = instr.messageTo q (s.procs self) := by
  simp only [sentAt, Machine.runFor, hc]

theorem sentAt_succ {ip' : Nat} {r : Machine × Option Event × Next} (hc : code[ip]? = some instr)
    (hx : s.exec code self instr ip = some r) (hn : r.2.2 = .goto ip') (k : Nat) :
    sentAt code self q s ip (k + 1) = sentAt code self q r.1 ip' k := by
  unfold sentAt
  rw [Machine.runFor_goto hc hx hn]
  cases r.1.runFor code self k ip' with
  | none => rfl
  | some pr =>
    obtain ⟨t, status, _, _⟩ := pr
    cases status <;> rfl

/-- **The messages among the events of a run** are those of the `SEND` instructions it has executed,
in their order. -/
theorem sentTo_events : ∀ (n : Nat) {s : Machine} {ip : Nat} {pr : Progress},
    s.runFor code self n ip = some pr →
      sentTo q pr.events = (List.range pr.trace.length).flatMap (sentAt code self q s ip) := by
  intro n
  induction n with
  | zero => intro s ip pr hrun; cases hrun; rfl
  | succ n ih =>
    intro s ip pr hrun
    rcases Machine.runFor_succ_cases hrun with ⟨_, rfl⟩ |
      ⟨instr, r, ip', pr', hc, hx, hn, hrun', rfl⟩ | ⟨instr, r, _, _, _, hc, hx, _, rfl⟩
    · rfl
    · obtain ⟨e, he, h2⟩ := Option.bind_eq_some_iff.mp hx
      obtain ⟨s', _, rfl⟩ := Option.map_eq_some_iff.mp h2
      rw [Progress.cons, sentTo_append, sentTo_event he, ih hrun', List.length_cons,
        List.range_succ_eq_map, List.flatMap_cons, sentAt_zero hc, List.flatMap_map]
      simp only [sentAt_succ hc hx hn]
    · obtain ⟨e, he, h2⟩ := Option.bind_eq_some_iff.mp hx
      obtain ⟨s', _, rfl⟩ := Option.map_eq_some_iff.mp h2
      rw [sentTo_event he, List.length_singleton, List.range_one, List.flatMap_cons, sentAt_zero hc,
        List.flatMap_nil, List.append_nil]

/-! ### Every call -/

/-- What the first `n` instructions of a call send to `q`. -/
def World.sendsTo (w : World) (code : List Instruction) (self q : ProcId) (n : Nat) : List Eterm :=
  (List.range n).flatMap
    (sentAt code self q (w.toMachine.start code self) (w.procs self).frame.ip)

theorem initCp_sameBut (code : List Instruction) (p : Process) : p.SameBut (p.initCp code) := by
  unfold Process.initCp
  split <;> rfl

theorem slice_machine (code : List Instruction) (self : ProcId) (sched : ProcId → SchedInfo)
    (pr : Progress) :
    ∃ p', (pr.slice code self sched).world.toMachine
        = ⟨pr.machine.mem, Function.update pr.machine.procs self p'⟩ ∧
      (pr.machine.procs self).SameBut p' := by
  have hsame : pr.machine = ⟨pr.machine.mem, Function.update pr.machine.procs self
      (pr.machine.procs self)⟩ := by rw [Function.update_eq_self]
  cases hst : pr.status with
  | running ip =>
    by_cases hlt : ip < code.length
    · exact ⟨_, (slice_cut self sched hst hlt).2.2.trans hsame, rfl⟩
    · refine ⟨(pr.machine.procs self).setIp ip, ?_, rfl⟩
      simp [Progress.slice, hst, hlt, World.consumeReductions]
  | returned res state out => exact ⟨_, (slice_returned code self sched hst).2.2.trans hsame, rfl⟩

/-- The closures of the code are small, and where the call makes one the heap grows as it should. -/
structure CallFits (code : List Instruction) (own : ProcId) (w : World) : Prop where
  closures : ∀ instr ∈ code, instr.opcode = .makeFun2 → instr.arg2.toNat < 2 ^ 26
  granted : ∀ s ip instr, Attempts code own w s ip instr → instr.opcode = .makeFun2 →
    GrantsInFull s.mem (s.procs own) ((instr.arg2 + 2#32).setWidth 64)

theorem Separated.call {w : World} {sl : Slice} (h : Separated live w.toMachine) (hself : live self)
    (hfits : CallFits code self w) (hcall : beamEmuExecuteCode code self w = some sl) :
    Separated live sl.world.toMachine ∧ ∀ q, live q → q ≠ self →
      (∀ n, (w.procs q).mailbox.alloc n = true) → OnlyReceives w.toMachine sl.world.toMachine q
        (w.sendsTo code self q sl.trace.length) := by
  by_cases hcode : code = []
  · rw [beamEmuExecuteCode, if_pos hcode] at hcall
    cases hcall
    exact ⟨h, fun q _ _ hgrant => .of_same rfl (fun _ _ => rfl) hgrant⟩
  obtain ⟨s, sched⟩ := w
  rw [beamEmuExecuteCode_eq hcode] at hcall
  obtain ⟨pr, hrun, rfl⟩ := Option.map_eq_some_iff.mp hcall
  have hstart : Separated live (s.start code self) :=
    h.confined hself ((h.ok self hself).sameBut (initCp_sameBut code _))
  have hfun : ∀ t instr, ComesTo code self ((sched self).reductions - 1).toNat (s.start code self)
      (s.procs self).frame.ip t instr → FunFits t.mem (t.procs self) instr := by
    rintro t instr ⟨k, pr', ip', hk, hrun', hst, hm, hi⟩ hop
    exact ⟨hfits.closures instr (List.mem_of_getElem? hi) hop,
      hfits.granted t ip' instr ⟨k, pr', hk, hrun', hst, hm, hi⟩ hop⟩
  obtain ⟨hsep, hrec⟩ := hstart.runFor _ hself hfun hrun
  obtain ⟨p', hmachine, hsame⟩ := slice_machine code self sched pr
  rw [hmachine, slice_trace]
  refine ⟨hsep.confined hself ((hsep.ok self hself).sameBut hsame), fun q hq hne hgrant => ?_⟩
  have hfirst : (s.start code self).procs q = s.procs q := Function.update_of_ne hne _ _
  have hstarted : OnlyReceives s (s.start code self) q [] :=
    .of_same hfirst (fun _ _ => rfl) hgrant
  have hran := hrec q hq hne hstarted.granted
  rw [sentTo_events _ hrun] at hran
  have hlast : OnlyReceives pr.machine ⟨pr.machine.mem, Function.update pr.machine.procs self p'⟩ q
      [] := .of_same (Function.update_of_ne hne _ _) (fun _ _ => rfl) hran.granted
  have hall := (hstarted.trans hran).trans hlast
  rwa [List.nil_append, List.append_nil] at hall

/-- **A call leaves the other processes alone**, but for the messages it sends them. -/
theorem beamEmuExecuteCode_leavesAlone {w : World} {sl : Slice}
    (hsep : Separated live w.toMachine) (hself : live self) (hq : live q) (hne : q ≠ self)
    (hfits : CallFits code self w) (hgrant : ∀ n, (w.procs q).mailbox.alloc n = true)
    (hcall : beamEmuExecuteCode code self w = some sl) :
    OnlyReceives w.toMachine sl.world.toMachine q (w.sendsTo code self q sl.trace.length) ∧
      sl.world.sched q = w.sched q :=
  ⟨(hsep.call hself hfits hcall).2 q hq hne hgrant, beamEmuExecuteCode_other hcall hne⟩

/-- A call of a process with its code. -/
def World.callStep (w : World) (call : List Instruction × ProcId) : Option World :=
  (beamEmuExecuteCode call.1 call.2 w).map Slice.world

/-- **The processes stay apart** through any calls of any of them. -/
theorem separated_of_calls {w w' : World} {calls : List (List Instruction × ProcId)}
    (h : Separated live w.toMachine)
    (hok : Along World.callStep (fun w call => live call.2 ∧ CallFits call.1 call.2 w) w calls)
    (hrun : run World.callStep w calls = some w') : Separated live w'.toMachine := by
  refine run_induct (fun w : World => Separated live w.toMachine) (fun w call w' hi hc hs => ?_) h
    hok hrun
  obtain ⟨sl, hsl, rfl⟩ := Option.map_eq_some_iff.mp hs
  exact (hi.call hc.1 hc.2 hsl).1

theorem Separated.create (h : Separated live s) {m : Memory} {pid : BitVec 32} {words : Word}
    {alloc : Nat → Reply} {mailboxAlloc : Nat → Bool} {p : Process}
    (hnew : beamProcessCreate s.mem pid words alloc mailboxAlloc = some (m, p))
    (hsize : (initialCapacity words).toNat < 2 ^ 61) :
    Separated (fun i => live i ∨ i = q) ⟨m, Function.update s.procs q p⟩ := by
  have hok : ProcOk m p := procOk_create hnew hsize
  obtain ⟨hm, hcap, _, _⟩ := beamProcessCreate_eq_some hnew
  obtain ⟨pl, _, _, hfree, rfl⟩ := Memory.malloc_eq_some hm
  rw [wordBytes_div hsize, ← hcap] at hfree hok ⊢
  refine h.update (fun i hi hne => hi.resolve_right hne) hok fun i hi _ => ?_
  obtain ⟨_, hheap, hapart⟩ := (OwnWrites.of_free hfree).other (h.ok i hi).heap
    (.of_free hfree (h.ok i hi).heap)
  exact ⟨(h.ok i hi).of_heap hheap, hapart⟩

end Separated

/-- Two new processes with four words each. -/
def neighbours : World where
  mem := freshMemory.map 8192 4 fun _ => 0#64
  procs := Function.update (Function.update (fun _ => freshProcess) 0 freshProcess) 1
    { freshProcess with
      pid := 2#32
      heap := 8192
      alloc := fun n => some (zeroed (4096 * (n + 4))) }
  sched _ := { SchedInfo.create with reductions := 5 }

/-- A closure that makes the heap grow, and goes to the other process. -/
def sendClosure : List Instruction :=
  [{ opcode := .makeFun2, arg1 := 7, arg2 := 3 }, { opcode := .send, targetProc := some 1 },
    { opcode := .halt }]

theorem separated_neighbours :
    Separated (fun i => (False ∨ i = 0) ∨ i = 1) neighbours.toMachine := by
  have hnone : Separated (fun _ => False) ⟨Memory.empty, fun _ => freshProcess⟩ :=
    ⟨fun _ h => h.elim, fun _ _ h => h.elim⟩
  have hfirst := hnone.create (q := 0) (show beamProcessCreate Memory.empty 1#32 4#64
    (fun n => some (zeroed (4096 * n))) (fun _ => true) = some (freshMemory, freshProcess)
      from rfl) (by decide)
  exact hfirst.create (q := 1) (show beamProcessCreate freshMemory 2#32 4#64
    (fun n => some (zeroed (4096 * (n + 1)))) (fun _ => true) = some (_, _) from rfl)
      (by decide)

theorem beamEmuExecuteCode_leavesAlone_neighbours : ∃ sl,
    beamEmuExecuteCode sendClosure 0 neighbours = some sl ∧
      OnlyReceives neighbours.toMachine sl.world.toMachine 1 [tagAddr 12288 tagPrimaryBoxed] ∧
      sl.world.sched 1 = neighbours.sched 1 := by
  obtain ⟨sl, hsl, hev⟩ := Option.map_eq_some_iff.mp
    (show (beamEmuExecuteCode sendClosure 0 neighbours).map
      (fun sl => neighbours.sendsTo sendClosure 0 1 sl.trace.length)
        = some [tagAddr 12288 tagPrimaryBoxed] by decide +kernel)
  have hfits : CallFits sendClosure 0 neighbours := by
    refine ⟨by decide, ?_⟩
    rintro s ip instr ⟨k, pr, hk, hrun, hst, rfl, hi⟩ hop
    have hip : ip = 0 := by
      match ip, hi with
      | 0, _ => rfl
      | 1, hi => cases hi; cases hop
      | 2, hi => cases hi; cases hop
    subst hip
    cases k with
    | zero =>
      cases hrun
      cases hi
      exact grantsInFull_of_lt (by decide) (by decide)
    | succ k =>
      have hpast : ∀ k < 3, ((neighbours.toMachine.start sendClosure 0).runFor sendClosure 0 (k + 1)
          (neighbours.procs 0).frame.ip).map (fun pr => decide (pr.status = .running 0))
            = some false := by decide +kernel
      have hstatus := hpast k (Nat.lt_of_succ_lt_succ hk)
      rw [hrun, Option.map_some, hst] at hstatus
      cases hstatus
  have h := beamEmuExecuteCode_leavesAlone separated_neighbours (Or.inl (Or.inr rfl))
    (Or.inr rfl) (by decide) hfits (fun _ => rfl) hsl
  rw [hev] at h
  exact ⟨sl, hsl, h⟩

end BeamModular
