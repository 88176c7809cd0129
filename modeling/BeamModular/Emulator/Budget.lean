import BeamModular.Emulator.Emu

/-!
# A call of the interpreter as a number of instructions

`beam_emu_execute_code` takes one reduction before each instruction and gives up
when there is none left, so a call with `r` reductions executes at most `r - 1`
instructions.  `Machine.runFor` executes a number of instructions and knows nothing
of reductions; `beamEmuLoop_eq` says that the loop is `runFor` with `r - 1`
instructions and what it does at the end of them.  Results about cut and uncut runs
are then results about `runFor`, which composes (`runFor_add`).
-/

namespace BeamModular

/-- Where a run stands: before an instruction, or back at the caller. -/
inductive Status
  | running (ip : Nat)
  | returned (res : Result) (state : Option ProcState) (out : Option Eterm)
  deriving DecidableEq, Repr

/-- How far a run has come. -/
structure Progress where
  machine : Machine
  status : Status
  trace : List Nat
  events : List Event

/-- The instruction at `ip` comes before the rest of the run. -/
def Progress.cons (ip : Nat) (event : Option Event) (pr : Progress) : Progress :=
  { pr with trace := ip :: pr.trace, events := event.toList ++ pr.events }

/-- What came before goes in front. -/
def Progress.after (first pr : Progress) : Progress :=
  { pr with trace := first.trace ++ pr.trace, events := first.events ++ pr.events }

namespace Machine

/-- Execute up to `n` instructions from `ip` on. -/
def runFor (code : List Instruction) (self : ProcId) : Nat → Machine → Nat → Option Progress
  | 0, s, ip => some ⟨s, .running ip, [], []⟩
  | n + 1, s, ip =>
    match code[ip]? with
    | none => some ⟨s, .running ip, [], []⟩
    | some instr =>
      (s.exec code self instr ip).bind fun r =>
        match r.2.2 with
        | .goto ip' => (runFor code self n r.1 ip').map (Progress.cons ip r.2.1)
        | .ret res state out => some ⟨r.1, .returned res state out, [ip], r.2.1.toList⟩

/-- Go on from where a run stands. -/
def resume (code : List Instruction) (self : ProcId) (n : Nat) (pr : Progress) : Option Progress :=
  match pr.status with
  | .running ip => (pr.machine.runFor code self n ip).map pr.after
  | .returned _ _ _ => some pr

variable {code : List Instruction} {self : ProcId}

theorem resume_cons {n : Nat} {ip : Nat} {event : Option Event} {pr : Progress} :
    resume code self n (pr.cons ip event) =
      (resume code self n pr).map (Progress.cons ip event) := by
  unfold resume
  cases hs : pr.status with
  | running ip' =>
    simp only [Progress.cons, hs, Option.map_map]
    congr 1
    funext q
    simp [Progress.after, Progress.cons, Function.comp]
  | returned res st out =>
    simp [Progress.cons, hs]

/-- **A run of `a + b` instructions** is a run of `a` and then one of `b`. -/
theorem runFor_add (a b : Nat) (s : Machine) (ip : Nat) :
    s.runFor code self (a + b) ip = (s.runFor code self a ip).bind (resume code self b) := by
  induction a generalizing s ip with
  | zero =>
    rw [Nat.zero_add, runFor, Option.bind_some, resume]
    dsimp only
    cases s.runFor code self b ip with
    | none => rfl
    | some pr => simp [Progress.after]
  | succ a ih =>
    rw [Nat.succ_add, runFor, runFor]
    cases hi : code[ip]? with
    | none =>
      rw [Option.bind_some, resume]
      cases b with
      | zero => simp [runFor, Progress.after]
      | succ b => simp [runFor, hi, Progress.after]
    | some instr =>
      dsimp only
      rw [Option.bind_assoc]
      congr 1
      funext r
      cases r.2.2 with
      | goto ip' =>
        dsimp only
        rw [ih, Option.map_bind, Option.bind_map]
        congr 1
        funext pr
        exact resume_cons.symm
      | ret res st out => rfl

theorem runFor_goto {n : Nat} {s : Machine} {ip ip' : Nat} {instr : Instruction}
    {r : Machine × Option Event × Next} (hc : code[ip]? = some instr)
    (hx : s.exec code self instr ip = some r) (hn : r.2.2 = .goto ip') :
    s.runFor code self (n + 1) ip = (r.1.runFor code self n ip').map (Progress.cons ip r.2.1) := by
  rw [runFor, hc]
  dsimp only
  rw [hx, Option.bind_some, hn]

theorem runFor_ret {n : Nat} {s : Machine} {ip : Nat} {instr : Instruction}
    {r : Machine × Option Event × Next} {res : Result} {state : Option ProcState}
    {out : Option Eterm} (hc : code[ip]? = some instr)
    (hx : s.exec code self instr ip = some r) (hn : r.2.2 = .ret res state out) :
    s.runFor code self (n + 1) ip
      = some ⟨r.1, .returned res state out, [ip], r.2.1.toList⟩ := by
  rw [runFor, hc]
  dsimp only
  rw [hx, Option.bind_some, hn]

/-- **The three ways a run can go on**: there is no instruction, an instruction and then the
rest, or an instruction that returns. -/
theorem runFor_succ_cases {n : Nat} {s : Machine} {ip : Nat} {pr : Progress}
    (h : s.runFor code self (n + 1) ip = some pr) :
    (code[ip]? = none ∧ pr = ⟨s, .running ip, [], []⟩) ∨
    (∃ instr r ip' q, code[ip]? = some instr ∧ s.exec code self instr ip = some r ∧
      r.2.2 = .goto ip' ∧ r.1.runFor code self n ip' = some q ∧ pr = q.cons ip r.2.1) ∨
    (∃ instr r res state out, code[ip]? = some instr ∧ s.exec code self instr ip = some r ∧
      r.2.2 = .ret res state out ∧
      pr = ⟨r.1, .returned res state out, [ip], r.2.1.toList⟩) := by
  rw [runFor] at h
  cases hi : code[ip]? with
  | none =>
    rw [hi] at h
    exact Or.inl ⟨rfl, (Option.some.inj h).symm⟩
  | some instr =>
    rw [hi] at h
    obtain ⟨r, hx, hr⟩ := Option.bind_eq_some_iff.mp h
    cases hn : r.2.2 with
    | goto ip' =>
      rw [hn] at hr
      obtain ⟨q, hq, rfl⟩ := Option.map_eq_some_iff.mp hr
      exact Or.inr (Or.inl ⟨instr, r, ip', q, rfl, hx, hn, hq, rfl⟩)
    | ret res state out =>
      rw [hn] at hr
      exact Or.inr (Or.inr ⟨instr, r, res, state, out, rfl, hx, hn, (Option.some.inj hr).symm⟩)

/-- A run that is still before an instruction has used all it was given. -/
theorem length_trace_of_running {n : Nat} : ∀ {s : Machine} {ip ip' : Nat} {pr : Progress},
    s.runFor code self n ip = some pr → pr.status = .running ip' → ip' < code.length →
      pr.trace.length = n := by
  induction n with
  | zero => intro s ip ip' pr h _ _; cases h; rfl
  | succ n ih =>
    intro s ip ip' pr h hst hlt
    rcases runFor_succ_cases h with ⟨hi, rfl⟩ | ⟨_, _, _, q, _, _, _, hq, rfl⟩ |
      ⟨_, _, _, _, _, _, _, _, rfl⟩
    · cases hst
      rw [List.getElem?_eq_none_iff] at hi
      omega
    · simp only [Progress.cons, List.length_cons]
      rw [ih hq hst hlt]
    · cases hst

theorem saved_ip_of_running {n : Nat} : ∀ {s : Machine} {ip ip' : Nat} {pr : Progress},
    s.runFor code self n ip = some pr → pr.status = .running ip' →
      (pr.machine.procs self).frame.ip = (s.procs self).frame.ip := by
  induction n with
  | zero => intro s ip ip' pr h _; cases h; rfl
  | succ n ih =>
    intro s ip ip' pr h hst
    rcases runFor_succ_cases h with ⟨_, rfl⟩ | ⟨_, _, _, q, _, hx, hn, hq, rfl⟩ |
      ⟨_, _, _, _, _, _, _, _, rfl⟩
    · rfl
    · exact (ih hq hst).trans (exec_goto_ip hx hn)
    · cases hst

theorem head_trace {n : Nat} {s : Machine} {ip i : Nat} {pr : Progress}
    (h : s.runFor code self n ip = some pr) (hi : pr.trace[0]? = some i) : i = ip := by
  cases n with
  | zero => cases h; simp at hi
  | succ n =>
    rcases runFor_succ_cases h with ⟨_, rfl⟩ | ⟨_, _, _, q, _, _, _, _, rfl⟩ |
      ⟨_, _, _, _, _, _, _, _, rfl⟩
    · simp at hi
    · simpa [Progress.cons] using hi.symm
    · simpa using hi.symm

/-- A run that has returned has suspended or ended its process, or reports an error. -/
theorem returned_cases {n : Nat} : ∀ {s : Machine} {ip : Nat} {pr : Progress} {res : Result}
    {state : Option ProcState} {out : Option Eterm}, s.runFor code self n ip = some pr →
      pr.status = .returned res state out →
      (state = none ∧ res.Fails) ∨ state = some .exited ∨ (state = some .waiting ∧ res = .ok) := by
  induction n with
  | zero => intro s ip pr res state out h hst; cases h; cases hst
  | succ n ih =>
    intro s ip pr res state out h hst
    rcases runFor_succ_cases h with ⟨_, rfl⟩ | ⟨_, _, _, q, _, _, _, hq, rfl⟩ |
      ⟨_, _, _, _, _, _, hx, hn, rfl⟩
    · cases hst
    · exact ih hq hst
    · cases hst
      exact exec_ret_cases hx hn

theorem length_trace_le {n : Nat} : ∀ {s : Machine} {ip : Nat} {pr : Progress},
    s.runFor code self n ip = some pr → pr.trace.length ≤ n := by
  induction n with
  | zero => intro s ip pr h; cases h; exact Nat.le_refl 0
  | succ n ih =>
    intro s ip pr h
    rcases runFor_succ_cases h with ⟨_, rfl⟩ | ⟨_, _, _, q, _, _, _, hq, rfl⟩ |
      ⟨_, _, _, _, _, _, _, _, rfl⟩
    · exact Nat.zero_le _
    · exact Nat.succ_le_succ (ih hq)
    · simp

end Machine

/-! ### The loop -/

/-- What the interpreter's caller sees of a run: the end of the code, a cut, or a return. -/
def Progress.slice (code : List Instruction) (self : ProcId) (sched : ProcId → SchedInfo)
    (pr : Progress) : Slice :=
  let w : World := ⟨pr.machine, sched⟩
  let w := w.consumeReductions self pr.trace.length
  match pr.status with
  | .running ip =>
    if ip < code.length then
      ⟨(w.consumeReductions self 1).setState self .runnable, .ok, none, pr.trace, pr.events,
        pr.trace.length + 1⟩
    else
      let p := w.procs self
      ⟨{ w with procs := Function.update w.procs self (p.setIp ip) }, .ok, some (p.x 0),
        pr.trace, pr.events, pr.trace.length⟩
  | .returned res state out =>
    ⟨w.returnIn self state, res, out, pr.trace, pr.events, pr.trace.length⟩

namespace World

variable (s : Machine) (sched : ProcId → SchedInfo) (self : ProcId)

/-- The scheduler's part of `self` with fewer reductions. -/
def spend (count : Int) : ProcId → SchedInfo :=
  Function.update sched self { sched self with reductions := (sched self).reductions - count }

theorem consumeReductions_mk (count : Int) :
    consumeReductions ⟨s, sched⟩ self count = ⟨s, spend sched self count⟩ := rfl

theorem spend_zero : spend sched self 0 = sched := by
  rw [spend, Int.sub_zero]
  exact Function.update_eq_self self sched

theorem spend_spend (a b : Int) : spend (spend sched self a) self b = spend sched self (a + b) := by
  simp only [spend, Function.update_self, Function.update_idem, Int.sub_sub]

end World

variable {code : List Instruction} {self : ProcId}

theorem slice_cons (sched : ProcId → SchedInfo) (ip : Nat) (event : Option Event) (pr : Progress) :
    (pr.cons ip event).slice code self sched
      = (pr.slice code self (World.spend sched self 1)).cons ip event := by
  have hone : ((pr.trace.length + 1 : Nat) : Int) = 1 + pr.trace.length := by push_cast; omega
  unfold Progress.slice
  cases hs : pr.status with
  | running ip' =>
    simp only [Progress.cons, hs, List.length_cons, World.consumeReductions_mk, hone,
      World.spend_spend, Slice.cons]
    split <;> rfl
  | returned res st out =>
    simp only [Progress.cons, hs, List.length_cons, World.consumeReductions_mk, hone,
      World.spend_spend, Slice.cons]

/-- **The loop executes one instruction fewer than it has reductions.** -/
theorem beamEmuLoop_eq : ∀ (fuel : Nat) (s : Machine) (sched : ProcId → SchedInfo) (ip : Nat),
    (sched self).reductions.toNat < fuel →
      beamEmuLoop code self fuel ⟨s, sched⟩ ip
        = (s.runFor code self ((sched self).reductions - 1).toNat ip).map
            (Progress.slice code self sched) := by
  intro fuel
  induction fuel with
  | zero => intro s sched ip h; omega
  | succ fuel ih =>
    intro s sched ip h
    have hred : World.reductions ⟨s, World.spend sched self 1⟩ self
        = (sched self).reductions - 1 := by
      simp [World.reductions, World.spend]
    rw [beamEmuLoop]
    cases hi : code[ip]? with
    | none =>
      have hrun : s.runFor code self ((sched self).reductions - 1).toNat ip
          = some ⟨s, .running ip, [], []⟩ := by
        cases ((sched self).reductions - 1).toNat with
        | zero => rfl
        | succ n => rw [Machine.runFor, hi]
      have hge : ¬ ip < code.length := by
        rw [List.getElem?_eq_none_iff] at hi
        omega
      rw [hrun]
      simp [Progress.slice, hge, World.consumeReductions_mk, World.spend_zero]
    | some instr =>
      have hlt : ip < code.length := (List.getElem?_eq_some_iff.mp hi).1
      simp only [World.consumeReductions_mk, hred]
      split
      · -- no reduction left: a cut before the instruction
        rename_i hle
        rw [Int.toNat_of_nonpos hle, Machine.runFor]
        simp [Progress.slice, hlt, World.consumeReductions_mk, World.spend_zero]
      · rename_i hpos
        obtain ⟨n, hn⟩ : ∃ n, ((sched self).reductions - 1).toNat = n + 1 :=
          ⟨((sched self).reductions - 1).toNat - 1, by omega⟩
        rw [hn, Machine.runFor, hi]
        dsimp only
        cases s.exec code self instr ip with
        | none => rfl
        | some r =>
          simp only [Option.bind_some]
          cases r.2.2 with
          | goto ip' =>
            have hnext : (World.spend sched self 1 self).reductions
                = (sched self).reductions - 1 := hred
            dsimp only
            rw [ih r.1 (World.spend sched self 1) ip' (by rw [hnext]; omega), hnext,
              show ((sched self).reductions - 1 - 1).toNat = n by omega, Option.map_map,
              Option.map_map]
            congr 1
            funext pr
            exact (slice_cons sched ip r.2.1 pr).symm
          | ret res st out =>
            simp [Progress.slice, World.consumeReductions_mk]

/-! ### What a call leaves -/

theorem slice_trace (code : List Instruction) (self : ProcId) (sched : ProcId → SchedInfo)
    (pr : Progress) :
    (pr.slice code self sched).trace = pr.trace := by
  unfold Progress.slice
  cases pr.status with
  | running ip => dsimp only; split <;> rfl
  | returned res st out => rfl

theorem slice_events (code : List Instruction) (self : ProcId) (sched : ProcId → SchedInfo)
    (pr : Progress) :
    (pr.slice code self sched).events = pr.events := by
  unfold Progress.slice
  cases pr.status with
  | running ip => dsimp only; split <;> rfl
  | returned res st out => rfl

theorem slice_cut (self : ProcId) (sched : ProcId → SchedInfo) {pr : Progress} {ip : Nat}
    (hst : pr.status = .running ip) (hlt : ip < code.length) :
    (pr.slice code self sched).res = .ok ∧
      ((pr.slice code self sched).world.sched self).state = .runnable ∧
      (pr.slice code self sched).world.toMachine = pr.machine := by
  simp [Progress.slice, hst, hlt, World.setState, World.consumeReductions]

theorem slice_end (self : ProcId) (sched : ProcId → SchedInfo) {pr : Progress} {ip : Nat}
    (hst : pr.status = .running ip) (hge : ¬ ip < code.length) :
    (pr.slice code self sched).res = .ok ∧
      ((pr.slice code self sched).world.sched self).state = (sched self).state ∧
      ((pr.slice code self sched).world.procs self).frame.ip = ip := by
  simp [Progress.slice, hst, hge, World.consumeReductions, Process.setIp]

theorem slice_returned (code : List Instruction) (self : ProcId) (sched : ProcId → SchedInfo)
    {pr : Progress} {res : Result} {state : Option ProcState} {out : Option Eterm}
    (hst : pr.status = .returned res state out) :
    (pr.slice code self sched).res = res ∧
      ((pr.slice code self sched).world.sched self).state = state.getD (sched self).state ∧
      (pr.slice code self sched).world.toMachine = pr.machine := by
  cases state <;>
    simp [Progress.slice, hst, World.returnIn, World.setState, World.consumeReductions]

/-- Only an instruction that returns makes a call end with another result than success. -/
theorem returned_of_res {self : ProcId} {sched : ProcId → SchedInfo} {pr : Progress} {res : Result}
    (hres : (pr.slice code self sched).res = res) (hne : res ≠ .ok) :
    ∃ state out, pr.status = .returned res state out := by
  cases hst : pr.status with
  | running ip =>
    by_cases hlt : ip < code.length
    · exact absurd (hres.symm.trans (slice_cut self sched hst hlt).1) hne
    · exact absurd (hres.symm.trans (slice_end self sched hst hlt).1) hne
  | returned res' state out =>
    obtain rfl : res' = res := (slice_returned code self sched hst).1.symm.trans hres
    exact ⟨state, out, rfl⟩

/-! ### The whole call -/

/-- The machine as a call of the interpreter finds it. -/
def Machine.start (code : List Instruction) (self : ProcId) (s : Machine) : Machine :=
  { s with procs := Function.update s.procs self ((s.procs self).initCp code) }

theorem initCp_ip (code : List Instruction) (p : Process) :
    (p.initCp code).frame.ip = p.frame.ip := by
  unfold Process.initCp
  split <;> rfl

theorem initCp_mailbox (code : List Instruction) (p : Process) :
    (p.initCp code).mailbox = p.mailbox := by
  unfold Process.initCp
  split <;> rfl

theorem initCp_xRegs (code : List Instruction) (p : Process) :
    (p.initCp code).frame.xRegs = p.frame.xRegs := by
  unfold Process.initCp
  split <;> rfl

theorem start_ip (code : List Instruction) (self : ProcId) (s : Machine) :
    ((s.start code self).procs self).frame.ip = (s.procs self).frame.ip := by
  simp only [Machine.start, Function.update_self, initCp_ip]

theorem start_eq_self {s : Machine} (h : (s.procs self).initCp code = s.procs self) :
    s.start code self = s := by
  rw [Machine.start, h, Function.update_eq_self]

/-- **A call of the interpreter** runs one instruction fewer than the process has reductions,
from the `ip` its frame has saved. -/
theorem beamEmuExecuteCode_eq (hcode : code ≠ []) (s : Machine) (sched : ProcId → SchedInfo) :
    beamEmuExecuteCode code self ⟨s, sched⟩
      = ((s.start code self).runFor code self ((sched self).reductions - 1).toNat
          (s.procs self).frame.ip).map (Progress.slice code self sched) := by
  rw [beamEmuExecuteCode, if_neg hcode]
  dsimp only
  rw [initCp_ip]
  exact beamEmuLoop_eq _ _ _ _ (Nat.lt_succ_self _)

/-- A world of new processes. -/
def freshWorld : World := ⟨freshMachine, fun _ => SchedInfo.create⟩

/-- A call with the world `w` comes to execute `instr` at `ip` with the machine `s`: so many
instructions lie before it, fewer than the reductions pay for. -/
def Attempts (code : List Instruction) (self : ProcId) (w : World) (s : Machine) (ip : Nat)
    (instr : Instruction) : Prop :=
  ∃ n pr, n < (w.reductions self - 1).toNat ∧
    (w.toMachine.start code self).runFor code self n (w.procs self).frame.ip = some pr ∧
      pr.status = .running ip ∧ pr.machine = s ∧ code[ip]? = some instr

/-- **What a run has executed it came to**, in the order of its trace. -/
theorem Machine.runFor_take {n : Nat} : ∀ {i : Nat} {s : Machine} {ip at' : Nat} {pr : Progress},
    s.runFor code self n ip = some pr → pr.trace[i]? = some at' →
      i < n ∧ ∃ pr' instr, s.runFor code self i ip = some pr' ∧ pr'.status = .running at' ∧
        code[at']? = some instr := by
  induction n with
  | zero => intro i s ip at' pr h hi; cases h; simp at hi
  | succ n ih =>
    intro i s ip at' pr h hi
    cases i with
    | zero =>
      obtain rfl := Machine.head_trace h hi
      rcases Machine.runFor_succ_cases h with ⟨_, rfl⟩ | ⟨instr, _, _, _, hc, _, _, _, _⟩ |
        ⟨instr, _, _, _, _, hc, _, _, _⟩
      · simp at hi
      · exact ⟨Nat.succ_pos n, _, instr, rfl, rfl, hc⟩
      · exact ⟨Nat.succ_pos n, _, instr, rfl, rfl, hc⟩
    | succ i =>
      rcases Machine.runFor_succ_cases h with ⟨_, rfl⟩ | ⟨instr, r, ip', q, hc, hx, hn, hq, rfl⟩ |
        ⟨_, _, _, _, _, _, _, _, rfl⟩
      · simp at hi
      · rw [Progress.cons, List.getElem?_cons_succ] at hi
        obtain ⟨hlt, pr', instr', hrun, hst, hc'⟩ := ih hq hi
        refine ⟨Nat.succ_lt_succ hlt, pr'.cons ip r.2.1, instr', ?_, hst, hc'⟩
        rw [Machine.runFor_goto hc hx hn, hrun]
        rfl
      · simp at hi

theorem attempts_of_mem_trace {w : World} {sl : Slice} {ip : Nat}
    (h : beamEmuExecuteCode code self w = some sl) (hip : ip ∈ sl.trace) :
    ∃ s instr, Attempts code self w s ip instr := by
  by_cases hcode : code = []
  · rw [beamEmuExecuteCode, if_pos hcode] at h
    cases h
    cases hip
  · obtain ⟨s, sched⟩ := w
    rw [beamEmuExecuteCode_eq hcode] at h
    obtain ⟨pr, hrun, rfl⟩ := Option.map_eq_some_iff.mp h
    rw [slice_trace] at hip
    obtain ⟨i, hi⟩ := List.getElem?_of_mem hip
    obtain ⟨hlt, pr', instr, hrun', hst, hc⟩ := Machine.runFor_take hrun hi
    exact ⟨_, instr, i, pr', hlt, hrun', hst, rfl, hc⟩

/-- A call only touches what the scheduler keeps of its own process. -/
theorem beamEmuExecuteCode_other {w : World} {sl : Slice} {q : ProcId}
    (h : beamEmuExecuteCode code self w = some sl) (hq : q ≠ self) :
    sl.world.sched q = w.sched q := by
  by_cases hcode : code = []
  · rw [beamEmuExecuteCode, if_pos hcode] at h
    cases h
    rfl
  · obtain ⟨s, sched⟩ := w
    rw [beamEmuExecuteCode_eq hcode] at h
    obtain ⟨pr, _, rfl⟩ := Option.map_eq_some_iff.mp h
    unfold Progress.slice
    cases pr.status with
    | running ip =>
      dsimp only
      split <;> simp [World.consumeReductions, World.setState, hq]
    | returned res state out =>
      cases state <;> simp [World.consumeReductions, World.returnIn, World.setState, hq]

/-- **A call that reports the end of its process leaves it exited.** -/
theorem beamEmuExecuteCode_halt {w : World} {sl : Slice}
    (h : beamEmuExecuteCode code self w = some sl) (hres : sl.res = .errHalt) :
    (sl.world.sched self).state = .exited := by
  by_cases hcode : code = []
  · rw [beamEmuExecuteCode, if_pos hcode] at h
    cases h
    cases hres
  · obtain ⟨s, sched⟩ := w
    rw [beamEmuExecuteCode_eq hcode] at h
    obtain ⟨pr, hrun, rfl⟩ := Option.map_eq_some_iff.mp h
    obtain ⟨state, out, hst⟩ := returned_of_res hres Result.noConfusion
    rcases Machine.returned_cases hrun hst with ⟨_, hf⟩ | rfl | ⟨_, hok⟩
    · exact absurd rfl hf.2
    · exact (slice_returned code self sched hst).2.1
    · cases hok

end BeamModular
