import BeamModular.Emulator.Exceptions

/-!
# The innermost handler

Beside the array of catch frames, the frame of a process has the label and the stack top of the
innermost one in fields of their own, `catch_ip` and `catch_sp`.  `TRY`, `CATCH` and `TRY_END`
keep them up to date; a `RAISE` that is caught pops a frame and leaves them.

`shortcut_step` is what one step does to the fields, over the list of frames of `Guarded`;
`mirrors_iff_along` says in which runs they always are those of the innermost frame.
-/

namespace BeamModular

/-- The fields for the innermost of some frames. -/
def shortcut : List CatchFrame → Nat × Word
  | [] => (0, 0#64)
  | cf :: _ => (cf.catchLabel, cf.catchStackTop)

/-- `catch_ip` and `catch_sp` are the label and the stack top of the innermost catch frame, and 0
when there is none. -/
def Frame.Mirrors (f : Frame) : Prop :=
  match f.catchDepth with
  | 0 => f.catchIp = 0 ∧ f.catchSp = 0#64
  | depth + 1 => ∃ cf, catchAt f depth = some cf ∧ f.catchIp = cf.catchLabel ∧
      f.catchSp = cf.catchStackTop

/-- If the step is a `RAISE` of the process, the innermost two of its frames have the same label and
stack top, or it has one frame, with label and stack top 0, or none. -/
def RaiseKeepsShortcut (code : ProcId → List Instruction) (self : ProcId) (s : Guarded) :
    EmuStep → Prop :=
  AtRaise code self fun _ _ => shortcut s.frames.tail = shortcut s.frames

instance (code : ProcId → List Instruction) (self : ProcId) (s : Guarded) (a : EmuStep) :
    Decidable (RaiseKeepsShortcut code self s a) :=
  inferInstanceAs (Decidable (AtRaise code self
    (fun _ _ => shortcut s.frames.tail = shortcut s.frames) a))

/-! ### One instruction -/

section Instr

variable {code : List Instruction} {instr : Instruction} {m : Memory} {p : Process} {ip : Nat}
  {frames : List CatchFrame} {e : Effect} {f : Frame}

/-- The fields are those of the innermost frame. -/
def Frame.Shows (f : Frame) (frames : List CatchFrame) : Prop :=
  (f.catchIp, f.catchSp) = shortcut frames

theorem shows_of_sameCatch {g : Frame} (h : f.SameCatch g) : g.Shows frames ↔ f.Shows frames := by
  unfold Frame.Shows
  rw [h.ip, h.sp]

theorem mirrors_iff_shows (h : FramesOn f frames) : f.Mirrors ↔ f.Shows frames := by
  have hd := h.depth
  unfold Frame.Mirrors Frame.Shows
  cases frames with
  | nil =>
    rw [List.length_nil] at hd
    rw [hd]
    exact Prod.mk_inj.symm
  | cons cf frames =>
    rw [List.length_cons] at hd
    rw [hd]
    dsimp only
    rw [h.innermost, shortcut, Prod.mk_inj]
    constructor
    · rintro ⟨cf', hcf, hip, hsp⟩
      cases hcf
      exact ⟨hip, hsp⟩
    · intro hfields
      exact ⟨cf, rfl, hfields⟩

theorem execTry_shows (h : FramesOn p.frame frames) (hs : p.frame.Shows frames)
    (hop : instr.opcode = .try ∨ instr.opcode = .catch) :
    (execTry instr m p ip).proc.frame.Shows (framesAfter instr p frames) := by
  rw [framesAfter_try hop, ← h.depth, execTry]
  by_cases hlt : p.frame.catchDepth < maxCatchDepth
  · rw [dif_pos hlt, if_pos hlt]
    rfl
  · rw [dif_neg hlt, if_neg hlt]
    exact hs

theorem execTryEnd_shows (h : FramesOn p.frame frames) (hs : p.frame.Shows frames)
    (he : execTryEnd m p ip = some e) : e.proc.frame.Shows frames.tail := by
  cases frames with
  | nil =>
    rw [execTryEnd_nil h] at he
    cases he
    exact hs
  | cons cf frames =>
    have hd : p.frame.catchDepth = frames.length + 1 := h.depth
    unfold execTryEnd at he
    cases frames with
    | nil =>
      rw [hd] at he
      cases he
      rfl
    | cons prev frames =>
      -- the frame below the innermost one is the innermost one of the shorter array
      have hpop : FramesOn { p.frame with catchDepth := frames.length + 1 } (prev :: frames) :=
        h.pop rfl rfl
      have hprev : catchAt p.frame frames.length = some prev := hpop.innermost
      rw [hd] at he
      dsimp only [List.length_cons] at he
      rw [hprev] at he
      cases he
      rfl

theorem execRaise_fields (h : FramesOn p.frame frames)
    (he : execRaise code instr m p ip = some e) :
    e.proc.frame.catchIp = p.frame.catchIp ∧ e.proc.frame.catchSp = p.frame.catchSp := by
  cases frames with
  | nil =>
    rw [execRaise_nil h] at he
    cases he
    exact ⟨rfl, rfl⟩
  | cons cf frames =>
    rw [execRaise_cons h] at he
    cases he
    exact ⟨rfl, rfl⟩

/-- **One instruction** keeps the fields up to date exactly when it is not a `RAISE`, or a `RAISE`
after which they are the same. -/
theorem shows_execInstr_iff (h : FramesOn p.frame frames) (hs : p.frame.Shows frames)
    (he : execInstr code instr m p ip = some e) :
    e.proc.frame.Shows (framesAfter instr p frames) ↔
      (instr.opcode = .raise → shortcut frames.tail = shortcut frames) := by
  obtain ⟨hc, hsame⟩ | ⟨hop, rfl⟩ | ⟨hop, ht⟩ | ⟨hop, hr⟩ := execInstr_catch_cases he
  · rw [framesAfter_of_not_catches hc]
    refine iff_of_true ((shows_of_sameCatch hsame).mpr hs) fun hop => ?_
    rw [hop] at hc
    cases hc
  · refine iff_of_true (execTry_shows h hs hop) fun hraise => ?_
    rw [hraise] at hop
    rcases hop with hop | hop <;> cases hop
  · refine iff_of_true ?_ fun hraise => ?_
    · rw [framesAfter, hop]
      exact execTryEnd_shows h hs ht
    · rw [hraise] at hop
      cases hop
  · obtain ⟨hip, hsp⟩ := execRaise_fields h hr
    rw [framesAfter, hop]
    unfold Frame.Shows at hs ⊢
    dsimp only
    rw [hip, hsp, hs]
    exact ⟨fun heq _ => heq.symm, fun heq => (heq rfl).symm⟩

end Instr

/-! ### Every run -/

section Runs

variable {code : ProcId → List Instruction} {self : ProcId} {s s' : Guarded} {a : EmuStep}

/-- The fields of the process are those of the innermost frame. -/
def Guarded.Current (self : ProcId) (s : Guarded) : Prop :=
  s.Ok self ∧ (s.mach.procs self).frame.Shows s.frames

theorem shortcut_step (h : s.Current self) (hs : s.step code self a = some s') :
    (s'.mach.procs self).frame.Shows s'.frames ↔ RaiseKeepsShortcut code self s a := by
  obtain ⟨hother, hframes, hsame⟩ | ⟨ip, instr, e, rfl, hi, he, hframe, hframes⟩ :=
    step_catch_cases hs
  · rw [hframes]
    exact iff_of_true ((shows_of_sameCatch hsame).mpr h.2) (atRaise_of_ne hother)
  · rw [hframe, hframes, shows_execInstr_iff h.1 h.2 he]
    exact (atRaise_exec_iff (P := fun _ _ => shortcut s.frames.tail = shortcut s.frames) hi).symm

theorem raise_step_some {instr : Instruction} {ip : Nat} (h : s.Ok self)
    (hi : (code self)[ip]? = some instr) (hop : instr.opcode = .raise) :
    ∃ s', s.step code self (.exec self ip) = some s' := by
  obtain ⟨e, he, hevent⟩ : ∃ e, execInstr (code self) instr s.mach.mem (s.mach.procs self) ip
      = some e ∧ e.event = none := by
    have hok : FramesOn (s.mach.procs self).frame s.frames := h
    rw [execInstr_raise _ _ _ _ hop]
    cases hf : s.frames with
    | nil =>
      rw [hf] at hok
      exact ⟨_, execRaise_nil hok, rfl⟩
    | cons cf frames =>
      rw [hf] at hok
      exact ⟨_, execRaise_cons hok, rfl⟩
  rw [Guarded.step, hi, Option.bind_some, Machine.exec, he, Option.bind_some, hevent]
  exact ⟨_, rfl⟩

theorem current_create {m₀ m : Memory} {pid : BitVec 32} {words : Word} {alloc : Nat → Reply}
    {mailboxAlloc : Nat → Bool} {p : Process} {mach : Machine}
    (hnew : beamProcessCreate m₀ pid words alloc mailboxAlloc = some (m, p))
    (hself : mach.procs self = p) : Guarded.Current self ⟨mach, []⟩ := by
  have hzero : p.frame = Frame.zero := by
    unfold beamProcessCreate at hnew
    dsimp only at hnew
    split at hnew
    · cases hnew
      rfl
    · cases hnew
  unfold Guarded.Current Guarded.Ok
  dsimp only
  rw [hself, hzero]
  exact ⟨⟨Nat.zero_le _, rfl⟩, rfl⟩

end Runs

/-- **The fields for the innermost handler mirror the catch frames** exactly in the runs in which no
`RAISE` pops a frame with another label or stack top than the next one: for every code of every
process and every run, with all processes in any order, from a process as `beam_process_create`
leaves it. -/
theorem mirrors_iff_along (code : ProcId → List Instruction) (self : ProcId) {m₀ m : Memory}
    {pid : BitVec 32} {words : Word} {alloc : Nat → Reply} {mailboxAlloc : Nat → Bool} {p : Process}
    (hnew : beamProcessCreate m₀ pid words alloc mailboxAlloc = some (m, p)) {mach : Machine}
    (hself : mach.procs self = p) (steps : List EmuStep) :
    (∀ n s, run (Guarded.step code self) ⟨mach, []⟩ (steps.take n) = some s →
        (s.mach.procs self).frame.Mirrors) ↔
      Along (Guarded.step code self) (RaiseKeepsShortcut code self) ⟨mach, []⟩ steps := by
  apply always_iff_along (Guarded.Current self) fun s => (s.mach.procs self).frame.Mirrors
  · exact fun s h => (mirrors_iff_shows h.1).mpr h.2
  · exact fun s a s' h hok hs => ⟨framesOn_step h.1 hs, (shortcut_step h hs).mpr hok⟩
  · intro s a h hall
    cases a with
    | enter q => exact trivial
    | leave q ip => exact trivial
    | exec q ip =>
      rintro rfl instr hi hop
      obtain ⟨s', hs⟩ := raise_step_some h.1 hi hop
      have hshows := (mirrors_iff_shows (framesOn_step h.1 hs)).mp (hall s' hs)
      exact (shortcut_step h hs).mp hshows rfl instr hi hop
  · exact current_create hnew hself

/-- **A caught `RAISE` leaves the handler of the frame it has popped**: no frame is left, and
`catch_ip` is still 1. -/
theorem raiseInBody_keeps_handler :
    ∃ m p s, beamProcessCreate Memory.empty 1#32 4#64 (fun n => some (zeroed (4096 * n)))
        (fun _ => true) = some (m, p) ∧ freshMachine.procs 0 = p ∧
      run (Guarded.step (fun _ => raiseInBody) 0) ⟨freshMachine, []⟩
        [.enter 0, .exec 0 0, .exec 0 1] = some s ∧
      (s.mach.procs 0).frame.catchDepth = 0 ∧ (s.mach.procs 0).frame.catchIp = 1 ∧
      ¬ (s.mach.procs 0).frame.Mirrors := by
  obtain ⟨s, hrun, hv⟩ := Option.map_eq_some_iff.mp
    (show (run (Guarded.step (fun _ => raiseInBody) 0) ⟨freshMachine, []⟩
      [.enter 0, .exec 0 0, .exec 0 1]).map (fun s => ((s.mach.procs 0).frame.catchDepth,
        (s.mach.procs 0).frame.catchIp)) = some (0, 1) by decide +kernel)
  simp only [Prod.mk.injEq] at hv
  refine ⟨freshMemory, freshProcess, s, rfl, rfl, hrun, hv.1, hv.2, fun h => ?_⟩
  unfold Frame.Mirrors at h
  rw [hv.1] at h
  exact absurd (hv.2.symm.trans h.1) (by decide)

theorem mirrors_raiseInBody :
    ∃ m p, beamProcessCreate Memory.empty 1#32 4#64 (fun n => some (zeroed (4096 * n)))
        (fun _ => true) = some (m, p) ∧ freshMachine.procs 0 = p ∧
      ∀ n s, run (Guarded.step (fun _ => raiseInBody) 0) ⟨freshMachine, []⟩
        ([EmuStep.enter 0, .exec 0 0].take n) = some s → (s.mach.procs 0).frame.Mirrors := by
  have hnew : beamProcessCreate Memory.empty 1#32 4#64 (fun n => some (zeroed (4096 * n)))
      (fun _ => true) = some (freshMemory, freshProcess) := rfl
  refine ⟨_, _, hnew, rfl, (mirrors_iff_along (fun _ => raiseInBody) 0 hnew rfl
    [.enter 0, .exec 0 0]).mpr ?_⟩
  decide +kernel

end BeamModular
