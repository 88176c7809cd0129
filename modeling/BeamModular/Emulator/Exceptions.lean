import BeamModular.Emulator.Emu
import BeamModular.Lib.Run

/-!
# Catch frames

`TRY` and `CATCH` push a catch frame, `TRY_END` pops one, `RAISE` pops one and goes on
at its handler.  A frame records three things of the moment it was pushed: the label of
the handler, the stack pointer and the continuation pointer.

`Guarded` keeps, beside the machine, the frames that one process has pushed and not yet
ended, as a list with the innermost first.  `framesOn_run` says that after every run,
with all processes taking their turns in any order, the array in the frame of the
process is that list: it is a bounded stack (`catchFrames_of_run`).

`RAISE` puts the stack pointer back and leaves the continuation pointer as it is, so the
handler returns to where the raising function would have returned.
`resumes_iff_raiseKeepsCp` says that this is right exactly where the two are the same.
-/

namespace BeamModular

/-! ### Runs -/

/-- A process begins a call of `beam_emu_execute_code`, executes the instruction at `ip`, or comes
to the end of the code at `ip`. -/
inductive EmuStep
  | enter (q : ProcId)
  | exec (q : ProcId) (ip : Nat)
  | leave (q : ProcId) (ip : Nat)
  deriving DecidableEq, Repr

/-- A machine, and the catch frames that one of its processes has pushed and not yet ended. -/
structure Guarded where
  mach : Machine
  frames : List CatchFrame

/-- What an instruction does to these frames; `p` is the process before it. -/
def framesAfter (instr : Instruction) (p : Process) (frames : List CatchFrame) :
    List CatchFrame :=
  match instr.opcode with
  | .try | .catch =>
    if frames.length < maxCatchDepth then
      ⟨instr.arg1.toNat, p.stackTop, p.frame.cp⟩ :: frames
    else frames
  | .tryEnd | .raise => frames.tail
  | _ => frames

/-- The machine with one process replaced. -/
def Machine.setProc (s : Machine) (q : ProcId) (p : Process) : Machine :=
  { s with procs := Function.update s.procs q p }

/-- One step; each process has its code, and the frames are those of `self`. -/
def Guarded.step (code : ProcId → List Instruction) (self : ProcId) (s : Guarded) :
    EmuStep → Option Guarded
  | .enter q => some { s with mach := s.mach.setProc q ((s.mach.procs q).initCp (code q)) }
  | .exec q ip =>
    (code q)[ip]?.bind fun instr =>
      (s.mach.exec (code q) q instr ip).map fun r =>
        ⟨r.1, if q = self then framesAfter instr (s.mach.procs self) s.frames else s.frames⟩
  | .leave q ip => some { s with mach := s.mach.setProc q ((s.mach.procs q).setIp ip) }

/-- The first `catch_depth` entries of the array are the frames, outermost first. -/
structure FramesOn (f : Frame) (frames : List CatchFrame) : Prop where
  bounded : f.catchDepth ≤ maxCatchDepth
  entries : (List.ofFn f.catchStack).take f.catchDepth = frames.reverse

/-- The term that `RAISE` delivers. -/
def raisedTerm (instr : Instruction) (p : Process) : Eterm :=
  match xReg instr.arg1 with
  | some r => p.x r
  | none => 0#64

/-- Every `TRY` and `CATCH` of the code has its handler. -/
def HandlersExist (code : List Instruction) : Prop :=
  ∀ instr ∈ code, instr.opcode = .try ∨ instr.opcode = .catch →
    (findLabel code instr.arg1.toNat).isSome

/-! ### The array and the list -/

section Array

variable {f g : Frame} {frames : List CatchFrame}

theorem FramesOn.depth (h : FramesOn f frames) : f.catchDepth = frames.length := by
  have hlen := congrArg List.length h.entries
  rw [List.length_take, List.length_ofFn, List.length_reverse, Nat.min_eq_left h.bounded] at hlen
  exact hlen

theorem FramesOn.congr (h : FramesOn f frames) (hs : g.catchStack = f.catchStack)
    (hd : g.catchDepth = f.catchDepth) : FramesOn g frames :=
  ⟨by rw [hd]; exact h.bounded, by rw [hs, hd]; exact h.entries⟩

theorem take_ofFn_succ (stack : Fin maxCatchDepth → CatchFrame) {k : Nat} (hk : k < maxCatchDepth) :
    (List.ofFn stack).take (k + 1) = (List.ofFn stack).take k ++ [stack ⟨k, hk⟩] := by
  rw [List.take_add_one, List.getElem?_ofFn, dif_pos hk]
  rfl

theorem take_ofFn_update (stack : Fin maxCatchDepth → CatchFrame) (k : Fin maxCatchDepth)
    (cf : CatchFrame) :
    (List.ofFn (Function.update stack k cf)).take k.val = (List.ofFn stack).take k.val := by
  apply List.ext_getElem?
  intro i
  rw [List.getElem?_take, List.getElem?_take]
  split
  · rw [List.getElem?_ofFn, List.getElem?_ofFn]
    split
    · rename_i hi hlt
      rw [Function.update_of_ne (by rintro rfl; exact absurd hi (lt_irrefl _))]
    · rfl
  · rfl

theorem FramesOn.push (h : FramesOn f frames) (hlt : f.catchDepth < maxCatchDepth)
    (cf : CatchFrame)
    (hs : g.catchStack = Function.update f.catchStack ⟨f.catchDepth, hlt⟩ cf)
    (hd : g.catchDepth = f.catchDepth + 1) : FramesOn g (cf :: frames) := by
  refine ⟨by rw [hd]; exact hlt, ?_⟩
  rw [hs, hd, take_ofFn_succ _ hlt, take_ofFn_update f.catchStack ⟨f.catchDepth, hlt⟩ cf, h.entries,
    Function.update_self, List.reverse_cons]

theorem FramesOn.split {cf : CatchFrame} (h : FramesOn f (cf :: frames)) :
    ∃ hlt : frames.length < maxCatchDepth, f.catchStack ⟨frames.length, hlt⟩ = cf ∧
      (List.ofFn f.catchStack).take frames.length = frames.reverse := by
  have hd : f.catchDepth = frames.length + 1 := h.depth
  have hlt : frames.length < maxCatchDepth := by
    have := h.bounded
    omega
  have he := h.entries
  rw [hd, take_ofFn_succ _ hlt, List.reverse_cons] at he
  obtain ⟨h1, h2⟩ := List.append_inj' he rfl
  exact ⟨hlt, List.singleton_inj.mp h2, h1⟩

theorem FramesOn.innermost {cf : CatchFrame} (h : FramesOn f (cf :: frames)) :
    catchAt f frames.length = some cf := by
  obtain ⟨hlt, hcf, _⟩ := h.split
  rw [catchAt, dif_pos hlt, hcf]

theorem FramesOn.pop {cf : CatchFrame} (h : FramesOn f (cf :: frames))
    (hs : g.catchStack = f.catchStack) (hd : g.catchDepth = frames.length) : FramesOn g frames := by
  obtain ⟨hlt, _, htake⟩ := h.split
  exact ⟨by rw [hd]; exact hlt.le, by rw [hs, hd]; exact htake⟩

end Array

/-! ### One instruction -/

section Instr

variable {code : List Instruction} {instr : Instruction} {m : Memory} {p : Process} {ip : Nat}
  {frames : List CatchFrame} {cf : CatchFrame} {e : Effect}

theorem framesAfter_try (hop : instr.opcode = .try ∨ instr.opcode = .catch) :
    framesAfter instr p frames = if frames.length < maxCatchDepth then
      ⟨instr.arg1.toNat, p.stackTop, p.frame.cp⟩ :: frames else frames := by
  rcases hop with hop | hop <;> rw [framesAfter, hop]

theorem execTry_framesOn (h : FramesOn p.frame frames)
    (hop : instr.opcode = .try ∨ instr.opcode = .catch) :
    FramesOn (execTry instr m p ip).proc.frame (framesAfter instr p frames) := by
  have hd := h.depth
  rw [framesAfter_try hop, execTry]
  by_cases hlt : p.frame.catchDepth < maxCatchDepth
  · rw [dif_pos hlt, if_pos (by rwa [hd] at hlt)]
    exact h.push hlt _ rfl rfl
  · rw [dif_neg hlt, if_neg (by rwa [hd] at hlt)]
    exact h

theorem execTryEnd_nil (h : FramesOn p.frame []) :
    execTryEnd m p ip = some (.goto m p (ip + 1)) := by
  have hd : p.frame.catchDepth = 0 := h.depth
  rw [execTryEnd, hd]

theorem execTryEnd_cons (h : FramesOn p.frame (cf :: frames)) (he : execTryEnd m p ip = some e) :
    FramesOn e.proc.frame frames := by
  have hd : p.frame.catchDepth = frames.length + 1 := h.depth
  unfold execTryEnd at he
  split at he
  · omega
  · rename_i h1
    cases he
    apply h.pop
    · rfl
    · show 0 = frames.length
      omega
  · rename_i depth h1
    obtain ⟨prev, _, rfl⟩ := Option.map_eq_some_iff.mp he
    apply h.pop
    · rfl
    · show depth + 1 = frames.length
      omega

variable (code m p ip) in
theorem execInstr_raise (hop : instr.opcode = .raise) :
    execInstr code instr m p ip = execRaise code instr m p ip := by
  rw [execInstr, hop]

theorem execInstr_try (hop : instr.opcode = .try ∨ instr.opcode = .catch) :
    execInstr code instr m p ip = some (execTry instr m p ip) := by
  rcases hop with hop | hop <;> rw [execInstr, hop]

theorem execRaise_nil (h : FramesOn p.frame []) :
    execRaise code instr m p ip = some ⟨m, p, none, .ret .errException (some .exited) none⟩ := by
  have hd : p.frame.catchDepth = 0 := h.depth
  unfold execRaise
  dsimp only
  rw [hd]

/-- **A caught `RAISE`** puts the stack back, delivers the term and goes on at the handler. -/
theorem execRaise_cons (h : FramesOn p.frame (cf :: frames)) :
    execRaise code instr m p ip = some (.goto m
      (Process.setX { p with
        stackTop := cf.catchStackTop
        frame := { p.frame with catchDepth := frames.length } } 0 (raisedTerm instr p))
      (jumpToLabel code cf.catchLabel ip)) := by
  have hd : p.frame.catchDepth = frames.length + 1 := h.depth
  unfold execRaise
  dsimp only
  rw [hd]
  dsimp only
  rw [h.innermost]
  rfl

/-- The catch frames, and the fields for the innermost one, are the same. -/
structure Frame.SameCatch (f g : Frame) : Prop where
  stack : g.catchStack = f.catchStack
  depth : g.catchDepth = f.catchDepth
  ip : g.catchIp = f.catchIp
  sp : g.catchSp = f.catchSp

theorem framesAfter_of_not_catches (hc : instr.opcode.Catches = false) :
    framesAfter instr p frames = frames := by
  unfold framesAfter
  cases hop : instr.opcode <;> first | rfl | (rw [hop] at hc; cases hc)

/-- **What an instruction does to the catch frames**: nothing, or what one of the four opcodes
does that are for this. -/
theorem execInstr_catch_cases (he : execInstr code instr m p ip = some e) :
    (instr.opcode.Catches = false ∧ p.frame.SameCatch e.proc.frame) ∨
    ((instr.opcode = .try ∨ instr.opcode = .catch) ∧ e = execTry instr m p ip) ∨
    (instr.opcode = .tryEnd ∧ execTryEnd m p ip = some e) ∨
    (instr.opcode = .raise ∧ execRaise code instr m p ip = some e) := by
  by_cases hw : instr.opcode = .wait
  · left
    rw [execInstr, hw] at he
    cases he
    exact ⟨by rw [hw]; rfl, rfl, rfl, rfl, rfl⟩
  cases hc : instr.opcode.Catches with
  | false =>
    left
    have hs := (execInstr_keepsFrame he hw hc).same
    unfold Frame.SameBut at hs
    rw [hs]
    exact ⟨rfl, rfl, rfl, rfl, rfl⟩
  | true =>
    right
    rw [execInstr] at he
    cases hop : instr.opcode <;> simp only [hop, Opcode.Catches, Bool.false_eq_true] at he hc
    case «try» =>
      cases he
      exact Or.inl ⟨Or.inl rfl, rfl⟩
    case «catch» =>
      cases he
      exact Or.inl ⟨Or.inr rfl, rfl⟩
    case tryEnd => exact Or.inr (Or.inl ⟨rfl, he⟩)
    case raise => exact Or.inr (Or.inr ⟨rfl, he⟩)

/-- **One instruction** does to the array what it does to the list. -/
theorem framesOn_execInstr (h : FramesOn p.frame frames)
    (he : execInstr code instr m p ip = some e) :
    FramesOn e.proc.frame (framesAfter instr p frames) := by
  obtain ⟨hc, hsame⟩ | ⟨hop, rfl⟩ | ⟨hop, ht⟩ | ⟨hop, hr⟩ := execInstr_catch_cases he
  · rw [framesAfter_of_not_catches hc]
    exact h.congr hsame.stack hsame.depth
  · exact execTry_framesOn h hop
  · rw [framesAfter, hop]
    cases frames with
    | nil =>
      rw [execTryEnd_nil h] at ht
      cases ht
      exact h
    | cons cf frames => exact execTryEnd_cons h ht
  · rw [framesAfter, hop]
    cases frames with
    | nil =>
      rw [execRaise_nil h] at hr
      cases hr
      exact h
    | cons cf frames =>
      rw [execRaise_cons h] at hr
      cases hr
      apply h.pop
      · rfl
      · rfl

end Instr

/-! ### Every run -/

section Runs

variable {code : ProcId → List Instruction} {self : ProcId} {s s' : Guarded}

/-- The array of the process is the list. -/
def Guarded.Ok (self : ProcId) (s : Guarded) : Prop :=
  FramesOn (s.mach.procs self).frame s.frames

theorem sameCatch_setProc {q : ProcId} {p : Process} {mach : Machine}
    (h : (mach.procs q).frame.SameCatch p.frame) :
    (mach.procs self).frame.SameCatch ((mach.setProc q p).procs self).frame := by
  unfold Machine.setProc
  dsimp only
  by_cases hq : self = q
  · subst hq
    rw [Function.update_self]
    exact h
  · rw [Function.update_of_ne hq]
    exact ⟨rfl, rfl, rfl, rfl⟩

/-- **What a step does to the catch frames of the process**: nothing, or what the instruction does
that the process executes. -/
theorem step_catch_cases {a : EmuStep} (hs : s.step code self a = some s') :
    ((∀ ip, a ≠ .exec self ip) ∧ s'.frames = s.frames ∧
      (s.mach.procs self).frame.SameCatch (s'.mach.procs self).frame) ∨
    ∃ ip instr e, a = .exec self ip ∧ (code self)[ip]? = some instr ∧
      execInstr (code self) instr s.mach.mem (s.mach.procs self) ip = some e ∧
      (s'.mach.procs self).frame = e.proc.frame ∧
      s'.frames = framesAfter instr (s.mach.procs self) s.frames := by
  cases a with
  | enter q =>
    left
    cases hs
    refine ⟨fun _ h => (by cases h), rfl, sameCatch_setProc ?_⟩
    unfold Process.initCp
    split
    · exact ⟨rfl, rfl, rfl, rfl⟩
    · exact ⟨rfl, rfl, rfl, rfl⟩
  | leave q ip =>
    left
    cases hs
    exact ⟨fun _ h => (by cases h), rfl, sameCatch_setProc ⟨rfl, rfl, rfl, rfl⟩⟩
  | exec q ip =>
    obtain ⟨instr, hi, h2⟩ := Option.bind_eq_some_iff.mp hs
    obtain ⟨r, hr, rfl⟩ := Option.map_eq_some_iff.mp h2
    obtain ⟨e, he, h3⟩ := Option.bind_eq_some_iff.mp hr
    obtain ⟨mach', hp, rfl⟩ := Option.map_eq_some_iff.mp h3
    have hframe := perform_frame hp self
    dsimp only at hframe ⊢
    by_cases hq : q = self
    · subst hq
      right
      refine ⟨ip, instr, e, rfl, hi, he, ?_, if_pos rfl⟩
      rw [hframe, Function.update_self]
    · left
      refine ⟨fun _ h => hq (EmuStep.exec.inj h).1, if_neg hq, ?_⟩
      rw [hframe, Function.update_of_ne (Ne.symm hq)]
      exact ⟨rfl, rfl, rfl, rfl⟩

theorem framesOn_step {a : EmuStep} (h : s.Ok self) (hs : s.step code self a = some s') :
    s'.Ok self := by
  unfold Guarded.Ok
  obtain ⟨_, hframes, hsame⟩ | ⟨ip, instr, e, _, _, he, hframe, hframes⟩ := step_catch_cases hs
  · rw [hframes]
    exact FramesOn.congr h hsame.stack hsame.depth
  · rw [hframe, hframes]
    exact framesOn_execInstr h he

theorem framesOn_run {mach : Machine} {steps : List EmuStep}
    (hnew : (mach.procs self).frame.catchDepth = 0)
    (hrun : run (Guarded.step code self) ⟨mach, []⟩ steps = some s) : s.Ok self := by
  refine run_invariant (Guarded.Ok self) (fun _ _ _ hi hs => framesOn_step hi hs) ?_ hrun
  exact ⟨by rw [hnew]; exact Nat.zero_le _, by rw [hnew]; rfl⟩

/-- The labels of the frames are in the code. -/
def Guarded.Targets (code : List Instruction) (s : Guarded) : Prop :=
  ∀ cf ∈ s.frames, (findLabel code cf.catchLabel).isSome

theorem targets_framesAfter {program : List Instruction} {instr : Instruction} {p : Process}
    {frames : List CatchFrame} (hlabels : HandlersExist program) (hi : instr ∈ program)
    (h : ∀ cf ∈ frames, (findLabel program cf.catchLabel).isSome) :
    ∀ cf ∈ framesAfter instr p frames, (findLabel program cf.catchLabel).isSome := by
  have hpush : instr.opcode = .try ∨ instr.opcode = .catch →
      ∀ cf ∈ framesAfter instr p frames, (findLabel program cf.catchLabel).isSome := by
    intro hop cf hcf
    rw [framesAfter_try hop] at hcf
    split at hcf
    · rcases List.mem_cons.mp hcf with rfl | hcf
      · exact hlabels instr hi hop
      · exact h cf hcf
    · exact h cf hcf
  by_cases hop : instr.opcode = .try ∨ instr.opcode = .catch
  · exact hpush hop
  rw [not_or] at hop
  unfold framesAfter
  split
  · exact absurd ‹_› hop.1
  · exact absurd ‹_› hop.2
  · exact fun cf hcf => h cf (List.mem_of_mem_tail hcf)
  · exact fun cf hcf => h cf (List.mem_of_mem_tail hcf)
  · exact h

theorem targets_step {a : EmuStep} (hlabels : HandlersExist (code self))
    (h : s.Targets (code self)) (hs : s.step code self a = some s') :
    s'.Targets (code self) := by
  unfold Guarded.Targets
  obtain ⟨_, hframes, _⟩ | ⟨ip, instr, e, _, hi, _, _, hframes⟩ := step_catch_cases hs
  · rw [hframes]
    exact h
  · rw [hframes]
    exact targets_framesAfter hlabels (List.mem_of_getElem? hi) h

end Runs

/-- A `RAISE` inside the frame `cf` leaves the stack as the frame has it, its term in the first
register and the handler as the next instruction. -/
structure RaiseCaught (code : List Instruction) (instr : Instruction) (p : Process)
    (cf : CatchFrame) (e : Effect) : Prop where
  stackTop : e.proc.stackTop = cf.catchStackTop
  x0 : e.proc.x 0 = raisedTerm instr p
  handler : ∃ target, findLabel code cf.catchLabel = some target ∧ e.next = .goto target

/-- **Catch frames are a bounded stack.** For every code whose handlers exist and every run from a
process without catch frames (as `beam_process_create` leaves it), with all processes in any order:
the depth is within the array, its first entries are the frames pushed and not yet ended, an
instruction pushes one frame, pops the innermost one or leaves them all alone, `RAISE` goes on at
the handler of the innermost frame or ends the process when there is none, and a `TRY` at full depth
fails and changes nothing. -/
theorem catchFrames_of_run (code : ProcId → List Instruction) (self : ProcId)
    (hlabels : HandlersExist (code self)) (mach : Machine)
    (hnew : (mach.procs self).frame.catchDepth = 0) (steps : List EmuStep) (s : Guarded)
    (hrun : run (Guarded.step code self) ⟨mach, []⟩ steps = some s) :
    (s.mach.procs self).frame.catchDepth ≤ maxCatchDepth ∧
    (List.ofFn (s.mach.procs self).frame.catchStack).take (s.mach.procs self).frame.catchDepth
      = s.frames.reverse ∧
    ∀ ip instr, (code self)[ip]? = some instr →
      (∀ e, execInstr (code self) instr s.mach.mem (s.mach.procs self) ip = some e →
        FramesOn e.proc.frame (framesAfter instr (s.mach.procs self) s.frames)) ∧
      (instr.opcode = .raise → ∀ cf rest, s.frames = cf :: rest →
        ∃ e, execInstr (code self) instr s.mach.mem (s.mach.procs self) ip = some e ∧
          RaiseCaught (code self) instr (s.mach.procs self) cf e) ∧
      (instr.opcode = .raise → s.frames = [] →
        execInstr (code self) instr s.mach.mem (s.mach.procs self) ip =
          some ⟨s.mach.mem, s.mach.procs self, none, .ret .errException (some .exited) none⟩) ∧
      (instr.opcode = .try ∨ instr.opcode = .catch → s.frames.length = maxCatchDepth →
        execInstr (code self) instr s.mach.mem (s.mach.procs self) ip =
          some (.fail s.mach.mem (s.mach.procs self) .errNoMemory)) := by
  have hok : FramesOn (s.mach.procs self).frame s.frames := framesOn_run hnew hrun
  have htargets : s.Targets (code self) := run_invariant (Guarded.Targets (code self))
    (fun _ _ _ hi hs => targets_step hlabels hi hs) (fun cf hcf => absurd hcf List.not_mem_nil) hrun
  refine ⟨hok.bounded, hok.entries, fun ip instr hi => ⟨fun e he => framesOn_execInstr hok he,
    fun hop cf rest hframes => ?_, fun hop hframes => ?_, fun hop hfull => ?_⟩⟩
  · rw [hframes] at hok
    obtain ⟨target, htarget⟩ := Option.isSome_iff_exists.mp
      (htargets cf (by rw [hframes]; exact List.mem_cons_self))
    refine ⟨_, (execInstr_raise _ _ _ _ hop).trans (execRaise_cons hok), rfl, ?_, target, htarget, ?_⟩
    · exact Process.x_setX_self _ 0 _
    · rw [jumpToLabel, htarget]
      rfl
  · rw [hframes] at hok
    rw [execInstr_raise _ _ _ _ hop]
    exact execRaise_nil hok
  · rw [execInstr_try hop, execTry, dif_neg]
    rw [hok.depth, hfull]
    exact lt_irrefl _

/-! ### The continuation pointer -/

section Continuation

variable (code : ProcId → List Instruction) (self : ProcId)

/-- If the step is a `RAISE` of the process, `P` holds of the instruction and its index. -/
def AtRaise (P : Instruction → Nat → Prop) : EmuStep → Prop
  | .exec q ip => q = self → ∀ instr ∈ (code self)[ip]?, instr.opcode = .raise → P instr ip
  | _ => True

instance (P : Instruction → Nat → Prop) [∀ instr ip, Decidable (P instr ip)] :
    (a : EmuStep) → Decidable (AtRaise code self P a)
  | .exec q ip => inferInstanceAs (Decidable (q = self → ∀ instr ∈ (code self)[ip]?,
      instr.opcode = .raise → P instr ip))
  | .enter _ => .isTrue trivial
  | .leave _ _ => .isTrue trivial

/-- If the step is a `RAISE` of the process inside a catch frame, it goes on at the handler with the
stack pointer and the continuation pointer of the moment the frame was pushed. -/
def RaiseResumes (s : Guarded) : EmuStep → Prop :=
  AtRaise code self fun instr ip => ∀ cf ∈ s.frames.head?,
    ∃ e, execInstr (code self) instr s.mach.mem (s.mach.procs self) ip = some e ∧
      (∃ target, findLabel (code self) cf.catchLabel = some target ∧ e.next = .goto target) ∧
      e.proc.stackTop = cf.catchStackTop ∧ e.proc.frame.cp = cf.catchCp

/-- If the step is such a `RAISE`, the code has the handler, and the continuation pointer is the one
of the moment the frame was pushed. -/
def RaiseKeepsCp (s : Guarded) : EmuStep → Prop :=
  AtRaise code self fun _ _ => ∀ cf ∈ s.frames.head?,
    (findLabel (code self) cf.catchLabel).isSome ∧ (s.mach.procs self).frame.cp = cf.catchCp

instance (s : Guarded) (a : EmuStep) : Decidable (RaiseKeepsCp code self s a) :=
  inferInstanceAs (Decidable (AtRaise code self (fun _ _ => ∀ cf ∈ s.frames.head?,
    (findLabel (code self) cf.catchLabel).isSome ∧ (s.mach.procs self).frame.cp = cf.catchCp) a))

variable {code self}

theorem atRaise_of_ne {P : Instruction → Nat → Prop} {a : EmuStep} (h : ∀ ip, a ≠ .exec self ip) :
    AtRaise code self P a := by
  cases a with
  | enter q => exact trivial
  | leave q ip => exact trivial
  | exec q ip =>
    rintro rfl
    exact absurd rfl (h ip)

theorem atRaise_exec_iff {P : Instruction → Nat → Prop} {ip : Nat} {instr : Instruction}
    (hi : (code self)[ip]? = some instr) :
    AtRaise code self P (.exec self ip) ↔ (instr.opcode = .raise → P instr ip) := by
  constructor
  · intro h hop
    exact h rfl instr hi hop
  · intro h _ instr' hi' hop
    rw [hi] at hi'
    cases hi'
    exact h hop

theorem raise_resumes_iff {s : Guarded} {a : EmuStep} (h : s.Ok self) :
    RaiseResumes code self s a ↔ RaiseKeepsCp code self s a := by
  cases a with
  | enter q => exact Iff.rfl
  | leave q ip => exact Iff.rfl
  | exec q ip =>
    refine forall_congr' fun _ => forall_congr' fun instr => forall_congr' fun _ =>
      forall_congr' fun hop => forall_congr' fun cf => forall_congr' fun hcf => ?_
    obtain ⟨rest, hframes⟩ : ∃ rest, s.frames = cf :: rest := by
      cases hf : s.frames with
      | nil => rw [hf] at hcf; cases hcf
      | cons y rest => rw [hf] at hcf; cases hcf; exact ⟨rest, rfl⟩
    have hok : FramesOn (s.mach.procs self).frame (cf :: rest) := hframes ▸ h
    have he := (execInstr_raise (code self) s.mach.mem (s.mach.procs self) ip hop).trans
      (execRaise_cons hok)
    rw [he]
    constructor
    · rintro ⟨e, hsome, ⟨target, htarget, _⟩, _, hcp⟩
      cases hsome
      exact ⟨by rw [htarget]; rfl, hcp⟩
    · rintro ⟨hlabel, hcp⟩
      obtain ⟨target, htarget⟩ := Option.isSome_iff_exists.mp hlabel
      refine ⟨_, rfl, ⟨target, htarget, ?_⟩, rfl, hcp⟩
      rw [jumpToLabel, htarget]
      rfl

end Continuation

/-- **A caught exception restores the continuation exactly where it did not change.** For every code
and every run from a process without catch frames: every `RAISE` of the run inside a catch frame
goes on at its handler with the stack pointer and the continuation pointer of the matching `TRY` or
`CATCH` if and only if, at each of them, the code has the handler and the continuation pointer is
still the one of the matching `TRY` or `CATCH`. -/
theorem resumes_iff_raiseKeepsCp (code : ProcId → List Instruction) (self : ProcId) (mach : Machine)
    (hnew : (mach.procs self).frame.catchDepth = 0) (steps : List EmuStep) :
    (∀ n s a, run (Guarded.step code self) ⟨mach, []⟩ (steps.take n) = some s →
        steps[n]? = some a → RaiseResumes code self s a) ↔
      Along (Guarded.step code self) (RaiseKeepsCp code self) ⟨mach, []⟩ steps := by
  rw [along_iff_take]
  refine forall_congr' fun n => forall_congr' fun s => forall_congr' fun a =>
    forall_congr' fun hrun => forall_congr' fun _ => ?_
  exact raise_resumes_iff (framesOn_run hnew hrun)

/-- A `TRY` whose body raises, and its handler. -/
def raiseInBody : List Instruction :=
  [{ opcode := .try, arg1 := 1#32 }, { opcode := .raise }, { opcode := .label, arg1 := 1#32 }]

/-- A `TRY` whose body calls a function that raises; the handler returns. -/
def raiseInCallee : List Instruction :=
  [{ opcode := .try, arg1 := 1#32 }, { opcode := .call, arg1 := 5#32 }, { opcode := .halt },
    { opcode := .label, arg1 := 1#32 }, { opcode := .return }, { opcode := .raise }]

theorem catchFrames_of_run_raiseInBody :
    ∃ s, run (Guarded.step (fun _ => raiseInBody) 0) ⟨freshMachine, []⟩ [.enter 0, .exec 0 0]
        = some s ∧ s.frames = [⟨1, 4#64, 3#32⟩] ∧
      ∃ e, execInstr raiseInBody { opcode := .raise } s.mach.mem (s.mach.procs 0) 1 = some e ∧
        RaiseCaught raiseInBody { opcode := .raise } (s.mach.procs 0) ⟨1, 4#64, 3#32⟩ e := by
  obtain ⟨s, hrun, hframes⟩ := Option.map_eq_some_iff.mp
    (show (run (Guarded.step (fun _ => raiseInBody) 0) ⟨freshMachine, []⟩
      [.enter 0, .exec 0 0]).map Guarded.frames = some [⟨1, 4#64, 3#32⟩] by decide +kernel)
  obtain ⟨_, _, hnext⟩ := catchFrames_of_run (fun _ => raiseInBody) 0
    (show HandlersExist raiseInBody by unfold HandlersExist; decide +kernel) freshMachine rfl _ s hrun
  exact ⟨s, hrun, hframes, (hnext 1 { opcode := .raise } rfl).2.1 rfl _ [] hframes⟩

theorem resumes_raiseInBody :
    ∃ s, run (Guarded.step (fun _ => raiseInBody) 0) ⟨freshMachine, []⟩ [.enter 0, .exec 0 0]
        = some s ∧ s.frames = [⟨1, 4#64, 3#32⟩] ∧
      RaiseResumes (fun _ => raiseInBody) 0 s (.exec 0 1) := by
  obtain ⟨s, hrun, hframes⟩ := Option.map_eq_some_iff.mp
    (show (run (Guarded.step (fun _ => raiseInBody) 0) ⟨freshMachine, []⟩
      [.enter 0, .exec 0 0]).map Guarded.frames = some [⟨1, 4#64, 3#32⟩] by decide +kernel)
  refine ⟨s, hrun, hframes, (resumes_iff_raiseKeepsCp (fun _ => raiseInBody) 0 freshMachine rfl
    [.enter 0, .exec 0 0, .exec 0 1]).mpr ?_ 2 s _ hrun rfl⟩
  decide +kernel

/-- **The handler returns into the body of its `TRY`**: the frame has the continuation pointer 6,
the end of the code, and after the `RAISE` in the called function it is 2, behind the call. -/
theorem raiseInCallee_loses_cp :
    ∃ s s', run (Guarded.step (fun _ => raiseInCallee) 0) ⟨freshMachine, []⟩
        [.enter 0, .exec 0 0, .exec 0 1] = some s ∧ s.frames = [⟨1, 4#64, 6#32⟩] ∧
      s.step (fun _ => raiseInCallee) 0 (.exec 0 5) = some s' ∧
      (s'.mach.procs 0).frame.cp = 2#32 ∧ ¬ RaiseResumes (fun _ => raiseInCallee) 0 s (.exec 0 5) := by
  obtain ⟨s, hrun, hv⟩ := Option.map_eq_some_iff.mp
    (show (run (Guarded.step (fun _ => raiseInCallee) 0) ⟨freshMachine, []⟩
      [.enter 0, .exec 0 0, .exec 0 1]).map (fun s => (s.frames,
        (s.step (fun _ => raiseInCallee) 0 (.exec 0 5)).map fun s' => (s'.mach.procs 0).frame.cp,
        (execInstr raiseInCallee { opcode := .raise } s.mach.mem (s.mach.procs 0) 5).map fun e =>
          e.proc.frame.cp)) = some ([⟨1, 4#64, 6#32⟩], some 2#32, some 2#32) by decide +kernel)
  simp only [Prod.mk.injEq] at hv
  obtain ⟨hframes, hstep, hexec⟩ := hv
  obtain ⟨s', hs', hcp⟩ := Option.map_eq_some_iff.mp hstep
  refine ⟨s, s', hrun, hframes, hs', hcp, fun h => ?_⟩
  obtain ⟨e, he, _, _, hcp'⟩ := h rfl { opcode := .raise } rfl rfl ⟨1, 4#64, 6#32⟩
    (by rw [hframes]; rfl)
  rw [he, Option.map_some, hcp'] at hexec
  exact absurd hexec (by decide)

/-! ### The interpreter -/

/-- **Every call of the interpreter is a run.** -/
theorem beamEmuLoop_steps {code : ProcId → List Instruction} {q : ProcId} (self : ProcId) :
    ∀ (fuel : Nat) {w : World} {ip : Nat} {sl : Slice},
      beamEmuLoop (code q) q fuel w ip = some sl → ∃ steps, ∀ frames, ∃ frames',
        run (Guarded.step code self) ⟨w.toMachine, frames⟩ steps =
          some ⟨sl.world.toMachine, frames'⟩ := by
  intro fuel
  induction fuel with
  | zero => intro w ip sl h; cases h
  | succ fuel ih =>
    intro w ip sl h
    rw [beamEmuLoop] at h
    cases hi : (code q)[ip]? with
    | none =>
      rw [hi] at h
      cases h
      exact ⟨[.leave q ip], fun frames => ⟨frames, rfl⟩⟩
    | some instr =>
      rw [hi] at h
      dsimp only at h
      split at h
      · cases h
        exact ⟨[], fun frames => ⟨frames, rfl⟩⟩
      · obtain ⟨r, hr, h2⟩ := Option.bind_eq_some_iff.mp h
        have hr' : w.toMachine.exec (code q) q instr ip = some r := hr
        have hstep : ∀ frames, ∃ frames', Guarded.step code self ⟨w.toMachine, frames⟩ (.exec q ip) =
            some ⟨r.1, frames'⟩ := fun frames => by
          rw [Guarded.step, hi, Option.bind_some, hr']
          exact ⟨_, rfl⟩
        split at h2
        · obtain ⟨sl', hsl, rfl⟩ := Option.map_eq_some_iff.mp h2
          obtain ⟨steps, hsteps⟩ := ih hsl
          refine ⟨.exec q ip :: steps, fun frames => ?_⟩
          obtain ⟨frames₁, hs⟩ := hstep frames
          obtain ⟨frames', hrun⟩ := hsteps frames₁
          exact ⟨frames', by rw [run, hs]; exact hrun⟩
        · rename_i state out _
          cases h2
          refine ⟨[.exec q ip], fun frames => ?_⟩
          obtain ⟨frames₁, hs⟩ := hstep frames
          refine ⟨frames₁, ?_⟩
          rw [run, hs]
          cases state <;> rfl

theorem beamEmuExecuteCode_steps {code : ProcId → List Instruction} {q : ProcId} {w : World}
    {sl : Slice} (self : ProcId) (h : beamEmuExecuteCode (code q) q w = some sl) :
    ∃ steps, ∀ frames, ∃ frames',
      run (Guarded.step code self) ⟨w.toMachine, frames⟩ steps =
        some ⟨sl.world.toMachine, frames'⟩ := by
  unfold beamEmuExecuteCode at h
  split at h
  · cases h
    exact ⟨[], fun frames => ⟨frames, rfl⟩⟩
  · obtain ⟨steps, hsteps⟩ := beamEmuLoop_steps self _ h
    refine ⟨.enter q :: steps, fun frames => ?_⟩
    obtain ⟨frames', hrun⟩ := hsteps frames
    exact ⟨frames', hrun⟩

end BeamModular
