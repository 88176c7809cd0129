import BeamModular.Scheduler.Loop

/-!
# Preemption

A process that runs out of reductions is cut before its next instruction, put back
and run again.  The interpreter keeps the instruction pointer in a local variable
and does not save it when it is cut, so the next call starts again from the `ip` the
frame had at the first one.

`Transparent` says that the scheduled run to `HALT` is the uncut one: the same
registers, stack, continuation pointer, catch frames and messages, and the same
instructions in the same order.  `ResumesInPlace` is when that happens: each cut
falls before the very instruction the frame's `ip` names (and the run queue gets the
node it needs to put the process back).  A second, smaller condition is `KeepsCp`: a
cut at `ip` 0 with continuation pointer 0 looks to the next call like a process that
has not started, and the call moves the pointer to the end of the code.

The one direction carries the machine along the cuts (`CutInPlace.halts_as`); the other
only needs that a call starts at the saved `ip` and that nothing but `WAIT` saves one
(`scheduled_trace`).
-/

namespace BeamModular

/-- The number of instructions executed before the cut number `j`. -/
def cutAt (reductions : Int) (j : Nat) : Nat := (reductions - 1).toNat + 3999 * j

theorem cutAt_succ (reductions : Int) (j : Nat) :
    cutAt reductions (j + 1) = (reductions - 1).toNat + cutAt 4000 j := by
  simp only [cutAt]
  omega

theorem getElem?_append_add {α : Type} {xs ys : List α} {n : Nat} (h : xs.length = n) (i : Nat) :
    (xs ++ ys)[n + i]? = ys[i]? := by
  rw [List.getElem?_append_right (by omega), h, Nat.add_sub_cancel_left]

/-- The live words of the stack. -/
def liveStack (m : Memory) (p : Process) : List (Option Word) :=
  (List.range (p.heapCapacity.toNat - p.stackTop.toNat)).map fun i =>
    m.cell (p.heap + 8 * (p.stackTop.toNat + i))

/-- The messages among the events. -/
def sends (events : List Event) : List (ProcId × Eterm) :=
  events.filterMap fun
    | .sent target msg => some (target, msg)
    | .examined _ => none

/-- **Preemption is transparent**: the scheduled run to `HALT` is the uncut one. -/
def Transparent (code : List Instruction) (self : ProcId) (s : Sched) (sl : Slice) : Prop :=
  ∃ n t, runToHalt code n s = some t ∧
    let p := t.sched.world.procs self
    let q := sl.world.procs self
    p.frame.xRegs = q.frame.xRegs ∧
      liveStack t.sched.world.mem p = liveStack sl.world.mem q ∧
      p.frame.cp = q.frame.cp ∧
      p.frame.catchStack = q.frame.catchStack ∧ p.frame.catchDepth = q.frame.catchDepth ∧
      sends t.events = sends sl.events ∧ t.trace = sl.trace

/-- Every cut falls before the instruction the frame's `ip` names, and the process can be put
back there. -/
def ResumesInPlace (self : ProcId) (s : Sched) (sl : Slice) : Prop :=
  ∀ j ip, sl.trace[cutAt (s.world.reductions self) j]? = some ip →
    ip = (s.world.procs self).frame.ip ∧ s.rq.alloc j = true

/-- No cut of a run with this trace makes the process look as if it had not started. -/
def KeepsCp (code : List Instruction) (self : ProcId) (s : Sched) (trace : List Nat) : Prop :=
  ∀ j pr, cutAt (s.world.reductions self) j < trace.length →
    (s.world.toMachine.start code self).runFor code self (cutAt (s.world.reductions self) j)
      (s.world.procs self).frame.ip = some pr →
    (pr.machine.procs self).initCp code = pr.machine.procs self

variable {code : List Instruction} {self : ProcId}

/-! ### A scheduled run starts each call at the saved `ip` -/

/-- How a step ends, after the run `pr` of the process: it is cut and put back, cut and lost,
at the end of its code, or back at the caller. -/
inductive TurnEnds (code : List Instruction) (self : ProcId) (rq : RunQueue) (pr : Progress)
    (t : Turn) : Prop
  | cut (ip : Nat) (status : pr.status = .running ip) (inside : ip < code.length)
      (res : t.res = .ok) (granted : rq.alloc 0 = true) (alone : Alone t.sched.rq self)
      (alloc : t.sched.rq.alloc = fun n => rq.alloc (n + 1))
      (machine : t.sched.world.toMachine = pr.machine)
      (reductions : (t.sched.world.sched self).reductions = defaultReductions)
  | lost (ip : Nat) (status : pr.status = .running ip) (refused : rq.alloc 0 = false)
      (res : t.res = .ok) (idle : Idle t.sched.rq)
  | atEnd (ip : Nat) (status : pr.status = .running ip) (outside : ¬ ip < code.length)
      (res : t.res = .ok) (alone : Alone t.sched.rq self)
      (saved : (t.sched.world.procs self).frame.ip = ip)
  | returned (res : Result) (state : Option ProcState) (out : Option Eterm)
      (status : pr.status = .returned res state out) (result : t.res = res)
      (idle : Idle t.sched.rq) (machine : t.sched.world.toMachine = pr.machine)

theorem turn_of_runFor (hcode : code ≠ []) {rq : RunQueue} {w : World} (h : Alone rq self)
    {pr : Progress}
    (hrun : (w.toMachine.start code self).runFor code self (w.reductions self - 1).toNat
      (w.procs self).frame.ip = some pr) :
    ∃ t, beamSchedulerStep code ⟨rq, w⟩ = some t ∧ t.trace = pr.trace ∧ t.events = pr.events ∧
      TurnEnds code self rq pr t := by
  obtain ⟨rq', hidle, halloc, hstep⟩ := step_alone code w h
  let w' := w.setState self .running
  have hred : (w'.sched self).reductions = w.reductions self := by
    simp [w', World.setState, World.reductions]
  have hstate : (w'.sched self).state = .running := by simp [w', World.setState]
  rw [show w.setState self .running = ⟨w.toMachine, w'.sched⟩ from rfl, beamEmuExecuteCode_eq hcode,
    hred, hrun, Option.map_some, Option.bind_some] at hstep
  have htr := slice_trace code self w'.sched pr
  have hev := slice_events code self w'.sched pr
  cases hst : pr.status with
  | running ip =>
    by_cases hlt : ip < code.length
    · obtain ⟨hr, hs, hm⟩ := slice_cut self w'.sched hst hlt
      have hmust : mustRequeue (pr.slice code self w'.sched).res
          ((pr.slice code self w'.sched).world.sched self).state = true := by rw [hs]; rfl
      cases hg : rq'.alloc 0 with
      | true =>
        obtain ⟨rq₁, w₁, hq, ha, hal, hm₁, hr₁⟩ := requeue_granted hmust hidle hg
        rw [halloc] at hg hal
        exact ⟨_, hstep.trans hq, htr, hev,
          .cut ip hst hlt hr hg ha hal (hm₁.trans hm) hr₁⟩
      | false =>
        obtain ⟨rq₁, w₁, hq, hi⟩ := requeue_refused hmust hidle hg
        rw [halloc] at hg
        exact ⟨_, hstep.trans hq, htr, hev, .lost ip hst hg hr hi⟩
    · obtain ⟨hr, hs, hip⟩ := slice_end self w'.sched hst hlt
      have hmust : mustRequeue (pr.slice code self w'.sched).res
          ((pr.slice code self w'.sched).world.sched self).state = true := by
        rw [hr, hs, hstate]; rfl
      cases hg : rq'.alloc 0 with
      | true =>
        obtain ⟨rq₁, w₁, hq, ha, _, hm₁, _⟩ := requeue_granted hmust hidle hg
        exact ⟨_, hstep.trans hq, htr, hev, .atEnd ip hst hlt hr ha (by
          dsimp only
          rw [hm₁, hip])⟩
      | false =>
        obtain ⟨rq₁, w₁, hq, hi⟩ := requeue_refused hmust hidle hg
        rw [halloc] at hg
        exact ⟨_, hstep.trans hq, htr, hev, .lost ip hst hg hr hi⟩
  | returned res state out =>
    obtain ⟨hr, hs, hm⟩ := slice_returned code self w'.sched hst
    have hmust : mustRequeue (pr.slice code self w'.sched).res
        ((pr.slice code self w'.sched).world.sched self).state = false := by
      rw [hr, hs, hstate]
      rcases Machine.returned_cases hrun hst with ⟨rfl, hne, _⟩ | rfl | ⟨rfl, _⟩
      · simp [mustRequeue, hne]
      · simp [mustRequeue]
      · simp [mustRequeue]
    exact ⟨_, hstep.trans (requeue_not hmust), htr, hev,
      .returned res state out hst hr hidle hm⟩

theorem exists_runFor (hcode : code ≠ []) {rq : RunQueue} {w : World} {t : Turn}
    (h : Alone rq self) (hstep : beamSchedulerStep code ⟨rq, w⟩ = some t) :
    ∃ pr, (w.toMachine.start code self).runFor code self (w.reductions self - 1).toNat
      (w.procs self).frame.ip = some pr := by
  obtain ⟨rq', _, _, heq⟩ := step_alone code w h
  have hred : ((w.setState self .running).sched self).reductions = w.reductions self := by
    simp [World.setState, World.reductions]
  rw [heq, show w.setState self .running = ⟨w.toMachine, (w.setState self .running).sched⟩ from rfl,
    beamEmuExecuteCode_eq hcode, hred] at hstep
  obtain ⟨sl, hsl, _⟩ := Option.bind_eq_some_iff.mp hstep
  obtain ⟨pr, hpr, _⟩ := Option.map_eq_some_iff.mp hsl
  exact ⟨pr, hpr⟩

theorem runToHalt_atEnd (hcode : code ≠ []) : ∀ (n : Nat) {rq : RunQueue} {w : World},
    Alone rq self → ¬ (w.procs self).frame.ip < code.length →
      runToHalt code n ⟨rq, w⟩ = none := by
  intro n
  induction n with
  | zero => intro rq w _ _; rfl
  | succ n ih =>
    intro rq w h hend
    have hnone : code[(w.procs self).frame.ip]? = none :=
      List.getElem?_eq_none_iff.mpr (by omega)
    have hrun : (w.toMachine.start code self).runFor code self (w.reductions self - 1).toNat
        (w.procs self).frame.ip = some ⟨w.toMachine.start code self, .running
          (w.procs self).frame.ip, [], []⟩ := by
      cases (w.reductions self - 1).toNat with
      | zero => rfl
      | succ k => rw [Machine.runFor, hnone]
    obtain ⟨t, hstep, _, _, hends⟩ := turn_of_runFor hcode h hrun
    rw [runToHalt, hstep, Option.bind_some]
    cases hends with
    | cut ip hst hlt _ _ _ _ _ _ => cases hst; exact absurd hlt hend
    | lost _ _ _ hres hidle => simp [hres, runToHalt_idle hidle]
    | atEnd _ _ hout hres halone hsaved => simp [hres, ih halone (hsaved ▸ hout)]
    | returned _ _ _ hst _ _ _ => cases hst

/-- **After every cut a scheduled run goes on at the `ip` the frame had at the start**, whatever
the instruction before the cut was. -/
theorem scheduled_trace (hcode : code ≠ []) : ∀ (n : Nat) {rq : RunQueue} {w : World} {t : Turn},
    Alone rq self → runToHalt code n ⟨rq, w⟩ = some t →
      (1 ≤ (w.reductions self - 1).toNat →
        ∀ ip, t.trace[0]? = some ip → ip = (w.procs self).frame.ip) ∧
      ∀ j ip, t.trace[cutAt (w.reductions self) j]? = some ip →
        ip = (w.procs self).frame.ip ∧ rq.alloc j = true := by
  intro n
  induction n with
  | zero => intro rq w t _ h; cases h
  | succ n ih =>
    intro rq w t halone h
    obtain ⟨t₁, hstep, hrest⟩ := Option.bind_eq_some_iff.mp h
    obtain ⟨pr, hrun⟩ := exists_runFor hcode halone hstep
    obtain ⟨t₁', hstep', htr, _, hends⟩ := turn_of_runFor hcode halone hrun
    rw [hstep] at hstep'
    cases hstep'
    have hsaved := start_ip code self w.toMachine
    cases hends with
    | lost _ _ _ hres hidle =>
      rw [if_neg (by rw [hres]; decide), runToHalt_idle hidle] at hrest
      cases hrest
    | atEnd _ _ hout hres ha hip =>
      rw [if_neg (by rw [hres]; decide), runToHalt_atEnd hcode n ha (hip ▸ hout)] at hrest
      cases hrest
    | returned res state out hst hres hidle _ =>
      split at hrest
      · -- the process has halted in this call: there was no cut
        cases hrest
        refine ⟨fun _ ip hip => Machine.head_trace hrun (htr ▸ hip), fun j ip hip => ?_⟩
        have hle := Machine.length_trace_le hrun
        rw [htr, List.getElem?_eq_none (by unfold cutAt; omega)] at hip
        cases hip
      · rw [runToHalt_idle hidle] at hrest
        cases hrest
    | cut ip' hst hlt hres hgrant ha halloc hm hred =>
      rw [if_neg (by rw [hres]; decide)] at hrest
      obtain ⟨t₂, ht₂, rfl⟩ := Option.map_eq_some_iff.mp hrest
      have hlen := Machine.length_trace_of_running hrun hst hlt
      have hip : (t₁.sched.world.procs self).frame.ip = (w.procs self).frame.ip := by
        rw [hm, Machine.saved_ip_of_running hrun hst, hsaved]
      have hred' : t₁.sched.world.reductions self = 4000 := hred
      obtain ⟨hfirst, hcuts⟩ := ih ha ht₂
      rw [hip, hred'] at hfirst hcuts
      rw [← htr] at hlen
      refine ⟨fun hb ip hi => ?_, fun j ip hi => ?_⟩
      · refine Machine.head_trace hrun ?_
        rw [← htr, ← hi]
        exact (List.getElem?_append_left (by omega)).symm
      · cases j with
        | zero => exact ⟨hfirst (by decide) ip ((getElem?_append_add hlen 0).symm.trans hi), hgrant⟩
        | succ j =>
          rw [cutAt_succ] at hi
          have hnext := hcuts j ip ((getElem?_append_add hlen _).symm.trans hi)
          rw [halloc] at hnext
          exact hnext

/-! ### A run that is cut in place -/

theorem runFor_cut {N b : Nat} {s : Machine} {ip : Nat} {pr : Progress} {res : Result}
    {state : Option ProcState} {out : Option Eterm} (h : s.runFor code self N ip = some pr)
    (hret : pr.status = .returned res state out) :
    s.runFor code self b ip = some pr ∨
    ∃ pr₁ ip' N' pr₂, s.runFor code self b ip = some pr₁ ∧ pr₁.status = .running ip' ∧
      ip' < code.length ∧ pr₁.machine.runFor code self N' ip' = some pr₂ ∧
      pr₂.trace[0]? = some ip' ∧ pr = pr₁.after pr₂ := by
  rcases Nat.le_total b N with hle | hle
  · obtain ⟨d, rfl⟩ := Nat.exists_eq_add_of_le hle
    rw [Machine.runFor_add] at h
    obtain ⟨pr₁, h1, h2⟩ := Option.bind_eq_some_iff.mp h
    unfold Machine.resume at h2
    split at h2
    · rename_i ip' hst
      obtain ⟨pr₂, h3, rfl⟩ := Option.map_eq_some_iff.mp h2
      have hne : d ≠ 0 := by rintro rfl; cases h3; cases hret
      obtain ⟨k, rfl⟩ := Nat.exists_eq_succ_of_ne_zero hne
      refine Or.inr ⟨pr₁, ip', k + 1, pr₂, h1, hst, ?_, h3, ?_, rfl⟩ <;>
        rcases Machine.runFor_succ_cases h3 with ⟨_, rfl⟩ | ⟨_, _, _, q, hi, _, _, _, rfl⟩ |
          ⟨_, _, _, _, _, hi, _, _, rfl⟩
      · cases hret
      · exact (List.getElem?_eq_some_iff.mp hi).1
      · exact (List.getElem?_eq_some_iff.mp hi).1
      · cases hret
      · rfl
      · rfl
    · cases h2
      exact Or.inl h1
  · obtain ⟨d, rfl⟩ := Nat.exists_eq_add_of_le hle
    rw [Machine.runFor_add, h, Option.bind_some, Machine.resume, hret]
    exact Or.inl rfl

theorem halts_in_one (hcode : code ≠ []) {rq : RunQueue} {w : World} {pr : Progress}
    {state : Option ProcState} {out : Option Eterm} (halone : Alone rq self)
    (hrun : (w.toMachine.start code self).runFor code self (w.reductions self - 1).toNat
      (w.procs self).frame.ip = some pr)
    (hret : pr.status = .returned .errHalt state out) :
    ∃ t, runToHalt code 1 ⟨rq, w⟩ = some t ∧ t.sched.world.toMachine = pr.machine ∧
      t.trace = pr.trace ∧ t.events = pr.events := by
  obtain ⟨t, hstep, htr, hev, hends⟩ := turn_of_runFor hcode halone hrun
  cases hends with
  | cut _ hst _ _ _ _ _ _ _ => rw [hret] at hst; cases hst
  | lost _ hst _ _ _ => rw [hret] at hst; cases hst
  | atEnd _ hst _ _ _ _ => rw [hret] at hst; cases hst
  | returned res _ _ hst hres _ hm =>
    rw [hret] at hst
    cases hst
    exact ⟨t, by rw [runToHalt, hstep, Option.bind_some, if_pos hres], hm, htr, hev⟩

theorem turn_of_cut (hcode : code ≠ []) {rq : RunQueue} {w : World} {pr : Progress} {ip : Nat}
    (halone : Alone rq self)
    (hrun : (w.toMachine.start code self).runFor code self (w.reductions self - 1).toNat
      (w.procs self).frame.ip = some pr)
    (hst : pr.status = .running ip) (hlt : ip < code.length) (hgrant : rq.alloc 0 = true) :
    ∃ t, beamSchedulerStep code ⟨rq, w⟩ = some t ∧ t.trace = pr.trace ∧ t.events = pr.events ∧
      t.res = .ok ∧ Alone t.sched.rq self ∧ (t.sched.rq.alloc = fun n => rq.alloc (n + 1)) ∧
      t.sched.world.toMachine = pr.machine ∧ t.sched.world.reductions self = 4000 := by
  obtain ⟨t, hstep, htr, hev, hends⟩ := turn_of_runFor hcode halone hrun
  cases hends with
  | lost _ _ hrefuse _ _ => rw [hgrant] at hrefuse; cases hrefuse
  | atEnd _ hst' hout _ _ _ => rw [hst] at hst'; cases hst'; exact absurd hlt hout
  | returned _ _ _ hst' _ _ _ => rw [hst] at hst'; cases hst'
  | cut _ _ _ hres _ ha halloc hm hred => exact ⟨t, hstep, htr, hev, hres, ha, halloc, hm, hred⟩

theorem KeepsCp.after_cut {rq : RunQueue} {w : World} {s : Sched} {pr rest : Progress} {ip : Nat}
    (hcp : KeepsCp code self ⟨rq, w⟩ (pr.after rest).trace)
    (hrun : (w.toMachine.start code self).runFor code self (w.reductions self - 1).toNat
      (w.procs self).frame.ip = some pr)
    (hlen : pr.trace.length = (w.reductions self - 1).toNat) (hmore : 0 < rest.trace.length)
    (hst : pr.status = .running ip) (hm : s.world.toMachine = pr.machine)
    (hip : (s.world.procs self).frame.ip = ip) (hred : s.world.reductions self = 4000) :
    pr.machine.start code self = pr.machine ∧ KeepsCp code self s rest.trace := by
  have hall : (pr.after rest).trace.length = pr.trace.length + rest.trace.length :=
    List.length_append
  have hstart : pr.machine.start code self = pr.machine := by
    refine start_eq_self (hcp 0 pr ?_ hrun)
    rw [hall]
    dsimp only [cutAt]
    omega
  refine ⟨hstart, fun j q hj hq => hcp (j + 1) (pr.after q) ?_ ?_⟩
  · rw [hred] at hj
    rw [hall]
    change cutAt (w.reductions self) (j + 1) < _
    rw [cutAt_succ]
    omega
  rw [cutAt_succ, Machine.runFor_add, hrun, Option.bind_some, Machine.resume, hst]
  rw [hip, hm, hstart, hred] at hq
  dsimp only
  rw [hq]
  rfl

/-- A run to a halt that has at most so many cuts, each of them in place. -/
structure CutInPlace (code : List Instruction) (pid : ProcId) (cuts : Nat) (rq : RunQueue)
    (w : World) (pr : Progress) : Prop where
  run : ∃ N, (w.toMachine.start code pid).runFor code pid N (w.procs pid).frame.ip = some pr
  halts : ∃ state out, pr.status = .returned .errHalt state out
  few : pr.trace.length ≤ cutAt (w.reductions pid) cuts
  inPlace : ∀ j ip, pr.trace[cutAt (w.reductions pid) j]? = some ip →
    ip = (w.procs pid).frame.ip ∧ rq.alloc j = true
  keepsCp : KeepsCp code pid ⟨rq, w⟩ pr.trace

/-- **One step of the scheduler** either finishes such a run or leaves one with a cut less. -/
theorem CutInPlace.step (hcode : code ≠ []) {cuts : Nat} {rq : RunQueue} {w : World}
    {pr : Progress} (halone : Alone rq self) (h : CutInPlace code self cuts rq w pr) :
    (∃ t, runToHalt code 1 ⟨rq, w⟩ = some t ∧ t.sched.world.toMachine = pr.machine ∧
      t.trace = pr.trace ∧ t.events = pr.events) ∨
    ∃ (cuts' : Nat) (pr₁ pr₂ : Progress) (t₁ : Turn), cuts = cuts' + 1 ∧ pr = pr₁.after pr₂ ∧
      beamSchedulerStep code ⟨rq, w⟩ = some t₁ ∧ t₁.res = .ok ∧ t₁.trace = pr₁.trace ∧
      t₁.events = pr₁.events ∧ Alone t₁.sched.rq self ∧
      CutInPlace code self cuts' t₁.sched.rq t₁.sched.world pr₂ := by
  obtain ⟨N, hrun⟩ := h.run
  obtain ⟨state, out, hret⟩ := h.halts
  rcases runFor_cut (b := (w.reductions self - 1).toNat) hrun hret with
    hone | ⟨pr₁, ip', N', pr₂, h1, hst, hlt, h2, hhead, rfl⟩
  · exact Or.inl (halts_in_one hcode halone hone hret)
  have hfew := h.few
  have hlen := Machine.length_trace_of_running h1 hst hlt
  have hsome : 0 < pr₂.trace.length := (List.getElem?_eq_some_iff.mp hhead).1
  simp only [Progress.after, List.length_append] at hfew
  cases cuts with
  | zero =>
    simp only [cutAt] at hfew
    omega
  | succ cuts =>
    obtain ⟨hip, hgrant⟩ := h.inPlace 0 ip' ((getElem?_append_add hlen 0).trans hhead)
    obtain ⟨t₁, hstep, htr, hev, hres, ha, halloc, hm, hred⟩ :=
      turn_of_cut hcode halone h1 hst hlt hgrant
    have hsaved : (t₁.sched.world.procs self).frame.ip = ip' := by
      rw [hm, Machine.saved_ip_of_running h1 hst, start_ip, hip]
    obtain ⟨hstart, hcp⟩ := h.keepsCp.after_cut h1 hlen hsome hst hm hsaved hred
    refine Or.inr ⟨cuts, pr₁, pr₂, t₁, rfl, rfl, hstep, hres, htr, hev, ha, ⟨N', ?_⟩,
      ⟨state, out, hret⟩, ?_, fun j ip hi => ?_, hcp⟩
    · rw [hsaved, hm, hstart]
      exact h2
    · rw [cutAt_succ] at hfew
      rw [hred]
      omega
    · rw [hred] at hi
      have hnext := h.inPlace (j + 1) ip (by
        rw [cutAt_succ]
        exact (getElem?_append_add hlen _).trans hi)
      rw [hsaved, hip, halloc]
      exact hnext

/-- **Cut in place, a run goes on as if it had not been cut.**  The induction is on the number of
cuts that are still to come. -/
theorem CutInPlace.halts_as (hcode : code ≠ []) : ∀ {cuts : Nat} {rq : RunQueue} {w : World}
    {pr : Progress}, Alone rq self → CutInPlace code self cuts rq w pr →
      ∃ n t, runToHalt code n ⟨rq, w⟩ = some t ∧ t.sched.world.toMachine = pr.machine ∧
        t.trace = pr.trace ∧ t.events = pr.events := by
  intro cuts
  induction cuts with
  | zero =>
    intro rq w pr halone h
    rcases h.step hcode halone with hone | ⟨_, _, _, _, hcuts, _⟩
    · exact ⟨1, hone⟩
    · cases hcuts
  | succ cuts ih =>
    intro rq w pr halone h
    rcases h.step hcode halone with
      hone | ⟨cuts', pr₁, pr₂, t₁, hcuts, rfl, hstep, hres, htr, hev, ha, hrest⟩
    · exact ⟨1, hone⟩
    · cases hcuts
      obtain ⟨n, t₂, ht₂, hm₂, htr₂, hev₂⟩ := ih ha hrest
      refine ⟨n + 1, t₁.after t₂, ?_, hm₂, ?_, ?_⟩
      · rw [runToHalt, hstep, Option.bind_some, if_neg (by rw [hres]; decide), ht₂]
        rfl
      · simp only [Turn.after, Progress.after, htr, htr₂]
      · simp only [Turn.after, Progress.after, hev, hev₂]

/-! ### Cut and uncut runs -/

theorem exists_halting_run {s : Machine} {sched : ProcId → SchedInfo} {sl : Slice}
    (h : beamEmuExecuteCode code self ⟨s, sched⟩ = some sl) (hhalt : sl.res = .errHalt) :
    code ≠ [] ∧ ∃ N pr state out, (s.start code self).runFor code self N
        (s.procs self).frame.ip = some pr ∧ pr.status = .returned .errHalt state out ∧
      sl.world.toMachine = pr.machine ∧ sl.trace = pr.trace ∧ sl.events = pr.events := by
  have hcode : code ≠ [] := by
    rintro rfl
    cases h
    cases hhalt
  rw [beamEmuExecuteCode_eq hcode] at h
  obtain ⟨pr, hpr, rfl⟩ := Option.map_eq_some_iff.mp h
  refine ⟨hcode, ((sched self).reductions - 1).toNat, pr, ?_⟩
  cases hst : pr.status with
  | running ip =>
    by_cases hlt : ip < code.length
    · rw [(slice_cut self sched hst hlt).1] at hhalt; cases hhalt
    · rw [(slice_end self sched hst hlt).1] at hhalt; cases hhalt
  | returned res state out =>
    obtain ⟨hr, _, hm⟩ := slice_returned code self sched hst
    rw [hr] at hhalt
    exact ⟨state, out, hpr, by rw [hhalt], hm, slice_trace code self sched pr,
      slice_events code self sched pr⟩

/-- **Preemption is transparent exactly when every cut falls in place.** Take a process whose uncut
run halts, alone in a run queue, with any number of reductions. If no cut of that run makes it look
as if it had not started, the scheduled run to `HALT` is the uncut run if and only if each cut falls
before the instruction the frame's `ip` names and the process can be put back there; and whatever
the cuts do to the continuation pointer, a transparent run has all its cuts in place. -/
theorem transparent_iff_resumesInPlace {rq : RunQueue} {s : Machine}
    {sched sched' : ProcId → SchedInfo} {sl : Slice} (halone : Alone rq self)
    (h : beamEmuExecuteCode code self ⟨s, sched'⟩ = some sl) (hhalt : sl.res = .errHalt) :
    (KeepsCp code self ⟨rq, ⟨s, sched⟩⟩ sl.trace →
      (Transparent code self ⟨rq, ⟨s, sched⟩⟩ sl ↔ ResumesInPlace self ⟨rq, ⟨s, sched⟩⟩ sl)) ∧
    (Transparent code self ⟨rq, ⟨s, sched⟩⟩ sl → ResumesInPlace self ⟨rq, ⟨s, sched⟩⟩ sl) := by
  obtain ⟨hcode, N, pr, state, out, hrun, hret, hm, htr, hev⟩ := exists_halting_run h hhalt
  have hnec : Transparent code self ⟨rq, ⟨s, sched⟩⟩ sl →
      ResumesInPlace self ⟨rq, ⟨s, sched⟩⟩ sl := by
    rintro ⟨n, t, ht, _, _, _, _, _, _, htrace⟩ j ip hip
    rw [← htrace] at hip
    exact (scheduled_trace hcode n halone ht).2 j ip hip
  refine ⟨fun hcp => ⟨hnec, fun hres => ?_⟩, hnec⟩
  have hplace : CutInPlace code self pr.trace.length rq ⟨s, sched⟩ pr := by
    refine ⟨⟨N, hrun⟩, ⟨state, out, hret⟩, ?_, fun j ip hip => hres j ip (htr ▸ hip), htr ▸ hcp⟩
    simp only [cutAt]
    omega
  obtain ⟨n, t, ht, hmt, htt, het⟩ := hplace.halts_as hcode halone
  refine ⟨n, t, ht, ?_⟩
  have hmach : t.sched.world.toMachine = sl.world.toMachine := hmt.trans hm.symm
  rw [hmach, htt, htr, het, hev]
  exact ⟨rfl, rfl, rfl, rfl, rfl, rfl, rfl⟩

/-! ### A program that counts

`x1 := x1 + 1` and then `HALT`, in a process as `beam_process_create` leaves it. -/

/-- Put 1 into `x0`, add it to `x1`, halt. -/
def countOnce : List Instruction :=
  [{ opcode := .move, arg2 := 0#32, literal := makeSmallInt 1#64 },
   { opcode := .add, arg1 := 0#32, arg2 := 1#32, arg3 := 1#32 },
   { opcode := .halt }]

theorem countOnce_uncut : ∃ sl,
    beamEmuExecuteCode countOnce 0 ⟨freshMachine, budget 4000⟩ = some sl ∧
    sl.res = .errHalt ∧ sl.trace = [0, 1, 2] ∧
      (sl.world.procs 0).frame.xRegs 1 = makeSmallInt 1#64 := by
  obtain ⟨sl, hsl, hv⟩ := Option.map_eq_some_iff.mp
    (show (beamEmuExecuteCode countOnce 0 ⟨freshMachine, budget 4000⟩).map
      (fun sl => (sl.res, sl.trace, (sl.world.procs 0).frame.xRegs 1))
        = some (.errHalt, [0, 1, 2], makeSmallInt 1#64) from rfl)
  simp only [Prod.mk.injEq] at hv
  exact ⟨sl, hsl, hv⟩

/-- With one reduction the only cut is before the first instruction, where the continuation pointer
is already at the end of the code. -/
theorem countOnce_keepsCp :
    KeepsCp countOnce 0 ⟨queueOfOne, ⟨freshMachine, budget 1⟩⟩ [0, 1, 2] := by
  intro j pr hj hpr
  have hfirst : j = 0 := by
    simp only [World.reductions, budget, cutAt, List.length_cons, List.length_nil] at hj
    omega
  subst hfirst
  cases hpr
  rfl

/-- A cut before the first instruction is in place, and the run is the uncut one. -/
theorem countOnce_transparent :
    ∃ sl, Alone queueOfOne 0 ∧
      beamEmuExecuteCode countOnce 0 ⟨freshMachine, budget 4000⟩ = some sl ∧ sl.res = .errHalt ∧
      Transparent countOnce 0 ⟨queueOfOne, ⟨freshMachine, budget 1⟩⟩ sl := by
  obtain ⟨sl, hsl, hhalt, htr, _⟩ := countOnce_uncut
  refine ⟨sl, alone_queueOfOne, hsl, hhalt,
    ((transparent_iff_resumesInPlace alone_queueOfOne hsl hhalt).1
      (htr ▸ countOnce_keepsCp)).mpr ?_⟩
  intro j ip hip
  rw [htr] at hip
  cases j with
  | zero => cases hip; exact ⟨rfl, rfl⟩
  | succ j =>
    rw [List.getElem?_eq_none (by simp only [World.reductions, budget, cutAt]; simp; omega)] at hip
    cases hip

/-- **With three reductions the addition is made twice**: the process is cut before `HALT` and
starts again, so `x1` ends as 2 and five instructions are executed for three. -/
theorem cut_repeats_addition :
    ∃ sl, Alone queueOfOne 0 ∧
      beamEmuExecuteCode countOnce 0 ⟨freshMachine, budget 4000⟩ = some sl ∧ sl.res = .errHalt ∧
      (sl.world.procs 0).frame.xRegs 1 = makeSmallInt 1#64 ∧
      (runToHalt countOnce 2 ⟨queueOfOne, ⟨freshMachine, budget 3⟩⟩).map
          (fun t => (t.trace, (t.sched.world.procs 0).frame.xRegs 1))
        = some ([0, 1, 0, 1, 2], makeSmallInt 2#64) ∧
      ¬ Transparent countOnce 0 ⟨queueOfOne, ⟨freshMachine, budget 3⟩⟩ sl := by
  obtain ⟨sl, hsl, hhalt, htr, hx⟩ := countOnce_uncut
  refine ⟨sl, alone_queueOfOne, hsl, hhalt, hx, rfl, ?_⟩
  rintro ⟨n, t, ht, _, _, _, _, _, _, htrace⟩
  have hcut := (scheduled_trace (by decide) n alone_queueOfOne ht).2 0 2
    (by rw [htrace, htr]; rfl)
  exact absurd hcut.1 (by decide)

end BeamModular
