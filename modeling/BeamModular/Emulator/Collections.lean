import BeamModular.Emulator.Faithful
import BeamModular.Memory.Gc

/-!
# Collections between the calls

On terms a collection does nothing, except that room comes back.  Here this is proved of
`beam_gc_collect_process`, and with it that a host may collect any process between any two
calls of the interpreter.

The words that others hold into the old heap are lost with it: `Unshared` says that there are none,
for the process that is collected.
The interpreter itself never collects; it is the host that calls, makes lists, and collects, and
`Attended` is what each of its acts preserves.
-/

namespace BeamModular

theorem Collected.writes {r : Roots} {m m' : Memory} {p p' : Process}
    (h : Collected r m p m' p') : OwnWrites m p m' p' where
  kept := h.kept
  fresh a ha := by
    obtain ⟨i, hi, rfl⟩ := InBlock.exists_slot ha
    rw [h.capacity] at hi
    exact Or.inr (h.fresh i hi)
  blocks := h.blocks
  base := Or.inr h.base

/-! ### On terms -/

/-- No tuple anywhere in the term, as a test. -/
def Term.tupleFree : Term → Bool
  | imm _ => true
  | cons head tail => head.tupleFree && tail.tupleFree
  | tuple _ _ => false

theorem Term.tupleFree_iff {t : Term} : t.tupleFree = true ↔ t.TupleFree := by
  induction t with
  | imm => exact iff_of_true rfl trivial
  | cons head tail ihHead ihTail =>
    rw [Term.tupleFree, Bool.and_eq_true, ihHead, ihTail]
    rfl
  | tuple => exact iff_of_false Bool.noConfusion id

namespace TermProc

/-- The words that lists of the registers take, a shared one once for each place it is in. -/
def regWords (p : TermProc) : Nat :=
  ((List.finRange numXRegisters).map fun i => (p.regs i).words).sum

/-- **A collection only brings room back.**  A register with a tuple would lose it, a stack word
with the tag of a pointer would be followed, and lists that share more than there is room for would
be cut short: then there is no result. -/
def collect (cap : Nat) (p : TermProc) : Option TermProc :=
  if (∀ i, (p.regs i).tupleFree = true) ∧ p.stack.all (fun w => decide (IsImmediate w)) = true ∧
      p.regWords + p.stack.length ≤ cap then
    some { p with room := cap - p.stack.length - p.regWords }
  else none

theorem collect_eq_some {cap : Nat} {p p' : TermProc} (h : p.collect cap = some p') :
    (∀ i, (p.regs i).TupleFree) ∧ (∀ w ∈ p.stack, IsImmediate w) ∧
      p.regWords + p.stack.length ≤ cap ∧
      p' = { p with room := cap - p.stack.length - p.regWords } := by
  unfold collect at h
  split at h
  · rename_i hcond
    cases h
    exact ⟨fun i => Term.tupleFree_iff.mp (hcond.1 i),
      fun w hw => of_decide_eq_true (List.all_eq_true.mp hcond.2.1 w hw), hcond.2.2, rfl⟩
  · cases h

/-- What the roots of a process mean that is this one on terms. -/
def roots (u : TermProc) (p : Process) : Roots where
  x := u.regs
  slot s := .imm (u.stack.getD (s - p.stackTop.toNat) 0#64)

end TermProc

/-! ### One process -/

section Process

variable {view view' rest m m' : Memory} {p p' : Process} {u u' : TermProc}

theorem WordsAt.get {ws : List Word} {a i : Nat} {w : Word} (h : WordsAt m a ws)
    (hi : ws[i]? = some w) : m.cell (a + 8 * i) = some w := by
  induction ws generalizing a i with
  | nil => cases hi
  | cons v ws ih =>
    cases i with
    | zero => cases hi; exact h.1
    | succ i =>
      rw [show a + 8 * (i + 1) = a + 8 + 8 * i by omega]
      exact ih h.2 hi

theorem WordsAt.of_get {ws : List Word} {a : Nat}
    (h : ∀ i w, ws[i]? = some w → m.cell (a + 8 * i) = some w) : WordsAt m a ws := by
  induction ws generalizing a with
  | nil => exact trivial
  | cons v ws ih =>
    refine ⟨h 0 v rfl, ih fun i w hi => ?_⟩
    rw [show a + 8 + 8 * i = a + 8 * (i + 1) by omega]
    exact h (i + 1) w hi

theorem Mirrors.slot (h : Mirrors view m p u) {s : Nat} (h1 : p.stackTop.toNat ≤ s)
    (h2 : s < p.heapCapacity.toNat) :
    ∃ w, u.stack[s - p.stackTop.toNat]? = some w ∧ m.cell (p.heap + 8 * s) = some w ∧
      (u.roots p).slot s = .imm w := by
  have hdepth := h.depth
  have hlt : s - p.stackTop.toNat < u.stack.length := by omega
  refine ⟨u.stack[s - p.stackTop.toNat], List.getElem?_eq_getElem hlt, ?_, ?_⟩
  · have hw := h.stack.get (List.getElem?_eq_getElem hlt)
    rwa [Nat.add_assoc, ← Nat.mul_add, Nat.add_sub_cancel' h1] at hw
  · rw [TermProc.roots]
    dsimp only
    rw [List.getD_eq_getElem?_getD, List.getElem?_eq_getElem hlt]
    rfl

/-- The collector follows the registers, and takes the stack words for leaves. -/
theorem Mirrors.shown (h : Mirrors view m p u) (hsub : view.Extends m)
    (hstack : ∀ w ∈ u.stack, IsImmediate w) : (u.roots p).Shown m p := by
  refine ⟨fun i => ((h.regs i).extends hsub).shows.1, fun s h1 h2 => ?_⟩
  obtain ⟨w, hmem, hw, hslot⟩ := h.slot h1 h2
  have himm := hstack w (List.mem_of_getElem? hmem)
  exact ⟨w, hw, by rw [hslot]; exact ⟨rfl, himm.not_list, himm.not_tuple m⟩⟩

theorem roots_slotWords (u : TermProc) (p : Process) (s n : Nat) :
    (u.roots p).slotWords s n = 0 := by
  simp [Roots.slotWords, TermProc.roots, Term.words]

/-- A collection that the machine on terms can make has room for its copies. -/
theorem Mirrors.fit (h : Mirrors view m p u) (hu : u.collect p.heapCapacity.toNat = some u') :
    (u.roots p).Fit p := by
  obtain ⟨_, _, hfit, _⟩ := TermProc.collect_eq_some hu
  have hdepth := h.depth
  rw [Roots.Fit, roots_slotWords]
  change u.regWords + 0 + _ ≤ _
  omega

/-- **The process after a collection**, to someone who reads the used words of its new heap. -/
theorem Mirrors.collected (h : Mirrors view m p u) (hcol : Collected (u.roots p) m p m' p')
    (hu : u.collect p.heapCapacity.toNat = some u')
    (hused : ∀ i < p'.heapTop.toNat, view'.cell (p'.heap + 8 * i) = m'.cell (p'.heap + 8 * i))
    (hmail : MailShows view' p.mailbox u.passed u.ahead) : Mirrors view' m' p' u' := by
  obtain ⟨htop, hx, hslots⟩ := hcol.complete (h.fit hu)
  obtain ⟨hfree, _, hfit, rfl⟩ := TermProc.collect_eq_some hu
  have hdepth := h.depth
  rw [Roots.treeWords_eq, roots_slotWords, Nat.add_zero] at htop
  have htop : p'.heapTop.toNat = u.regWords := htop
  have hframe : p'.frame = { p.frame with xRegs := p'.frame.xRegs } :=
    congrArg Process.frame hcol.same
  have hst := hcol.stackTop
  have hcap := hcol.capacity
  have hinside : p'.heap + 8 * p'.heapTop.toNat ≤ addressSpace := by
    have := hcol.heapOk.inside
    have := hcol.heapOk.top
    omega
  refine ⟨?_, fun i => ?_, ?_, ?_, ?_, ?_, ?_, ?_, ?_⟩
  · rw [hcol.same]
    exact h.pid
  · have hlaid : Laid view' p'.heap 0 p'.heapTop.toNat (p'.frame.xRegs i) (u.regs i) :=
      (hx i).mono (Nat.le_refl _) (Nat.le_refl _) fun j _ hj => hused j hj
    exact (hlaid.denotes_iff hcol.heapOk.aligned hinside (h.regs i).shows.2).mpr (hfree i)
  · rw [hframe]
    exact h.cp
  · rw [hframe]
    exact h.ip
  · refine .of_get fun i w (hi : u.stack[i]? = some w) => ?_
    have hlt := (List.getElem?_eq_some_iff.mp hi).1
    obtain ⟨v, hv, _, hslot⟩ := h.slot (s := p.stackTop.toNat + i) (by omega) (by omega)
    obtain ⟨w', hw', hl⟩ := hslots (p.stackTop.toNat + i) (by omega) (by omega)
    rw [hslot] at hl
    rw [Nat.add_sub_cancel_left, hi] at hv
    cases hv
    cases hl
    rwa [hst, Nat.add_assoc, ← Nat.mul_add]
  · rw [hst, hcap]
    exact hdepth
  · rw [hframe, hcap]
    exact h.handlers
  · rw [hcol.same]
    exact hmail
  · rw [hst, htop]
    dsimp only
    omega

theorem Mirrors.collect (h : Mirrors view m p u) (hsub : view.Extends m) (hok : ProcOk m p)
    (hu : u.collect p.heapCapacity.toNat = some u')
    (hgrant : (m.malloc (p.alloc 0) (wordBytes p.heapCapacity)).isSome) :
    ∃ m' p', beamGcCollectProcess m p = some (m', p', .ok) ∧ Collected (u.roots p) m p m' p' ∧
      Confined m p m' p' := by
  obtain ⟨_, hstack, _, _⟩ := TermProc.collect_eq_some hu
  obtain ⟨m', p', hc, hcol⟩ := collect_spec hok.heap (h.shown hsub hstack) hgrant
  have hframe : p'.frame = { p.frame with xRegs := p'.frame.xRegs } :=
    congrArg Process.frame hcol.same
  have hst := hcol.stackTop
  have hcap := hcol.capacity
  refine ⟨m', p', hc, hcol, ⟨hcol.heapOk, by rw [hst, hcap]; exact hok.stack, ?_, ?_⟩,
    hcol.writes⟩
  · rw [hframe, hcap]
    exact hok.handlers
  · rw [hcol.same]
    exact hok.mailbox

theorem Denotes.readable {w : Eterm} {t : Term} (h : Denotes view w t) (hsub : rest.Extends view)
    (hread : ∃ t, Denotes rest w t) : Denotes rest w t := by
  obtain ⟨t', ht'⟩ := hread
  rwa [h.unique (ht'.extends hsub)]

theorem forall₂_readable {L : List (Nat × Eterm)} {ts : List Term} (hsub : rest.Extends view)
    (h : List.Forall₂ (fun x t => Denotes view x.2 t) L ts)
    (hread : ∀ x ∈ L, ∃ t, Denotes rest x.2 t) :
    List.Forall₂ (fun x t => Denotes rest x.2 t) L ts := by
  induction h with
  | nil => exact .nil
  | cons hd _ ih =>
    exact .cons (hd.readable hsub (hread _ List.mem_cons_self))
      (ih fun x hx => hread x (List.mem_cons_of_mem _ hx))

theorem MailShows.readable {mb : Mailbox} {passed ahead : List Term} (hsub : rest.Extends view)
    (h : MailShows view mb passed ahead) (hread : ∀ x ∈ mb.messages, ∃ t, Denotes rest x.2 t) :
    MailShows rest mb passed ahead := by
  obtain ⟨before, after, hv, hp, ha, hg⟩ := h
  rw [hv.messages_eq] at hread
  exact ⟨before, after, hv,
    forall₂_readable hsub hp fun x hx => hread x (List.mem_append_left _ hx),
    forall₂_readable hsub ha fun x hx => hread x (List.mem_append_right _ hx), hg⟩

end Process

/-! ### All processes -/

/-- The used words of all heaps but one. -/
noncomputable def Machine.heapsBut (s : Machine) (live : ProcId → Prop) (q : ProcId) : Memory :=
  s.heaps fun q' => live q' ∧ q' ≠ q

/-- **Nobody looks into the heap of `q`**: what the registers of the others and all mailboxes hold
can be read without it. -/
structure Unshared (live : ProcId → Prop) (s : Machine) (q : ProcId) : Prop where
  regs : ∀ q', live q' → q' ≠ q → ∀ i, ∃ t, Denotes (s.heapsBut live q) ((s.procs q').x i) t
  messages : ∀ q', live q' → ∀ x ∈ (s.procs q').mailbox.messages,
    ∃ t, Denotes (s.heapsBut live q) x.2 t

section World

variable {s : Machine} {t : TermProcs} {q : ProcId} {u u' : TermProc}

theorem heapsBut_extends (s : Machine) (live : ProcId → Prop) (q : ProcId) :
    (s.heapsBut live q).Extends (s.heaps live) := by
  refine Memory.only_extends fun a v ⟨q', hq', hin⟩ ha => ⟨⟨q', hq'.1, hin⟩, ha⟩

theorem immediate_of_forall₂ {view : Memory} {L : List (Nat × Eterm)} {ts : List Term}
    (h : List.Forall₂ (fun x t => Denotes view x.2 t) L ts)
    (himm : ∀ t ∈ ts, t.word?.isSome = true) : ∀ x ∈ L, IsImmediate x.2 := by
  induction h with
  | nil => exact fun x hx => absurd hx List.not_mem_nil
  | cons hd _ ih =>
    rintro x (_ | ⟨_, hx⟩)
    · obtain ⟨w, hw⟩ := Option.isSome_iff_exists.mp (himm _ List.mem_cons_self)
      exact hd.immediate_of_word hw
    · exact ih (fun t ht => himm t (List.mem_cons_of_mem _ ht)) x hx

theorem Mirrored.unshared (h : Mirrored s t)
    (hregs : ∀ q' v, t q' = some v → q' ≠ q → ∀ i, (v.regs i).word?.isSome = true)
    (hmail : ∀ q' v, t q' = some v → ∀ msg ∈ v.passed ++ v.ahead, msg.word?.isSome = true) :
    Unshared t.Live s q where
  regs q' hq' hne i := by
    obtain ⟨v, hv⟩ := Option.isSome_iff_exists.mp hq'
    obtain ⟨w, hw⟩ := Option.isSome_iff_exists.mp (hregs q' v hv hne i)
    exact ⟨_, denotes_imm (((h.mirrors q' v hv).regs i).immediate_of_word hw)⟩
  messages q' hq' x hx := by
    obtain ⟨v, hv⟩ := Option.isSome_iff_exists.mp hq'
    obtain ⟨before, after, hview, hp, ha, _⟩ := (h.mirrors q' v hv).mailbox
    rw [hview.messages_eq] at hx
    exact ⟨_, denotes_imm (immediate_of_forall₂ (List.rel_append hp ha) (hmail q' v hv) x hx)⟩

/-- **A collection of one process**, and the others stay as they are. -/
theorem Mirrored.collect (h : Mirrored s t) (hq : t q = some u)
    (hu : u.collect (s.procs q).heapCapacity.toNat = some u') (hun : Unshared t.Live s q)
    (hgrant : (s.mem.malloc ((s.procs q).alloc 0)
      (wordBytes (s.procs q).heapCapacity)).isSome) :
    ∃ m' p', beamGcCollectProcess s.mem (s.procs q) = some (m', p', .ok) ∧
      p'.heapCapacity = (s.procs q).heapCapacity ∧
      Mirrored ⟨m', Function.update s.procs q p'⟩ (Function.update t q (some u')) := by
  have hlive := live_of_eq hq
  have hmir := h.mirrors q u hq
  have hok := h.separated.ok q hlive
  obtain ⟨m', p', hc, hcol, hconf⟩ :=
    hmir.collect (Memory.only_sub _ _) hok hu hgrant
  have hother : ∀ q', t.Live q' → q' ≠ q → ∀ i < (s.procs q').heapCapacity.toNat,
      m'.cell ((s.procs q').heap + 8 * i) = s.mem.cell ((s.procs q').heap + 8 * i) :=
    fun q' hq' hne => (hconf.writes.other (h.separated.ok q' hq').heap
      (h.separated.apart q q' hlive hq' hne.symm)).1
  let s' : Machine := ⟨m', Function.update s.procs q p'⟩
  -- the other heaps are as they were
  have hrest : (s.heapsBut t.Live q).Extends (s'.heaps t.Live) := by
    refine Memory.only_extends fun a v ⟨q', ⟨hq', hne⟩, hin⟩ ha => ?_
    obtain ⟨i, hi, rfl⟩ := hin.exists_slot
    refine ⟨⟨q', hq', ?_⟩, ?_⟩
    · dsimp only [s']
      rwa [Function.update_of_ne hne]
    · rw [hother q' hq' hne i (hi.trans_le (h.separated.ok q' hq').heap.top)]
      exact ha
  have hsub := heapsBut_extends s t.Live q
  refine ⟨m', p', hc, by rw [hcol.same], ⟨?_, fun q' v hv => ?_⟩⟩
  · rw [live_update hlive]
    exact h.separated.confined hlive hconf
  · rw [live_update hlive]
    by_cases hqq : q' = q
    · subst hqq
      rw [Function.update_self] at hv
      cases hv
      dsimp only
      rw [Function.update_self]
      refine hmir.collected hcol hu (fun i hi => Memory.cell_only ⟨q', hlive, ?_⟩)
        ((hmir.mailbox.readable hsub (hun.messages q' hlive)).extends hrest)
      dsimp only
      rw [Function.update_self]
      exact inBlock_slot.mpr hi
    · rw [Function.update_of_ne hqq] at hv
      dsimp only
      rw [Function.update_of_ne hqq]
      have hlive' := live_of_eq hv
      have hmir' := h.mirrors q' v hv
      have hread : Mirrors (s.heapsBut t.Live q) s.mem (s.procs q') v :=
        { hmir' with
          regs := fun i => (hmir'.regs i).readable hsub (hun.regs q' hlive' hqq i)
          mailbox := hmir'.mailbox.readable hsub (hun.messages q' hlive') }
      exact (hread.extends hrest).sameWords (hother q' hlive' hqq)

end World

/-! ### A list that the host makes -/

/-- The host makes a list cell of what two registers hold, and puts it into a register. -/
def hostCons (m : Memory) (p : Process) (dst head tail : Fin numXRegisters) :
    Option (Memory × Process) :=
  (beamMakeList m p (p.x head) (p.x tail)).map fun r => (r.1, r.2.1.setX dst r.2.2)

/-- On terms this takes two words of the room. -/
def TermProc.hostCons (p : TermProc) (dst head tail : Fin numXRegisters) : Option TermProc :=
  if 2 ≤ p.room then
    some ({ p with room := p.room - 2 }.set dst (.cons (p.regs head) (p.regs tail)))
  else none

theorem denotes_cons {m : Memory} {a : Nat} {head tail : Eterm} {t₁ t₂ : Term} (ha : a % 8 = 0)
    (hl : a < addressSpace) (h1 : m.cell a = some head) (h2 : m.cell (a + 8) = some tail)
    (hd1 : Denotes m head t₁) (hd2 : Denotes m tail t₂) :
    Denotes m (tagAddr a tagPrimaryList) (.cons t₁ t₂) := by
  have haddr : addrOf (tagAddr a tagPrimaryList) = a := addrOf_tagAddr ha hl (by decide)
  have hlist := list_tagAddr ha hl
  refine ⟨hlist, ⟨head, ?_, hd1⟩, tail, ?_, hd2⟩
  · rw [beamListHead, if_pos hlist, haddr, h1]
  · rw [beamListTail, if_pos hlist, haddr, h2]

theorem Mirrors.hostCons {view m : Memory} {p : Process} {u u' : TermProc}
    {dst head tail : Fin numXRegisters} (h : Mirrors view m p u) (hok : ProcOk m p)
    (hu : u.hostCons dst head tail = some u') :
    ∃ m' p', BeamModular.hostCons m p dst head tail = some (m', p') ∧
      Tracks view m p (.goto u' 0) (.goto m' p' 0) ∧ Confined m p m' p' ∧
      p'.heapCapacity = p.heapCapacity := by
  unfold TermProc.hostCons at hu
  split at hu
  swap
  · cases hu
  rename_i hroom
  cases hu
  obtain ⟨halloc, htop, -⟩ := h.alloc hok (n := 2#64) hroom
  have htop : (p.heapTop + 2#64).toNat = p.heapTop.toNat + 2 := htop
  have hr := h.room
  have hstack := hok.stack
  have halign := hok.heap.aligned
  have hinside := hok.heap.inside
  let hp := p.heap + 8 * p.heapTop.toNat
  let p₁ : Process := { p with heapTop := p.heapTop + 2#64 }
  obtain ⟨m₂, hs, hkeep, h₂, hcells⟩ := h.stored hok (n := 2#64) hroom
    (show ∀ x ∈ [(0, p.x head), (1, p.x tail)], x.1 < (2#64).toNat by simp) (by simp)
  have hw : m.writeAll hp [p.x head, p.x tail] = some m₂ := hs
  have hc₁ : Confined m p m p₁ := by
    refine ⟨⟨{ hok.heap with top := ?_ }, hok.stack, hok.handlers, hok.mailbox⟩, .of_same rfl rfl⟩
    dsimp only [p₁]
    omega
  have hc₂ : Confined m p m₂ p₁ := hc₁.trans (hc₁.ok.writeAll _
    (show p.heapTop.toNat + 2 ≤ p₁.heapCapacity.toNat by dsimp only [p₁]; omega) hw)
  refine ⟨m₂, p₁.setX dst (tagAddr hp tagPrimaryList), ?_,
    ⟨⟨hkeep.heap, hkeep.top, hkeep.words⟩, fun view' hview hnew => ?_, trivial, rfl⟩,
    hc₂.trans (hc₂.ok.sameBut rfl), rfl⟩
  · rw [BeamModular.hostCons, beamMakeList, halloc]
    dsimp only [bumpHeap]
    rw [hw]
    rfl
  · have hcell := hcells view' hnew
    exact (h₂.extends hview).setX dst (denotes_cons (by dsimp only [hp]; omega)
      (by dsimp only [hp]; omega) (hcell _ List.mem_cons_self)
      (hcell _ (List.mem_cons_of_mem _ List.mem_cons_self)) ((h.regs head).extends hview)
      ((h.regs tail).extends hview))

/-! ### What a host does -/

/-- A host calls the interpreter, makes lists, and collects. -/
inductive HostAct
  | call (code : List Instruction) (q : ProcId)
  | cons (q : ProcId) (dst head tail : Fin numXRegisters)
  | collect (q : ProcId)

/-- One act, and what a call shows. -/
def World.attend (w : World) : HostAct → Option (World × Option Slice)
  | .call code q => (beamEmuExecuteCode code q w).map fun sl => (sl.world, some sl)
  | .cons q dst head tail => (hostCons w.mem (w.procs q) dst head tail).map fun r =>
      ({ w with mem := r.1, procs := Function.update w.procs q r.2 }, none)
  | .collect q => (beamGcCollectProcess w.mem (w.procs q)).map fun r =>
      ({ w with mem := r.1, procs := Function.update w.procs q r.2.1 }, none)

/-- The world after an act. -/
def World.after (w : World) (act : HostAct) : Option World := (w.attend act).map Prod.fst

/-- The same on terms, for heaps of these capacities. -/
def TermWorld.attend (cap : ProcId → Nat) (t : TermWorld) :
    HostAct → Option (TermWorld × Option TermSlice)
  | .call code q => (t.call code q).map fun sl => (sl.world, some sl)
  | .cons q dst head tail => (t.procs q).bind fun u => (u.hostCons dst head tail).map fun u' =>
      ({ t with procs := Function.update t.procs q (some u') }, none)
  | .collect q => (t.procs q).bind fun u => (u.collect (cap q)).map fun u' =>
      ({ t with procs := Function.update t.procs q (some u') }, none)

/-- A collection is made where nobody else looks into the heap, and gets its new block. -/
def CollectsAlone (live : ProcId → Prop) (w : World) : HostAct → Prop
  | .collect q => Unshared live w.toMachine q ∧
      (w.mem.malloc ((w.procs q).alloc 0) (wordBytes (w.procs q).heapCapacity)).isSome
  | _ => True

/-- What can be seen of a call is read off the world that the call leaves. -/
def ReplyShows : Option Slice → Option TermSlice → Prop
  | some sl, some ts => SliceShows (sl.world.heaps ts.world.procs.Live) ts sl
  | none, none => True
  | _, _ => False

theorem ReplyShows.trace {sl : Option Slice} {ts : Option TermSlice} (h : ReplyShows sl ts) :
    sl.map Slice.trace = ts.map TermSlice.trace := by
  cases sl with
  | none =>
    cases ts with
    | none => rfl
    | some ts => exact h.elim
  | some sl =>
    cases ts with
    | none => exact h.elim
    | some ts => exact congrArg some (SliceShows.trace h)

/-- The worlds mirror each other, and the heaps of the living processes have these capacities. -/
structure Attended (live : ProcId → Prop) (cap : ProcId → Nat) (w : World) (t : TermWorld) : Prop
    extends MirroredWorld w t where
  there : t.procs.Live = live
  capacity : ∀ q, live q → (w.procs q).heapCapacity.toNat = cap q

section Acts

variable {live : ProcId → Prop} {cap : ProcId → Nat} {w : World} {t t' : TermWorld} {q : ProcId}

theorem Attended.update (h : Attended live cap w t) {u : TermProc} (hq : t.procs q = some u)
    {m : Memory} {p : Process} {u' : TermProc} (hcap : p.heapCapacity = (w.procs q).heapCapacity)
    (hmir : Mirrored ⟨m, Function.update w.procs q p⟩ (Function.update t.procs q (some u'))) :
    Attended live cap { w with mem := m, procs := Function.update w.procs q p }
      { t with procs := Function.update t.procs q (some u') } := by
  refine ⟨⟨hmir, h.sched⟩, ?_, fun q' hq' => ?_⟩
  · dsimp only
    rw [live_update (live_of_eq hq), h.there]
  · dsimp only
    rw [Function.update_apply]
    split
    · rename_i he
      rw [hcap, ← he]
      exact h.capacity q' hq'
    · exact h.capacity q' hq'

theorem Attended.attend (h : Attended live cap w t) {act : HostAct} (hok : CollectsAlone live w act)
    {reply : Option TermSlice} (hact : t.attend cap act = some (t', reply)) :
    ∃ w' sl, w.attend act = some (w', sl) ∧ Attended live cap w' t' ∧ ReplyShows sl reply := by
  cases act with
  | call code q =>
    obtain ⟨ts, hts, he⟩ := Option.map_eq_some_iff.mp hact
    cases he
    obtain ⟨sl, hsl, hmir, hg, hshow⟩ := h.toMirroredWorld.call hts
    refine ⟨sl.world, some sl, ?_, ⟨hmir, hg.live.trans h.there, fun q' hq' => ?_⟩, hshow⟩
    · rw [World.attend, hsl]
      rfl
    · rw [hg.capacity q' (h.there.symm ▸ hq')]
      exact h.capacity q' hq'
  | cons q dst head tail =>
    obtain ⟨u, hq, hact⟩ := Option.bind_eq_some_iff.mp hact
    obtain ⟨u', hu, he⟩ := Option.map_eq_some_iff.mp hact
    cases he
    obtain ⟨m', p', hc, htr, hconf, hcap⟩ := ((h.mirrors q u hq).hostCons
      (h.separated.ok q (live_of_eq hq)) hu)
    obtain ⟨hmir, _⟩ := h.toMirrored.update hq htr hconf hcap
    refine ⟨_, none, ?_, h.update hq hcap hmir, trivial⟩
    rw [World.attend, hc]
    rfl
  | collect q =>
    obtain ⟨u, hq, hact⟩ := Option.bind_eq_some_iff.mp hact
    obtain ⟨u', hu, he⟩ := Option.map_eq_some_iff.mp hact
    cases he
    obtain ⟨hun, hgrant⟩ := hok
    rw [← h.there] at hun
    rw [← h.capacity q (h.there ▸ live_of_eq hq)] at hu
    obtain ⟨m', p', hc, hcap, hmir⟩ := h.toMirrored.collect hq hu hun hgrant
    refine ⟨_, none, ?_, h.update hq hcap hmir, trivial⟩
    rw [World.attend, hc]
    rfl

/-- **Collections are not seen.**  Whatever calls, lists and collections of whatever processes
follow each other, if the machine on terms can do it all, to which a collection only brings room
back, then the interpreter and the collector do it without a fault, and what the calls return, pass
out, execute, examine and send is the same; as long as each collection gets its new block, and
nobody but the process itself looks into its heap then. -/
theorem collections_unseen {acts : List HostAct} {replies : List (Option TermSlice)}
    (h : MirroredWorld w t) (hcap : ∀ q, t.procs.Live q → (w.procs q).heapCapacity.toNat = cap q)
    (hok : Along World.after (CollectsAlone t.procs.Live) w acts)
    (hrun : answers (TermWorld.attend cap) t acts = some (t', replies)) :
    ∃ w' slices, answers World.attend w acts = some (w', slices) ∧ MirroredWorld w' t' ∧
      List.Forall₂ ReplyShows slices replies := by
  have hstep : ∀ w u act u' reply, Attended t.procs.Live cap w u →
      CollectsAlone t.procs.Live w act → u.attend cap act = some (u', reply) →
        ∃ w' sl, w.attend act = some (w', sl) ∧ Attended t.procs.Live cap w' u' ∧
          ReplyShows sl reply ∧ ∀ sl reply, ReplyShows sl reply → ReplyShows sl reply := by
    intro w u act u' reply h hok hact
    obtain ⟨w', sl, hw, h', hshow⟩ := h.attend hok hact
    exact ⟨w', sl, hw, h', hshow, fun _ _ hshow => hshow⟩
  obtain ⟨w', slices, hrun', h', hshow, -⟩ := simulates_along (Q := fun _ _ => ReplyShows) hstep acts
    ⟨h, rfl, hcap⟩ hok hrun
  exact ⟨w', slices, hrun', h'.toMirroredWorld, hshow⟩

end Acts

/-! ### Two processes -/

/-- Two cells, of which the first is given up; a collection, without which there is no room for the
third; and a look at it. -/
def cellActs : List HostAct :=
  [.cons 0 0 1 2, .cons 0 0 1 2, .collect 0, .cons 0 3 0 0,
    .call [{ opcode := .getList, arg1 := 3, arg2 := 0, arg3 := 1 }, { opcode := .halt }] 0]

theorem attended_neighbours : Attended neighboursOnTerms.procs.Live (fun _ => 4) neighbours
    neighboursOnTerms := by
  refine ⟨mirrored_neighbours, rfl, fun q _ => ?_⟩
  unfold neighbours
  dsimp only
  rw [Function.update_apply, Function.update_apply]
  split
  · rfl
  · split <;> rfl

/-- When it comes to the collection, the other process has nothing, and there is memory. -/
theorem cellActs_alone : Along World.after (CollectsAlone neighboursOnTerms.procs.Live) neighbours
    cellActs := by
  refine ⟨trivial, fun s₁ h₁ => ⟨trivial, fun s₂ h₂ => ⟨?_, fun _ _ => ⟨trivial, fun _ _ =>
    ⟨trivial, fun _ _ => trivial⟩⟩⟩⟩⟩
  have hgrant : ((run World.after neighbours [.cons 0 0 1 2, .cons 0 0 1 2]).map fun w =>
      (w.mem.malloc ((w.procs 0).alloc 0) (wordBytes (w.procs 0).heapCapacity)).isSome)
        = some true := by decide +kernel
  rw [run, h₁, Option.bind_some, run, h₂, Option.bind_some] at hgrant
  refine ⟨?_, Option.some.inj hgrant⟩
  obtain ⟨w₁, _, ha₁, hm₁, _⟩ := attended_neighbours.attend
    (show CollectsAlone _ _ (.cons 0 0 1 2) from trivial)
    (show neighboursOnTerms.attend (fun _ => 4) (.cons 0 0 1 2) = some (_, none) from rfl)
  rw [World.after, ha₁] at h₁
  cases h₁
  obtain ⟨w₂, _, ha₂, hm₂, _⟩ := hm₁.attend
    (show CollectsAlone _ _ (.cons 0 0 1 2) from trivial)
    (show TermWorld.attend (fun _ => 4) _ (.cons 0 0 1 2) = some (_, none) from rfl)
  rw [World.after, ha₂] at h₂
  cases h₂
  have hother : ∀ q v, q ≠ 0 → neighboursOnTerms.procs q = some v → v = .create 2#32 4 := by
    intro q v hne hv
    unfold neighboursOnTerms at hv
    dsimp only at hv
    rw [Function.update_apply, Function.update_of_ne hne] at hv
    split at hv <;> cases hv
    rfl
  have hun := hm₂.toMirrored.unshared (q := 0) (fun q v hv hne i => ?_) fun q v hv msg hmsg => ?_
  · rwa [hm₂.there] at hun
  · dsimp only at hv
    rw [Function.update_of_ne hne, Function.update_of_ne hne] at hv
    rw [hother q v hne hv]
    rfl
  · by_cases hq : q = 0
    · subst hq
      dsimp only at hv
      rw [Function.update_self] at hv
      cases hv
      cases hmsg
    · dsimp only at hv
      rw [Function.update_of_ne hq, Function.update_of_ne hq] at hv
      rw [hother q v hq hv] at hmsg
      cases hmsg

theorem collections_unseen_neighbours : ∃ w' slices,
    answers World.attend neighbours cellActs = some (w', slices) ∧
      slices.map (Option.map Slice.trace) = [none, none, none, none, some [0, 1]] := by
  obtain ⟨⟨t', replies⟩, hrun, htrace⟩ := Option.map_eq_some_iff.mp
    (show (answers (TermWorld.attend fun _ => 4) neighboursOnTerms cellActs).map
      (fun r => r.2.map (Option.map TermSlice.trace)) =
        some [none, none, none, none, some [0, 1]] by decide +kernel)
  obtain ⟨w', slices, hrun', _, hshow⟩ := collections_unseen mirrored_neighbours
    attended_neighbours.capacity cellActs_alone hrun
  refine ⟨w', slices, hrun', ?_⟩
  have hsame : List.Forall₂ (· = ·) (slices.map (Option.map Slice.trace))
      (replies.map (Option.map TermSlice.trace)) := by
    rw [List.forall₂_map_left_iff, List.forall₂_map_right_iff]
    exact hshow.imp fun _ _ h => ReplyShows.trace h
  exact (List.forall₂_eq_eq_eq ▸ hsame).trans htrace

end BeamModular
