import BeamModular.Emulator.Delivery
import BeamModular.Emulator.InPlace
import BeamModular.Memory.Gc
import BeamModular.Memory.NoLeaks

/-!
# Processes from their creation to their destruction

A host creates processes, builds terms on their heaps, pushes and pops, sends to them and
receives from them, has them run and has them collected, and destroys them.  Everything
that can happen to a heap block on the way is `Memory.Moves`: a process stores words in
it, C's `realloc` moves it when a request or a closure does not fit, and a collection puts
another one in its place.  What can happen to a mailbox is `Mailbox.step`.

`Population.GrowsAsC` is the condition on what the host does: no heap grows by a `realloc`
that keeps the old block, as the arena's does, or that is asked for no bytes because their
number has wrapped around, which releases the heap.

`Population.Tidy` is the invariant: the live blocks are the heaps of the living processes,
each has its own, nothing else can be read, and every mailbox is whole and counts its
nodes.  `processes_leave_nothing` draws the conclusion.
-/

namespace BeamModular

/-! ### The host -/

/-- What a host does with one process, other than to run it. -/
inductive OwnOp
  | allocHeap (neededWords : Word)
  | makeTuple (arity : Word) (elements : Option (List Eterm))
  | makeList (head tail : Eterm)
  | push (term : Eterm)
  | pop
  | collect
  /-- Sends, receives and the moves of the save cursor. -/
  | mailbox (op : MailboxOp)

def ownStep (m : Memory) (p : Process) : OwnOp → Option (Memory × Process)
  | .allocHeap neededWords =>
    let r := beamProcessAllocHeap m p neededWords
    some (r.1, r.2.1)
  | .makeTuple arity elements => (beamMakeTuple m p arity elements).map fun r => (r.1, r.2.1)
  | .makeList head tail => (beamMakeList m p head tail).map fun r => (r.1, r.2.1)
  | .push term => (beamProcessStackPush m p term).map fun r => (r.1, r.2.1)
  | .pop => (beamProcessStackPop m p).map fun r => (m, r.1)
  | .collect => (beamGcCollectProcess m p).map fun r => (r.1, r.2.1)
  | .mailbox op => (p.mailbox.step op).map fun mb => (m, { p with mailbox := mb })

/-- The words an operation asks the heap for. -/
def OwnOp.request : OwnOp → Option Word
  | .allocHeap neededWords => some neededWords
  | .makeTuple arity _ => some (arity + 1#64)
  | .makeList _ _ => some 2#64
  | _ => none

/-- The processes, and which of them are there. -/
structure Population extends World where
  living : Finset ProcId

/-- What a host does. -/
inductive LifeOp
  | create (q : ProcId) (pid : BitVec 32) (initialHeapWords : Word) (alloc : Nat → Reply)
      (mailboxAlloc : Nat → Bool)
  | own (q : ProcId) (op : OwnOp)
  | call (code : List Instruction) (q : ProcId)
  | destroy (q : ProcId)

namespace Population

/-- Nobody is there, and nothing is allocated. -/
def vacant (w : World) : Population := { w with mem := Memory.empty, living := ∅ }

/-- There is no result where a process is used that is not there, by the host or as the target of a
message, and where the code reads or writes what is not there. -/
def step (s : Population) : LifeOp → Option Population
  | .create q pid initialHeapWords alloc mailboxAlloc =>
    if q ∈ s.living then none
    else match beamProcessCreate s.mem pid initialHeapWords alloc mailboxAlloc with
      | none => some s
      | some (m, p) => some
        { mem := m
          procs := Function.update s.procs q p
          sched := Function.update s.sched q SchedInfo.create
          living := insert q s.living }
  | .own q op =>
    if q ∈ s.living then
      (ownStep s.mem (s.procs q) op).map fun r =>
        { s with mem := r.1, procs := Function.update s.procs q r.2 }
    else none
  | .call code q =>
    if q ∈ s.living then
      (beamEmuExecuteCode code q s.toWorld).bind fun sl =>
        if sl.events.all (fun
          | .sent target _ => target ∈ s.living
          | .examined _ => true) then some { sl.world with living := s.living } else none
    else none
  | .destroy q =>
    if q ∈ s.living then
      ((s.procs q).mailbox.destroy).map fun _ =>
        { s with mem := beamProcessDestroy s.mem (s.procs q), living := s.living.erase q }
    else none

/-- Where the host makes a heap grow, or a closure of the code it runs does, the heap grows as C's
`realloc` lets it. -/
def GrowsAsC (s : Population) : LifeOp → Prop
  | .own q op => ∀ n, op.request = some n → BeamModular.GrowsAsC s.mem (s.procs q) n
  | .call code q => ∀ t ip instr, Attempts code q s.toWorld t ip instr →
      instr.opcode = .makeFun2 →
        BeamModular.GrowsAsC t.mem (t.procs q) ((instr.arg2 + 2#32).setWidth 64)
  | _ => True

end Population

/-! ### The heap block -/

section Moves

variable {code : List Instruction} {instr : Instruction} {m m' : Memory} {p p' : Process}
  {ip : Nat} {e : Effect} {s s' : Machine} {self q : ProcId}

open Memory (Moves SameShape)

theorem beamMakeTuple_moves {arity : Word} {elements : Option (List Eterm)}
    {r : Memory × Process × Eterm} (hgrow : GrowsAsC m p (arity + 1#64))
    (h : beamMakeTuple m p arity elements = some r) : Moves m p.heap r.1 r.2.1.heap := by
  have ha := beamProcessAllocHeap_moves hgrow
  unfold beamMakeTuple at h
  split at h
  · rename_i hnone
    rw [hnone] at ha
    cases h
    exact ha
  · rename_i hsome
    rw [hsome] at ha
    obtain ⟨m₁, h1, h⟩ := Option.bind_eq_some_iff.mp h
    obtain ⟨ws, _, h⟩ := Option.bind_eq_some_iff.mp h
    obtain ⟨m₂, h2, rfl⟩ := Option.map_eq_some_iff.mp h
    exact ha.trans (.of_shape ((SameShape.of_write h1).trans (.of_writeAll _ h2)))

theorem beamMakeList_moves {head tail : Eterm} {r : Memory × Process × Eterm}
    (hgrow : GrowsAsC m p 2#64) (h : beamMakeList m p head tail = some r) :
    Moves m p.heap r.1 r.2.1.heap := by
  have ha := beamProcessAllocHeap_moves hgrow
  unfold beamMakeList at h
  split at h
  · rename_i hnone
    rw [hnone] at ha
    cases h
    exact ha
  · rename_i hsome
    rw [hsome] at ha
    obtain ⟨m₁, h1, rfl⟩ := Option.map_eq_some_iff.mp h
    exact ha.trans (.of_shape (.of_writeAll _ h1))

/-! #### A collection -/

theorem beamGcCollectProcess_moves (hb : (m.block p.heap).isSome)
    {r : Memory × Process × Result} (h : beamGcCollectProcess m p = some r) :
    Moves m p.heap r.1 r.2.1.heap := by
  unfold beamGcCollectProcess at h
  split at h
  · cases h; exact .refl _ _
  dsimp only at h
  split at h
  · cases h; exact .refl _ _
  · rename_i toSpace m₁ hm
    obtain ⟨s, hs, h⟩ := Option.bind_eq_some_iff.mp h
    obtain ⟨⟨m₂, top₂⟩, h2, rfl⟩ := Option.map_eq_some_iff.mp h
    obtain ⟨hregs, hslots⟩ := loops_sameShape hs h2
    exact .of_copy hb hm (hregs.trans hslots)

theorem ownStep_moves (hb : (m.block p.heap).isSome) {op : OwnOp}
    (hgrow : ∀ n, op.request = some n → GrowsAsC m p n)
    (h : ownStep m p op = some (m', p')) : Moves m p.heap m' p'.heap := by
  cases op with
  | allocHeap n => cases h; exact beamProcessAllocHeap_moves (hgrow n rfl)
  | makeTuple arity elements =>
    obtain ⟨r, hr, he⟩ := Option.map_eq_some_iff.mp h
    cases he
    exact beamMakeTuple_moves (hgrow _ rfl) hr
  | makeList head tail =>
    obtain ⟨r, hr, he⟩ := Option.map_eq_some_iff.mp h
    cases he
    exact beamMakeList_moves (hgrow _ rfl) hr
  | push term =>
    obtain ⟨r, hr, he⟩ := Option.map_eq_some_iff.mp h
    cases he
    exact (beamProcessStackPush_moved hr).1.inPlace.moves
  | pop =>
    obtain ⟨r, hr, he⟩ := Option.map_eq_some_iff.mp h
    cases he
    exact (beamProcessStackPop_moved hr).1.inPlace.moves
  | collect =>
    obtain ⟨r, hr, he⟩ := Option.map_eq_some_iff.mp h
    cases he
    exact beamGcCollectProcess_moves hb hr
  | mailbox op =>
    obtain ⟨mb, _, he⟩ := Option.map_eq_some_iff.mp h
    cases he
    exact .refl _ _

/-! #### A call -/

/-- All that happens to the blocks is that the one of `owner` moves. -/
structure HeapMoves (owner : ProcId) (s s' : Machine) : Prop where
  own : Moves s.mem (s.procs owner).heap s'.mem (s'.procs owner).heap
  others : ∀ q, q ≠ owner → (s'.procs q).heap = (s.procs q).heap

theorem HeapMoves.refl (self : ProcId) (s : Machine) : HeapMoves self s s :=
  ⟨.refl _ _, fun _ _ => rfl⟩

theorem HeapMoves.trans {s'' : Machine} (h : HeapMoves self s s') (h' : HeapMoves self s' s'') :
    HeapMoves self s s'' :=
  ⟨h.own.trans h'.own, fun q hq => (h'.others q hq).trans (h.others q hq)⟩

theorem HeapMoves.of_own (h : Moves s.mem (s.procs self).heap m p.heap) :
    HeapMoves self s ⟨m, Function.update s.procs self p⟩ := by
  refine ⟨?_, fun q hq => ?_⟩ <;> dsimp only
  · rwa [Function.update_self]
  · rw [Function.update_of_ne hq]

theorem exec_heapMoves {r : Machine × Option Event × Next}
    (hfun : instr.opcode = .makeFun2 →
      GrowsAsC s.mem (s.procs self) ((instr.arg2 + 2#32).setWidth 64))
    (hx : s.exec code self instr ip = some r) : HeapMoves self s r.1 := by
  obtain ⟨e, he, h2⟩ := Option.bind_eq_some_iff.mp hx
  obtain ⟨s', hp, rfl⟩ := Option.map_eq_some_iff.mp h2
  -- a delivery changes a mailbox, and no block
  have hsame : ∀ q, (s'.procs q).heap = (Function.update s.procs self e.proc q).heap := fun q => by
    rw [(perform_same hp q).2]
  have hown := HeapMoves.of_own (execInstr_moves hfun he)
  refine ⟨?_, fun q hq => (hsame q).trans (hown.others q hq)⟩
  rw [(perform_same hp self).1, hsame]
  exact hown.own

/-- **Any number of instructions**, by induction on the number. -/
theorem runFor_heapMoves : ∀ (n : Nat) {s : Machine} {ip : Nat} {pr : Progress},
    (∀ t instr, ComesTo code self n s ip t instr → instr.opcode = .makeFun2 →
      GrowsAsC t.mem (t.procs self) ((instr.arg2 + 2#32).setWidth 64)) →
        s.runFor code self n ip = some pr → HeapMoves self s pr.machine := by
  intro n
  induction n with
  | zero => intro s ip pr _ hrun; cases hrun; exact .refl _ _
  | succ n ih =>
    intro s ip pr hfun hrun
    rcases Machine.runFor_succ_cases hrun with ⟨_, rfl⟩ |
      ⟨instr, r, ip', pr', hc, hx, hn, hrun', rfl⟩ | ⟨instr, r, _, _, _, hc, hx, _, rfl⟩
    · exact .refl _ _
    · have hhead := hfun s instr ⟨0, _, ip, Nat.succ_pos n, rfl, rfl, rfl, hc⟩
      have hrest := ih (fun t instr' ht => hfun t instr' (ht.step hc hx hn)) hrun'
      exact (exec_heapMoves hhead hx).trans hrest
    · exact exec_heapMoves (hfun s instr ⟨0, _, ip, Nat.succ_pos n, rfl, rfl, rfl, hc⟩) hx

theorem beamEmuExecuteCode_heapMoves {w : World} {sl : Slice}
    (hfun : ∀ t ip instr, Attempts code self w t ip instr → instr.opcode = .makeFun2 →
      GrowsAsC t.mem (t.procs self) ((instr.arg2 + 2#32).setWidth 64))
    (hcall : beamEmuExecuteCode code self w = some sl) :
    HeapMoves self w.toMachine sl.world.toMachine := by
  by_cases hcode : code = []
  · rw [beamEmuExecuteCode, if_pos hcode] at hcall
    cases hcall
    exact .refl _ _
  obtain ⟨s, sched⟩ := w
  rw [beamEmuExecuteCode_eq hcode] at hcall
  obtain ⟨pr, hrun, rfl⟩ := Option.map_eq_some_iff.mp hcall
  have hran : HeapMoves self (s.start code self) pr.machine := by
    refine runFor_heapMoves _ ?_ hrun
    rintro t instr ⟨k, pr', ip, hk, hrun', hst, hm, hi⟩ hop
    exact hfun t ip instr ⟨k, pr', hk, hrun', hst, hm, hi⟩ hop
  have hheap : ∀ p' p'' : Process, p'.SameBut p'' → p''.heap = p'.heap := fun _ _ h => by rw [h]
  have hstart : HeapMoves self s (s.start code self) := by
    refine .of_own ?_
    rw [hheap _ _ (initCp_sameBut code _)]
    exact .refl _ _
  obtain ⟨p', hmachine, hsame⟩ := slice_machine code self sched pr
  rw [hmachine]
  refine (hstart.trans hran).trans (.of_own ?_)
  rw [hheap _ _ hsame]
  exact .refl _ _

end Moves

/-! ### The mailboxes -/

namespace Mailbox

variable {mb mb' : Mailbox}

/-- The mailbox is whole, and its counter counts its nodes. -/
structure Sound (mb : Mailbox) : Prop where
  whole : mb.Whole
  live : mb.nodes.live = mb.count

theorem sound_create (alloc : Nat → Bool) : (create alloc).Sound :=
  ⟨.cut [] [] (view_create alloc) rfl, rfl⟩

theorem Sound.step (h : mb.Sound) {op : MailboxOp} (hs : mb.step op = some mb') : mb'.Sound :=
  ⟨h.whole.step hs, step_live h.live hs⟩

theorem Sound.handled {keeps : Prop} {msgs seen : List Eterm} (h : mb.Sound)
    (hh : Handled keeps mb mb' msgs seen) : mb'.Sound := by
  induction hh with
  | refl => exact h
  | @step mb₁ mb₂ _ _ op _ _ hs _ ih =>
    have hstep : mb₁.step (.cursor op) = some mb₂ := by
      rw [Mailbox.step, hs]
      rfl
    exact ih.step hstep

theorem Sound.destroy (h : mb.Sound) : ∃ ns, mb.destroy = some ns ∧ ns.live = 0 := by
  obtain ⟨L, hchain, hcount⟩ := h.whole.chain
  exact hchain.release_clears (h.live.trans hcount)

end Mailbox

theorem ownStep_sound {m m' : Memory} {p p' : Process} {op : OwnOp} (h : p.mailbox.Sound)
    (hs : ownStep m p op = some (m', p')) : p'.mailbox.Sound := by
  cases op with
  | allocHeap n =>
    cases hs
    rw [beamProcessAllocHeap_mailbox]
    exact h
  | makeTuple arity elements =>
    obtain ⟨r, hr, he⟩ := Option.map_eq_some_iff.mp hs
    cases he
    have ha := beamProcessAllocHeap_mailbox m p (arity + 1#64)
    unfold beamMakeTuple at hr
    split at hr
    · rename_i hnone
      rw [hnone] at ha
      cases hr
      exact ha ▸ h
    · rename_i hsome
      rw [hsome] at ha
      obtain ⟨m₁, _, hr⟩ := Option.bind_eq_some_iff.mp hr
      obtain ⟨ws, _, hr⟩ := Option.bind_eq_some_iff.mp hr
      obtain ⟨m₂, _, rfl⟩ := Option.map_eq_some_iff.mp hr
      exact ha ▸ h
  | makeList head tail =>
    obtain ⟨r, hr, he⟩ := Option.map_eq_some_iff.mp hs
    cases he
    have ha := beamProcessAllocHeap_mailbox m p 2#64
    unfold beamMakeList at hr
    split at hr
    · rename_i hnone
      rw [hnone] at ha
      cases hr
      exact ha ▸ h
    · rename_i hsome
      rw [hsome] at ha
      obtain ⟨m₁, _, rfl⟩ := Option.map_eq_some_iff.mp hr
      exact ha ▸ h
  | push term =>
    obtain ⟨r, hr, he⟩ := Option.map_eq_some_iff.mp hs
    cases he
    exact (beamProcessStackPush_moved hr).1.mailbox ▸ h
  | pop =>
    obtain ⟨r, hr, he⟩ := Option.map_eq_some_iff.mp hs
    cases he
    exact (beamProcessStackPop_moved hr).1.mailbox ▸ h
  | collect =>
    obtain ⟨r, hr, he⟩ := Option.map_eq_some_iff.mp hs
    cases he
    unfold beamGcCollectProcess at hr
    split at hr
    · cases hr; exact h
    dsimp only at hr
    split at hr
    · cases hr; exact h
    · obtain ⟨s, _, hr⟩ := Option.bind_eq_some_iff.mp hr
      obtain ⟨r, _, rfl⟩ := Option.map_eq_some_iff.mp hr
      exact h
  | mailbox op =>
    obtain ⟨mb, hmb, he⟩ := Option.map_eq_some_iff.mp hs
    cases he
    exact h.step hmb

/-! ### All processes -/

namespace Population

/-- **The living processes own the memory**: the live blocks are their heaps, each has its own,
nothing else can be read, and their mailboxes are sound. -/
structure Tidy (s : Population) : Prop where
  blocks : ∀ b, (s.mem.block b).isSome ↔ ∃ q ∈ s.living, (s.procs q).heap = b
  apart : ∀ q ∈ s.living, ∀ q' ∈ s.living, (s.procs q).heap = (s.procs q').heap → q = q'
  nonnull : ∀ q ∈ s.living, (s.procs q).heap ≠ 0
  covered : s.mem.Covered
  mailboxes : ∀ q ∈ s.living, (s.procs q).mailbox.Sound

variable {s s' : Population} {q : ProcId}

theorem tidy_vacant (w : World) : (vacant w).Tidy where
  blocks b := by
    refine iff_of_false Bool.noConfusion ?_
    rintro ⟨q, hq, _⟩
    exact absurd hq (Finset.notMem_empty q)
  apart q hq := absurd hq (Finset.notMem_empty q)
  nonnull q hq := absurd hq (Finset.notMem_empty q)
  covered := .empty
  mailboxes q hq := absurd hq (Finset.notMem_empty q)

theorem Tidy.block_heap (h : s.Tidy) (hq : q ∈ s.living) : (s.mem.block (s.procs q).heap).isSome :=
  (h.blocks _).mpr ⟨q, hq, rfl⟩

theorem Tidy.ne_moved (h : s.Tidy) (hq : q ∈ s.living)
    (hm : HeapMoves q s.toMachine s'.toMachine) {i : ProcId} (hi : i ∈ s.living) (hne : i ≠ q) :
    (s.procs i).heap ≠ (s'.procs q).heap := by
  intro he
  have hold : (s'.procs q).heap ≠ (s.procs q).heap := fun he' =>
    hne (h.apart i hi q hq (he.trans he'))
  have hthere := h.block_heap hi
  rw [he, (hm.own.left hold).1] at hthere
  cases hthere

/-- **A process whose block moves** keeps the memory tidy. -/
theorem Tidy.moves (h : s.Tidy) (hq : q ∈ s.living)
    (hm : HeapMoves q s.toMachine s'.toMachine) (hliving : s'.living = s.living)
    (hmail : ∀ i ∈ s.living, (s'.procs i).mailbox.Sound) : s'.Tidy where
  blocks b := by
    rw [hliving]
    constructor
    · intro hb
      by_cases hnew : b = (s'.procs q).heap
      · exact ⟨q, hq, hnew.symm⟩
      · have hold : b ≠ (s.procs q).heap := by
          rintro rfl
          rw [(hm.own.left (Ne.symm hnew)).2] at hb
          cases hb
        rw [hm.own.others b hold hnew] at hb
        obtain ⟨i, hi, rfl⟩ := (h.blocks b).mp hb
        have hne : i ≠ q := fun he => hold (he ▸ rfl)
        exact ⟨i, hi, hm.others i hne⟩
    · rintro ⟨i, hi, rfl⟩
      by_cases hne : i = q
      · rw [hne]
        exact hm.own.there (h.block_heap hq)
      · have hold : (s.procs i).heap ≠ (s.procs q).heap := fun he => hne (h.apart i hi q hq he)
        rw [hm.others i hne, hm.own.others _ hold (h.ne_moved hq hm hi hne)]
        exact h.block_heap hi
  apart i hi j hj he := by
    rw [hliving] at hi hj
    by_cases hiq : i = q <;> by_cases hjq : j = q
    · rw [hiq, hjq]
    · rw [hiq, hm.others j hjq] at he
      exact absurd he.symm (h.ne_moved hq hm hj hjq)
    · rw [hjq, hm.others i hiq] at he
      exact absurd he (h.ne_moved hq hm hi hiq)
    · rw [hm.others i hiq, hm.others j hjq] at he
      exact h.apart i hi j hj he
  nonnull i hi := by
    rw [hliving] at hi
    by_cases hne : i = q
    · rw [hne]
      exact hm.own.nonnull (h.nonnull q hq)
    · rw [hm.others i hne]
      exact h.nonnull i hi
  covered := hm.own.covered h.covered
  mailboxes i hi := hmail i (hliving ▸ hi)

theorem Tidy.create (h : s.Tidy) {m : Memory} {p : Process} {pid : BitVec 32} {words : Word}
    {alloc : Nat → Reply} {mailboxAlloc : Nat → Bool}
    (hnew : beamProcessCreate s.mem pid words alloc mailboxAlloc = some (m, p))
    (hmem : s'.mem = m) (hliving : s'.living = insert q s.living) (hself : s'.procs q = p)
    (hothers : ∀ i ∈ s.living, s'.procs i = s.procs i) : s'.Tidy := by
  obtain ⟨hm, _⟩ := beamProcessCreate_eq_some hnew
  have hmail : p.mailbox = Mailbox.create mailboxAlloc := by
    unfold beamProcessCreate at hnew
    dsimp only at hnew
    split at hnew <;> cases hnew
    rfl
  obtain ⟨pl, _, _, hfree, rfl⟩ := Memory.malloc_eq_some hm
  have hapart : ∀ i ∈ s.living, (s.procs i).heap ≠ p.heap := by
    intro i hi he
    have hthere := h.block_heap hi
    rw [he, hfree.2.2.2.1] at hthere
    cases hthere
  refine ⟨fun b => ?_, fun i hi j hj he => ?_, fun i hi => ?_, ?_, fun i hi => ?_⟩
  · rw [hliving, Finset.exists_mem_insert, hself, hmem]
    by_cases hb : b = p.heap
    · rw [hb, Memory.block_map_self]
      exact iff_of_true rfl (Or.inl rfl)
    · rw [Memory.block_map_of_ne hb, h.blocks, or_iff_right (Ne.symm hb)]
      refine exists_congr fun i => and_congr_right fun hi => ?_
      rw [hothers i hi]
  · rw [hliving, Finset.mem_insert] at hi hj
    rcases hi with rfl | hi <;> rcases hj with rfl | hj
    · rfl
    · rw [hself, hothers j hj] at he
      exact absurd he.symm (hapart j hj)
    · rw [hself, hothers i hi] at he
      exact absurd he (hapart i hi)
    · rw [hothers i hi, hothers j hj] at he
      exact h.apart i hi j hj he
  · rw [hliving, Finset.mem_insert] at hi
    rcases hi with rfl | hi
    · rw [hself]
      exact hfree.1
    · rw [hothers i hi]
      exact h.nonnull i hi
  · rw [hmem]
    exact h.covered.map hfree.2.2.2.1
  · rw [hliving, Finset.mem_insert] at hi
    rcases hi with rfl | hi
    · rw [hself, hmail]
      exact Mailbox.sound_create _
    · rw [hothers i hi]
      exact h.mailboxes i hi

theorem Tidy.destroy (h : s.Tidy) (hq : q ∈ s.living) :
    Tidy ⟨⟨⟨beamProcessDestroy s.mem (s.procs q), s.procs⟩, s.sched⟩, s.living.erase q⟩ := by
  rw [beamProcessDestroy, if_pos (h.nonnull q hq)]
  refine ⟨fun b => ?_, fun i hi j hj => ?_, fun i hi => h.nonnull i (Finset.mem_of_mem_erase hi),
    h.covered.free _, fun i hi => h.mailboxes i (Finset.mem_of_mem_erase hi)⟩
  · by_cases hb : b = (s.procs q).heap
    · rw [hb, Memory.block_free_self]
      refine iff_of_false Bool.noConfusion ?_
      rintro ⟨i, hi, he⟩
      obtain ⟨hne, hi⟩ := Finset.mem_erase.mp hi
      exact hne (h.apart i hi q hq he)
    · rw [Memory.block_free_of_ne hb, h.blocks]
      refine exists_congr fun i => and_congr_left fun he => ?_
      have hne : i ≠ q := fun hi => hb (by rw [← he, hi])
      rw [Finset.mem_erase, and_iff_right hne]
  · exact h.apart i (Finset.mem_of_mem_erase hi) j (Finset.mem_of_mem_erase hj)

/-- **What a host does keeps the memory tidy.** -/
theorem Tidy.step (h : s.Tidy) {op : LifeOp} (hgrow : s.GrowsAsC op) (hs : s.step op = some s') :
    s'.Tidy := by
  cases op with
  | create q pid words alloc mailboxAlloc =>
    unfold Population.step at hs
    dsimp only at hs
    split at hs
    · cases hs
    · rename_i hq
      split at hs
      · cases hs; exact h
      · rename_i m p hnew
        cases hs
        exact h.create hnew rfl rfl (Function.update_self _ _ _) fun i hi =>
          Function.update_of_ne (ne_of_mem_of_not_mem hi hq) _ _
  | own q op =>
    unfold Population.step at hs
    dsimp only at hs
    split at hs
    · rename_i hq
      obtain ⟨⟨m, p⟩, hown, rfl⟩ := Option.map_eq_some_iff.mp hs
      refine h.moves hq (.of_own (ownStep_moves (h.block_heap hq) hgrow hown)) rfl fun i hi => ?_
      dsimp only
      rw [Function.update_apply]
      split
      · exact ownStep_sound (h.mailboxes q hq) hown
      · exact h.mailboxes i hi
    · cases hs
  | call code q =>
    unfold Population.step at hs
    dsimp only at hs
    split at hs
    · rename_i hq
      obtain ⟨sl, hcall, hs⟩ := Option.bind_eq_some_iff.mp hs
      split at hs
      · cases hs
        exact h.moves hq (beamEmuExecuteCode_heapMoves hgrow hcall) rfl fun i hi =>
          (h.mailboxes i hi).handled (beamEmuExecuteCode_handled hcall)
      · cases hs
    · cases hs
  | destroy q =>
    unfold Population.step at hs
    dsimp only at hs
    split at hs
    · rename_i hq
      obtain ⟨ns, _, rfl⟩ := Option.map_eq_some_iff.mp hs
      exact h.destroy hq
    · cases hs

end Population

/-- **Processes leave nothing behind.** Whatever a host does with its processes in whatever order,
as long as it uses none that is not there, their code reads and writes nothing that is not there and
their heaps grow as C's `realloc` lets them: every live block is the heap of one living process and
of no other, whether it was moved by `realloc`, by a closure or by a collection; a living process
can be destroyed, which frees each node of its mailbox; and when the last one is destroyed, the
memory is empty. -/
theorem processes_leave_nothing (w : World) {ops : List LifeOp} {s : Population}
    (hgrow : Along Population.step Population.GrowsAsC (.vacant w) ops)
    (hrun : run Population.step (.vacant w) ops = some s) :
    (∀ b, (s.mem.block b).isSome ↔ ∃ q ∈ s.living, (s.procs q).heap = b) ∧
    (∀ q ∈ s.living, ∀ q' ∈ s.living, (s.procs q).heap = (s.procs q').heap → q = q') ∧
    (∀ q ∈ s.living, ∃ ns, (s.procs q).mailbox.destroy = some ns ∧ ns.live = 0) ∧
    (s.living = ∅ → s.mem = Memory.empty) := by
  have h : s.Tidy := run_induct Population.Tidy (fun _ _ _ hi hok hs => hi.step hok hs)
    (Population.tidy_vacant w) hgrow hrun
  refine ⟨h.blocks, h.apart, fun q hq => (h.mailboxes q hq).destroy, fun hnone => ?_⟩
  refine h.covered.eq_empty fun b => Option.not_isSome_iff_eq_none.mp fun hb => ?_
  obtain ⟨q, hq, _⟩ := (h.blocks b).mp hb
  rw [hnone] at hq
  exact absurd hq (Finset.notMem_empty q)

/-- Two processes: the first makes a list, sends a closure for which its heap has to move, and is
collected; the second receives it. -/
def twoLives : List LifeOp :=
  [.create 0 1#32 4#64 (fun n => some (zeroed (4096 * n))) fun _ => true,
    .create 1 2#32 4#64 (fun n => some (zeroed (4096 * (n + 8)))) fun _ => true,
    .own 0 (.makeList etermNil etermNil), .call sendPair 0, .own 1 (.mailbox .dequeue),
    .own 0 .collect, .destroy 0, .destroy 1]

/-- The only closure of `sendPair` is its first instruction, which a call comes to once. -/
theorem attempts_sendPair {w : World} {t : Machine} {ip : Nat} {instr : Instruction}
    {res : Result} {state : Option ProcState} {out : Option Eterm}
    (hfirst : (w.procs 0).frame.ip = 0)
    (hnext : ∀ n < 2, ((w.toMachine.start sendPair 0).runFor sendPair 0 (n + 1) 0).map
      (·.status) = some (.running (n + 1)))
    (hlast : ((w.toMachine.start sendPair 0).runFor sendPair 0 3 0).map (·.status)
      = some (.returned res state out))
    (ha : Attempts sendPair 0 w t ip instr) (hop : instr.opcode = .makeFun2) :
    instr.arg2 = 1#32 ∧ t = w.toMachine.start sendPair 0 := by
  obtain ⟨n, pr, _, hrun, hst, rfl, hi⟩ := ha
  have hip : ip = 0 ∧ instr.arg2 = 1#32 := by
    match ip, hi with
    | 0, hi => cases hi; exact ⟨rfl, rfl⟩
    | 1, hi => cases hi; cases hop
    | 2, hi => cases hi; cases hop
  obtain ⟨rfl, harg⟩ := hip
  rw [hfirst] at hrun
  refine ⟨harg, ?_⟩
  cases n with
  | zero => cases hrun; rfl
  | succ n =>
    by_cases hn : n < 2
    · have hstatus := hnext n hn
      rw [hrun, Option.map_some, hst] at hstatus
      cases hstatus
    · obtain ⟨pr', hrun', hst'⟩ := Option.map_eq_some_iff.mp hlast
      rw [show n + 1 = 3 + (n - 2) by omega, Machine.runFor_add, hrun', Option.bind_some,
        Machine.resume, hst'] at hrun
      cases hrun
      rw [hst'] at hst
      cases hst

theorem processes_leave_nothing_twoLives :
    ∃ s, run Population.step (.vacant freshWorld) twoLives = some s ∧ s.mem = Memory.empty := by
  obtain ⟨s, hrun, hnone⟩ := Option.map_eq_some_iff.mp
    (show (run Population.step (.vacant freshWorld) twoLives).map Population.living = some ∅ by
      decide +kernel)
  have hmake : (run Population.step (.vacant freshWorld) (twoLives.take 2)).map
      (fun s => decide (GrowsAsC s.mem (s.procs 0) 2#64)) = some true := by decide +kernel
  have hcall : (run Population.step (.vacant freshWorld) (twoLives.take 3)).map (fun s =>
      let start := s.toMachine.start sendPair 0
      decide (GrowsAsC start.mem (start.procs 0) 3#64 ∧ (s.procs 0).frame.ip = 0 ∧
        (∀ n < 2, (start.runFor sendPair 0 (n + 1) 0).map (·.status) = some (.running (n + 1))) ∧
        (start.runFor sendPair 0 3 0).map (·.status) = some
          (.returned .errHalt (some .exited) (some (tagAddr 12304 tagPrimaryBoxed))))) =
            some true := by
    decide +kernel
  have hgrow : Along Population.step Population.GrowsAsC (.vacant freshWorld) twoLives := by
    refine ⟨trivial, fun s₁ h₁ => ⟨trivial, fun s₂ h₂ => ⟨?_, fun s₃ h₃ => ⟨?_, fun s₄ _ =>
      ⟨nofun, fun s₅ _ => ⟨nofun, fun s₆ _ => ⟨trivial, fun s₇ _ => ⟨trivial, fun s₈ _ =>
        trivial⟩⟩⟩⟩⟩⟩⟩⟩
    · have hs₂ : run Population.step (.vacant freshWorld) (twoLives.take 2) = some s₂ := by
        rw [twoLives, List.take_succ_cons, List.take_succ_cons, List.take_zero, run, h₁,
          Option.bind_some, run, h₂]
        rfl
      rw [hs₂, Option.map_some, Option.some_inj, decide_eq_true_iff] at hmake
      intro n hn
      cases hn
      exact hmake
    · have hs₃ : run Population.step (.vacant freshWorld) (twoLives.take 3) = some s₃ := by
        rw [twoLives, List.take_succ_cons, List.take_succ_cons, List.take_succ_cons,
          List.take_zero, run, h₁, Option.bind_some, run, h₂, Option.bind_some, run, h₃]
        rfl
      rw [hs₃, Option.map_some, Option.some_inj] at hcall
      obtain ⟨hfits, hfirst, hnext, hlast⟩ := decide_eq_true_iff.mp hcall
      intro t ip instr ha hop
      obtain ⟨harg, rfl⟩ := attempts_sendPair hfirst hnext hlast ha hop
      rw [harg]
      exact hfits
  exact ⟨s, hrun, (processes_leave_nothing freshWorld hgrow hrun).2.2.2 hnone⟩

end BeamModular
