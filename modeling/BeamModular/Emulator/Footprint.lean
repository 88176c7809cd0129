import BeamModular.Emulator.Emu
import BeamModular.Messaging.Cursor
import BeamModular.Scheduler.Growth
import BeamModular.Scheduler.Stack

/-!
# What an instruction can touch

`beam_emu_execute_code` runs one process, but it writes to one memory and it is given pointers to
other processes.  `OwnWrites` says that a step writes in the block of its process only, and that
this block grows into words nobody has.  It composes, so it is enough to prove it for a store and
for `realloc`.

`ProcOk` is what a process has to keep for that: the stack and the stacks its catch frames have
saved lie in its block.  `execInstr_confined` says that every instruction keeps it and has
`OwnWrites`; closures are the one case with a condition, since their sizes are computed in 32 bits
and the size of a grown block in 64.  `execInstr_sent` adds that only `SEND` is heard of outside.
-/

namespace BeamModular

/-! ### Writes in the own block -/

/-- The words of the heap block of a process. -/
def Process.Owns (p : Process) (a : Nat) : Prop := InBlock p.heap p.heapCapacity.toNat a

/-- What was readable outside the block of the process still reads the same, and the block has new
words only where nothing could be read. -/
structure OwnWrites (m : Memory) (p : Process) (m' : Memory) (p' : Process) : Prop where
  kept : ∀ a v, m.cell a = some v → ¬ p.Owns a → m'.cell a = some v
  fresh : ∀ a, p'.Owns a → p.Owns a ∨ m.cell a = none
  blocks : ∀ b n, m.block b = some n → b ≠ p.heap → m'.block b = some n
  base : p'.heap = p.heap ∨ m.block p'.heap = none

/-- Two blocks that do not meet. -/
structure Apart (p q : Process) : Prop where
  base : p.heap ≠ q.heap
  words : ∀ a, p.Owns a → ¬ q.Owns a

section OwnWrites

variable {m m' m'' : Memory} {p p' p'' q : Process}

theorem OwnWrites.of_same (hheap : p'.heap = p.heap) (hcap : p'.heapCapacity = p.heapCapacity) :
    OwnWrites m p m p' where
  kept _ _ ha _ := ha
  fresh a ha := by
    unfold Process.Owns at ha ⊢
    rw [hheap, hcap] at ha
    exact Or.inl ha
  blocks _ _ hb _ := hb
  base := Or.inl hheap

theorem OwnWrites.trans (h : OwnWrites m p m' p') (h' : OwnWrites m' p' m'' p'') :
    OwnWrites m p m'' p'' where
  kept a v ha hout := by
    refine h'.kept a v (h.kept a v ha hout) fun hin => ?_
    rcases h.fresh a hin with hown | hnone
    · exact hout hown
    · rw [ha] at hnone
      cases hnone
  fresh a ha := by
    rcases h'.fresh a ha with hin | hnone
    · exact h.fresh a hin
    · by_cases hown : p.Owns a
      · exact Or.inl hown
      · refine Or.inr (Option.eq_none_iff_forall_ne_some.mpr fun v hv => ?_)
        rw [h.kept a v hv hown] at hnone
        cases hnone
  blocks b n hb hne := by
    refine h'.blocks b n (h.blocks b n hb hne) ?_
    rintro rfl
    rcases h.base with he | hnone
    · exact hne he
    · rw [hb] at hnone
      cases hnone
  base := by
    rcases h'.base with he | hnone
    · rw [he]
      exact h.base
    · by_cases he : p''.heap = p.heap
      · exact Or.inl he
      · refine Or.inr (Option.eq_none_iff_forall_ne_some.mpr fun n hn => ?_)
        rw [h.blocks _ n hn he] at hnone
        cases hnone

/-- **The block of another process** is left alone, and stays apart. -/
theorem OwnWrites.other (h : OwnWrites m p m' p') (hq : HeapOk m q) (hapart : Apart p q) :
    (∀ i < q.heapCapacity.toNat, m'.cell (q.heap + 8 * i) = m.cell (q.heap + 8 * i)) ∧
      HeapOk m' q ∧ Apart p' q := by
  have hcells : ∀ i < q.heapCapacity.toNat,
      m'.cell (q.heap + 8 * i) = m.cell (q.heap + 8 * i) := by
    intro i hi
    obtain ⟨v, hv⟩ := Option.isSome_iff_exists.mp (hq.readable i hi)
    rw [hv]
    exact h.kept _ v hv fun hin => hapart.words _ hin (inBlock_slot.mpr hi)
  refine ⟨hcells, { hq with
    block := h.blocks _ _ hq.block hapart.base.symm
    readable := fun i hi => by rw [hcells i hi]; exact hq.readable i hi }, ?_, fun a ha hin => ?_⟩
  · intro he
    rcases h.base with hsame | hnone
    · exact hapart.base (hsame ▸ he)
    · rw [he, hq.block] at hnone
      cases hnone
  · rcases h.fresh a ha with hown | hnone
    · exact hapart.words a hown hin
    · obtain ⟨i, hi, rfl⟩ := hin.exists_slot
      have hread := hq.readable i hi
      rw [hnone] at hread
      cases hread

theorem OwnWrites.of_write {i : Nat} {v : Word} (hi : i < p.heapCapacity.toNat)
    (hw : m.write (p.heap + 8 * i) v = some m') : OwnWrites m p m' p where
  kept a u ha hout := by
    rw [Memory.cell_write hw, if_neg, ha]
    rintro rfl
    exact hout (inBlock_slot.mpr hi)
  fresh _ ha := Or.inl ha
  blocks b n hb _ := by rw [Memory.block_write hw, hb]
  base := Or.inl rfl

theorem OwnWrites.of_grow {n : Word} {newHeap : Nat} (hok : HeapOk m p)
    (hr : growReply m p n = some (newHeap, m'))
    (hfull : m'.block newHeap = some (p.heapCapacity * 2#64 + n).toNat) (top : Word) :
    OwnWrites m p m' { p.asked with
      heap := newHeap, heapCapacity := p.heapCapacity * 2#64 + n, heapTop := top } := by
  rw [growReply] at hr
  have hbytes := Memory.resize_block hr
  rw [hfull, Option.some_inj] at hbytes
  have hwords : m.wordsAt p.heap = p.heapCapacity.toNat := by
    rw [Memory.wordsAt, hok.block]
    rfl
  obtain ⟨_, rest, _, _, _, hrest, hplace, hfree, rfl⟩ := Memory.resize_eq_some hr
  rw [← hbytes] at hfree ⊢
  have hout : ∀ a, ¬ p.Owns a → rest.cell a = m.cell a := by
    intro a ha
    rcases hrest with rfl | rfl
    · rfl
    · exact Memory.cell_unmap_out (by rw [hwords]; exact ha)
  have hother : ∀ b, b ≠ p.heap → rest.block b = m.block b := by
    intro b hne
    rcases hrest with rfl | rfl
    · rfl
    · exact Function.update_of_ne hne _ _
  refine ⟨fun a v ha hna => ?_, fun a ha => ?_, fun b k hb hne => ?_, ?_⟩
  · have hv := (hout a hna).trans ha
    rw [Memory.cell_map_out (hfree.not_inBlock hv), hv]
  · by_cases hown : p.Owns a
    · exact Or.inl hown
    · obtain ⟨i, hi, rfl⟩ := InBlock.exists_slot ha
      rw [← hout _ hown]
      exact Or.inr (hfree.2.2.2.2 i hi)
  · have hb' := (hother b hne).trans hb
    exact (Function.update_of_ne (hfree.ne_of_block hb').symm _ _).trans hb'
  · by_cases he : newHeap = p.heap
    · exact Or.inl he
    · exact Or.inr (hplace he).2.2.2.1

theorem OwnWrites.of_free {fill : Nat → Word} (hfree : m.Free p.heap p.heapCapacity.toNat) :
    OwnWrites m { p with heapCapacity := 0#64 } (m.map p.heap p.heapCapacity.toNat fill) p where
  kept a v ha _ := hfree.extends_map a v ha
  fresh a ha := by
    obtain ⟨i, hi, rfl⟩ := InBlock.exists_slot ha
    exact Or.inr (hfree.2.2.2.2 i hi)
  blocks b n hb hne := (Function.update_of_ne hne _ _).trans hb
  base := Or.inl rfl

theorem Apart.symm (h : Apart p q) : Apart q p :=
  ⟨h.base.symm, fun a ha hin => h.words a hin ha⟩

theorem Apart.of_free (hfree : m.Free p.heap p.heapCapacity.toNat) (hq : HeapOk m q) :
    Apart { p with heapCapacity := 0#64 } q := by
  refine ⟨hfree.ne_of_block hq.block, fun a ha => ?_⟩
  obtain ⟨i, hi, _⟩ := InBlock.exists_slot ha
  exact absurd hi (Nat.not_lt_zero i)

end OwnWrites

/-! ### The bounds of a process -/

/-- A process keeps its bounds: its block is there, the stack and the stacks saved by its catch
frames lie in it, and its mailbox is well linked. -/
structure ProcOk (m : Memory) (p : Process) : Prop where
  heap : HeapOk m p
  stack : p.stackTop.toNat ≤ p.heapCapacity.toNat
  handlers : ∀ i < p.frame.catchDepth, ∀ cf, catchAt p.frame i = some cf →
    cf.catchStackTop.toNat ≤ p.heapCapacity.toNat
  mailbox : ∃ before after, p.mailbox.Cut before after

/-- A step of a process that keeps its bounds and writes in its own block only. -/
structure Confined (m : Memory) (p : Process) (m' : Memory) (p' : Process) : Prop where
  ok : ProcOk m' p'
  writes : OwnWrites m p m' p'

/-- The processes differ in registers, continuation pointer and saved `ip` only. -/
def Process.SameBut (p p' : Process) : Prop :=
  p' = { p with frame := { p.frame with
    xRegs := p'.frame.xRegs, cp := p'.frame.cp, ip := p'.frame.ip } }

/-- A growth is granted with all the words the process goes on to use, or it is refused and leaves
the block: the number of bytes has not wrapped around. -/
structure GrantsInFull (m : Memory) (p : Process) (n : Word) : Prop where
  full : ∀ a m', growReply m p n = some (a, m') →
    m'.block a = some (p.heapCapacity * 2#64 + n).toNat
  left : Refused m p n → growBytes p n ≠ 0

theorem grantsInFull_of_lt {m : Memory} {p : Process} {n : Word}
    (h : (p.heapCapacity * 2#64 + n).toNat < 2 ^ 61) (hne : growBytes p n ≠ 0) :
    GrantsInFull m p n := by
  refine ⟨fun a m' hr => ?_, fun _ => hne⟩
  rw [growReply] at hr
  rw [Memory.resize_block hr, growBytes, wordBytes_div h]

section Confined

variable {code : List Instruction} {instr : Instruction} {m m' m'' : Memory} {p p' p'' : Process}
  {ip : Nat} {e : Effect}

theorem procOk_create {m₀ : Memory} {pid : BitVec 32} {words : Word} {alloc : Nat → Reply}
    {mailboxAlloc : Nat → Bool}
    (h : beamProcessCreate m₀ pid words alloc mailboxAlloc = some (m, p))
    (hsize : (initialCapacity words).toNat < 2 ^ 61) : ProcOk m p := by
  have hheap := heapOk_create h hsize
  unfold beamProcessCreate at h
  dsimp only at h
  split at h
  · cases h
    exact ⟨hheap, Nat.le_refl _, fun i hi => absurd hi (Nat.not_lt_zero i),
      [], [], Mailbox.view_create _, fun i hi => by cases hi⟩
  · cases h

theorem Confined.trans (h : Confined m p m' p') (h' : Confined m' p' m'' p'') :
    Confined m p m'' p'' := ⟨h'.ok, h.writes.trans h'.writes⟩

theorem ProcOk.of_heap (h : ProcOk m p) (hheap : HeapOk m' p) : ProcOk m' p :=
  ⟨hheap, h.stack, h.handlers, h.mailbox⟩

theorem ProcOk.confined (h : ProcOk m p) : Confined m p m p := ⟨h, .of_same rfl rfl⟩

theorem ProcOk.sameBut (h : ProcOk m p) (hp : p.SameBut p') : Confined m p m p' := by
  rw [hp]
  exact ⟨⟨{ h.heap with }, h.stack, h.handlers, h.mailbox⟩, .of_same rfl rfl⟩

theorem ProcOk.setMailbox (h : ProcOk m p) {mb : Mailbox}
    (hmb : ∃ before after, mb.Cut before after) :
    Confined m p m { p with mailbox := mb } :=
  ⟨⟨{ h.heap with }, h.stack, h.handlers, hmb⟩, .of_same rfl rfl⟩

theorem ProcOk.setStackTop (h : ProcOk m p) {top : Word} (ht : top.toNat ≤ p.heapCapacity.toNat) :
    Confined m p m { p with stackTop := top } :=
  ⟨⟨{ h.heap with }, ht, h.handlers, h.mailbox⟩, .of_same rfl rfl⟩

theorem ProcOk.setFrame (h : ProcOk m p) {f : Frame}
    (hf : ∀ i < f.catchDepth, ∀ cf, catchAt f i = some cf →
      cf.catchStackTop.toNat ≤ p.heapCapacity.toNat) :
    Confined m p m { p with frame := f } :=
  ⟨⟨{ h.heap with }, h.stack, hf, h.mailbox⟩, .of_same rfl rfl⟩

theorem ProcOk.write (h : ProcOk m p) {i : Nat} {v : Word} (hi : i < p.heapCapacity.toNat)
    (hw : m.write (p.heap + 8 * i) v = some m') : Confined m p m' p := by
  obtain ⟨m₁, hw₁, hok, _⟩ := h.heap.write v hi
  rw [hw] at hw₁
  cases hw₁
  exact ⟨⟨hok, h.stack, h.handlers, h.mailbox⟩, .of_write hi hw⟩

/-! ### The stack -/

theorem ProcOk.push (h : ProcOk m p) {t : Eterm} {r : Memory × Process × Result}
    (hp : beamProcessStackPush m p t = some r) : Confined m p r.1 r.2.1 := by
  obtain ⟨m', p', res⟩ := r
  rcases beamProcessStackPush_cases hp with ⟨rfl, rfl, _⟩ | ⟨hlt, rfl, _, hw⟩
  · exact h.confined
  · have hpred := toNat_sub_one_of_lt hlt
    have hstack := h.stack
    rw [BitVec.lt_def] at hlt
    have htop : Confined m p m { p with stackTop := p.stackTop - 1#64 } :=
      h.setStackTop (by omega)
    exact htop.trans (htop.ok.write (by dsimp only; omega) hw)

theorem ProcOk.pushWords : ∀ (words : Nat) {m : Memory} {p : Process}
    {r : Memory × Process × Result}, ProcOk m p → pushWords words m p = some r →
      Confined m p r.1 r.2.1 := by
  intro words
  induction words with
  | zero => intro m p r h hp; cases hp; exact h.confined
  | succ words ih =>
    intro m p r h hp
    obtain ⟨r₁, h1, h2⟩ := Option.bind_eq_some_iff.mp hp
    have hc := h.push h1
    split at h2
    · exact hc.trans (ih hc.ok h2)
    · cases h2; exact hc

theorem execAllocate_confined (h : ProcOk m p) (he : execAllocate instr m p ip = some e) :
    Confined m p e.mem e.proc := by
  obtain ⟨r₁, h1, h2⟩ := Option.bind_eq_some_iff.mp he
  have hc := h.push h1
  split at h2
  · obtain ⟨r₂, h3, rfl⟩ := Option.map_eq_some_iff.mp h2
    have hc' := hc.trans (hc.ok.pushWords _ h3)
    split <;> exact hc'
  · cases h2; exact hc

theorem ProcOk.pop (h : ProcOk m p) {r : Process × Except Result Eterm}
    (hp : beamProcessStackPop m p = some r) : Confined m p m r.1 := by
  obtain ⟨p', res⟩ := r
  rcases beamProcessStackPop_cases hp with ⟨rfl, _⟩ | ⟨hlt, rfl, _⟩
  · exact h.confined
  · refine h.setStackTop ?_
    rw [toNat_add_one_of_lt hlt]
    exact hlt

theorem ProcOk.popFrame : ∀ (words : Nat) {p : Process} {r : Process × Result}, ProcOk m p →
    popFrame m words p = some r → Confined m p m r.1 := by
  intro words
  induction words with
  | zero =>
    intro p r h hp
    obtain ⟨r₁, h1, h2⟩ := Option.map_eq_some_iff.mp hp
    have hc := h.pop h1
    split at h2 <;> cases h2
    · exact hc
    · exact hc.trans (hc.ok.setFrame hc.ok.handlers)
  | succ words ih =>
    intro p r h hp
    obtain ⟨r₁, h1, h2⟩ := Option.bind_eq_some_iff.mp hp
    have hc := h.pop h1
    split at h2
    · cases h2; exact hc
    · exact hc.trans (ih hc.ok h2)

theorem execDropFrame_confined {words : BitVec 32} {target : Nat} (h : ProcOk m p)
    (he : execDropFrame m p words target = some e) : Confined m p e.mem e.proc := by
  obtain ⟨r, hr, rfl⟩ := Option.map_eq_some_iff.mp he
  have hc := h.popFrame _ hr
  split <;> exact hc

/-! ### The mailbox -/

theorem execLoopRec_confined (h : ProcOk m p) (he : execLoopRec code instr m p ip = some e) :
    Confined m p e.mem e.proc := by
  obtain ⟨r, hr, rfl⟩ := Option.map_eq_some_iff.mp he
  obtain ⟨before, after, hcut⟩ := h.mailbox
  obtain ⟨b, a, hcut'⟩ := hcut.peekSave hr
  have hc := h.setMailbox ⟨b, a, hcut'⟩
  split
  · refine hc.trans (hc.ok.sameBut ?_)
    dsimp only
    split <;> rfl
  · exact h.setMailbox ⟨_, _, hcut'.reset⟩

theorem execRemoveMessage_confined (h : ProcOk m p) (he : execRemoveMessage m p ip = some e) :
    Confined m p e.mem e.proc := by
  obtain ⟨r, hr, rfl⟩ := Option.map_eq_some_iff.mp he
  obtain ⟨before, after, hcut⟩ := h.mailbox
  exact h.setMailbox (hcut.removeCurrent hr)

theorem execLoopRecEnd_confined (h : ProcOk m p) (he : execLoopRecEnd code instr m p ip = some e) :
    Confined m p e.mem e.proc := by
  obtain ⟨mb, hmb, rfl⟩ := Option.map_eq_some_iff.mp he
  obtain ⟨before, after, hcut⟩ := h.mailbox
  exact h.setMailbox (hcut.advanceSave hmb)

/-! ### Catch frames -/

theorem execTry_confined (h : ProcOk m p) :
    Confined m p (execTry instr m p ip).mem (execTry instr m p ip).proc := by
  unfold execTry
  split
  · rename_i hlt
    refine h.setFrame fun i hi cf hcf => ?_
    by_cases hold : i = p.frame.catchDepth
    · subst hold
      rw [catchAt, dif_pos hlt, Option.some_inj] at hcf
      dsimp only at hcf
      rw [Function.update_self] at hcf
      rw [← hcf]
      exact h.stack
    · refine h.handlers i (by dsimp only at hi; omega) cf ?_
      rw [← hcf, catchAt, catchAt]
      split
      · dsimp only
        rw [Function.update_of_ne fun he => hold (Fin.mk.inj he)]
      · rfl
  · exact h.confined

theorem execTryEnd_confined (h : ProcOk m p) (he : execTryEnd m p ip = some e) :
    Confined m p e.mem e.proc := by
  unfold execTryEnd at he
  split at he
  · cases he; exact h.confined
  · cases he; exact h.setFrame fun i hi => absurd hi (Nat.not_lt_zero i)
  · rename_i depth hdepth
    obtain ⟨prev, _, rfl⟩ := Option.map_eq_some_iff.mp he
    refine h.setFrame fun i hi cf hcf => h.handlers i ?_ cf hcf
    dsimp only at hi
    omega

theorem execRaise_confined (h : ProcOk m p) (he : execRaise code instr m p ip = some e) :
    Confined m p e.mem e.proc := by
  unfold execRaise at he
  dsimp only at he
  split at he
  · cases he; exact h.confined
  · rename_i depth hdepth
    obtain ⟨cf, hcf, rfl⟩ := Option.map_eq_some_iff.mp he
    have hstack := h.setStackTop (h.handlers depth (by omega) cf hcf)
    have hframe := hstack.ok.setFrame (f := { p.frame with catchDepth := depth })
      fun i hi cf hcf => h.handlers i (by dsimp only at hi; omega) cf hcf
    exact (hstack.trans hframe).trans (hframe.ok.sameBut rfl)

/-! ### The heap -/

theorem ProcOk.asked (h : ProcOk m p) : Confined m p m p.asked :=
  ⟨⟨{ h.heap with }, h.stack, h.handlers, h.mailbox⟩, .of_same rfl rfl⟩

/-- **A request**: the words handed out lie in the block. -/
theorem ProcOk.allocHeap (h : ProcOk m p) {n : Word} (hn : n.toNat < 2 ^ 60)
    (hfull : GrantsInFull m p n) {hp : Option Nat}
    (ha : beamProcessAllocHeap m p n = (m', p', hp)) :
    Confined m p m' p' ∧ ∀ a, hp = some a →
      a = p'.heap + 8 * p.heapTop.toNat ∧ p.heapTop.toNat + n.toNat ≤ p'.heapCapacity.toNat := by
  have hcap := h.heap.capacity_lt
  have htop := h.heap.top
  have hsum : (p.heapTop + n).toNat = p.heapTop.toNat + n.toNat := by
    rw [BitVec.toNat_add]
    omega
  rcases beamProcessAllocHeap_cases m p n with ⟨hle, he⟩ | ⟨hg, hr, he⟩ | ⟨hg, newHeap, m₁, hr, he⟩
  · rw [BitVec.le_def, hsum] at hle
    rw [ha] at he
    cases he
    exact ⟨⟨⟨{ h.heap with top := by rw [hsum]; exact hle }, h.stack, h.handlers, h.mailbox⟩,
      .of_same rfl rfl⟩, fun a he => by cases he; exact ⟨rfl, hle⟩⟩
  · rw [ha, Memory.unresized_of_ne (hfull.left ⟨hg, hr⟩)] at he
    cases he
    exact ⟨h.asked, fun a he => by cases he⟩
  · rw [ha] at he
    cases he
    have hblock := hfull.full newHeap _ hr
    have hnewCap : (p.heapCapacity * 2#64 + n).toNat = p.heapCapacity.toNat * 2 + n.toNat := by
      rw [BitVec.toNat_add, BitVec.toNat_mul, BitVec.toNat_ofNat]
      omega
    have hwrap : p.heapCapacity.toNat * 2 + n.toNat < 2 ^ 61 := by
      have hbytes := Memory.resize_block hr
      rw [hblock, Option.some_inj, growBytes, wordBytes] at hbytes
      have hlt := (8#64 * (p.heapCapacity * 2#64 + n)).isLt
      omega
    obtain ⟨hok, hle⟩ := growHeap_ok h.heap hwrap hr
    refine ⟨⟨⟨hok, h.stack.trans hle, fun i hi cf hcf => (h.handlers i hi cf hcf).trans hle,
      h.mailbox⟩, .of_grow h.heap hr hblock _⟩, fun a he => ?_⟩
    cases he
    refine ⟨rfl, ?_⟩
    dsimp only
    omega

theorem ProcOk.writeAll : ∀ (vs : List Word) {m : Memory} {i : Nat}, ProcOk m p →
    i + vs.length ≤ p.heapCapacity.toNat → m.writeAll (p.heap + 8 * i) vs = some m' →
      Confined m p m' p := by
  intro vs
  induction vs with
  | nil => intro m i h _ hw; cases hw; exact h.confined
  | cons v vs ih =>
    intro m i h hle hw
    obtain ⟨m₁, h1, h2⟩ := Option.bind_eq_some_iff.mp hw
    rw [List.length_cons] at hle
    have hc := h.write (by omega) h1
    exact hc.trans (ih hc.ok (by omega)
      (show m₁.writeAll (p.heap + 8 * (i + 1)) vs = some m' from h2))

theorem ProcOk.storeFreeVars {top numFree : Nat} (hfree : numFree < 2 ^ 26)
    (hle : top + (numFree + 2) ≤ p.heapCapacity.toNat) :
    ∀ (left fv : Nat) {m : Memory}, ProcOk m p →
      fv + left = numFree → storeFreeVars p (p.heap + 8 * top) left fv m = some m' →
        Confined m p m' p := by
  intro left
  induction left with
  | zero => intro fv m h _ hs; cases hs; exact h.confined
  | succ left ih =>
    intro fv m h hfv hs
    obtain ⟨m₁, h1, h2⟩ := Option.bind_eq_some_iff.mp hs
    have hslot : (2#32 + BitVec.ofNat 32 fv).toNat = 2 + fv := by
      rw [BitVec.toNat_add, BitVec.toNat_ofNat, BitVec.toNat_ofNat]
      omega
    rw [hslot, Nat.add_assoc, ← Nat.mul_add] at h1
    have hc := h.write (by omega) h1
    exact hc.trans (ih (fv + 1) hc.ok (by omega) h2)

theorem execMakeFun2_confined (h : ProcOk m p) (hfree : instr.arg2.toNat < 2 ^ 26)
    (hfull : GrantsInFull m p ((instr.arg2 + 2#32).setWidth 64))
    (he : execMakeFun2 instr m p ip = some e) : Confined m p e.mem e.proc := by
  have hwords : ((instr.arg2 + 2#32).setWidth 64).toNat = instr.arg2.toNat + 2 := by
    rw [BitVec.toNat_setWidth, BitVec.toNat_add, BitVec.toNat_ofNat]
    omega
  unfold execMakeFun2 at he
  dsimp only at he
  split at he
  · rename_i ha
    cases he
    exact (h.allocHeap (by omega) hfull ha).1
  · rename_i m₁ p₁ hp ha
    obtain ⟨m₂, h2, h3⟩ := Option.bind_eq_some_iff.mp he
    obtain ⟨m₃, h4, rfl⟩ := Option.map_eq_some_iff.mp h3
    obtain ⟨hc, hroom⟩ := h.allocHeap (by omega) hfull ha
    obtain ⟨rfl, hle⟩ := hroom hp rfl
    have hc₂ := hc.ok.writeAll _ (show p.heapTop.toNat + 2 ≤ p₁.heapCapacity.toNat by omega) h2
    have hc₃ := hc₂.ok.storeFreeVars hfree (by omega) instr.arg2.toNat 0 (Nat.zero_add _) h4
    have hall := (hc.trans hc₂).trans hc₃
    split
    · exact hall.trans (hall.ok.sameBut rfl)
    · exact hall

/-! ### Every instruction -/

/-- **An instruction stays in its process**: the bounds are kept and nothing is written outside the
own block. -/
theorem execInstr_confined (h : ProcOk m p)
    (hfun : instr.opcode = .makeFun2 → instr.arg2.toNat < 2 ^ 26 ∧
      GrantsInFull m p ((instr.arg2 + 2#32).setWidth 64))
    (he : execInstr code instr m p ip = some e) : Confined m p e.mem e.proc := by
  cases hl : instr.opcode.Light with
  | true =>
    have hlight := execInstr_light he hl
    rw [hlight.mem]
    refine h.sameBut ?_
    unfold Process.SameBut
    rw [hlight.proc]
  | false =>
    rw [execInstr] at he
    cases hop : instr.opcode <;> simp only [hop, Opcode.Light, reduceCtorEq] at he hl
    case allocate => exact execAllocate_confined h he
    case deallocate => exact execDropFrame_confined h he
    case callLast => exact execDropFrame_confined h he
    case send =>
      cases he
      unfold execSend
      split <;> exact h.confined
    case wait => cases he; exact h.sameBut rfl
    case loopRec => exact execLoopRec_confined h he
    case removeMessage => exact execRemoveMessage_confined h he
    case loopRecEnd => exact execLoopRecEnd_confined h he
    case «try» => cases he; exact execTry_confined h
    case «catch» => cases he; exact execTry_confined h
    case tryEnd => exact execTryEnd_confined h he
    case raise => exact execRaise_confined h he
    case makeFun2 =>
      obtain ⟨hfree, hfull⟩ := hfun hop
      exact execMakeFun2_confined h hfree hfull he

theorem execTry_event : (execTry instr m p ip).event = none := by
  unfold execTry
  split <;> rfl

theorem execTryEnd_event (he : execTryEnd m p ip = some e) : e.event = none := by
  unfold execTryEnd at he
  split at he
  · cases he; rfl
  · cases he; rfl
  · obtain ⟨prev, _, rfl⟩ := Option.map_eq_some_iff.mp he
    rfl

theorem execRaise_event (he : execRaise code instr m p ip = some e) : e.event = none := by
  unfold execRaise at he
  dsimp only at he
  split at he
  · cases he; rfl
  · obtain ⟨cf, _, rfl⟩ := Option.map_eq_some_iff.mp he
    rfl

theorem execMakeFun2_event (he : execMakeFun2 instr m p ip = some e) : e.event = none := by
  unfold execMakeFun2 at he
  dsimp only at he
  split at he
  · cases he; rfl
  · obtain ⟨m₂, _, h3⟩ := Option.bind_eq_some_iff.mp he
    obtain ⟨m₃, _, rfl⟩ := Option.map_eq_some_iff.mp h3
    split <;> rfl

/-- The message an instruction sends, if it is a `SEND` with a register and a target. -/
def Instruction.message (instr : Instruction) (p : Process) : Option (ProcId × Eterm) :=
  if instr.opcode = .send then
    (xReg instr.arg1).bind fun reg => instr.targetProc.map fun target => (target, p.x reg)
  else none

/-- **Only `SEND` sends**, and it sends the value of its message register. -/
theorem execInstr_sent (he : execInstr code instr m p ip = some e) (target : ProcId) (msg : Eterm) :
    e.event = some (.sent target msg) ↔ instr.message p = some (target, msg) := by
  by_cases hsend : instr.opcode = .send
  · rw [execInstr, hsend] at he
    cases he
    rw [Instruction.message, if_pos hsend]
    cases hr : xReg instr.arg1 <;> cases ht : instr.targetProc <;>
      simp [execSend, hr, ht, Effect.goto]
  · rw [Instruction.message, if_neg hsend]
    refine iff_of_false (fun hev => ?_) (by simp)
    have hnone : e.event = none → False := fun hn => by rw [hn] at hev; cases hev
    cases hl : instr.opcode.Light with
    | true => exact hnone (execInstr_light he hl).event
    | false =>
      rw [execInstr] at he
      cases hop : instr.opcode <;> simp only [hop, Opcode.Light, reduceCtorEq] at he hl
      case allocate => exact hnone (execAllocate_movesStack he).event
      case deallocate | callLast => exact hnone (execDropFrame_movesStack he).event
      case send => exact hsend hop
      case wait => cases he; cases hev
      case loopRec =>
        obtain ⟨r, _, rfl⟩ := Option.map_eq_some_iff.mp he
        split at hev <;> cases hev
      case removeMessage =>
        obtain ⟨r, _, rfl⟩ := Option.map_eq_some_iff.mp he
        cases hev
      case loopRecEnd =>
        obtain ⟨mb, _, rfl⟩ := Option.map_eq_some_iff.mp he
        cases hev
      case «try» => cases he; exact hnone execTry_event
      case «catch» => cases he; exact hnone execTry_event
      case tryEnd => exact hnone (execTryEnd_event he)
      case raise => exact hnone (execRaise_event he)
      case makeFun2 => exact hnone (execMakeFun2_event he)

end Confined

end BeamModular
