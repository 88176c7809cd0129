import BeamModular.Emulator.Closure
import BeamModular.Emulator.Footprint
import BeamModular.Emulator.Pid
import BeamModular.Emulator.Quantum
import BeamModular.Emulator.TermMachine

/-!
# A process mirrors a process on terms

`Mirrors view m p t` says that the process `p` in the memory `m` is what the machine on
terms knows as `t`.  The registers and the messages show the trees of `t`, and they show
them to someone who can read `view` only, the words of the heaps that are in use; the stack
is the words of the block from the stack pointer on; the catch frames are the handlers; and
what lies between heap and stack is the room.

`execInstr_tracks` is the simulation of one instruction: wherever the machine on terms has
a result, `beam_emu.c` has one, it reads and writes nothing that is not there, and the
results mirror each other (`Tracks`).  Everything but a closure leaves the used words as
they are; a closure is built on words that were not in use.
-/

namespace BeamModular

/-! ### The relation -/

/-- These words lie in the memory, one after the other. -/
def WordsAt (m : Memory) (a : Nat) : List Word → Prop
  | [] => True
  | w :: ws => m.cell a = some w ∧ WordsAt m (a + 8) ws

/-- The catch frames below depth `n` are these handlers, the newest on top. -/
def HandlersShow (frames : Nat → Option CatchFrame) (capacity : Nat) : Nat → List Handler → Prop
  | 0, [] => True
  | n + 1, h :: hs => (∃ cf, frames n = some cf ∧ cf.catchLabel = h.label ∧
      cf.catchStackTop.toNat + h.depth = capacity) ∧ HandlersShow frames capacity n hs
  | _, _ => False

/-- The messages before and from the cursor on show these terms, and a new one will not be
refused. -/
def MailShows (view : Memory) (mb : Mailbox) (passed ahead : List Term) : Prop :=
  ∃ before after, mb.View before after ∧
    List.Forall₂ (fun x t => Denotes view x.2 t) before passed ∧
    List.Forall₂ (fun x t => Denotes view x.2 t) after ahead ∧ ∀ n, mb.alloc n = true

/-- **The process is what the machine on terms has.** -/
structure Mirrors (view m : Memory) (p : Process) (t : TermProc) : Prop where
  pid : p.pid = t.pid
  regs : ∀ i, Denotes view (p.x i) (t.regs i)
  cp : p.frame.cp = t.cp
  ip : p.frame.ip = t.ip
  stack : WordsAt m (p.heap + 8 * p.stackTop.toNat) t.stack
  depth : p.stackTop.toNat + t.stack.length = p.heapCapacity.toNat
  handlers : HandlersShow (catchAt p.frame) p.heapCapacity.toNat p.frame.catchDepth t.handlers
  mailbox : MailShows view p.mailbox t.passed t.ahead
  room : p.heapTop.toNat + t.room = p.stackTop.toNat

/-- The used words of the heap stay what and where they are. -/
structure KeepsHeap (m : Memory) (p : Process) (m' : Memory) (p' : Process) : Prop where
  heap : p'.heap = p.heap
  top : p.heapTop.toNat ≤ p'.heapTop.toNat
  words : ∀ i < p.heapTop.toNat, m'.cell (p.heap + 8 * i) = m.cell (p.heap + 8 * i)

/-- The same can be seen from outside. -/
def EventShows (view : Memory) : Option TermEvent → Option Event → Prop
  | none, none => True
  | some (.sent q t), some (.sent q' w) => q = q' ∧ Denotes view w t
  | some (.examined t), some (.examined w) => Denotes view w t
  | _, _ => False

/-- What is stored through `out_result` shows the term. -/
def OutShows (view : Memory) : Option Term → Option Eterm → Prop
  | none, none => True
  | some t, some w => Denotes view w t
  | _, _ => False

/-- The process goes on or returns in the same way. -/
def NextShows (view : Memory) : TermNext → Next → Prop
  | .goto ip, .goto ip' => ip = ip'
  | .ret res state out, .ret res' state' out' => res = res' ∧ state = state' ∧ OutShows view out out'
  | _, _ => False

/-- **The effect mirrors the effect**, also to someone who reads more: the used words and those that
have been added. -/
structure Tracks (view m : Memory) (p : Process) (te : TermEffect) (e : Effect) : Prop where
  heap : KeepsHeap m p e.mem e.proc
  proc : ∀ view' : Memory, view.Extends view' →
    (∀ i, p.heapTop.toNat ≤ i → i < e.proc.heapTop.toNat →
      view'.cell (e.proc.heap + 8 * i) = e.mem.cell (e.proc.heap + 8 * i)) →
    Mirrors view' e.mem e.proc te.proc
  event : EventShows view te.event e.event
  next : NextShows view te.next e.next

section Relation

variable {view view' m m' m'' : Memory} {p p' p'' : Process} {t t' : TermProc} {ip : Nat}

theorem KeepsHeap.refl (m : Memory) (p : Process) : KeepsHeap m p m p :=
  ⟨rfl, Nat.le_refl _, fun _ _ => rfl⟩

theorem KeepsHeap.of_same (hheap : p'.heap = p.heap) (htop : p'.heapTop = p.heapTop) :
    KeepsHeap m p m p' := ⟨hheap, by rw [htop], fun _ _ => rfl⟩

theorem KeepsHeap.trans (h : KeepsHeap m p m' p') (h' : KeepsHeap m' p' m'' p'') :
    KeepsHeap m p m'' p'' where
  heap := h'.heap.trans h.heap
  top := h.top.trans h'.top
  words i hi := by
    have hw := h'.words i (lt_of_lt_of_le hi h.top)
    rw [h.heap] at hw
    exact hw.trans (h.words i hi)

theorem MailShows.extends (hview : view.Extends view') {mb : Mailbox} {passed ahead : List Term}
    (h : MailShows view mb passed ahead) : MailShows view' mb passed ahead := by
  obtain ⟨before, after, hv, hp, ha, hg⟩ := h
  exact ⟨before, after, hv, hp.imp fun _ _ hd => hd.extends hview,
    ha.imp fun _ _ hd => hd.extends hview, hg⟩

theorem Mirrors.extends (h : Mirrors view m p t) (hview : view.Extends view') :
    Mirrors view' m p t :=
  { h with
    regs := fun i => (h.regs i).extends hview
    mailbox := h.mailbox.extends hview }

theorem Tracks.of_mirrors {te : TermEffect} {e : Effect} (hheap : KeepsHeap m p e.mem e.proc)
    (hproc : Mirrors view e.mem e.proc te.proc) (hevent : EventShows view te.event e.event)
    (hnext : NextShows view te.next e.next) : Tracks view m p te e :=
  ⟨hheap, fun _ hview _ => hproc.extends hview, hevent, hnext⟩

theorem Tracks.after {te : TermEffect} {e : Effect} (h : Tracks view m p' te e)
    (hheap : p'.heap = p.heap) (htop : p'.heapTop = p.heapTop) : Tracks view m p te e :=
  { h with
    heap := (KeepsHeap.of_same hheap htop).trans h.heap
    proc := fun view' hview hnew => h.proc view' hview fun i hi => hnew i (by rwa [← htop]) }

theorem Tracks.goto (hproc : Mirrors view m p' t') (hheap : p'.heap = p.heap)
    (htop : p'.heapTop = p.heapTop) : Tracks view m p (.goto t' ip) (.goto m p' ip) :=
  .of_mirrors (.of_same hheap htop) hproc trivial rfl

theorem Tracks.fail (hproc : Mirrors view m p t) (res : Result) :
    Tracks view m p (.fail t res) (.fail m p res) :=
  .of_mirrors (.refl m p) hproc trivial ⟨rfl, rfl, trivial⟩

theorem Mirrors.setX (h : Mirrors view m p t) (i : Fin numXRegisters) {w : Eterm} {u : Term}
    (hd : Denotes view w u) : Mirrors view m (p.setX i w) (t.set i u) :=
  { h with
    regs := fun j => by
      dsimp only [Process.setX, Process.x, TermProc.set]
      rw [Function.update_apply, Function.update_apply]
      split
      · exact hd
      · exact h.regs j }

theorem Mirrors.setCp (h : Mirrors view m p t) (cp : BitVec 32) :
    Mirrors view m (p.setCp cp) { t with cp := cp } := { h with cp := rfl }

theorem Mirrors.setIp (h : Mirrors view m p t) (ip : Nat) :
    Mirrors view m (p.setIp ip) { t with ip := ip } := { h with ip := rfl }

theorem Mirrors.setMailbox (h : Mirrors view m p t) {mb : Mailbox} {passed ahead : List Term}
    (hmail : MailShows view mb passed ahead) :
    Mirrors view m { p with mailbox := mb } { t with passed := passed, ahead := ahead } :=
  { h with mailbox := hmail }

theorem Mirrors.sameStack (h : Mirrors view m p t) {stack : List Word} {room : Nat}
    (hs : stack = t.stack) (hr : room = t.room) :
    Mirrors view m p { t with stack := stack, room := room } := by
  subst hs hr
  exact h

theorem Mirrors.x_eq (h : Mirrors view m p t) {i : Fin numXRegisters} {v : Eterm}
    (hw : (t.regs i).word? = some v) : p.x i = v := (h.regs i).eq_of_word hw

end Relation

/-! ### The stack -/

section Stack

variable {view m m' : Memory} {p p' : Process} {t : TermProc}

theorem WordsAt.drop {ws : List Word} {a : Nat} (h : WordsAt m a ws) (k : Nat) :
    WordsAt m (a + 8 * k) (ws.drop k) := by
  induction k generalizing ws a with
  | zero => exact h
  | succ k ih =>
    cases ws with
    | nil => exact trivial
    | cons w ws =>
      rw [List.drop_succ_cons, show a + 8 * (k + 1) = a + 8 + 8 * k by omega]
      exact ih h.2

theorem WordsAt.congr {ws : List Word} {a : Nat} (h : WordsAt m a ws)
    (hsame : ∀ i, m'.cell (a + 8 * i) = m.cell (a + 8 * i)) : WordsAt m' a ws := by
  induction ws generalizing a with
  | nil => exact trivial
  | cons w ws ih =>
    refine ⟨(hsame 0).trans h.1, ih h.2 fun i => ?_⟩
    have hnext := hsame (i + 1)
    rwa [show a + 8 * (i + 1) = a + 8 + 8 * i by omega] at hnext

theorem WordsAt.write {ws : List Word} {a b : Nat} {v : Word} (h : WordsAt m a ws) (hb : b < a)
    (hw : m.write b v = some m') : WordsAt m' a ws := by
  induction ws generalizing a with
  | nil => exact trivial
  | cons w ws ih =>
    refine ⟨?_, ih h.2 (by omega)⟩
    rw [Memory.cell_write hw, if_neg (by omega)]
    exact h.1

theorem Mirrors.push (h : Mirrors view m p t) (hok : HeapOk m p) (hroom : 0 < t.room) (w : Word) :
    ∃ m', beamProcessStackPush m p w = some (m', { p with stackTop := p.stackTop - 1#64 }, .ok) ∧
      Mirrors view m' { p with stackTop := p.stackTop - 1#64 }
        { t with stack := w :: t.stack, room := t.room - 1 } ∧
      KeepsHeap m p m' { p with stackTop := p.stackTop - 1#64 } := by
  have hr := h.room
  have hd := h.depth
  have hlt : p.heapTop < p.stackTop := by rw [BitVec.lt_def]; omega
  have hpred := toNat_sub_one_of_lt hlt
  obtain ⟨m', hw, -, -⟩ := hok.write w (i := (p.stackTop - 1#64).toNat) (by omega)
  refine ⟨m', ?_, ?_, rfl, Nat.le_refl _, fun i hi => ?_⟩
  · rw [beamProcessStackPush, if_neg hok.nonnull, if_neg (BitVec.not_le.mpr hlt)]
    dsimp only
    rw [hw]
    rfl
  · refine { h with stack := ⟨?_, ?_⟩, depth := ?_, room := ?_ }
    · rw [Memory.cell_write hw, if_pos rfl]
    · dsimp only
      rw [hpred, show p.heap + 8 * (p.stackTop.toNat - 1) + 8 = p.heap + 8 * p.stackTop.toNat by
        omega]
      exact h.stack.write (by omega) hw
    · dsimp only
      rw [hpred, List.length_cons]
      omega
    · dsimp only
      rw [hpred]
      omega
  · rw [Memory.cell_write hw, if_neg (by omega)]

theorem Mirrors.push_refused (h : Mirrors view m p t) (hok : HeapOk m p) (hroom : t.room = 0)
    (w : Word) : beamProcessStackPush m p w = some (m, p, .errNoMemory) := by
  have hr := h.room
  have hle : p.stackTop ≤ p.heapTop := by rw [BitVec.le_def]; omega
  rw [beamProcessStackPush, if_neg hok.nonnull, if_pos hle]

theorem Mirrors.pop (h : Mirrors view m p t) (hok : HeapOk m p) {w : Word} {ws : List Word}
    (hstack : t.stack = w :: ws) :
    beamProcessStackPop m p = some ({ p with stackTop := p.stackTop + 1#64 }, .ok w) ∧
      Mirrors view m { p with stackTop := p.stackTop + 1#64 }
        { t with stack := ws, room := t.room + 1 } := by
  have hd := h.depth
  have hs := h.stack
  have hr := h.room
  rw [hstack] at hd hs
  rw [List.length_cons] at hd
  have hlt : p.stackTop < p.heapCapacity := by rw [BitVec.lt_def]; omega
  have hsucc := toNat_add_one_of_lt hlt
  constructor
  · rw [beamProcessStackPop, if_neg hok.nonnull, if_neg (BitVec.not_le.mpr hlt), hs.1]
    rfl
  · refine { h with stack := ?_, depth := ?_, room := ?_ }
    · dsimp only
      rw [hsucc]
      exact hs.2
    · dsimp only
      rw [hsucc]
      omega
    · dsimp only
      rw [hsucc]
      omega

theorem Mirrors.pop_refused (h : Mirrors view m p t) (hok : HeapOk m p) (hstack : t.stack = []) :
    beamProcessStackPop m p = some (p, .error .errBadarg) := by
  have hd := h.depth
  rw [hstack, List.length_nil] at hd
  have hge : p.heapCapacity ≤ p.stackTop := by rw [BitVec.le_def]; omega
  rw [beamProcessStackPop, if_neg hok.nonnull, if_pos hge]

theorem Mirrors.pushWords : ∀ (n : Nat) {m : Memory} {p : Process} {t : TermProc},
    Mirrors view m p t → ProcOk m p →
      ∃ m' p', pushWords n m p = some (m', p', if n ≤ t.room then .ok else .errNoMemory) ∧
        Mirrors view m' p' { t with
          stack := List.replicate (min n t.room) 0#64 ++ t.stack, room := t.room - n } ∧
        KeepsHeap m p m' p' := by
  intro n
  induction n with
  | zero =>
    intro m p t h _
    exact ⟨m, p, rfl, h.sameStack (by simp) rfl, .refl m p⟩
  | succ n ih =>
    intro m p t h hok
    rw [BeamModular.pushWords]
    rcases Nat.eq_zero_or_pos t.room with hroom | hroom
    · refine ⟨m, p, ?_, ?_, .refl m p⟩
      · rw [h.push_refused hok.heap hroom, hroom]
        rfl
      · exact h.sameStack (by simp [hroom]) (by omega)
    · obtain ⟨m₁, hp, h₁, hkeep⟩ := h.push hok.heap hroom 0#64
      obtain ⟨m', p', hrest, h', hkeep'⟩ := ih h₁ (hok.push hp).ok
      dsimp only at hrest h'
      refine ⟨m', p', ?_, ?_, hkeep.trans hkeep'⟩
      · rw [hp, Option.bind_some, if_pos rfl, hrest]
        by_cases hle : n + 1 ≤ t.room
        · rw [if_pos (by omega), if_pos hle]
        · rw [if_neg (by omega), if_neg hle]
      · have hmin : min (n + 1) t.room = min n (t.room - 1) + 1 := by omega
        have hsub : t.room - (n + 1) = t.room - 1 - n := by omega
        rw [hmin, hsub, List.replicate_succ', List.append_assoc]
        exact h'

theorem Mirrors.popFrame : ∀ (n : Nat) {p : Process} {t : TermProc}, Mirrors view m p t →
    ProcOk m p → ∃ p' res, popFrame m n p = some (p', res) ∧ p'.heap = p.heap ∧
      p'.heapTop = p.heapTop ∧
      match t.stack.drop n with
      | [] => res = .errBadarg ∧
          Mirrors view m p' { t with stack := [], room := t.room + t.stack.length }
      | cp :: rest => res = .ok ∧
          Mirrors view m p' { t with
            cp := cp.setWidth 32, stack := rest, room := t.room + (n + 1) } := by
  intro n
  induction n with
  | zero =>
    intro p t h hok
    cases hstack : t.stack with
    | nil =>
      refine ⟨p, .errBadarg, ?_, rfl, rfl, rfl, ?_⟩
      · rw [BeamModular.popFrame, h.pop_refused hok.heap hstack]
        rfl
      · exact h.sameStack hstack.symm (by simp)
    | cons w ws =>
      obtain ⟨hp, h'⟩ := h.pop hok.heap hstack
      refine ⟨Process.setCp { p with stackTop := p.stackTop + 1#64 } (w.setWidth 32), .ok, ?_, rfl,
        rfl, rfl, h'.setCp (w.setWidth 32)⟩
      rw [BeamModular.popFrame, hp]
      rfl
  | succ n ih =>
    intro p t h hok
    rw [BeamModular.popFrame]
    cases hstack : t.stack with
    | nil =>
      refine ⟨p, .errBadarg, ?_, rfl, rfl, rfl, ?_⟩
      · rw [h.pop_refused hok.heap hstack]
        rfl
      · exact h.sameStack hstack.symm (by simp)
    | cons w ws =>
      obtain ⟨hp, h'⟩ := h.pop hok.heap hstack
      obtain ⟨p', res, hrest, hheap, htop, hres⟩ := ih h' (hok.pop hp).ok
      refine ⟨p', res, by rw [hp]; exact hrest, hheap, htop, ?_⟩
      rw [List.drop_succ_cons]
      dsimp only at hres
      cases hdrop : ws.drop n with
      | nil =>
        rw [hdrop] at hres
        refine ⟨hres.1, ?_⟩
        rw [List.length_cons, Nat.add_comm ws.length 1, ← Nat.add_assoc]
        exact hres.2
      | cons cp rest =>
        rw [hdrop] at hres
        refine ⟨hres.1, ?_⟩
        rw [Nat.add_comm (n + 1) 1, ← Nat.add_assoc]
        exact hres.2

end Stack

/-! ### The instructions -/

section Instructions

variable {code : List Instruction} {instr : Instruction} {view m : Memory} {p : Process}
  {t : TermProc} {ip : Nat} {te : TermEffect}

theorem execAllocate_tracks (h : Mirrors view m p t) (hok : ProcOk m p) :
    ∃ e, execAllocate instr m p ip = some e ∧ Tracks view m p (termAllocate instr t ip) e := by
  have hcp : p.frame.cp.setWidth 64 = t.cp.setWidth 64 := by rw [h.cp]
  rw [execAllocate, hcp]
  rcases Nat.eq_zero_or_pos t.room with hroom | hroom
  · refine ⟨.fail m p .errNoMemory, ?_, ?_⟩
    · rw [h.push_refused hok.heap hroom]
      rfl
    · rw [termAllocate, if_neg (by omega), hroom, Nat.sub_zero]
      refine .fail ?_ _
      have hdrop : (t.framed instr.arg1.toNat).drop (instr.arg1.toNat + 1) = t.stack := by
        simp [TermProc.framed, List.drop_append]
      rw [hdrop, ← hroom]
      exact h
  · obtain ⟨m₁, hp, h₁, hkeep⟩ := h.push hok.heap hroom (t.cp.setWidth 64)
    obtain ⟨m', p', hrest, h', hkeep'⟩ := h₁.pushWords instr.arg1.toNat (hok.push hp).ok
    rw [hp, Option.bind_some, if_pos rfl, hrest, Option.map_some]
    refine ⟨_, rfl, ?_⟩
    dsimp only at h' ⊢
    by_cases hle : instr.arg1.toNat + 1 ≤ t.room
    · have hall : instr.arg1.toNat ≤ t.room - 1 := by omega
      rw [if_pos hall, if_pos rfl, termAllocate, if_pos hle]
      refine .of_mirrors (hkeep.trans hkeep') ?_ trivial rfl
      have hsub : t.room - 1 - instr.arg1.toNat = t.room - (instr.arg1.toNat + 1) := by omega
      rw [Nat.min_eq_left (by omega), hsub] at h'
      exact h'
    · have hall : ¬ instr.arg1.toNat ≤ t.room - 1 := by omega
      rw [if_neg hall, if_neg (by decide), termAllocate, if_neg hle]
      refine .of_mirrors (hkeep.trans hkeep') ?_ trivial ⟨rfl, rfl, trivial⟩
      have hdrop : (t.framed instr.arg1.toNat).drop (instr.arg1.toNat + 1 - t.room) =
          List.replicate (t.room - 1) 0#64 ++ t.cp.setWidth 64 :: t.stack := by
        rw [TermProc.framed, List.drop_append_of_le_length (by simp; omega), List.drop_replicate]
        congr 2
        omega
      rw [Nat.min_eq_right (by omega), show t.room - 1 - instr.arg1.toNat = 0 by omega] at h'
      dsimp only [TermEffect.fail]
      rw [hdrop]
      exact h'

theorem execDropFrame_tracks (h : Mirrors view m p t) (hok : ProcOk m p) (words : BitVec 32)
    (target : Nat) : ∃ e, execDropFrame m p words target = some e ∧
      Tracks view m p (termDropFrame t words.toNat target) e := by
  obtain ⟨p', res, hpop, hheap, htop, hres⟩ := h.popFrame words.toNat hok
  rw [execDropFrame, hpop, termDropFrame]
  refine ⟨_, rfl, ?_⟩
  cases hdrop : t.stack.drop words.toNat with
  | nil =>
    rw [hdrop] at hres
    dsimp only
    rw [hres.1, if_neg (by decide)]
    exact .of_mirrors (.of_same hheap htop) hres.2 trivial ⟨rfl, rfl, trivial⟩
  | cons cp rest =>
    rw [hdrop] at hres
    dsimp only
    rw [hres.1, if_pos rfl]
    exact .goto hres.2 hheap htop

theorem execMove_tracks (h : Mirrors view m p t) (ht : termMove instr t ip = some te) :
    Tracks view m p te (execMove instr m p ip) := by
  unfold termMove at ht
  split at ht
  · rename_i hdst
    rw [execMove, hdst]
    split at ht
    · cases ht
      exact .goto (h.setX _ (denotes_imm ‹_›)) rfl rfl
    · cases ht
  · rename_i hdst
    rw [execMove, hdst]
    cases ht
    exact .goto h rfl rfl

theorem execArith_tracks (h : Mirrors view m p t) {op : Word → Word → Word}
    (ht : termArith instr t ip op = some te) :
    Tracks view m p te (execArith instr m p ip op) := by
  unfold termArith at ht
  split at ht
  · rename_i h1 h2 h3
    obtain ⟨v1, hv1, ht⟩ := Option.bind_eq_some_iff.mp ht
    obtain ⟨v2, hv2, rfl⟩ := Option.map_eq_some_iff.mp ht
    rw [execArith, h1, h2, h3]
    dsimp only
    rw [h.x_eq hv1, h.x_eq hv2]
    exact .goto (h.setX _ (denotes_imm (isImmediate_makeSmallInt _))) rfl rfl
  · rename_i hno
    cases ht
    unfold execArith
    split
    · rename_i h1 h2 h3
      exact (hno _ _ _ h1 h2 h3).elim
    · exact .goto h rfl rfl

theorem execIntDiv_tracks (h : Mirrors view m p t) (ht : termIntDiv instr t ip = some te) :
    Tracks view m p te (execIntDiv instr m p ip) := by
  unfold termIntDiv at ht
  split at ht
  · rename_i h1 h2 h3
    obtain ⟨v1, hv1, ht⟩ := Option.bind_eq_some_iff.mp ht
    obtain ⟨v2, hv2, rfl⟩ := Option.map_eq_some_iff.mp ht
    rw [execIntDiv, h1, h2, h3]
    dsimp only
    rw [h.x_eq hv1, h.x_eq hv2]
    split
    · exact .fail h _
    · exact .goto (h.setX _ (denotes_imm (isImmediate_makeSmallInt _))) rfl rfl
  · rename_i hno
    cases ht
    unfold execIntDiv
    split
    · rename_i h1 h2 h3
      exact (hno _ _ _ h1 h2 h3).elim
    · exact .goto h rfl rfl

theorem execSend_tracks (h : Mirrors view m p t) :
    Tracks view m p (termSend instr t ip) (execSend instr m p ip) := by
  unfold termSend execSend
  cases xReg instr.arg1 with
  | none => exact .goto h rfl rfl
  | some reg =>
    cases instr.targetProc with
    | none => exact .goto h rfl rfl
    | some target => exact .of_mirrors (.refl m p) h ⟨rfl, h.regs reg⟩ rfl

/-! ### Tests -/

theorem execTest_tracks (h : Mirrors view m p t) (holds : Bool) :
    Tracks view m p (termTest code instr t ip holds) (execTest code instr m p ip holds) := by
  unfold termTest execTest
  split <;> exact .goto h rfl rfl

theorem execTestExact_tracks (h : Mirrors view m p t) {same : Bool}
    (ht : termTestExact code instr t ip same = some te) :
    ∃ e, execTestExact code instr m p ip same = some e ∧ Tracks view m p te e := by
  obtain ⟨r1, h1, ht⟩ := Option.bind_eq_some_iff.mp ht
  obtain ⟨r2, h2, ht⟩ := Option.bind_eq_some_iff.mp ht
  obtain ⟨b, hb, rfl⟩ := Option.map_eq_some_iff.mp ht
  have heq := (h.regs r1).beq_eq_same (h.regs r2) hb
  rw [execTestExact, h1, h2]
  refine ⟨_, rfl, ?_⟩
  dsimp only
  rw [heq]
  exact execTest_tracks h _

theorem execTestIsTuple_tracks (h : Mirrors view m p t) (hsub : view.Extends m)
    (ht : termTestIsTuple code instr t ip = some te) :
    ∃ e, execTestIsTuple code instr m p ip = some e ∧ Tracks view m p te e := by
  obtain ⟨r, hr, rfl⟩ := Option.map_eq_some_iff.mp ht
  rw [execTestIsTuple, hr, Option.bind_some, ((h.regs r).extends hsub).isTuple]
  exact ⟨_, rfl, execTest_tracks h _⟩

theorem execTestIsList_tracks (h : Mirrors view m p t)
    (ht : termTestIsList code instr t ip = some te) :
    ∃ e, execTestIsList code instr m p ip = some e ∧ Tracks view m p te e := by
  obtain ⟨r, hr, rfl⟩ := Option.map_eq_some_iff.mp ht
  rw [execTestIsList, hr, Option.map_some, (h.regs r).isList, (h.regs r).isNil]
  exact ⟨_, rfl, execTest_tracks h _⟩

theorem execSelectVal_tracks (h : Mirrors view m p t)
    (ht : termSelectVal code instr t ip = some te) :
    ∃ e, execSelectVal code instr m p ip = some e ∧ Tracks view m p te e := by
  unfold termSelectVal at ht
  dsimp only at ht
  split at ht
  · rename_i htable
    cases ht
    rw [execSelectVal, htable]
    exact ⟨_, rfl, .goto h rfl rfl⟩
  · rename_i table htable
    rw [execSelectVal, htable]
    dsimp only
    split at ht
    · rename_i hcount
      obtain ⟨src, hsrc, ht⟩ := Option.bind_eq_some_iff.mp ht
      obtain ⟨value, hvalue, ht⟩ := Option.bind_eq_some_iff.mp ht
      obtain ⟨found, hfound, rfl⟩ := Option.map_eq_some_iff.mp ht
      rw [if_pos hcount, hsrc, Option.bind_some, h.x_eq hvalue, hfound]
      exact ⟨_, rfl, .goto h rfl rfl⟩
    · rename_i hcount
      cases ht
      rw [if_neg hcount]
      exact ⟨_, rfl, .goto h rfl rfl⟩

/-! ### Lists and tuples -/

theorem execMatchTuple_tracks (h : Mirrors view m p t) (hsub : view.Extends m) :
    ∃ e, execMatchTuple instr m p ip = some e ∧
      Tracks view m p (termMatchTuple instr t ip) e := by
  unfold execMatchTuple termMatchTuple
  cases hsrc : xReg instr.arg1 with
  | none => exact ⟨_, rfl, .goto h rfl rfl⟩
  | some src =>
    have hd := (h.regs src).extends hsub
    dsimp only
    rw [hd.isTuple, Option.bind_some]
    cases hreg : t.regs src with
    | tuple arity element =>
      rw [hreg] at hd
      obtain ⟨n, hn, rfl⟩ := hd.2.1
      rw [hn]
      refine ⟨_, rfl, ?_⟩
      have hiff : n = instr.arg2.setWidth 64 ↔ n.toNat = instr.arg2.toNat := by
        have hlt := instr.arg2.isLt
        rw [← BitVec.toNat_inj, BitVec.toNat_setWidth, Nat.mod_eq_of_lt (by omega)]
      dsimp only
      by_cases harity : n.toNat = instr.arg2.toNat
      · rw [if_pos harity, if_pos ⟨rfl, hiff.mpr harity⟩]
        exact .goto h rfl rfl
      · rw [if_neg harity, if_neg fun hc => harity (hiff.mp hc.2)]
        exact .fail h _
    | imm v =>
      rw [hreg] at hd
      rw [beamTupleArity, hd.isTuple]
      exact ⟨_, rfl, .fail h _⟩
    | cons head tail =>
      rw [hreg] at hd
      rw [beamTupleArity, hd.isTuple]
      exact ⟨_, rfl, .fail h _⟩

theorem execGetTupleElement_tracks (h : Mirrors view m p t) (hsub : view.Extends m)
    (ht : termGetTupleElement instr t ip = some te) :
    ∃ e, execGetTupleElement instr m p ip = some e ∧ Tracks view m p te e := by
  unfold termGetTupleElement at ht
  unfold execGetTupleElement
  cases h1 : xReg instr.arg1 with
  | none =>
    rw [h1] at ht
    cases ht
    exact ⟨_, rfl, .goto h rfl rfl⟩
  | some src =>
    cases h3 : xReg instr.arg3 with
    | none =>
      rw [h1, h3] at ht
      cases ht
      exact ⟨_, rfl, .goto h rfl rfl⟩
    | some dst =>
      rw [h1, h3] at ht
      have hd := h.regs src
      dsimp only at ht ⊢
      cases hreg : t.regs src with
      | tuple arity element =>
        rw [hreg] at ht hd
        dsimp only at ht
        split at ht
        · rename_i hlt
          cases ht
          obtain ⟨w, hw, hdw⟩ := hd.2.2 ⟨instr.arg2.toNat, hlt⟩
          rw [beamTupleElement_extends hsub hw]
          exact ⟨_, rfl, .goto (h.setX dst hdw) rfl rfl⟩
        · cases ht
      | imm v =>
        rw [hreg] at ht hd
        cases ht
        rw [beamTupleElement, (hd.extends hsub).isTuple]
        exact ⟨_, rfl, .goto (h.setX dst (denotes_imm (by decide))) rfl rfl⟩
      | cons head tail =>
        rw [hreg] at ht hd
        cases ht
        rw [beamTupleElement, (hd.extends hsub).isTuple]
        exact ⟨_, rfl, .goto (h.setX dst (denotes_imm (by decide))) rfl rfl⟩

theorem execGetList_tracks (h : Mirrors view m p t) (hsub : view.Extends m)
    (ht : termGetList instr t ip = some te) :
    ∃ e, execGetList instr m p ip = some e ∧ Tracks view m p te e := by
  obtain ⟨src, h1, ht⟩ := Option.bind_eq_some_iff.mp ht
  have hd := h.regs src
  rw [execGetList, h1, Option.bind_some]
  dsimp only
  rw [hd.isList]
  cases hreg : t.regs src with
  | cons head tail =>
    rw [hreg] at ht hd
    obtain ⟨r1, h2, ht⟩ := Option.bind_eq_some_iff.mp ht
    obtain ⟨r2, h3, rfl⟩ := Option.map_eq_some_iff.mp ht
    obtain ⟨_, ⟨a, ha, hda⟩, b, hb, hdb⟩ := hd
    rw [h2, h3, beamListHead_extends hsub ha, beamListTail_extends hsub hb]
    exact ⟨_, rfl, .goto ((h.setX r1 hda).setX r2 hdb) rfl rfl⟩
  | imm v =>
    rw [hreg] at ht
    cases ht
    exact ⟨_, rfl, .fail h _⟩
  | tuple arity element =>
    rw [hreg] at ht
    cases ht
    exact ⟨_, rfl, .fail h _⟩

/-! ### Built-in functions -/

theorem Denotes.tail {w b : Eterm} {head tail : Term} (h : Denotes m w (.cons head tail))
    (hb : TailEdge m w b) : Denotes m b tail := by
  obtain ⟨hl, _, b', hb', hd⟩ := h
  rw [beamListTail, if_pos hl, hb.2] at hb'
  cases hb'
  exact hd

theorem Denotes.acyclicList {u : Term} : ∀ {w : Eterm}, Denotes m w u → AcyclicList m w := by
  induction u with
  | imm v => exact fun hd => acyclicList_of_not_list hd.isList
  | cons head tail _ ih => exact fun hd => acyclicList_of_tail fun b hb => ih (hd.tail hb)
  | tuple arity element _ => exact fun hd => acyclicList_of_not_list hd.isList

theorem Denotes.not_walksOff {u : Term} : ∀ {w : Eterm}, Denotes m w u → ¬ WalksOff m w := by
  induction u with
  | imm v =>
    rintro w hd ⟨x, hx, hl, _⟩
    rcases hx.cases_head with rfl | ⟨_, he, _⟩
    · rw [hd.isList] at hl; cases hl
    · rw [TailEdge, hd.isList] at he; cases he.1
  | cons head tail _ ih =>
    rintro w hd ⟨x, hx, hl, hnone⟩
    rcases hx.cases_head with rfl | ⟨b, he, hrest⟩
    · obtain ⟨hl', _, b, hb, _⟩ := hd
      rw [beamListTail, if_pos hl', hnone] at hb
      cases hb
    · exact ih (hd.tail he) ⟨x, hrest, hl, hnone⟩
  | tuple arity element _ =>
    rintro w hd ⟨x, hx, hl, _⟩
    rcases hx.cases_head with rfl | ⟨_, he, _⟩
    · rw [hd.isList] at hl; cases hl
    · rw [TailEdge, hd.isList] at he; cases he.1

/-- A length that is found is the number of cells. -/
theorem Denotes.listLength_eq {u : Term} : ∀ {fuel : Nat} {w : Eterm} {len n : Word},
    Denotes m w u → listLength m fuel w len = some n → n = len + BitVec.ofNat 64 u.spine := by
  induction u with
  | cons head tail _ ih =>
    intro fuel w len n hd hn
    cases fuel with
    | zero => cases hn
    | succ fuel =>
      rw [listLength, hd.isList, if_pos (by rfl)] at hn
      obtain ⟨b, hb, hrest⟩ := Option.bind_eq_some_iff.mp hn
      obtain ⟨_, _, b', hb', hd'⟩ := hd
      rw [hb] at hb'
      cases hb'
      rw [ih hd' hrest, Term.spine, BitVec.ofNat_add, BitVec.add_assoc,
        BitVec.add_comm (1#64) (BitVec.ofNat 64 tail.spine)]
  | imm v =>
    intro fuel w len n hd hn
    cases fuel with
    | zero => cases hn
    | succ fuel =>
      rw [listLength, hd.isList] at hn
      cases hn
      simp [Term.spine]
  | tuple arity element _ =>
    intro fuel w len n hd hn
    cases fuel with
    | zero => cases hn
    | succ fuel =>
      rw [listLength, hd.isList] at hn
      cases hn
      simp [Term.spine]

theorem Denotes.listLength {w : Eterm} {u : Term} (hd : Denotes m w u) :
    listLength m (addressSpace + 1) w 0#64 = some (BitVec.ofNat 64 u.spine) := by
  obtain ⟨n, hn⟩ := listLength_ends 0#64 hd.acyclicList hd.not_walksOff
  rw [hn, hd.listLength_eq hn, BitVec.zero_add]

theorem isImmediate_bifBool (b : Bool) : IsImmediate (bifBool b) := by cases b <;> decide

theorem isImmediate_bifSelf0 (p : Process) : IsImmediate (bifSelf0 p) := by
  have := toNat_bifSelf0 p
  unfold IsImmediate
  omega

theorem bifArith_shows (h : Mirrors view m p t) {op : Word → Word → Word} {arity : Int} {u : Term}
    (hu : termBifArith t op arity = some u) : Denotes view (bifArith op p.frame.xRegs arity) u := by
  unfold termBifArith at hu
  unfold bifArith
  split at hu
  · rename_i hlt
    cases hu
    rw [if_pos hlt]
    exact denotes_imm (by decide)
  · rename_i hge
    obtain ⟨v1, hv1, hu⟩ := Option.bind_eq_some_iff.mp hu
    obtain ⟨v2, hv2, rfl⟩ := Option.map_eq_some_iff.mp hu
    have h0 : p.frame.xRegs 0 = v1 := h.x_eq hv1
    have h1 : p.frame.xRegs 1 = v2 := h.x_eq hv2
    rw [if_neg hge, h0, h1]
    exact denotes_imm (isImmediate_makeSmallInt _)

theorem termBif1_shows {f : Term → Eterm} {arity : Int} {w : Eterm}
    (hw : w = if arity < 1 then 0#64 else f (t.regs 0)) (himm : IsImmediate (f (t.regs 0))) :
    Denotes view w (termBif1 t f arity) := by
  unfold termBif1
  subst hw
  split
  · exact denotes_imm (by decide)
  · exact denotes_imm himm

/-- The two dispatchers agree. -/
inductive BifShows (view : Memory) : Except Result Term → Except Result Eterm → Prop
  | ok {u : Term} {w : Eterm} (h : Denotes view w u) : BifShows view (.ok u) (.ok w)
  | error (e : Result) : BifShows view (.error e) (.error e)

theorem beamBifDispatch_shows (h : Mirrors view m p t) (hsub : view.Extends m) {bifIndex : Nat}
    {arity : Int} {r : Except Result Term} (hr : termBif t bifIndex arity = some r) :
    ∃ r', beamBifDispatch bifIndex m p arity = some r' ∧ BifShows view r r' := by
  have hx := (h.regs 0).extends hsub
  change Denotes m (p.frame.xRegs 0) (t.regs 0) at hx
  unfold termBif at hr
  split at hr
  · cases hr
    refine ⟨_, rfl, ?_⟩
    rw [← h.pid]
    exact .ok (denotes_imm (isImmediate_bifSelf0 p))
  · obtain ⟨u, hu, rfl⟩ := Option.map_eq_some_iff.mp hr
    exact ⟨_, rfl, .ok (bifArith_shows h hu)⟩
  · obtain ⟨u, hu, rfl⟩ := Option.map_eq_some_iff.mp hr
    exact ⟨_, rfl, .ok (bifArith_shows h hu)⟩
  · cases hr
    refine ⟨_, rfl, .ok (termBif1_shows ?_ (isImmediate_bifBool _))⟩
    rw [bifIsAtom1, hx.isAtom]
  · cases hr
    have htuple : bifIsTuple1 m p.frame.xRegs arity =
        some (if arity < 1 then 0#64 else bifBool (t.regs 0).isTuple) := by
      rw [bifIsTuple1, hx.isTuple]
      split <;> rfl
    exact ⟨_, congrArg (Option.map Except.ok) htuple,
      .ok (termBif1_shows rfl (isImmediate_bifBool _))⟩
  · cases hr
    have hlength : bifLength1 m p.frame.xRegs arity =
        some (if arity < 1 then 0#64 else makeSmallInt (BitVec.ofNat 64 (t.regs 0).spine)) := by
      rw [bifLength1, hx.listLength]
      split <;> rfl
    exact ⟨_, congrArg (Option.map Except.ok) hlength,
      .ok (termBif1_shows rfl (isImmediate_makeSmallInt _))⟩
  · rename_i h0 h1 h2 h3 h4 h5
    cases hr
    refine ⟨.error .errNotFound, ?_, .error _⟩
    unfold beamBifDispatch
    dsimp only
    split
    · exact (h0 rfl).elim
    · exact (h1 rfl).elim
    · exact (h2 rfl).elim
    · exact (h3 rfl).elim
    · exact (h4 rfl).elim
    · exact (h5 rfl).elim
    · rfl

theorem execCallExt_tracks (h : Mirrors view m p t) (hsub : view.Extends m)
    (ht : termCallExt instr t ip = some te) :
    ∃ e, execCallExt instr m p ip = some e ∧ Tracks view m p te e := by
  obtain ⟨r, hr, rfl⟩ := Option.map_eq_some_iff.mp ht
  obtain ⟨r', hr', hshow⟩ := beamBifDispatch_shows h hsub hr
  rw [execCallExt, hr', Option.map_some]
  refine ⟨_, rfl, ?_⟩
  cases hshow with
  | ok hd => exact .goto (h.setX 0 hd) rfl rfl
  | error e => exact .fail h e

/-! ### The mailbox -/

section Mail

variable {mb : Mailbox} {passed ahead : List Term}

theorem MailShows.rewind (h : MailShows view mb passed ahead) :
    MailShows view mb.resetSaveCursor [] (passed ++ ahead) := by
  obtain ⟨before, after, hv, hp, ha, hg⟩ := h
  exact ⟨[], before ++ after, Mailbox.resetSaveCursor_view hv, .nil, List.rel_append hp ha, hg⟩

theorem MailShows.peek {msg : Term} (h : MailShows view mb passed (msg :: ahead)) :
    ∃ w, mb.peekSave = some (mb, .ok w) ∧ Denotes view w msg := by
  obtain ⟨before, after, hv, _, ha, _⟩ := h
  obtain ⟨x, after, hx, _, rfl⟩ := List.forall₂_cons_right_iff.mp ha
  exact ⟨x.2, Mailbox.peekSave_view hv, hx⟩

theorem MailShows.peek_restart {msg : Term} (h : MailShows view mb (msg :: passed) []) :
    ∃ w, mb.peekSave = some (mb.resetSaveCursor, .ok w) ∧ Denotes view w msg := by
  obtain ⟨before, after, hv, hp, ha, _⟩ := h
  obtain rfl := List.forall₂_nil_right_iff.mp ha
  obtain ⟨x, before, hx, _, rfl⟩ := List.forall₂_cons_right_iff.mp hp
  exact ⟨x.2, Mailbox.peekSave_view_restart hv, hx⟩

theorem MailShows.peek_empty (h : MailShows view mb [] []) :
    mb.peekSave = some (mb.resetSaveCursor, .error .errNotFound) := by
  obtain ⟨before, after, hv, hp, ha, _⟩ := h
  obtain rfl := List.forall₂_nil_right_iff.mp ha
  obtain rfl := List.forall₂_nil_right_iff.mp hp
  exact Mailbox.peekSave_view_empty hv

theorem MailShows.remove {msg : Term} (h : MailShows view mb passed (msg :: ahead)) :
    ∃ mb' r, mb.removeCurrent = some (mb', r) ∧ MailShows view mb' passed ahead := by
  obtain ⟨before, after, hv, hp, ha, hg⟩ := h
  obtain ⟨x, after, _, hrest, rfl⟩ := List.forall₂_cons_right_iff.mp ha
  obtain ⟨mb', hr, hv'⟩ := Mailbox.removeCurrent_view hv
  refine ⟨mb', _, hr, before, after, hv', hp, hrest, ?_⟩
  rw [(Mailbox.removeCurrent_keeps hr).2.2.1]
  exact hg

theorem MailShows.advance {msg : Term} (h : MailShows view mb passed (msg :: ahead)) :
    ∃ mb', mb.advanceSave = some mb' ∧ MailShows view mb' (passed ++ [msg]) ahead := by
  obtain ⟨before, after, hv, hp, ha, hg⟩ := h
  obtain ⟨x, after, hx, hrest, rfl⟩ := List.forall₂_cons_right_iff.mp ha
  obtain ⟨mb', hr, hv', _⟩ := Mailbox.advanceSave_view hv
  refine ⟨mb', hr, before ++ [x], after, hv', List.rel_append hp (.cons hx .nil), hrest, ?_⟩
  rw [(Mailbox.advanceSave_keeps hr).2.1]
  exact hg

/-- Without a message under the cursor nothing is removed and nothing is passed. -/
theorem MailShows.cursor_null (h : MailShows view mb passed []) : mb.saveCursor = none := by
  obtain ⟨before, after, hv, _, ha, _⟩ := h
  obtain rfl := List.forall₂_nil_right_iff.mp ha
  exact hv.cursor

end Mail

theorem execRemoveMessage_tracks (h : Mirrors view m p t) :
    ∃ e, execRemoveMessage m p ip = some e ∧ Tracks view m p (termRemoveMessage t ip) e := by
  have hmail := h.mailbox
  unfold execRemoveMessage termRemoveMessage
  cases hah : t.ahead with
  | nil =>
    rw [hah] at hmail
    rw [Mailbox.removeCurrent, hmail.cursor_null]
    exact ⟨_, rfl, .goto (h.setMailbox hmail) rfl rfl⟩
  | cons msg ahead =>
    rw [hah] at hmail
    obtain ⟨mb', r, hr, hmail'⟩ := hmail.remove
    rw [hr]
    exact ⟨_, rfl, .goto (h.setMailbox hmail') rfl rfl⟩

theorem execLoopRecEnd_tracks (h : Mirrors view m p t) :
    ∃ e, execLoopRecEnd code instr m p ip = some e ∧
      Tracks view m p (termLoopRecEnd code instr t ip) e := by
  have hmail := h.mailbox
  unfold execLoopRecEnd termLoopRecEnd
  cases hah : t.ahead with
  | nil =>
    rw [hah] at hmail
    rw [Mailbox.advanceSave, hmail.cursor_null]
    refine ⟨_, rfl, .goto (h.setMailbox ?_) rfl rfl⟩
    rw [List.take_nil, List.append_nil]
    exact hmail
  | cons msg ahead =>
    rw [hah] at hmail
    obtain ⟨mb', hr, hmail'⟩ := hmail.advance
    rw [hr]
    exact ⟨_, rfl, .goto (h.setMailbox hmail') rfl rfl⟩

/-- A message that is looked at goes into the register, if there is one. -/
theorem examined_tracks (h : Mirrors view m p t) {w : Eterm} {msg : Term}
    (hd : Denotes view w msg) (r : Option (Fin numXRegisters)) :
    Tracks view m p
      ⟨match r with | some dst => t.set dst msg | none => t, some (.examined msg), .goto (ip + 1)⟩
      ⟨m, match r with | some dst => p.setX dst w | none => p, some (.examined w),
        .goto (ip + 1)⟩ := by
  cases r with
  | none => exact .of_mirrors (.refl m p) h hd rfl
  | some dst => exact .of_mirrors (.of_same rfl rfl) (h.setX dst hd) hd rfl

/-- **A receive looks at the next message**, from the oldest on again when there is none ahead. -/
theorem execLoopRec_tracks (h : Mirrors view m p t) :
    ∃ e, execLoopRec code instr m p ip = some e ∧
      Tracks view m p (termLoopRec code instr t ip) e := by
  have hmail := h.mailbox
  unfold execLoopRec termLoopRec TermProc.rewind
  cases hah : t.ahead with
  | cons msg ahead =>
    rw [hah] at hmail
    obtain ⟨w, hw, hd⟩ := hmail.peek
    rw [hw, if_neg (by simp)]
    dsimp only
    rw [hah]
    exact ⟨_, rfl, examined_tracks (h.setMailbox h.mailbox) hd (xReg instr.arg2)⟩
  | nil =>
    rw [hah] at hmail
    have hrewind := hmail.rewind
    rw [List.append_nil] at hrewind
    cases hpassed : t.passed with
    | nil =>
      rw [hpassed] at hmail hrewind
      rw [hmail.peek_empty, if_pos rfl]
      exact ⟨_, rfl, .goto (h.setMailbox hrewind.rewind) rfl rfl⟩
    | cons msg passed =>
      rw [hpassed] at hmail hrewind
      obtain ⟨w, hw, hd⟩ := hmail.peek_restart
      rw [hw, if_pos rfl]
      have hset := h.setMailbox hrewind
      exact ⟨_, rfl, (examined_tracks hset hd (xReg instr.arg2)).after rfl rfl⟩

/-! ### Catch frames -/

section Handlers

variable {frames frames' : Nat → Option CatchFrame} {capacity : Nat}

theorem HandlersShow.congr : ∀ {n : Nat} {hs : List Handler},
    HandlersShow frames capacity n hs → (∀ i < n, frames' i = frames i) →
      HandlersShow frames' capacity n hs := by
  intro n
  induction n with
  | zero =>
    intro hs h _
    cases hs with
    | nil => exact trivial
    | cons => exact h
  | succ n ih =>
    intro hs h hsame
    cases hs with
    | nil => exact h
    | cons hd hs =>
      obtain ⟨cf, hcf, hrest⟩ := h.1
      refine ⟨⟨cf, ?_, hrest⟩, ih h.2 fun i hi => hsame i (by omega)⟩
      rw [hsame n (Nat.lt_succ_self n), hcf]

theorem HandlersShow.length_eq : ∀ {n : Nat} {hs : List Handler},
    HandlersShow frames capacity n hs → hs.length = n := by
  intro n
  induction n with
  | zero =>
    intro hs h
    cases hs with
    | nil => rfl
    | cons => exact h.elim
  | succ n ih =>
    intro hs h
    cases hs with
    | nil => exact h.elim
    | cons hd hs => rw [List.length_cons, ih h.2]

end Handlers

theorem execTry_tracks (h : Mirrors view m p t) :
    Tracks view m p (termTry instr t ip) (execTry instr m p ip) := by
  have hlen := h.handlers.length_eq
  unfold termTry execTry
  by_cases hlt : p.frame.catchDepth < maxCatchDepth
  · rw [dif_pos hlt, if_pos (by omega)]
    let cf : CatchFrame := ⟨instr.arg1.toNat, p.stackTop, p.frame.cp⟩
    refine .goto { h with handlers := ⟨⟨cf, ?_, rfl, h.depth⟩, ?_⟩ } rfl rfl
    · rw [catchAt, dif_pos hlt]
      dsimp only
      rw [Function.update_self]
    · refine h.handlers.congr fun i hi => ?_
      rw [catchAt, catchAt]
      split
      · dsimp only
        rw [Function.update_of_ne fun he => (Nat.ne_of_lt hi) (Fin.mk.inj he)]
      · rfl
  · rw [dif_neg hlt, if_neg (by omega)]
    exact .fail h _

/-- The frames below the newest one are those of the older handlers. -/
theorem execTryEnd_tracks (h : Mirrors view m p t) :
    ∃ e, execTryEnd m p ip = some e ∧
      Tracks view m p (.goto { t with handlers := t.handlers.tail } (ip + 1)) e := by
  have hh := h.handlers
  unfold execTryEnd
  cases hs : t.handlers with
  | nil =>
    rw [hs] at hh
    have hzero : p.frame.catchDepth = 0 := hh.length_eq.symm
    have htail : HandlersShow (catchAt p.frame) p.heapCapacity.toNat p.frame.catchDepth [] := hh
    rw [hzero]
    exact ⟨_, rfl, .goto { h with handlers := htail } rfl rfl⟩
  | cons hd hs' =>
    rw [hs] at hh
    cases hs' with
    | nil =>
      have hone : p.frame.catchDepth = 1 := hh.length_eq.symm
      rw [hone]
      exact ⟨_, rfl, .goto { h with handlers := trivial } rfl rfl⟩
    | cons hd' hs' =>
      have hdepth : p.frame.catchDepth = hs'.length + 2 := hh.length_eq.symm
      rw [hdepth] at hh ⊢
      obtain ⟨cf, hcf, _⟩ := hh.2.1
      dsimp only
      rw [hcf]
      exact ⟨_, rfl, .goto { h with handlers := hh.2 } rfl rfl⟩

theorem execRaise_tracks (h : Mirrors view m p t) (ht : termRaise code instr t ip = some te) :
    ∃ e, execRaise code instr m p ip = some e ∧ Tracks view m p te e := by
  have hh := h.handlers
  have hexc : Denotes view (match xReg instr.arg1 with | some r => p.x r | none => 0#64)
      (match xReg instr.arg1 with | some r => t.regs r | none => .imm 0#64) := by
    split
    · exact h.regs _
    · exact denotes_imm (by decide)
  unfold termRaise at ht
  unfold execRaise
  dsimp only at ht ⊢
  cases hs : t.handlers with
  | nil =>
    rw [hs] at hh ht
    have hzero : p.frame.catchDepth = 0 := hh.length_eq.symm
    rw [hzero]
    cases ht
    exact ⟨_, rfl, .of_mirrors (.refl m p) h trivial ⟨rfl, rfl, trivial⟩⟩
  | cons hd hs' =>
    rw [hs] at hh ht
    have hdepth : p.frame.catchDepth = hs'.length + 1 := hh.length_eq.symm
    rw [hdepth] at hh ⊢
    obtain ⟨⟨cf, hcf, hlabel, htop⟩, hrest⟩ := hh
    dsimp only at ht ⊢
    split at ht
    · rename_i hle
      cases ht
      have hdep := h.depth
      have hr := h.room
      have hsaved : cf.catchStackTop.toNat = p.stackTop.toNat + (t.stack.length - hd.depth) := by
        omega
      rw [hcf, Option.map_some, hlabel]
      refine ⟨_, rfl, .goto (Mirrors.setX ?_ 0 hexc) rfl rfl⟩
      refine { h with handlers := hrest, stack := ?_, depth := ?_, room := ?_ }
      · have hstack := h.stack.drop (t.stack.length - hd.depth)
        dsimp only
        rwa [hsaved, Nat.mul_add, ← Nat.add_assoc]
      · dsimp only
        rw [List.length_drop]
        omega
      · dsimp only
        omega
    · cases ht

/-! ### Closures -/

theorem Mirrors.freeVar (h : Mirrors view m p t) (i : Nat) :
    Denotes view (BeamModular.freeVar p i)
      (if hi : i < numXRegisters then t.regs ⟨i, hi⟩ else .imm 0#64) := by
  unfold BeamModular.freeVar
  split
  · exact h.regs _
  · exact denotes_imm (by decide)

/-- **The words of a closure show it.** -/
theorem closure_denotes {hp : Nat} (h0 : hp ≠ 0) (halign : hp % 8 = 0) (hl : hp < addressSpace)
    (harity : instr.arg2.toNat + 1 < 2 ^ 26) (hmir : Mirrors view m p t)
    (hcells : ∀ x ∈ closureStores instr p, view.cell (hp + 8 * x.1) = some x.2) :
    Denotes view (tagAddr hp tagPrimaryBoxed) (closure t instr.arg1 instr.arg2.toNat) := by
  have hvalue := toNat_closureHeader instr
  have hheader := hcells _ List.mem_cons_self
  have hlabel := hcells _ (List.mem_cons_of_mem _ List.mem_cons_self)
  obtain ⟨htuple, hn, helement⟩ := tuple_reads h0 halign hl hheader (by rw [hvalue]; omega)
  refine ⟨htuple, ⟨_, hn, ?_⟩, fun i => ?_⟩
  · rw [BitVec.toNat_ushiftRight, hvalue, Nat.shiftRight_eq_div_pow]
    omega
  · cases i using Fin.cases with
    | zero =>
      refine ⟨_, ?_, denotes_imm (isImmediate_makeSmallInt _)⟩
      rw [helement]
      exact hlabel
    | succ i =>
      refine ⟨_, ?_, hmir.freeVar i⟩
      have hindex : (2#32 + BitVec.ofNat 32 i).toNat = i + 1 + 1 := by
        have := i.isLt
        rw [BitVec.toNat_add, BitVec.toNat_ofNat, BitVec.toNat_ofNat]
        omega
      have hcell := hcells ((2#32 + BitVec.ofNat 32 i).toNat, BeamModular.freeVar p i)
        (List.mem_cons_of_mem _ (List.mem_cons_of_mem _
          (List.mem_map_of_mem (List.mem_range.mpr i.isLt))))
      rw [helement]
      rw [hindex] at hcell
      exact hcell

/-- **Words in the room** are taken from the free part of the block, which does not grow. -/
theorem Mirrors.alloc (h : Mirrors view m p t) (hok : ProcOk m p) {n : Word}
    (hn : n.toNat ≤ t.room) :
    beamProcessAllocHeap m p n = bumpHeap m p n ∧
      (p.heapTop + n).toNat = p.heapTop.toNat + n.toNat ∧
      Mirrors view m { p with heapTop := p.heapTop + n } { t with room := t.room - n.toNat } := by
  have hr := h.room
  have hstack := hok.stack
  have hcap := p.heapCapacity.isLt
  have htop : (p.heapTop + n).toNat = p.heapTop.toNat + n.toNat := by
    rw [BitVec.toNat_add]
    omega
  refine ⟨?_, htop, { h with room := ?_ }⟩
  · rw [beamProcessAllocHeap, if_neg]
    rw [gt_iff_lt, BitVec.lt_def, htop]
    omega
  · dsimp only
    omega

theorem Mirrors.storeAt (h : Mirrors view m p t) {a : Nat} {stores : List (Nat × Word)}
    (hbelow : ∀ x ∈ stores, a + 8 * x.1 < p.heap + 8 * p.stackTop.toNat)
    (hs : Memory.storeAt a stores m = some m') : Mirrors view m' p t :=
  { h with
    stack := h.stack.congr fun i => Memory.storeAt_outside a _ (fun x hx => by
      have := hbelow x hx
      omega) hs }

/-- **Words stored into the room** are read there by whoever reads the words that the process has
used since. -/
theorem Mirrors.stored (h : Mirrors view m p t) (hok : ProcOk m p) {n : Word}
    (hn : n.toNat ≤ t.room) {stores : List (Nat × Word)} (hinside : ∀ x ∈ stores, x.1 < n.toNat)
    (hnodup : (stores.map Prod.fst).Nodup) :
    ∃ m', Memory.storeAt (p.heap + 8 * p.heapTop.toNat) stores m = some m' ∧
      KeepsHeap m p m' { p with heapTop := p.heapTop + n } ∧
      Mirrors view m' { p with heapTop := p.heapTop + n } { t with room := t.room - n.toNat } ∧
      ∀ view' : Memory, (∀ i, p.heapTop.toNat ≤ i → i < (p.heapTop + n).toNat →
          view'.cell (p.heap + 8 * i) = m'.cell (p.heap + 8 * i)) →
        ∀ x ∈ stores, view'.cell (p.heap + 8 * p.heapTop.toNat + 8 * x.1) = some x.2 := by
  obtain ⟨-, htop, h₁⟩ := h.alloc hok hn
  have hr := h.room
  have hstack := hok.stack
  obtain ⟨m', hs⟩ := Memory.storeAt_defined (p.heap + 8 * p.heapTop.toNat) stores (m := m)
    fun x hx => by
      have hlt := hinside x hx
      rw [Nat.add_assoc, ← Nat.mul_add]
      exact hok.heap.readable _ (by omega)
  obtain ⟨hin, -⟩ := Memory.storeAt_spec _ _ hnodup hs
  refine ⟨m', hs, ⟨rfl, by dsimp only; omega, fun i hi => ?_⟩, h₁.storeAt (fun x hx => ?_) hs,
    fun view' hnew x hx => ?_⟩
  · exact Memory.storeAt_outside _ _ (fun x _ => by omega) hs
  · have hlt := hinside x hx
    dsimp only
    omega
  · have hlt := hinside x hx
    have hcell := hnew (p.heapTop.toNat + x.1) (Nat.le_add_right ..) (by omega)
    rw [Nat.mul_add, ← Nat.add_assoc] at hcell
    rw [hcell, hin x hx]

theorem execMakeFun2_tracks (h : Mirrors view m p t) (hok : ProcOk m p)
    (ht : termMakeFun2 instr t ip = some te) :
    ∃ e, execMakeFun2 instr m p ip = some e ∧ Tracks view m p te e := by
  rw [termMakeFun2] at ht
  dsimp only at ht
  split at ht
  swap
  · cases ht
  rename_i hfits
  obtain ⟨harity, hroom⟩ := hfits
  have hsize : (closureWords instr).toNat = instr.arg2.toNat + 2 := by
    rw [toNat_closureWords]
    omega
  obtain ⟨halloc, -, -⟩ := h.alloc hok (n := closureWords instr) (by omega)
  let hp := p.heap + 8 * p.heapTop.toNat
  let p₁ : Process := { p with heapTop := p.heapTop + closureWords instr }
  have hindices : ∀ x ∈ closureStores instr p₁, x.1 < (closureWords instr).toNat :=
    closureStores_inside_iff.mpr (by omega)
  have hnodup : ((closureStores instr p₁).map Prod.fst).Nodup := by
    rw [closureStores_indices (by omega)]
    exact List.nodup_range
  obtain ⟨m₂, hs, hkeep, h₂, hcells⟩ := h.stored hok (by omega) hindices hnodup
  rw [hsize] at h₂
  have halign := hok.heap.aligned
  have hinside : hp < addressSpace := by
    have hcap := hok.heap.inside
    have hr := h.room
    have hstack := hok.stack
    dsimp only [hp]
    omega
  have hclosure : ∀ view' : Memory, view.Extends view' →
      (∀ i, p.heapTop.toNat ≤ i → i < p₁.heapTop.toNat →
        view'.cell (p.heap + 8 * i) = m₂.cell (p.heap + 8 * i)) →
      Denotes view' (tagAddr hp tagPrimaryBoxed) (closure t instr.arg1 instr.arg2.toNat) :=
    fun view' hview hnew =>
      closure_denotes (Nat.ne_of_gt (Nat.add_pos_left (Nat.pos_of_ne_zero hok.heap.nonnull) _))
        (by dsimp only [hp]; omega) hinside harity (h.extends hview) (hcells view' hnew)
  rw [execMakeFun2_eq, halloc]
  dsimp only [bumpHeap]
  rw [hs]
  refine ⟨_, rfl, ?_⟩
  cases hdst : xReg instr.arg3 with
  | some dst =>
    simp only [hdst] at ht
    cases ht
    have hproc : closureProc instr p₁ hp = p₁.setX dst (tagAddr hp tagPrimaryBoxed) := by
      rw [closureProc, hdst]
    rw [show ({ p with heapTop := p.heapTop + closureWords instr } : Process) = p₁ from rfl, hproc]
    exact ⟨⟨hkeep.heap, hkeep.top, hkeep.words⟩, fun view' hview hnew =>
      (h₂.extends hview).setX dst (hclosure view' hview hnew), trivial, rfl⟩
  | none =>
    simp only [hdst] at ht
    cases ht
    have hproc : closureProc instr p₁ hp = p₁ := by
      rw [closureProc, hdst]
    rw [show ({ p with heapTop := p.heapTop + closureWords instr } : Process) = p₁ from rfl, hproc]
    exact .of_mirrors hkeep h₂ trivial rfl

/-! ### One instruction -/

/-- **The interpreter takes the step** that the machine on terms takes. -/
theorem execInstr_tracks (h : Mirrors view m p t) (hsub : view.Extends m) (hok : ProcOk m p)
    (ht : termInstr code instr t ip = some te) :
    ∃ e, execInstr code instr m p ip = some e ∧ Tracks view m p te e := by
  unfold termInstr at ht
  unfold execInstr
  cases hop : instr.opcode <;> rw [hop] at ht <;> dsimp only at ht ⊢
  -- the opcodes for which the machine on terms may have no result
  case testIsEqExact | testIsNeExact => exact execTestExact_tracks h ht
  case testIsTuple => exact execTestIsTuple_tracks h hsub ht
  case testIsList => exact execTestIsList_tracks h ht
  case getList => exact execGetList_tracks h hsub ht
  case getTupleElement => exact execGetTupleElement_tracks h hsub ht
  case selectVal => exact execSelectVal_tracks h ht
  case callExt => exact execCallExt_tracks h hsub ht
  case raise => exact execRaise_tracks h ht
  case makeFun2 => exact execMakeFun2_tracks h hok ht
  case move => exact ⟨_, rfl, execMove_tracks h ht⟩
  case add | sub | mul => exact ⟨_, rfl, execArith_tracks h ht⟩
  case intDiv => exact ⟨_, rfl, execIntDiv_tracks h ht⟩
  -- the others always have one
  all_goals cases ht
  case label | tryCase | tryCaseEnd => exact ⟨_, rfl, .goto h rfl rfl⟩
  case allocate => exact execAllocate_tracks h hok
  case deallocate | callLast => exact execDropFrame_tracks h hok _ _
  case call => exact ⟨_, rfl, .goto (h.setCp _) rfl rfl⟩
  case «return» =>
    rw [← h.cp]
    exact ⟨_, rfl, .goto h rfl rfl⟩
  case send => exact ⟨_, rfl, execSend_tracks h⟩
  case loopRec => exact execLoopRec_tracks h
  case removeMessage => exact execRemoveMessage_tracks h
  case loopRecEnd => exact execLoopRecEnd_tracks h
  case wait =>
    exact ⟨_, rfl, .of_mirrors (.of_same rfl rfl) (h.setIp ip) trivial ⟨rfl, rfl, trivial⟩⟩
  case «try» | «catch» => exact ⟨_, rfl, execTry_tracks h⟩
  case tryEnd => exact execTryEnd_tracks h
  case matchTuple => exact execMatchTuple_tracks h hsub
  case halt =>
    exact ⟨_, rfl, .of_mirrors (.of_same rfl rfl) h trivial ⟨rfl, rfl, h.regs 0⟩⟩
  case receive | other => exact ⟨_, rfl, .fail h _⟩

end Instructions

end BeamModular
