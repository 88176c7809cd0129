import BeamModular.Emulator.InPlace
import BeamModular.Emulator.Mirror
import BeamModular.Emulator.Neighbours

/-!
# The interpreter is faithful to the machine on terms

`Mirrored s t` is the invariant of a machine with any number of processes: their blocks do
not meet, and each mirrors its process on terms to someone who can read the used words of
all heaps, for messages are passed as pointers.  An instruction keeps it (`Mirrored.exec`):
the used words of the other heaps are out of its reach, those of its own heap it leaves
alone, and what it adds is on words that nobody used.  So does a run, and a call
(`MirroredWorld.call`): it has a result, that is, all its reads and writes were of
words that are there, and it returns, passes out, executes and sends what the call on terms
does.
-/

namespace BeamModular

/-! ### All processes -/

/-- The processes there are. -/
def TermProcs.Live (t : TermProcs) (q : ProcId) : Prop := (t q).isSome

/-- The word is in use on the heap of one of the processes. -/
def Used (live : ProcId → Prop) (procs : ProcId → Process) (a : Nat) : Prop :=
  ∃ q, live q ∧ InBlock (procs q).heap (procs q).heapTop.toNat a

/-- What a term can be read from: the used words. -/
noncomputable def Machine.heaps (s : Machine) (live : ProcId → Prop) : Memory :=
  s.mem.only (Used live s.procs)

/-- **The processes are what the machine on terms has.** -/
structure Mirrored (s : Machine) (t : TermProcs) : Prop where
  separated : Separated t.Live s
  mirrors : ∀ q u, t q = some u → Mirrors (s.heaps t.Live) s.mem (s.procs q) u

/-- What can be read before can be read afterwards, and the heaps have kept their sizes. -/
structure Grows (s : Machine) (t : TermProcs) (s' : Machine) (t' : TermProcs) : Prop where
  words : (s.heaps t.Live).Extends (s'.heaps t'.Live)
  live : t'.Live = t.Live
  capacity : ∀ q, t.Live q → (s'.procs q).heapCapacity = (s.procs q).heapCapacity

section

variable {code : List Instruction} {instr : Instruction} {self : ProcId} {s s' s'' : Machine}
  {t t' t'' : TermProcs} {m : Memory} {p : Process} {u : TermProc} {view view' : Memory} {ip : Nat}

theorem Grows.refl (s : Machine) (t : TermProcs) : Grows s t s t :=
  ⟨fun _ _ h => h, rfl, fun _ _ => rfl⟩

theorem Grows.trans (h : Grows s t s' t') (h' : Grows s' t' s'' t'') : Grows s t s'' t'' where
  words a v ha := h'.words a v (h.words a v ha)
  live := h'.live.trans h.live
  capacity q hq := (h'.capacity q (h.live ▸ hq)).trans (h.capacity q hq)

theorem live_update (ht : t.Live self) (u : TermProc) :
    TermProcs.Live (Function.update t self (some u)) = t.Live := by
  funext q
  unfold TermProcs.Live at ht ⊢
  rw [Function.update_apply]
  split
  · rename_i h
    rw [h, ht]
    rfl
  · rfl

theorem live_of_eq (h : t self = some u) : t.Live self := by
  rw [TermProcs.Live, h]
  rfl

theorem used_congr {live : ProcId → Prop} {procs procs' : ProcId → Process}
    (hheap : ∀ q, (procs' q).heap = (procs q).heap)
    (htop : ∀ q, (procs' q).heapTop = (procs q).heapTop) : Used live procs' = Used live procs := by
  funext a
  simp only [Used, hheap, htop]

/-! ### One process -/

theorem EventShows.extends (hview : view.Extends view') {te : Option TermEvent} {e : Option Event}
    (h : EventShows view te e) : EventShows view' te e := by
  match te, e with
  | none, none => exact trivial
  | some (.sent _ _), some (.sent _ _) => exact ⟨h.1, h.2.extends hview⟩
  | some (.examined _), some (.examined _) => exact Denotes.extends hview h

theorem OutShows.extends (hview : view.Extends view') {out : Option Term} {out' : Option Eterm}
    (h : OutShows view out out') : OutShows view' out out' := by
  match out, out' with
  | none, none => exact trivial
  | some _, some _ => exact Denotes.extends hview h

theorem NextShows.extends (hview : view.Extends view') {next : TermNext} {next' : Next}
    (h : NextShows view next next') : NextShows view' next next' := by
  match next, next' with
  | .goto _, .goto _ => exact h
  | .ret _ _ _, .ret _ _ _ => exact ⟨h.1, h.2.1, h.2.2.extends hview⟩

theorem Mirrors.sameWords (h : Mirrors view s.mem p u)
    (hwords : ∀ i < p.heapCapacity.toNat, m.cell (p.heap + 8 * i) = s.mem.cell (p.heap + 8 * i)) :
    Mirrors view m p u := by
  refine { h with stack := ?_ }
  have hdepth := h.depth
  have hall : ∀ (ws : List Word) (k : Nat), k + ws.length ≤ p.heapCapacity.toNat →
      WordsAt s.mem (p.heap + 8 * k) ws → WordsAt m (p.heap + 8 * k) ws := by
    intro ws
    induction ws with
    | nil => exact fun _ _ _ => trivial
    | cons w ws ih =>
      intro k hk hw
      rw [List.length_cons] at hk
      exact ⟨(hwords k (by omega)).trans hw.1, ih (k + 1) (by omega) hw.2⟩
  exact hall u.stack _ (by omega) h.stack

/-- A closure for which there is room is written into the own block. -/
theorem execMakeFun2_confined_room (h : Mirrors view m p u) (hok : ProcOk m p)
    (hfree : instr.arg2.toNat < 2 ^ 26) (hroom : instr.arg2.toNat + 2 ≤ u.room) {e : Effect}
    (he : execMakeFun2 instr m p ip = some e) : Confined m p e.mem e.proc := by
  have hwords : ((instr.arg2 + 2#32).setWidth 64).toNat = instr.arg2.toNat + 2 := by
    rw [BitVec.toNat_setWidth, BitVec.toNat_add, BitVec.toNat_ofNat]
    omega
  obtain ⟨halloc, htop, _⟩ := h.alloc hok (n := (instr.arg2 + 2#32).setWidth 64) (by omega)
  have hr := h.room
  have hstack := hok.stack
  have hfit : p.heapTop.toNat + (instr.arg2.toNat + 2) ≤ p.heapCapacity.toNat := by omega
  unfold execMakeFun2 at he
  dsimp only at he
  rw [halloc] at he
  obtain ⟨m₂, h2, h3⟩ := Option.bind_eq_some_iff.mp he
  obtain ⟨m₃, h4, rfl⟩ := Option.map_eq_some_iff.mp h3
  let p₁ : Process := { p with heapTop := p.heapTop + (instr.arg2 + 2#32).setWidth 64 }
  have hc : Confined m p m p₁ := by
    refine ⟨⟨{ hok.heap with top := ?_ }, hok.stack, hok.handlers, hok.mailbox⟩, .of_same rfl rfl⟩
    dsimp only [p₁]
    omega
  have hc₂ := hc.ok.writeAll _ (show p.heapTop.toNat + 2 ≤ p₁.heapCapacity.toNat by
    dsimp only [p₁]
    omega) h2
  have hc₃ := hc₂.ok.storeFreeVars hfree (show p.heapTop.toNat + (instr.arg2.toNat + 2) ≤
    p₁.heapCapacity.toNat from hfit) instr.arg2.toNat 0 (Nat.zero_add _) h4
  have hall := (hc.trans hc₂).trans hc₃
  split
  · exact hall.trans (hall.ok.sameBut rfl)
  · exact hall

/-- **What the machine on terms can do stays in the own block.** -/
theorem Mirrors.confined (h : Mirrors view m p u) (hok : ProcOk m p) {te : TermEffect}
    (ht : termInstr code instr u ip = some te) {e : Effect}
    (he : execInstr code instr m p ip = some e) : Confined m p e.mem e.proc := by
  by_cases hop : instr.opcode = .makeFun2
  · rw [termInstr, hop] at ht
    rw [execInstr, hop] at he
    dsimp only at ht he
    rw [termMakeFun2] at ht
    dsimp only at ht
    split at ht
    · rename_i hfits
      exact execMakeFun2_confined_room h hok (by omega) hfits.2 he
    · cases ht
  · exact execInstr_confined hok (fun h => absurd h hop) he

theorem Mirrors.inPlace (h : Mirrors view m p u) (hok : ProcOk m p) {te : TermEffect}
    (ht : termInstr code instr u ip = some te) {e : Effect}
    (he : execInstr code instr m p ip = some e) : InPlace m p e.mem e.proc := by
  by_cases hop : instr.opcode = .makeFun2
  · rw [termInstr, hop] at ht
    rw [execInstr, hop] at he
    dsimp only at ht he
    rw [termMakeFun2] at ht
    dsimp only at ht
    split at ht
    · rename_i hfits
      have hwords : ((instr.arg2 + 2#32).setWidth 64).toNat = instr.arg2.toNat + 2 := by
        rw [BitVec.toNat_setWidth, BitVec.toNat_add, BitVec.toNat_ofNat]
        omega
      obtain ⟨halloc, _⟩ := h.alloc hok (n := (instr.arg2 + 2#32).setWidth 64) (by omega)
      have hbump : InPlace m p (bumpHeap m p ((instr.arg2 + 2#32).setWidth 64)).1
          (bumpHeap m p ((instr.arg2 + 2#32).setWidth 64)).2.1 := .of_same rfl rfl
      exact hbump.trans (execMakeFun2_inPlace halloc he)
    · cases ht
  · exact execInstr_inPlace hop he

/-! ### One instruction -/

/-- **One process takes its step**, and the others stay as they are. -/
theorem Mirrored.update (h : Mirrored s t) (hself : t self = some u) {te : TermEffect} {e : Effect}
    (htr : Tracks (s.heaps t.Live) s.mem (s.procs self) te e)
    (hc : Confined s.mem (s.procs self) e.mem e.proc)
    (hcap : e.proc.heapCapacity = (s.procs self).heapCapacity) :
    Mirrored ⟨e.mem, Function.update s.procs self e.proc⟩ (Function.update t self (some te.proc)) ∧
      Grows s t ⟨e.mem, Function.update s.procs self e.proc⟩
        (Function.update t self (some te.proc)) := by
  have hlive := live_of_eq hself
  have hother : ∀ q, t.Live q → q ≠ self → ∀ i < (s.procs q).heapCapacity.toNat,
      e.mem.cell ((s.procs q).heap + 8 * i) = s.mem.cell ((s.procs q).heap + 8 * i) :=
    fun q hq hne => (hc.writes.other (h.separated.ok q hq).heap
      (h.separated.apart self q hlive hq hne.symm)).1
  have hgrows : Grows s t ⟨e.mem, Function.update s.procs self e.proc⟩
      (Function.update t self (some te.proc)) := by
    refine ⟨?_, live_update hlive _, fun q hq => ?_⟩
    swap
    · dsimp only
      rw [Function.update_apply]
      split
      · rename_i hqs
        rw [hqs, hcap]
      · rfl
    rw [live_update hlive]
    refine Memory.only_extends fun a v ⟨q, hq, hin⟩ ha => ?_
    obtain ⟨i, hi, rfl⟩ := hin.exists_slot
    by_cases hqs : q = self
    · subst hqs
      refine ⟨⟨q, hq, ?_⟩, (htr.heap.words i hi).trans ha⟩
      dsimp only
      rw [Function.update_self, htr.heap.heap]
      exact inBlock_slot.mpr (hi.trans_le htr.heap.top)
    · refine ⟨⟨q, hq, ?_⟩, ?_⟩
      · dsimp only
        rwa [Function.update_of_ne hqs]
      · rw [hother q hq hqs i (hi.trans_le (h.separated.ok q hq).heap.top)]
        exact ha
  refine ⟨⟨?_, fun q v hv => ?_⟩, hgrows⟩
  · rw [live_update hlive]
    exact h.separated.confined hlive hc
  · by_cases hqs : q = self
    · subst hqs
      rw [Function.update_self] at hv
      cases hv
      dsimp only
      rw [Function.update_self]
      refine htr.proc _ hgrows.words fun i _ hi => Memory.cell_only ⟨q, ?_, ?_⟩
      · rw [live_update hlive]
        exact hlive
      · dsimp only
        rw [Function.update_self]
        exact inBlock_slot.mpr hi
    · rw [Function.update_of_ne hqs] at hv
      dsimp only
      rw [Function.update_of_ne hqs]
      exact ((h.mirrors q v hv).extends hgrows.words).sameWords (hother q (live_of_eq hv) hqs)

theorem MailShows.enqueue {mb : Mailbox} {msg : Eterm} {w : Term}
    (h : MailShows view mb u.passed u.ahead) (hd : Denotes view msg w) :
    ∃ mb', mb.enqueue msg = some (mb', .ok) ∧
      MailShows view mb' (u.receive w).passed (u.receive w).ahead := by
  obtain ⟨before, after, hv, hp, ha, hg⟩ := h
  obtain ⟨mb', he, hv'⟩ := Mailbox.enqueue_view hv (hg 0) msg
  obtain ⟨_, _, halloc, _⟩ := Mailbox.enqueue_keeps he
  have hg' : ∀ n, mb'.alloc n = true := fun n => by rw [halloc]; exact hg (n + 1)
  have hlast := List.Forall₂.cons (R := fun (x : Nat × Eterm) t => Denotes view x.2 t)
    (a := (mb.nodes.length, msg)) hd .nil
  unfold TermProc.receive
  cases hah : u.ahead with
  | nil =>
    rw [hah] at ha
    cases ha
    rw [if_pos rfl, if_pos rfl] at hv'
    exact ⟨mb', he, _, _, hv', List.rel_append hp hlast, .nil, hg'⟩
  | cons x xs =>
    rw [hah] at ha
    obtain ⟨y, ys, hx, hxs, rfl⟩ := List.forall₂_cons_right_iff.mp ha
    rw [if_neg (by simp), if_neg (by simp)] at hv'
    exact ⟨mb', he, _, _, hv', hp, .cons hx (List.rel_append hxs hlast), hg'⟩

theorem receive_eq (u : TermProc) (w : Term) :
    u.receive w = { u with passed := (u.receive w).passed, ahead := (u.receive w).ahead } := by
  unfold TermProc.receive
  split <;> rfl

theorem Mirrored.deliver (h : Mirrored s t) {te : Option TermEvent} {e : Option Event}
    (hev : EventShows (s.heaps t.Live) te e) (hd : t.deliver te = some t') :
    ∃ s', s.perform e = some s' ∧ Mirrored s' t' ∧ Grows s t s' t' := by
  match te, e with
  | none, none => cases hd; exact ⟨s, rfl, h, .refl s t⟩
  | some (.examined _), some (.examined _) => cases hd; exact ⟨s, rfl, h, .refl s t⟩
  | some (.sent target w), some (.sent target' msg) =>
    obtain ⟨rfl, hmsg⟩ := hev
    obtain ⟨u, hu, rfl⟩ := Option.map_eq_some_iff.mp hd
    obtain ⟨mb', he, hmail⟩ := (h.mirrors target u hu).mailbox.enqueue hmsg
    let procs := Function.update s.procs target { s.procs target with mailbox := mb' }
    have hperform : s.perform (some (.sent target msg)) = some ⟨s.mem, procs⟩ := by
      rw [Machine.perform, beamMessageSendToProcess, he]
      rfl
    have hsame := fun q => (perform_same hperform q).2
    have hused : Used t.Live procs = Used t.Live s.procs :=
      used_congr (fun q => (congrArg Process.heap (hsame q) :))
        fun q => (congrArg Process.heapTop (hsame q) :)
    have hheaps : Machine.heaps ⟨s.mem, procs⟩ t.Live = s.heaps t.Live :=
      congrArg s.mem.only hused
    refine ⟨_, hperform, ⟨?_, fun q v hv => ?_⟩, ?_⟩
    · rw [live_update (live_of_eq hu)]
      exact h.separated.perform hperform
    · rw [live_update (live_of_eq hu), hheaps]
      dsimp only [procs]
      by_cases hqt : q = target
      · subst hqt
        rw [Function.update_self] at hv ⊢
        cases hv
        rw [receive_eq]
        exact (h.mirrors q u hu).setMailbox hmail
      · rw [Function.update_of_ne hqt] at hv ⊢
        exact h.mirrors q v hv
    · refine ⟨?_, live_update (live_of_eq hu) _, fun q _ => ?_⟩
      · rw [live_update (live_of_eq hu), hheaps]
        exact fun _ _ ha => ha
      · exact (congrArg Process.heapCapacity (hsame q) :)

/-- **One instruction**: what the machine on terms can do, the interpreter does. -/
theorem Mirrored.exec (h : Mirrored s t) {r : TermProcs × Option TermEvent × TermNext}
    (hx : t.exec code self instr ip = some r) :
    ∃ r' : Machine × Option Event × Next, s.exec code self instr ip = some r' ∧
      Mirrored r'.1 r.1 ∧ Grows s t r'.1 r.1 ∧
      EventShows (r'.1.heaps r.1.Live) r.2.1 r'.2.1 ∧
      NextShows (r'.1.heaps r.1.Live) r.2.2 r'.2.2 := by
  obtain ⟨u, hu, hx⟩ := Option.bind_eq_some_iff.mp hx
  obtain ⟨te, hte, hx⟩ := Option.bind_eq_some_iff.mp hx
  obtain ⟨t', hd, rfl⟩ := Option.map_eq_some_iff.mp hx
  have hmir := h.mirrors self u hu
  have hok := h.separated.ok self (live_of_eq hu)
  obtain ⟨e, he, htr⟩ := execInstr_tracks hmir (Memory.only_sub _ _) hok hte
  obtain ⟨h₁, hg₁⟩ := h.update hu htr (hmir.confined hok hte he) (hmir.inPlace hok hte he).capacity
  obtain ⟨s', hp, h', hg'⟩ := h₁.deliver (htr.event.extends hg₁.words) hd
  have hg := hg₁.trans hg'
  refine ⟨(s', e.event, e.next), ?_, h', hg, htr.event.extends hg.words,
    htr.next.extends hg.words⟩
  rw [Machine.exec, he, Option.bind_some, hp]
  rfl

/-! ### A run -/

/-- The same can be seen from outside, one thing after the other. -/
def EventsShow (view : Memory) : List TermEvent → List Event → Prop :=
  List.Forall₂ fun te e => EventShows view (some te) (some e)

theorem EventsShow.extends (hview : view.Extends view') {tes : List TermEvent} {es : List Event}
    (h : EventsShow view tes es) : EventsShow view' tes es := h.imp fun _ _ he => he.extends hview

theorem EventShows.toList {te : Option TermEvent} {e : Option Event} (h : EventShows view te e) :
    EventsShow view te.toList e.toList := by
  match te, e with
  | none, none => exact .nil
  | some _, some _ => exact .cons h .nil
  | some (.sent _ _), none => exact h.elim
  | some (.examined _), none => exact h.elim

/-- The runs stand at the same place. -/
def StatusShows (view : Memory) : TermStatus → Status → Prop
  | .running ip, .running ip' => ip = ip'
  | .returned res state out, .returned res' state' out' =>
    res = res' ∧ state = state' ∧ OutShows view out out'
  | _, _ => False

/-- The runs have come equally far, and have shown the same. -/
structure RunShows (view : Memory) (tr : TermProgress) (pr : Progress) : Prop where
  status : StatusShows view tr.status pr.status
  trace : pr.trace = tr.trace
  events : EventsShow view tr.events pr.events

/-- **A run**, by induction on the number of its instructions. -/
theorem Mirrored.runFor : ∀ (n : Nat) {s : Machine} {t : TermProcs} {ip : Nat} {tr : TermProgress},
    Mirrored s t → t.runFor code self n ip = some tr →
      ∃ pr, s.runFor code self n ip = some pr ∧ Mirrored pr.machine tr.procs ∧
        Grows s t pr.machine tr.procs ∧ RunShows (pr.machine.heaps tr.procs.Live) tr pr := by
  intro n
  induction n with
  | zero =>
    intro s t ip tr h hr
    cases hr
    exact ⟨_, rfl, h, .refl s t, rfl, rfl, .nil⟩
  | succ n ih =>
    intro s t ip tr h hr
    rw [TermProcs.runFor] at hr
    cases hc : code[ip]? with
    | none =>
      rw [hc] at hr
      cases hr
      exact ⟨⟨s, .running ip, [], []⟩, by rw [Machine.runFor, hc], h, .refl s t, rfl, rfl, .nil⟩
    | some instr =>
      rw [hc] at hr
      obtain ⟨r, hx, hr⟩ := Option.bind_eq_some_iff.mp hr
      obtain ⟨r', hx', h₁, hg₁, hev, hnext⟩ := h.exec hx
      cases hn : r.2.2 with
      | goto ip₁ =>
        cases hn' : r'.2.2 with
        | goto ip₂ =>
          rw [hn, hn'] at hnext
          rw [hn] at hr
          cases hnext
          obtain ⟨tr', hr', rfl⟩ := Option.map_eq_some_iff.mp hr
          obtain ⟨pr, hpr, h', hg', hshow⟩ := ih h₁ hr'
          refine ⟨pr.cons ip r'.2.1, ?_, h', hg₁.trans hg', hshow.status, ?_, ?_⟩
          · rw [Machine.runFor_goto hc hx' hn', hpr]
            rfl
          · exact congrArg _ hshow.trace
          · exact List.rel_append (hev.extends hg'.words).toList hshow.events
        | ret res state out => rw [hn, hn'] at hnext; exact hnext.elim
      | ret res state out =>
        cases hn' : r'.2.2 with
        | goto ip₂ => rw [hn, hn'] at hnext; exact hnext.elim
        | ret res' state' out' =>
          rw [hn, hn'] at hnext
          rw [hn] at hr
          cases hr
          obtain ⟨rfl, rfl, hout⟩ := hnext
          exact ⟨_, Machine.runFor_ret hc hx' hn', h₁, hg₁, ⟨rfl, rfl, hout⟩, rfl, hev.toList⟩

/-! ### A call -/

/-- The machine mirrors the processes on terms, and the scheduler keeps the same of them. -/
structure MirroredWorld (w : World) (t : TermWorld) : Prop extends Mirrored w.toMachine t.procs where
  sched : w.sched = t.sched

/-- The calls return, pass out, execute and show the same. -/
structure SliceShows (view : Memory) (ts : TermSlice) (sl : Slice) : Prop where
  res : sl.res = ts.res
  out : OutShows view ts.out sl.out
  trace : sl.trace = ts.trace
  events : EventsShow view ts.events sl.events

theorem Mirrored.set (h : Mirrored s t) (hself : t self = some u) {u' : TermProc}
    (hsame : (s.procs self).SameBut p) (hmir : Mirrors (s.heaps t.Live) s.mem p u') :
    Mirrored ⟨s.mem, Function.update s.procs self p⟩ (Function.update t self (some u')) ∧
      Grows s t ⟨s.mem, Function.update s.procs self p⟩ (Function.update t self (some u')) := by
  have hok := h.separated.ok self (live_of_eq hself)
  have hheap : p.heap = (s.procs self).heap := by rw [hsame]
  have htop : p.heapTop = (s.procs self).heapTop := by rw [hsame]
  have hcap : p.heapCapacity = (s.procs self).heapCapacity := by rw [hsame]
  exact h.update hself (show Tracks _ _ _ (.goto u' 0) (.goto s.mem p 0) from .goto hmir hheap htop)
    (hok.sameBut hsame) hcap

theorem Mirrors.initCp (h : Mirrors view m p u) (code : List Instruction) :
    Mirrors view m (p.initCp code) (u.initCp code) := by
  unfold Process.initCp TermProc.initCp
  rw [h.cp, h.ip]
  split
  · exact h.setCp _
  · exact h

theorem RunShows.slice {pr : Progress} {tr : TermProgress} {sched : ProcId → SchedInfo}
    {ts : TermSlice} (hshow : RunShows (pr.machine.heaps tr.procs.Live) tr pr)
    (h : Mirrored pr.machine tr.procs) (hs : tr.slice code self sched = some ts) :
    MirroredWorld (pr.slice code self sched).world ts.world ∧
      Grows pr.machine tr.procs (pr.slice code self sched).world.toMachine ts.world.procs ∧
      SliceShows ((pr.slice code self sched).world.heaps ts.world.procs.Live) ts
        (pr.slice code self sched) := by
  unfold TermProgress.slice at hs
  unfold Progress.slice
  have hstatus := hshow.status
  rw [hshow.trace]
  match htr : tr.status, hpr : pr.status with
  | .running ip, .running ip' =>
    rw [htr, hpr] at hstatus
    cases hstatus
    rw [htr] at hs
    dsimp only at hs ⊢
    by_cases hlt : ip < code.length
    · rw [if_pos hlt] at hs ⊢
      cases hs
      exact ⟨⟨h, rfl⟩, .refl _ _, rfl, trivial, rfl, hshow.events⟩
    · rw [if_neg hlt] at hs ⊢
      obtain ⟨u, hu, rfl⟩ := Option.map_eq_some_iff.mp hs
      have hmir := h.mirrors self u hu
      have hsame : (pr.machine.procs self).SameBut ((pr.machine.procs self).setIp ip) := rfl
      obtain ⟨h', hg⟩ := h.set hu hsame (hmir.setIp ip)
      exact ⟨⟨h', rfl⟩, hg, rfl, (hmir.regs 0).extends hg.words, rfl,
        hshow.events.extends hg.words⟩
  | .returned res state out, .returned res' state' out' =>
    rw [htr, hpr] at hstatus
    obtain ⟨rfl, rfl, hout⟩ := hstatus
    rw [htr] at hs
    cases hs
    cases state with
    | none => exact ⟨⟨h, rfl⟩, .refl _ _, rfl, hout, rfl, hshow.events⟩
    | some state => exact ⟨⟨h, rfl⟩, .refl _ _, rfl, hout, rfl, hshow.events⟩
  | .running _, .returned _ _ _ => rw [htr, hpr] at hstatus; exact hstatus.elim
  | .returned _ _ _, .running _ => rw [htr, hpr] at hstatus; exact hstatus.elim

/-- **Every call that the machine on terms can make, the interpreter makes** in the same way. -/
theorem MirroredWorld.call {w : World} {t : TermWorld} {ts : TermSlice} (h : MirroredWorld w t)
    (hcall : t.call code self = some ts) :
    ∃ sl, beamEmuExecuteCode code self w = some sl ∧ MirroredWorld sl.world ts.world ∧
      Grows w.toMachine t.procs sl.world.toMachine ts.world.procs ∧
      SliceShows (sl.world.heaps ts.world.procs.Live) ts sl := by
  unfold TermWorld.call at hcall
  by_cases hcode : code = []
  · rw [if_pos hcode] at hcall
    cases hcall
    exact ⟨⟨w, .errInvalidArg, none, [], [], 0⟩, by rw [beamEmuExecuteCode, if_pos hcode], h,
      .refl _ _, rfl, trivial, rfl, .nil⟩
  rw [if_neg hcode] at hcall
  obtain ⟨u, hu, hcall⟩ := Option.bind_eq_some_iff.mp hcall
  obtain ⟨tr, hrun, hcall⟩ := Option.bind_eq_some_iff.mp hcall
  obtain ⟨s, sched⟩ := w
  have hsched : sched = t.sched := h.sched
  subst hsched
  have hmir := h.mirrors self u hu
  have hip : (s.procs self).frame.ip = u.ip := hmir.ip
  obtain ⟨hstart, hg₀⟩ := h.toMirrored.set hu (initCp_sameBut code _) (hmir.initCp code)
  obtain ⟨pr, hpr, h', hg, hshow⟩ := hstart.runFor _ hrun
  have hpr' : (s.start code self).runFor code self ((t.sched self).reductions - 1).toNat u.ip
      = some pr := hpr
  obtain ⟨hworld, hg', hslice⟩ := hshow.slice h' hcall
  refine ⟨pr.slice code self t.sched, ?_, hworld, (hg₀.trans hg).trans hg', hslice⟩
  rw [beamEmuExecuteCode_eq hcode, hip, hpr', Option.map_some]

/-! ### New processes -/

theorem mirrors_create {m₀ : Memory} {pid : BitVec 32} {words : Word} {alloc : Nat → Reply}
    {mailboxAlloc : Nat → Bool}
    (hnew : beamProcessCreate m₀ pid words alloc mailboxAlloc = some (m, p))
    (hgrant : ∀ n, mailboxAlloc n = true) (view : Memory) :
    Mirrors view m p (.create pid (initialCapacity words).toNat) := by
  unfold beamProcessCreate at hnew
  dsimp only at hnew
  split at hnew
  · cases hnew
    have hzero : IsImmediate 0#64 := by decide
    exact ⟨rfl, fun _ => denotes_imm hzero, rfl, rfl, trivial, Nat.add_zero _, trivial,
      ⟨[], [], Mailbox.view_create _, .nil, .nil, hgrant⟩, Nat.zero_add _⟩
  · cases hnew

theorem Mirrored.create (h : Mirrored s t) {q : ProcId} (hq : t q = none) {pid : BitVec 32}
    {words : Word} {alloc : Nat → Reply} {mailboxAlloc : Nat → Bool}
    (hnew : beamProcessCreate s.mem pid words alloc mailboxAlloc = some (m, p))
    (hsize : (initialCapacity words).toNat < 2 ^ 61) (hgrant : ∀ n, mailboxAlloc n = true) :
    Mirrored ⟨m, Function.update s.procs q p⟩
      (Function.update t q (some (.create pid (initialCapacity words).toNat))) := by
  have hlive : TermProcs.Live (Function.update t q (some (.create pid (initialCapacity words).toNat)))
      = fun i => t.Live i ∨ i = q := by
    funext i
    unfold TermProcs.Live
    rw [Function.update_apply]
    split
    · exact propext (iff_of_true rfl (Or.inr ‹_›))
    · exact propext (or_iff_left ‹_›).symm
  obtain ⟨hm, hcap, htop, _⟩ := beamProcessCreate_eq_some hnew
  have hsep := h.separated.create (q := q) hnew hsize
  have hother : ∀ i, t.Live i → ∀ k < (s.procs i).heapCapacity.toNat,
      m.cell ((s.procs i).heap + 8 * k) = s.mem.cell ((s.procs i).heap + 8 * k) := by
    obtain ⟨pl, _, _, hfree, rfl⟩ := Memory.malloc_eq_some hm
    rw [wordBytes_div hsize, ← hcap] at hfree ⊢
    exact fun i hi => ((OwnWrites.of_free hfree).other (h.separated.ok i hi).heap
      (.of_free hfree (h.separated.ok i hi).heap)).1
  have hne : ∀ i, t.Live i → i ≠ q := by
    rintro i hi rfl
    rw [TermProcs.Live, hq] at hi
    cases hi
  have hgrows : (s.heaps t.Live).Extends (Machine.heaps ⟨m, Function.update s.procs q p⟩
      (TermProcs.Live (Function.update t q (some (.create pid (initialCapacity words).toNat))))) := by
    rw [hlive]
    refine Memory.only_extends fun a v ⟨i, hi, hin⟩ ha => ?_
    obtain ⟨k, hk, rfl⟩ := hin.exists_slot
    refine ⟨⟨i, Or.inl hi, ?_⟩, ?_⟩
    · dsimp only
      rwa [Function.update_of_ne (hne i hi)]
    · rw [hother i hi k (hk.trans_le (h.separated.ok i hi).heap.top)]
      exact ha
  refine ⟨by rw [hlive]; exact hsep, fun i v hv => ?_⟩
  by_cases hiq : i = q
  · subst hiq
    rw [Function.update_self] at hv
    cases hv
    dsimp only
    rw [Function.update_self]
    exact mirrors_create hnew hgrant _
  · rw [Function.update_of_ne hiq] at hv
    dsimp only
    rw [Function.update_of_ne hiq]
    exact ((h.mirrors i v hv).extends hgrows).sameWords (hother i (live_of_eq hv))

/-! ### Runs of calls -/

theorem SliceShows.extends (hview : view.Extends view') {ts : TermSlice} {sl : Slice}
    (h : SliceShows view ts sl) : SliceShows view' ts sl :=
  ⟨h.res, h.out.extends hview, h.trace, h.events.extends hview⟩

/-- A call of a process with its code, and what is seen of it. -/
def World.visit (w : World) (call : List Instruction × ProcId) : Option (World × Slice) :=
  (beamEmuExecuteCode call.1 call.2 w).map fun sl => (sl.world, sl)

def TermWorld.visit (t : TermWorld) (call : List Instruction × ProcId) :
    Option (TermWorld × TermSlice) :=
  (t.call call.1 call.2).map fun sl => (sl.world, sl)

/-- What is seen of a call can be read off the world after it, and off any later one. -/
def World.Shows (w : World) (t : TermWorld) (sl : Slice) (ts : TermSlice) : Prop :=
  SliceShows (w.heaps t.procs.Live) ts sl

theorem visit_tracks (w : World) (t : TermWorld) (call : List Instruction × ProcId) (t' : TermWorld)
    (ts : TermSlice) (h : MirroredWorld w t) (hcall : t.visit call = some (t', ts)) :
    ∃ w' sl, w.visit call = some (w', sl) ∧ MirroredWorld w' t' ∧ w'.Shows t' sl ts ∧
      ∀ sl ts, w.Shows t sl ts → w'.Shows t' sl ts := by
  obtain ⟨ts', hts, he⟩ := Option.map_eq_some_iff.mp hcall
  cases he
  obtain ⟨sl, hsl, h', hg, hshow⟩ := h.call hts
  exact ⟨sl.world, sl, Option.map_eq_some_iff.mpr ⟨sl, hsl, rfl⟩, h', hshow,
    fun _ _ hq => SliceShows.extends hg.words hq⟩

/-- **The interpreter is faithful**: whatever calls of whatever processes are made in whatever
order, if the machine on terms can make them the interpreter makes them without a fault, and what
they return, pass out, execute, examine and send is the same. -/
theorem calls_faithful {calls : List (List Instruction × ProcId)} {w : World} {t t' : TermWorld}
    {tss : List TermSlice} (h : MirroredWorld w t)
    (hrun : answers TermWorld.visit t calls = some (t', tss)) :
    ∃ w' sls, answers World.visit w calls = some (w', sls) ∧ MirroredWorld w' t' ∧
      List.Forall₂ (w'.Shows t') sls tss := by
  obtain ⟨w', sls, hrun', h', hshow, _⟩ := simulates_answers visit_tracks calls h hrun
  exact ⟨w', sls, hrun', h', hshow⟩

end

/-! ### Two processes -/

/-- The two of `neighbours`, on terms. -/
def neighboursOnTerms : TermWorld where
  procs := Function.update (Function.update (fun _ => none) 0 (some (.create 1#32 4))) 1
    (some (.create 2#32 4))
  sched := neighbours.sched

theorem mirrored_neighbours : MirroredWorld neighbours neighboursOnTerms := by
  have hnone : Mirrored ⟨Memory.empty, fun _ => freshProcess⟩ fun _ => none :=
    ⟨⟨fun _ h => Bool.noConfusion h, fun _ _ h => Bool.noConfusion h⟩, fun _ _ h => by cases h⟩
  have hfirst := hnone.create (q := 0) rfl (show beamProcessCreate Memory.empty 1#32 4#64
    (fun n => some (zeroed (4096 * n))) (fun _ => true) = some (freshMemory, freshProcess)
      from rfl) (by decide) fun _ => rfl
  have hsecond := hfirst.create (q := 1) rfl (show beamProcessCreate freshMemory 2#32 4#64
    (fun n => some (zeroed (4096 * (n + 1)))) (fun _ => true) = some (_, _) from rfl)
      (by decide) fun _ => rfl
  exact ⟨hsecond, rfl⟩

/-- Make a pair, and send it to process 1. -/
def sendPair : List Instruction :=
  [{ opcode := .makeFun2, arg1 := 7, arg2 := 1 }, { opcode := .send, targetProc := some 1 },
    { opcode := .halt }]

/-- Receive a pair, and take its first element. -/
def takePair : List Instruction :=
  [{ opcode := .loopRec }, { opcode := .getTupleElement }, { opcode := .halt }]

theorem calls_faithful_neighbours : ∃ w' sls,
    answers World.visit neighbours [(sendPair, 0), (takePair, 1)] = some (w', sls) ∧
      sls.map Slice.trace = [[0, 1, 2], [0, 1, 2]] := by
  obtain ⟨⟨t', tss⟩, hrun, htrace⟩ := Option.map_eq_some_iff.mp
    (show (answers TermWorld.visit neighboursOnTerms [(sendPair, 0), (takePair, 1)]).map
      (fun r => r.2.map TermSlice.trace) = some [[0, 1, 2], [0, 1, 2]] by decide +kernel)
  obtain ⟨w', sls, hrun', _, hshow⟩ := calls_faithful mirrored_neighbours hrun
  refine ⟨w', sls, hrun', ?_⟩
  have hsame : List.Forall₂ (· = ·) (sls.map Slice.trace) (tss.map TermSlice.trace) := by
    rw [List.forall₂_map_left_iff, List.forall₂_map_right_iff]
    exact hshow.imp fun _ _ h => h.trace
  exact (List.forall₂_eq_eq_eq ▸ hsame).trans htrace

/-- The first element is the index of the closure. -/
example : (answers TermWorld.visit neighboursOnTerms [(sendPair, 0), (takePair, 1)]).map
    (fun r => r.2.map fun ts => ts.out.bind Term.word?) = some [none, some (makeSmallInt 7#64)] := by
  decide +kernel

end BeamModular
