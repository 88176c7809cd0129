import BeamModular.Lib.Blocks

/-!
# The virtual machine

`src/core/beam_vm.c`: the context and its six subsystems, each from a constructor of its
own, and the host they are taken from: memory, and the files of the process.

The constructors ask for one block, or for several and give back those they have when
one is refused, so each is `Blocks.allocAll`; the poller also opens a file.
`beam_vm_create` calls them all, whatever the ones before have answered, and leaves it to
`beam_vm_destroy` to give back what there is if one of them has failed.
`vm_all_or_nothing` says that this is all or nothing, and when it is all.
-/

namespace BeamModular

/-- What the machine is taken from. -/
structure Host where
  heap : Blocks
  files : Blocks

/-- A subsystem's blocks, the one of its struct first. -/
abbrev Part := Option (List Nat)

/-- `struct beam_context`, and the block it lies in.  The poller has a file beside its block. -/
structure Vm where
  block : Nat
  codeServer : Part
  atomTable : Part
  etsTable : Part
  poller : Option (Nat × Nat)
  runQueue : Part
  scheduler : Part

/-- A constructor on the memory of a host. -/
def Host.take (s : Host) (n : Nat) : Option (Part × Host) :=
  (s.heap.allocAll n).map fun r => (r.1, { s with heap := r.2 })

/-- `beam_code_server_create`. -/
def beamCodeServerTake (s : Host) : Option (Part × Host) := s.take 1

/-- `beam_atom_table_create`: the table, its buckets and its index map. -/
def beamAtomTableTake (s : Host) : Option (Part × Host) := s.take 3

/-- `beam_ets_table_create`: the table and its buckets. -/
def beamEtsTableTake (s : Host) : Option (Part × Host) := s.take 2

/-- `beam_run_queue_create`. -/
def beamRunQueueTake (s : Host) : Option (Part × Host) := s.take 1

/-- `beam_scheduler_create`: nothing is asked for without a run queue. -/
def beamSchedulerTake (runQueue : Part) (s : Host) : Option (Part × Host) :=
  match runQueue with
  | none => some (none, s)
  | some _ => s.take 1

/-- `beam_io_poller_create`: the block, and `epoll_create1`. -/
def beamIoPollerTake (s : Host) : Option (Option (Nat × Nat) × Host) :=
  match s.heap.alloc with
  | (heap, none) => some (none, { s with heap := heap })
  | (heap, some block) =>
    match s.files.alloc with
    | (files, none) => (heap.free block).map fun heap => (none, ⟨heap, files⟩)
    | (files, some fd) => some (some (block, fd), ⟨heap, files⟩)

/-- The destructors of new subsystems: the arrays, then the struct. -/
def Host.giveBack (part : Part) (s : Host) : Option Host :=
  match part with
  | none => some s
  | some bs => (Blocks.freeAll (bs.rotate 1) s.heap).map fun heap => { s with heap := heap }

/-- `beam_io_poller_destroy`. -/
def beamIoPollerGiveBack (poller : Option (Nat × Nat)) (s : Host) : Option Host :=
  match poller with
  | none => some s
  | some (block, fd) =>
    (s.files.free fd).bind fun files => (s.heap.free block).map fun heap => ⟨heap, files⟩

/-- `beam_vm_destroy`. -/
def beamVmDestroy (vm : Vm) (s : Host) : Option Host := do
  let s ← s.giveBack vm.scheduler
  let s ← s.giveBack vm.runQueue
  let s ← beamIoPollerGiveBack vm.poller s
  let s ← s.giveBack vm.etsTable
  let s ← s.giveBack vm.atomTable
  let s ← s.giveBack vm.codeServer
  s.giveBack (some [vm.block])

/-- The test of `beam_vm_create`. -/
def Vm.complete (vm : Vm) : Bool :=
  vm.codeServer.isSome && vm.atomTable.isSome && vm.etsTable.isSome && vm.poller.isSome &&
    vm.runQueue.isSome && vm.scheduler.isSome

/-- The context with whatever the constructors answer. -/
def Vm.assemble (block : Nat) (s : Host) : Option (Vm × Host) := do
  let (codeServer, s) ← beamCodeServerTake s
  let (atomTable, s) ← beamAtomTableTake s
  let (etsTable, s) ← beamEtsTableTake s
  let (poller, s) ← beamIoPollerTake s
  let (runQueue, s) ← beamRunQueueTake s
  let (scheduler, s) ← beamSchedulerTake runQueue s
  some (⟨block, codeServer, atomTable, etsTable, poller, runQueue, scheduler⟩, s)

/-- `beam_vm_create`. -/
def beamVmCreate (s : Host) : Option (Option Vm × Host) :=
  match s.heap.alloc with
  | (heap, none) => some (none, { s with heap := heap })
  | (heap, some block) =>
    (Vm.assemble block { s with heap := heap }).bind fun (vm, s) =>
      if vm.complete then some (some vm, s) else (beamVmDestroy vm s).map fun s => (none, s)

/-! ### Obtaining -/

/-- **How far a construction has come**: `bs` and `fds` were obtained on the way from `s₀` to `s`,
and nothing has failed exactly if the first `m` requests for memory and the first `f` for a file are
granted; then these are all that were made. -/
structure Stage (s₀ s : Host) (m f : Nat) (ok : Prop) (bs fds : List Nat) : Prop where
  heap : s₀.heap.Grows bs s.heap
  files : s₀.files.Grows fds s.files
  granted : ok ↔ (∀ k < m, s₀.heap.grant k = true) ∧ ∀ k < f, s₀.files.grant k = true
  rest : ok → (s.heap.grant = fun k => s₀.heap.grant (m + k)) ∧
    s.files.grant = fun k => s₀.files.grant (f + k)

theorem forall_lt_add {m n : Nat} {p : Nat → Prop} :
    (∀ k < m + n, p k) ↔ (∀ k < m, p k) ∧ ∀ k < n, p (m + k) := by
  refine ⟨fun h => ⟨fun k hk => h k (by omega), fun k hk => h (m + k) (by omega)⟩, fun h k hk => ?_⟩
  rcases Nat.lt_or_ge k m with hlt | hge
  · exact h.1 k hlt
  · obtain ⟨j, rfl⟩ := Nat.exists_eq_add_of_le hge
    exact h.2 j (by omega)

namespace Stage

variable {s₀ s : Host} {m f : Nat} {ok : Prop} {bs fds : List Nat}

theorem take (h : Stage s₀ s m f ok bs fds) (n : Nat) : ∃ r s', s.take n = some (r, s') ∧
    Stage s₀ s' (m + n) f (ok ∧ r.isSome = true) (bs ++ r.getD []) fds := by
  obtain ⟨r, heap, hr, ha⟩ := s.heap.allocAll_spec n
  refine ⟨r, { s with heap := heap }, by rw [Host.take, hr]; rfl, h.heap.trans ha.grows, h.files, ?_,
    fun hok => ⟨?_, (h.rest hok.1).2⟩⟩
  · rw [forall_lt_add, and_right_comm, ← h.granted]
    refine and_congr_right fun hok => ?_
    rw [ha.granted, (h.rest hok).1]
  · dsimp only
    rw [ha.rest hok.2, (h.rest hok.1).1]
    funext k
    exact congrArg s₀.heap.grant (by omega)

/-- The scheduler is not asked for after the run queue has failed. -/
theorem takeScheduler {runQueue : Part} {ok' : Prop}
    (h : Stage s₀ s m f (ok' ∧ runQueue.isSome = true) bs fds) :
    ∃ r s', beamSchedulerTake runQueue s = some (r, s') ∧
      Stage s₀ s' (m + 1) f ((ok' ∧ runQueue.isSome = true) ∧ r.isSome = true) (bs ++ r.getD [])
        fds := by
  cases runQueue with
  | some rq => exact h.take 1
  | none =>
    refine ⟨none, s, rfl, by simpa using h.heap, h.files, ?_, fun hok => by simp at hok⟩
    refine iff_of_false (by simp) fun hall => ?_
    have hok := h.granted.mpr ⟨(forall_lt_add.mp hall.1).1, hall.2⟩
    simp at hok

theorem takePoller (h : Stage s₀ s m f ok bs fds) : ∃ r s', beamIoPollerTake s = some (r, s') ∧
    Stage s₀ s' (m + 1) (f + 1) (ok ∧ r.isSome = true) (bs ++ (r.map Prod.fst).toList)
      (fds ++ (r.map Prod.snd).toList) := by
  have hnext : ok → s₀.heap.grant m = s.heap.grant 0 ∧ s₀.files.grant f = s.files.grant 0 :=
    fun hok => ⟨by rw [(h.rest hok).1]; rfl, by rw [(h.rest hok).2]; rfl⟩
  have hgranted : ∀ {c : Prop}, (ok → (c ↔ s.heap.grant 0 = true ∧ s.files.grant 0 = true)) →
      (ok ∧ c ↔ (∀ k < m + 1, s₀.heap.grant k = true) ∧ ∀ k < f + 1, s₀.files.grant k = true) := by
    intro c hc
    rw [forall_lt_add, forall_lt_add, and_and_and_comm, ← h.granted]
    refine and_congr_right fun hok => ?_
    simp [hc hok, hnext hok]
  rw [beamIoPollerTake]
  cases hm : s.heap.grant 0 with
  | false =>
    rw [Blocks.alloc_refused hm]
    refine ⟨none, _, rfl, by simpa using h.heap.trans s.heap.grows_refuse, by simpa using h.files,
      hgranted fun _ => by simp [hm], fun hok => by simp at hok⟩
  | true =>
    rw [Blocks.alloc_granted hm]
    cases hf : s.files.grant 0 with
    | false =>
      rw [Blocks.alloc_refused hf]
      obtain ⟨heap, hfree, hback, _⟩ := s.heap.grows_give.undo (List.Perm.refl _)
      rw [Blocks.freeAll_single] at hfree
      refine ⟨none, ⟨heap, s.files.refuse⟩, by dsimp only; rw [hfree]; rfl,
        by simpa using h.heap.trans hback, by simpa using h.files.trans s.files.grows_refuse,
        hgranted fun _ => by simp [hf], fun hok => by simp at hok⟩
    | true =>
      rw [Blocks.alloc_granted hf]
      refine ⟨some (s.heap.next, s.files.next), _, rfl, h.heap.trans s.heap.grows_give,
        h.files.trans s.files.grows_give, hgranted fun _ => by simp [hm, hf], fun hok => ⟨?_, ?_⟩⟩
      · change (fun k => s.heap.grant (k + 1)) = _
        rw [(h.rest hok.1).1]
        funext k
        exact congrArg s₀.heap.grant (by omega)
      · change (fun k => s.files.grant (k + 1)) = _
        rw [(h.rest hok.1).2]
        funext k
        exact congrArg s₀.files.grant (by omega)

end Stage

/-! ### Giving back -/

/-- Give back blocks and files. -/
def Host.release (bs fds : List Nat) (s : Host) : Option Host :=
  (Blocks.freeAll bs s.heap).bind fun heap =>
    (Blocks.freeAll fds s.files).map fun files => ⟨heap, files⟩

theorem Host.release_release (bs fds cs gds : List Nat) (s : Host) :
    (s.release bs fds).bind (fun s => s.release cs gds) = s.release (bs ++ cs) (fds ++ gds) := by
  unfold Host.release
  rw [Blocks.freeAll_append, Blocks.freeAll_append]
  cases Blocks.freeAll bs s.heap with
  | none => rfl
  | some heap =>
    cases Blocks.freeAll fds s.files with
    | none => cases h : Blocks.freeAll cs heap <;> simp [h]
    | some files => rfl

/-- **What was obtained can be given back**, in any order, and then all is as before. -/
theorem Host.release_of_grows {s₀ s : Host} {bs fds cs gds : List Nat}
    (hheap : s₀.heap.Grows bs s.heap) (hfiles : s₀.files.Grows fds s.files) (hcs : cs.Perm bs)
    (hgds : gds.Perm fds) : ∃ s', s.release cs gds = some s' ∧
      s'.heap.live = s₀.heap.live ∧ s'.files.live = s₀.files.live := by
  obtain ⟨heap, hh, hlive⟩ := Blocks.freeAll_of_grows hheap hcs
  obtain ⟨files, hf, hlive'⟩ := Blocks.freeAll_of_grows hfiles hgds
  exact ⟨⟨heap, files⟩, by rw [Host.release, hh, hf]; rfl, hlive, hlive'⟩

namespace Vm

/-- The blocks of a part in the order in which they are freed. -/
def partBlocks (part : Part) : List Nat := (part.getD []).rotate 1

/-- The blocks of a machine, in the order in which they are freed. -/
def blocks (vm : Vm) : List Nat :=
  partBlocks vm.scheduler ++ partBlocks vm.runQueue ++ (vm.poller.map Prod.fst).toList ++
    partBlocks vm.etsTable ++ partBlocks vm.atomTable ++ partBlocks vm.codeServer ++ [vm.block]

def files (vm : Vm) : List Nat := (vm.poller.map Prod.snd).toList

/-- The blocks in the order in which they are asked for. -/
def obtained (vm : Vm) : List Nat :=
  [vm.block] ++ vm.codeServer.getD [] ++ vm.atomTable.getD [] ++ vm.etsTable.getD [] ++
    (vm.poller.map Prod.fst).toList ++ vm.runQueue.getD [] ++ vm.scheduler.getD []

theorem blocks_perm (vm : Vm) : vm.blocks.Perm vm.obtained := by
  rw [List.perm_iff_count]
  intro a
  have hpart : ∀ part : Part, (partBlocks part).count a = (part.getD []).count a := fun part =>
    (List.rotate_perm (part.getD []) 1).count_eq a
  simp only [blocks, obtained, List.count_append, hpart]
  omega

end Vm

theorem giveBack_eq (part : Part) (s : Host) :
    s.giveBack part = s.release (Vm.partBlocks part) [] := by
  cases part with
  | none => rfl
  | some bs =>
    rw [Host.giveBack, Host.release, Vm.partBlocks, Option.getD_some]
    cases Blocks.freeAll (bs.rotate 1) s.heap <;> rfl

theorem beamIoPollerGiveBack_eq (poller : Option (Nat × Nat)) (s : Host) :
    beamIoPollerGiveBack poller s =
      s.release (poller.map Prod.fst).toList (poller.map Prod.snd).toList := by
  cases poller with
  | none => rfl
  | some p =>
    obtain ⟨block, fd⟩ := p
    rw [beamIoPollerGiveBack, Host.release]
    simp only [Option.map_some, Option.toList_some, Blocks.freeAll_single]
    cases s.heap.free block <;> cases s.files.free fd <;> rfl

theorem beamVmDestroy_eq (vm : Vm) (s : Host) :
    beamVmDestroy vm s = s.release vm.blocks vm.files := by
  simp only [beamVmDestroy, giveBack_eq, beamIoPollerGiveBack_eq, Option.bind_eq_bind,
    Host.release_release]
  simp [Vm.blocks, Vm.files, Vm.partBlocks]

/-! ### The construction -/

/-- **What the constructors answer**: the machine has all that was obtained, and it is complete
exactly if nothing was refused. -/
theorem assemble_spec {s₀ s : Host} {block : Nat} (h : Stage s₀ s 1 0 True [block] []) :
    ∃ vm s', Vm.assemble block s = some (vm, s') ∧
      Stage s₀ s' 10 1 (vm.complete = true) vm.obtained vm.files := by
  obtain ⟨codeServer, s₁, h₁, st₁⟩ := h.take 1
  obtain ⟨atomTable, s₂, h₂, st₂⟩ := st₁.take 3
  obtain ⟨etsTable, s₃, h₃, st₃⟩ := st₂.take 2
  obtain ⟨poller, s₄, h₄, st₄⟩ := st₃.takePoller
  obtain ⟨runQueue, s₅, h₅, st₅⟩ := st₄.take 1
  obtain ⟨scheduler, s₆, h₆, st₆⟩ := st₅.takeScheduler
  refine ⟨⟨block, codeServer, atomTable, etsTable, poller, runQueue, scheduler⟩, s₆, ?_, ?_⟩
  · simp only [Vm.assemble, beamCodeServerTake, beamAtomTableTake, beamEtsTableTake,
      beamRunQueueTake, Option.bind_eq_bind, h₁, h₂, h₃, h₄, h₅, h₆, Option.bind_some]
  · simp only [Vm.complete, Bool.and_eq_true]
    rw [true_and] at st₆
    exact st₆

/-- **A machine is created whole or not at all.**  Whichever requests are refused, `beam_vm_create`
gives back nothing that it has not, and either it answers null and the blocks in use and the open
files are those from before, or it answers a machine, and `beam_vm_destroy` brings them back to
that; and it answers a machine exactly if ten requests for memory and one for a file are granted. -/
theorem vm_all_or_nothing (s : Host) : ∃ r s', beamVmCreate s = some (r, s') ∧
    (match r with
      | none => s'.heap.live = s.heap.live ∧ s'.files.live = s.files.live
      | some vm => ∃ s'', beamVmDestroy vm s' = some s'' ∧ s''.heap.live = s.heap.live ∧
          s''.files.live = s.files.live) ∧
    (r.isSome = true ↔ (∀ k < 10, s.heap.grant k = true) ∧ s.files.grant 0 = true) := by
  rw [beamVmCreate]
  cases h0 : s.heap.grant 0 with
  | false =>
    rw [Blocks.alloc_refused h0]
    refine ⟨none, _, rfl, ⟨rfl, rfl⟩, iff_of_false (by simp) fun hall => ?_⟩
    rw [hall.1 0 (by decide)] at h0
    cases h0
  | true =>
    rw [Blocks.alloc_granted h0]
    have hstart : Stage s { s with heap := s.heap.give } 1 0 True [s.heap.next] [] :=
      ⟨s.heap.grows_give, .refl _, by simp [h0], fun _ =>
        ⟨funext fun k => congrArg s.heap.grant (Nat.add_comm k 1), funext fun k => by simp⟩⟩
    obtain ⟨vm, s', hvm, st⟩ := assemble_spec hstart
    obtain ⟨s'', hback, hlive⟩ :=
      Host.release_of_grows st.heap st.files vm.blocks_perm (List.Perm.refl _)
    rw [← beamVmDestroy_eq] at hback
    have hgranted := st.granted
    simp only [Nat.lt_one_iff, forall_eq] at hgranted
    dsimp only
    rw [hvm, Option.bind_some]
    dsimp only
    by_cases hc : vm.complete = true
    · rw [if_pos hc]
      exact ⟨some vm, s', rfl, ⟨s'', hback, hlive⟩, by rw [← hgranted]; simp [hc]⟩
    · rw [if_neg hc, hback]
      exact ⟨none, s'', rfl, hlive, by rw [← hgranted]; simp [hc]⟩

end BeamModular
