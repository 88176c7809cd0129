import BeamModular.Core.Term
import BeamModular.Lib.Run

/-!
# Starting and destroying a pool

`beam_scheduler_pool_start` creates the workers one after the other; `stop` and
`destroy` join them as long as `running` is set.  When a worker cannot be created,
`start` clears `running` and returns, and that very flag is what `destroy` asks
before it joins: the workers that run already are joined by nobody.

The host and the threads take turns in any order.  A step is what one of them does
between two points where the others can see a difference; a thread can be in the
middle of its loop while the host frees the pool.  `startSafe_iff` says for which
failures every run is safe: if the first worker already fails, or none does.
-/

namespace BeamModular

/-- A block of memory that belongs to the pool. -/
inductive PoolBlock
  | pool
  | schedulers
  | threads
  | sched (i : Nat)
  /-- The argument of a worker, which the worker frees. -/
  | warg (i : Nat)
  deriving DecidableEq, Repr

/-- Where a worker's thread stands in `scheduler_worker_thread`. -/
inductive ThreadPc
  | absent
  /-- Before it reads its argument and the pool's allocator and frees the argument. -/
  | created
  /-- Before it reads `pool->running`. -/
  | looping
  /-- In the body of the loop. -/
  | working
  | ended
  | joined
  deriving DecidableEq, Repr

/-- Where the host stands: it starts the pool and then destroys it. -/
inductive HostPc
  | calling
  /-- Before the worker's argument is asked for. -/
  | starting (i : Nat)
  /-- Before `pthread_create`. -/
  | creating (i : Nat)
  | started
  | failed (res : Result)
  /-- In the loop of `beam_scheduler_pool_stop`. -/
  | joining (i : Nat)
  /-- `beam_scheduler_pool_destroy` has these blocks still to free. -/
  | freeing (todo : List PoolBlock)
  deriving DecidableEq, Repr

/-- What goes wrong with a worker: there is no memory for its argument, or no thread. -/
inductive StartFault
  | noMemory
  | noThread
  deriving DecidableEq, Repr

/-- The pool, its threads and the host. -/
structure PoolRun where
  host : HostPc
  running : Bool
  threads : Nat → ThreadPc
  live : PoolBlock → Bool

/-- What `beam_scheduler_pool_destroy` frees, in this order. -/
def poolBlocks (numWorkers : Nat) : List PoolBlock :=
  (List.range numWorkers).map .sched ++ [.schedulers, .threads, .pool]

/-- The blocks that a thread can still read or write. -/
def ThreadPc.reach (i : Nat) : ThreadPc → List PoolBlock
  | .created => [.warg i, .pool, .sched i]
  | .looping => [.pool, .sched i]
  | .working => [.pool, .sched i]
  | _ => []

/-- A step of the host or of a thread. -/
inductive PoolAct
  | host
  | worker (i : Nat)
  deriving DecidableEq, Repr

namespace PoolRun

/-- A pool as `beam_scheduler_pool_create` leaves it. -/
def create (numWorkers : Nat) : PoolRun where
  host := .calling
  running := false
  threads _ := .absent
  live b := b ∈ poolBlocks numWorkers

/-- `beam_scheduler_pool_start`, followed by `beam_scheduler_pool_destroy`.  `fault` says what goes
wrong with each worker. -/
def hostStep (fault : Nat → Option StartFault) (numWorkers : Nat) (s : PoolRun) : Option PoolRun :=
  match s.host with
  | .calling =>
    if s.running then some { s with host := .failed .errInvalidArg }
    else some { s with running := true, host := .starting 0 }
  | .starting i =>
    if i < numWorkers then
      if fault i = some .noMemory then
        some { s with running := false, host := .failed .errNoMemory }
      else some { s with live := Function.update s.live (.warg i) true, host := .creating i }
    else some { s with host := .started }
  | .creating i =>
    if fault i = some .noThread then
      some { s with
        live := Function.update s.live (.warg i) false
        running := false
        host := .failed .errInvalidArg }
    else some { s with threads := Function.update s.threads i .created, host := .starting (i + 1) }
  | .started | .failed _ =>
    -- `pool->running` decides whether `destroy` stops the pool first
    if s.running then some { s with running := false, host := .joining 0 }
    else some { s with host := .freeing (poolBlocks numWorkers) }
  | .joining i =>
    if i < numWorkers then
      if s.threads i = .ended then
        some { s with threads := Function.update s.threads i .joined, host := .joining (i + 1) }
      else none
    else some { s with host := .freeing (poolBlocks numWorkers) }
  | .freeing [] => none
  | .freeing (b :: todo) =>
    some { s with live := Function.update s.live b false, host := .freeing todo }

/-- A step of `scheduler_worker_thread`; there is no result where it reads a block that is gone. -/
def workerStep (i : Nat) (s : PoolRun) : Option PoolRun :=
  if ∀ b ∈ (s.threads i).reach i, s.live b = true then
    match s.threads i with
    | .created => some { s with
        live := Function.update s.live (.warg i) false
        threads := Function.update s.threads i .looping }
    | .looping => some { s with
        threads := Function.update s.threads i (if s.running then .working else .ended) }
    | .working => some { s with threads := Function.update s.threads i .looping }
    | _ => none
  else none

def step (fault : Nat → Option StartFault) (numWorkers : Nat) (s : PoolRun) :
    PoolAct → Option PoolRun
  | .host => s.hostStep fault numWorkers
  | .worker i => s.workerStep i

/-- Every thread that was created has been joined. -/
def AllJoined (s : PoolRun) : Prop := ∀ i, s.threads i = .absent ∨ s.threads i = .joined

/-- **What is asked of a state**: when `start` has failed, all threads have been joined, and what a
thread can still reach is not freed. -/
structure Safe (s : PoolRun) : Prop where
  joined : ∀ res, s.host = .failed res → s.AllJoined
  reached : ∀ i, ∀ b ∈ (s.threads i).reach i, s.live b = true

/-! ### What holds in every state -/

/-- The pool is there, and so is the argument of each thread that has not freed it. -/
structure Intact (numWorkers : Nat) (s : PoolRun) : Prop where
  pool : s.live .pool = true
  sched : ∀ i < numWorkers, s.live (.sched i) = true
  owned : ∀ i, s.threads i = .created → s.live (.warg i) = true
  bound : ∀ i, numWorkers ≤ i → s.threads i = .absent

/-- What holds at each place of the host. -/
def At (fault : Nat → Option StartFault) (numWorkers : Nat) (s : PoolRun) : Prop :=
  match s.host with
  | .calling => s.Intact numWorkers ∧ s.running = false ∧ ∀ j, s.threads j = .absent
  | .starting i => s.Intact numWorkers ∧ s.running = true ∧ i ≤ numWorkers ∧
      (∀ j < i, fault j = none) ∧ ∀ j, i ≤ j → s.threads j = .absent
  | .creating i => s.Intact numWorkers ∧ s.running = true ∧ i < numWorkers ∧
      s.live (.warg i) = true ∧ fault i ≠ some .noMemory ∧ (∀ j < i, fault j = none) ∧
      ∀ j, i ≤ j → s.threads j = .absent
  | .started => s.Intact numWorkers ∧ s.running = true
  | .failed _ => s.AllJoined ∧ s.running = false
  | .joining i => s.Intact numWorkers ∧ ∀ j < i, s.threads j = .joined
  | .freeing _ => s.AllJoined

variable {fault : Nat → Option StartFault} {numWorkers : Nat} {s s' : PoolRun}

theorem Intact.sched_live (h : s.Intact numWorkers) {i : Nat} (hne : s.threads i ≠ .absent) :
    s.live (.sched i) = true :=
  h.sched i (Nat.lt_of_not_le fun hle => hne (h.bound i hle))

theorem Intact.reached (h : s.Intact numWorkers) (i : Nat) :
    ∀ b ∈ (s.threads i).reach i, s.live b = true := by
  intro b hb
  cases hi : s.threads i with
  | created =>
    simp only [hi, ThreadPc.reach, List.mem_cons, List.not_mem_nil, or_false] at hb
    rcases hb with rfl | rfl | rfl
    · exact h.owned i hi
    · exact h.pool
    · exact h.sched_live (by simp [hi])
  | looping | working =>
    simp only [hi, ThreadPc.reach, List.mem_cons, List.not_mem_nil, or_false] at hb
    rcases hb with rfl | rfl
    · exact h.pool
    · exact h.sched_live (by simp [hi])
  | absent => rw [hi] at hb; cases hb
  | ended => rw [hi] at hb; cases hb
  | joined => rw [hi] at hb; cases hb

theorem AllJoined.reached (h : s.AllJoined) (i : Nat) :
    ∀ b ∈ (s.threads i).reach i, s.live b = true := by
  intro b hb
  rcases h i with hi | hi <;> rw [hi] at hb <;> cases hb

theorem Intact.safe (h : s.Intact numWorkers) (hne : ∀ res, s.host ≠ .failed res) : s.Safe :=
  ⟨fun res he => absurd he (hne res), h.reached⟩

theorem AllJoined.safe (h : s.AllJoined) : s.Safe := ⟨fun _ _ => h, h.reached⟩

theorem At.safe (h : s.At fault numWorkers) : s.Safe := by
  unfold At at h
  cases hh : s.host with
  | calling => rw [hh] at h; exact h.1.safe (by simp [hh])
  | starting i => rw [hh] at h; exact h.1.safe (by simp [hh])
  | creating i => rw [hh] at h; exact h.1.safe (by simp [hh])
  | started => rw [hh] at h; exact h.1.safe (by simp [hh])
  | failed res => rw [hh] at h; exact AllJoined.safe h.1
  | joining i => rw [hh] at h; exact h.1.safe (by simp [hh])
  | freeing todo => rw [hh] at h; exact AllJoined.safe h

theorem at_create : (create numWorkers).At fault numWorkers := by
  refine ⟨⟨?_, fun i hi => ?_, fun i hi => ?_, fun _ _ => rfl⟩, rfl, fun _ => rfl⟩
  · simp [create, poolBlocks]
  · simpa [create, poolBlocks] using hi
  · cases hi

/-! ### A step of a thread -/

/-- **What a step of a thread can do**: it is there before and after, keeps to its own argument and
changes nothing else. -/
structure Turns (s : PoolRun) (i : Nat) (s' : PoolRun) : Prop where
  host : s'.host = s.host
  running : s'.running = s.running
  present : s.threads i ≠ .absent ∧ s.threads i ≠ .joined
  other : ∀ j, j ≠ i → s'.threads j = s.threads j
  past : s'.threads i ≠ .created
  live : ∀ b, b ≠ .warg i → s'.live b = s.live b

theorem workerStep_turns {i : Nat} (hs : s.workerStep i = some s') : s.Turns i s' := by
  unfold workerStep at hs
  split at hs
  · cases hi : s.threads i <;> simp only [hi, Option.some.injEq, reduceCtorEq] at hs
    case created =>
      subst hs
      exact ⟨rfl, rfl, by simp [hi], fun j hj => Function.update_of_ne hj _ _,
        by simp, fun b hb => Function.update_of_ne hb _ _⟩
    case looping =>
      subst hs
      refine ⟨rfl, rfl, by simp [hi], fun j hj => Function.update_of_ne hj _ _, ?_, fun _ _ => rfl⟩
      dsimp only
      rw [Function.update_self]
      split <;> exact ThreadPc.noConfusion
    case working =>
      subst hs
      exact ⟨rfl, rfl, by simp [hi], fun j hj => Function.update_of_ne hj _ _, by simp,
        fun _ _ => rfl⟩
  · cases hs

theorem Turns.absent {i : Nat} (h : s.Turns i s') {j : Nat} (hj : s.threads j = .absent) :
    s'.threads j = .absent := by
  rw [h.other j fun he => h.present.1 (he ▸ hj), hj]

theorem Turns.joined {i : Nat} (h : s.Turns i s') {j : Nat} (hj : s.threads j = .joined) :
    s'.threads j = .joined := by
  rw [h.other j fun he => h.present.2 (he ▸ hj), hj]

theorem Turns.intact {i : Nat} (h : s.Turns i s') (hi : s.Intact numWorkers) :
    s'.Intact numWorkers := by
  refine ⟨?_, fun j hj => ?_, fun j hj => ?_, fun j hj => h.absent (hi.bound j hj)⟩
  · rw [h.live _ PoolBlock.noConfusion]
    exact hi.pool
  · rw [h.live _ PoolBlock.noConfusion]
    exact hi.sched j hj
  · by_cases hji : j = i
    · exact absurd (hji ▸ hj) h.past
    · rw [h.live _ fun he => hji (PoolBlock.warg.inj he)]
      exact hi.owned j (h.other j hji ▸ hj)

theorem Turns.not_allJoined {i : Nat} (h : s.Turns i s') : ¬s.AllJoined := fun hall =>
  (hall i).elim h.present.1 h.present.2

theorem Turns.at {i : Nat} (ht : s.Turns i s') (h : s.At fault numWorkers) :
    s'.At fault numWorkers := by
  unfold At at h ⊢
  rw [ht.host, ht.running]
  cases hh : s.host with
  | calling =>
    rw [hh] at h
    exact ⟨ht.intact h.1, h.2.1, fun j => ht.absent (h.2.2 j)⟩
  | starting k =>
    rw [hh] at h
    obtain ⟨hi, hr, hle, hno, habs⟩ := h
    exact ⟨ht.intact hi, hr, hle, hno, fun j hj => ht.absent (habs j hj)⟩
  | creating k =>
    rw [hh] at h
    obtain ⟨hi, hr, hlt, harg, hmem, hno, habs⟩ := h
    refine ⟨ht.intact hi, hr, hlt, ?_, hmem, hno, fun j hj => ht.absent (habs j hj)⟩
    -- the thread that takes the step is another one
    rw [ht.live _ fun he => ht.present.1 (PoolBlock.warg.inj he ▸ habs k (Nat.le_refl k))]
    exact harg
  | started =>
    rw [hh] at h
    exact ⟨ht.intact h.1, h.2⟩
  | failed res => rw [hh] at h; exact absurd h.1 ht.not_allJoined
  | joining k =>
    rw [hh] at h
    exact ⟨ht.intact h.1, fun j hj => ht.joined (h.2 j hj)⟩
  | freeing todo => rw [hh] at h; exact absurd h ht.not_allJoined

/-! ### A step of the host -/

/-- The first worker fails, or none does. -/
def FailsAtOnce (fault : Nat → Option StartFault) (numWorkers : Nat) : Prop :=
  fault 0 ≠ none ∨ ∀ i < numWorkers, fault i = none

/-- A worker that fails is the first one, so there is no thread. -/
theorem FailsAtOnce.allJoined (hok : FailsAtOnce fault numWorkers) {i : Nat} (hi : i < numWorkers)
    (hfault : fault i ≠ none) (hno : ∀ j < i, fault j = none)
    (habs : ∀ j, i ≤ j → s.threads j = .absent) : s.AllJoined := by
  rcases hok with h0 | hall
  · have hzero : i = 0 := by
      by_contra hne
      exact h0 (hno 0 (Nat.pos_of_ne_zero hne))
    exact fun j => Or.inl (habs j (hzero ▸ Nat.zero_le j))
  · exact absurd (hall i hi) hfault

theorem Intact.grant (h : s.Intact numWorkers) (i : Nat) (host : HostPc) :
    Intact numWorkers ⟨host, s.running, s.threads, Function.update s.live (.warg i) true⟩ := by
  refine ⟨?_, fun j hj => ?_, fun j hj => ?_, h.bound⟩
  · dsimp only
    rw [Function.update_of_ne PoolBlock.noConfusion]
    exact h.pool
  · dsimp only
    rw [Function.update_of_ne PoolBlock.noConfusion]
    exact h.sched j hj
  · dsimp only
    rw [Function.update_apply]
    split
    · rfl
    · exact h.owned j hj

theorem Intact.thread (h : s.Intact numWorkers) {i : Nat} (hi : i < numWorkers) {pc : ThreadPc}
    (hpc : pc = .created → s.live (.warg i) = true) (host : HostPc) :
    Intact numWorkers ⟨host, s.running, Function.update s.threads i pc, s.live⟩ := by
  refine ⟨h.pool, h.sched, fun j hj => ?_, fun j hj => ?_⟩
  · dsimp only at hj
    rw [Function.update_apply] at hj
    split at hj
    · rename_i hji
      exact hji ▸ hpc hj
    · exact h.owned j hj
  · dsimp only
    rw [Function.update_of_ne (by omega)]
    exact h.bound j hj

theorem Intact.moves (h : s.Intact numWorkers) (host : HostPc) (running : Bool) :
    Intact numWorkers ⟨host, running, s.threads, s.live⟩ :=
  ⟨h.pool, h.sched, h.owned, h.bound⟩

theorem starting_at (hok : FailsAtOnce fault numWorkers) {i : Nat} (hh : s.host = .starting i)
    (h : s.At fault numWorkers) (hs : s.hostStep fault numWorkers = some s') :
    s'.At fault numWorkers := by
  rw [At, hh] at h
  obtain ⟨hi, hr, hle, hno, habs⟩ := h
  rw [hostStep, hh] at hs
  dsimp only at hs
  split at hs
  · rename_i hlt
    split at hs
    · rename_i hmem
      cases hs
      exact ⟨hok.allJoined hlt (by rw [hmem]; simp) hno habs, rfl⟩
    · rename_i hmem
      cases hs
      exact ⟨hi.grant i _, hr, hlt, Function.update_self _ _ _, hmem, hno, habs⟩
  · cases hs
    exact ⟨hi.moves _ _, hr⟩

theorem creating_at (hok : FailsAtOnce fault numWorkers) {i : Nat} (hh : s.host = .creating i)
    (h : s.At fault numWorkers) (hs : s.hostStep fault numWorkers = some s') :
    s'.At fault numWorkers := by
  rw [At, hh] at h
  obtain ⟨hi, hr, hlt, harg, hmem, hno, habs⟩ := h
  rw [hostStep, hh] at hs
  dsimp only at hs
  split at hs
  · rename_i hthread
    cases hs
    exact ⟨hok.allJoined hlt (by rw [hthread]; simp) hno habs, rfl⟩
  · rename_i hthread
    cases hs
    have hnone : fault i = none := by
      cases hf : fault i with
      | none => rfl
      | some f => cases f <;> simp_all
    refine ⟨hi.thread hlt (fun _ => harg) _, hr, hlt, fun j hj => ?_, fun j hj => ?_⟩
    · rcases Nat.lt_succ_iff_lt_or_eq.mp hj with hji | rfl
      · exact hno j hji
      · exact hnone
    · dsimp only
      rw [Function.update_of_ne (by omega)]
      exact habs j (Nat.le_of_succ_le hj)

theorem joining_at {i : Nat} (hh : s.host = .joining i) (h : s.At fault numWorkers)
    (hs : s.hostStep fault numWorkers = some s') : s'.At fault numWorkers := by
  rw [At, hh] at h
  obtain ⟨hi, hjoined⟩ := h
  rw [hostStep, hh] at hs
  dsimp only at hs
  split at hs
  · rename_i hlt
    split at hs
    · cases hs
      refine ⟨hi.thread hlt (fun he => by cases he) _, fun j hj => ?_⟩
      dsimp only
      rw [Function.update_apply]
      split
      · rfl
      · exact hjoined j (by omega)
    · cases hs
  · rename_i hge
    cases hs
    exact fun j => (Nat.lt_or_ge j numWorkers).symm.imp (hi.bound j) fun hj => hjoined j (by omega)

/-- **A step of the host**, where a worker that fails is the first one. -/
theorem hostStep_at (hok : FailsAtOnce fault numWorkers) (h : s.At fault numWorkers)
    (hs : s.hostStep fault numWorkers = some s') : s'.At fault numWorkers := by
  cases hh : s.host with
  | calling =>
    rw [At, hh] at h
    obtain ⟨hi, hr, habs⟩ := h
    simp only [hostStep, hh, hr, Bool.false_eq_true, if_false] at hs
    cases hs
    exact ⟨hi.moves _ _, rfl, Nat.zero_le _, fun j hj => absurd hj (Nat.not_lt_zero j),
      fun j _ => habs j⟩
  | starting i => exact starting_at hok hh h hs
  | creating i => exact creating_at hok hh h hs
  | started =>
    rw [At, hh] at h
    obtain ⟨hi, hr⟩ := h
    simp only [hostStep, hh, hr, if_true] at hs
    cases hs
    exact ⟨hi.moves _ _, fun j hj => absurd hj (Nat.not_lt_zero j)⟩
  | failed res =>
    rw [At, hh] at h
    obtain ⟨hall, hr⟩ := h
    simp only [hostStep, hh, hr, Bool.false_eq_true, if_false] at hs
    cases hs
    exact hall
  | joining i => exact joining_at hh h hs
  | freeing todo =>
    rw [At, hh] at h
    rw [hostStep, hh] at hs
    cases todo with
    | nil => cases hs
    | cons b todo =>
      cases hs
      exact h

/-! ### Every run -/

/-- **What holds at each place holds in every state of a run.** -/
theorem at_of_run (hok : FailsAtOnce fault numWorkers) {acts : List PoolAct}
    (hrun : run (step fault numWorkers) (create numWorkers) acts = some s) :
    s.At fault numWorkers := by
  refine run_invariant (fun s => s.At fault numWorkers) (fun s act s' h hs => ?_) at_create hrun
  cases act with
  | host => exact hostStep_at hok h hs
  | worker i => exact (workerStep_turns hs).at h

/-- The host alone creates the workers before the first that fails. -/
theorem host_creates : ∀ i ≤ numWorkers, (∀ j < i, fault j = none) →
    ∃ acts s, run (step fault numWorkers) (create numWorkers) acts = some s ∧
      s.host = .starting i ∧ s.threads = fun j => if j < i then .created else .absent := by
  intro i
  induction i with
  | zero => intro _ _; exact ⟨[.host], _, rfl, rfl, rfl⟩
  | succ i ih =>
    intro hle hno
    obtain ⟨acts, s, hrun, hhost, hthreads⟩ :=
      ih (Nat.le_of_succ_le hle) fun j hj => hno j (Nat.lt_succ_of_lt hj)
    have hnone := hno i (Nat.lt_succ_self i)
    refine ⟨acts ++ [.host, .host], { s with
      threads := Function.update s.threads i .created
      live := Function.update s.live (.warg i) true
      host := .starting (i + 1) }, ?_, rfl, ?_⟩
    · rw [run_append, hrun, Option.bind_some]
      simp only [run, step, hostStep, hhost, if_pos (Nat.lt_of_succ_le hle), hnone,
        reduceCtorEq, if_false, Option.bind_some]
    · funext j
      dsimp only
      rw [hthreads, Function.update_apply]
      split
      · rename_i hj
        rw [if_pos (by omega)]
      · split
        · rw [if_pos (by omega)]
        · rw [if_neg (by omega)]

/-- **A worker that fails after another one leaves that one behind.** -/
theorem not_allJoined_of_fault {i : Nat} (hi : i < numWorkers) (hfault : fault i ≠ none)
    (hno : ∀ j < i, fault j = none) (hpos : 0 < i) :
    ∃ acts s, run (step fault numWorkers) (create numWorkers) acts = some s ∧ ¬s.Safe := by
  obtain ⟨acts, s, hrun, hhost, hthreads⟩ := host_creates i hi.le hno
  have hbad : ∀ s' : PoolRun, s'.threads = s.threads → (∃ res, s'.host = .failed res) →
      ¬s'.Safe := by
    rintro s' ht ⟨res, hf⟩ hsafe
    have h0 := hsafe.joined res hf 0
    rw [ht, hthreads] at h0
    simp only [hpos, if_true, reduceCtorEq, or_self] at h0
  cases hf : fault i with
  | none => exact absurd hf hfault
  | some f =>
    cases f with
    | noMemory =>
      refine ⟨acts ++ [.host], { s with running := false, host := .failed .errNoMemory }, ?_,
        hbad _ rfl ⟨_, rfl⟩⟩
      rw [run_append, hrun, Option.bind_some]
      simp only [run, step, hostStep, hhost, if_pos hi, hf, if_true, Option.bind_some]
    | noThread =>
      refine ⟨acts ++ [.host, .host], { s with
        live := Function.update (Function.update s.live (.warg i) true) (.warg i) false
        running := false
        host := .failed .errInvalidArg }, ?_, hbad _ rfl ⟨_, rfl⟩⟩
      rw [run_append, hrun, Option.bind_some]
      simp only [run, step, hostStep, hhost, if_pos hi, hf, reduceCtorEq, Option.some.injEq,
        if_false, if_true, Option.bind_some]

/-- **A failed start leaves no thread behind**, in every run of the host and the threads, if and
only if the first worker fails already or none does. -/
theorem startSafe_iff (fault : Nat → Option StartFault) (numWorkers : Nat) :
    (∀ acts s, run (step fault numWorkers) (create numWorkers) acts = some s → s.Safe) ↔
      fault 0 ≠ none ∨ ∀ i < numWorkers, fault i = none := by
  constructor
  · intro hall
    by_contra hcond
    obtain ⟨h0, hsome⟩ := not_or.mp hcond
    obtain ⟨i, hi⟩ := not_forall.mp hsome
    obtain ⟨hlt, hfault⟩ := Classical.not_imp.mp hi
    have hex : ∃ i, fault i ≠ none := ⟨i, hfault⟩
    have hle := Nat.find_min' hex hfault
    have hpos : 0 < Nat.find hex :=
      Nat.pos_of_ne_zero fun he => Nat.find_spec hex (he ▸ not_not.mp h0)
    obtain ⟨acts, s, hrun, hbad⟩ := not_allJoined_of_fault (hle.trans_lt hlt) (Nat.find_spec hex)
      (fun j hj => not_not.mp (Nat.find_min hex hj)) hpos
    exact hbad (hall acts s hrun)
  · intro hok acts s hrun
    exact (at_of_run hok hrun).safe

/-- **Of two workers the second gets no memory**: the first one goes on after `start` has failed,
and reads `pool->running` when the pool has been freed. -/
theorem failedStart_unsafe :
    ∃ s s', run (step (fun i => if i = 1 then some .noMemory else none) 2) (create 2)
        [.host, .host, .host, .host] = some s ∧
      s.host = .failed .errNoMemory ∧ s.threads 0 = .created ∧ ¬s.Safe ∧
      run (step (fun i => if i = 1 then some .noMemory else none) 2) s
        (.worker 0 :: List.replicate 6 .host) = some s' ∧
      s'.threads 0 = .looping ∧ s'.live .pool = false ∧ ¬s'.Safe := by
  refine ⟨_, _, rfl, rfl, rfl, fun h => ?_, rfl, rfl, rfl, fun h => ?_⟩
  · have h0 := h.joined .errNoMemory rfl 0
    exact absurd h0 (by decide)
  · have h0 := h.reached 0 .pool (by decide)
    exact absurd h0 (by decide)

end PoolRun

end BeamModular
