import BeamModular.Lib.Blocks
import BeamModular.Lib.Run

/-!
# Creating a pool

`beam_scheduler_pool_create` asks for the pool, for its two arrays and for one
scheduler after the other, and leaves what it has got to `beam_scheduler_pool_destroy`
when a request is refused.  That walks the whole array of schedulers, and the array
comes from an allocator that does not zero memory: the places behind the refused
scheduler hold what was there before.

A place of the array remembers whether it was ever written.  To pass a pointer from
one that was not to `beam_scheduler_destroy`, which reads it and frees it, has no
result.  `cleansUp_iff` says for which answers of the allocator, and which contents of
the fresh array, a failed creation gives back exactly what it has got.
-/

namespace BeamModular

/-! ### The source -/

/-- A place of the array of schedulers: what was stored there, or what fresh memory contained. -/
inductive SchedSlot
  | written (sched : Option Nat)
  | unwritten (content : Option Nat)
  deriving DecidableEq, Repr

/-- `beam_scheduler_pool_t` with its blocks. -/
structure PoolMemory where
  numWorkers : Nat
  block : Nat
  schedulers : Option Nat
  slots : Nat → SchedSlot
  threads : Option Nat

/-- `if (pool->schedulers[i]) beam_scheduler_destroy(pool->schedulers[i])`. -/
def beamSchedulerDestroy (slots : Nat → SchedSlot) (h : Blocks) (i : Nat) : Option Blocks :=
  match slots i with
  | .written none => some h
  | .written (some sched) => h.free sched
  | .unwritten none => some h
  | .unwritten (some _) => none

/-- `beam_scheduler_pool_destroy` of a pool that does not run. -/
def beamSchedulerPoolDestroy (p : PoolMemory) (h : Blocks) : Option Blocks :=
  (match p.schedulers with
    | none => some h
    | some array =>
      ((List.range p.numWorkers).foldlM (beamSchedulerDestroy p.slots) h).bind fun h =>
        h.free array).bind fun h =>
    (match p.threads with
      | none => some h
      | some threads => h.free threads).bind fun h => h.free p.block

/-- `pool->schedulers[i] = sched`. -/
def PoolMemory.setScheduler (p : PoolMemory) (i : Nat) (sched : Option Nat) : PoolMemory :=
  { p with slots := Function.update p.slots i (.written sched) }

/-- The loop of `beam_scheduler_pool_create` from scheduler `i` on. -/
def createSchedulers : Nat → Nat → PoolMemory → Blocks → Option (Option PoolMemory × Blocks)
  | 0, _, p, h => some (some p, h)
  | left + 1, i, p, h =>
    match h.alloc with
    | (h, none) => (beamSchedulerPoolDestroy (p.setScheduler i none) h).map fun h => (none, h)
    | (h, some sched) => createSchedulers left (i + 1) (p.setScheduler i (some sched)) h

/-- `beam_scheduler_pool_create`; `fill` is what the fresh array of schedulers contains. -/
def beamSchedulerPoolCreate (numWorkers : Nat) (fill : Nat → Option Nat) (h : Blocks) :
    Option (Option PoolMemory × Blocks) :=
  if numWorkers = 0 then some (none, h)
  else
    match h.alloc with
    | (h, none) => some (none, h)
    | (h, some block) =>
      match h.alloc with
      | (h, schedulers) =>
        match h.alloc with
        | (h, threads) =>
          let p : PoolMemory := ⟨numWorkers, block, schedulers, fun i => .unwritten (fill i), threads⟩
          if schedulers = none ∨ threads = none then
            (beamSchedulerPoolDestroy p h).map fun h => (none, h)
          else createSchedulers numWorkers 0 p h

/-- **Nothing is left behind**: no pointer that was never written is used and nothing is freed
twice, and after `NULL` the live blocks are those from before. -/
def CleansUp (numWorkers : Nat) (fill : Nat → Option Nat) (h : Blocks) : Prop :=
  ∃ r, beamSchedulerPoolCreate numWorkers fill h = some r ∧ (r.1 = none → r.2.live = h.live)

/-- Scheduler `i` is the first one that is refused. -/
def FirstRefused (grant : Nat → Bool) (i : Nat) : Prop :=
  grant (3 + i) = false ∧ ∀ j < i, grant (3 + j) = true

/-! ### Destroying a pool -/

/-- A pointer in memory that was never written. -/
def SchedSlot.Stale (slot : SchedSlot) : Prop := ∃ content, slot = .unwritten (some content)

/-- The scheduler that was stored in a place. -/
def SchedSlot.sched : SchedSlot → Option Nat
  | .written sched => sched
  | .unwritten _ => none

/-- The blocks of a pool, in the order in which they are freed. -/
def PoolMemory.blocks (p : PoolMemory) : List Nat :=
  (match p.schedulers with
    | none => []
    | some array => ((List.range p.numWorkers).filterMap fun i => (p.slots i).sched) ++ [array]) ++
  p.threads.toList ++ [p.block]

section Destroy

variable {slots : Nat → SchedSlot} {p : PoolMemory} {h h' : Blocks} {bs : List Nat}

theorem destroyAll_eq : ∀ (is : List Nat) (h : Blocks), (∀ i ∈ is, ¬(slots i).Stale) →
    is.foldlM (beamSchedulerDestroy slots) h
      = Blocks.freeAll (is.filterMap fun i => (slots i).sched) h := by
  intro is
  induction is with
  | nil => intro h _; rfl
  | cons i is ih =>
    intro h hno
    have hrest := fun h => ih h fun j hj => hno j (List.mem_cons_of_mem i hj)
    have hi := hno i List.mem_cons_self
    rw [List.foldlM_cons, beamSchedulerDestroy, List.filterMap_cons]
    cases hs : slots i with
    | written sched =>
      cases sched with
      | none => exact hrest h
      | some b => exact congrArg (Option.bind (h.free b)) (funext hrest)
    | unwritten content =>
      cases content with
      | none => exact hrest h
      | some c => exact absurd ⟨c, hs⟩ hi

/-- A pointer that was never written has no result, wherever it is. -/
theorem destroyAll_stale : ∀ (is : List Nat) (h : Blocks), (∃ i ∈ is, (slots i).Stale) →
    is.foldlM (beamSchedulerDestroy slots) h = none := by
  intro is
  induction is with
  | nil => rintro h ⟨i, hi, _⟩; cases hi
  | cons i is ih =>
    rintro h ⟨j, hj, hstale⟩
    rw [List.foldlM_cons]
    rcases List.mem_cons.mp hj with rfl | hj
    · obtain ⟨content, hs⟩ := hstale
      rw [beamSchedulerDestroy, hs]
      rfl
    · cases beamSchedulerDestroy slots h i with
      | none => rfl
      | some h₁ => exact ih h₁ ⟨j, hj, hstale⟩

/-- **Without stale places**, the blocks of the pool are freed, one after the other. -/
theorem beamSchedulerPoolDestroy_eq
    (hno : p.schedulers = none ∨ ∀ i < p.numWorkers, ¬(p.slots i).Stale) (h : Blocks) :
    beamSchedulerPoolDestroy p h = Blocks.freeAll p.blocks h := by
  have hthreads : ∀ h : Blocks, (match p.threads with
      | none => some h
      | some threads => h.free threads) = Blocks.freeAll p.threads.toList h := by
    intro h
    cases p.threads with
    | none => rfl
    | some threads => exact (Blocks.freeAll_single threads h).symm
  rw [PoolMemory.blocks, Blocks.freeAll_append, Blocks.freeAll_append, beamSchedulerPoolDestroy,
    Option.bind_assoc]
  simp only [hthreads, Blocks.freeAll_single]
  cases hs : p.schedulers with
  | none => rfl
  | some array =>
    rw [hs] at hno
    have hall : ∀ i ∈ List.range p.numWorkers, ¬(p.slots i).Stale := fun i hi =>
      hno.resolve_left (Option.some_ne_none array) i (List.mem_range.mp hi)
    dsimp only
    rw [destroyAll_eq _ _ hall, Blocks.freeAll_append]
    simp only [Blocks.freeAll_single]

theorem destroyed_iff (hgrows : h.Grows bs h') (hperm : p.blocks.Perm bs) :
    (∃ r, (beamSchedulerPoolDestroy p h').map (fun h => ((none : Option PoolMemory), h)) = some r ∧
      (r.1 = none → r.2.live = h.live)) ↔
      p.schedulers = none ∨ ∀ i < p.numWorkers, ¬(p.slots i).Stale := by
  constructor
  · rintro ⟨r, hr, _⟩
    by_contra hcond
    obtain ⟨hsome, hstale⟩ := not_or.mp hcond
    obtain ⟨array, hs⟩ := Option.ne_none_iff_exists'.mp hsome
    obtain ⟨i, hi⟩ := not_forall.mp hstale
    obtain ⟨hlt, hi⟩ := Classical.not_imp.mp hi
    rw [beamSchedulerPoolDestroy, hs] at hr
    dsimp only at hr
    rw [destroyAll_stale _ _ ⟨i, List.mem_range.mpr hlt, not_not.mp hi⟩] at hr
    cases hr
  · intro hno
    obtain ⟨h'', hfree, hlive⟩ := Blocks.freeAll_of_grows hgrows hperm
    exact ⟨(none, h''), by rw [beamSchedulerPoolDestroy_eq hno, hfree]; rfl, fun _ => hlive⟩

end Destroy

/-! ### The loop over the schedulers -/

/-- The array when these schedulers have been stored in it. -/
def slotsAfter (fill : Nat → Option Nat) (bs : List Nat) (k : Nat) : SchedSlot :=
  match bs[k]? with
  | some b => .written (some b)
  | none => .unwritten (fill k)

section Loop

variable {fill : Nat → Option Nat} {grant : Nat → Bool} {bs : List Nat} {k : Nat}

theorem slotsAfter_snoc (b : Nat) :
    Function.update (slotsAfter fill bs) bs.length (.written (some b))
      = slotsAfter fill (bs ++ [b]) := by
  funext k
  rw [Function.update_apply]
  split
  · rename_i hk
    rw [slotsAfter, hk, List.getElem?_concat_length]
  · rename_i hk
    rcases Nat.lt_or_ge k bs.length with hlt | hge
    · rw [slotsAfter, slotsAfter, List.getElem?_append_left hlt]
    · rw [slotsAfter, slotsAfter, List.getElem?_eq_none hge, List.getElem?_eq_none]
      rw [List.length_append, List.length_singleton]
      omega

theorem sched_slotsAfter : (slotsAfter fill bs k).sched = bs[k]? := by
  rw [slotsAfter]
  cases bs[k]? <;> rfl

theorem stale_slotsAfter_iff : (slotsAfter fill bs k).Stale ↔ bs.length ≤ k ∧ fill k ≠ none := by
  rw [slotsAfter, ← List.getElem?_eq_none_iff, Option.ne_none_iff_exists']
  cases bs[k]? <;> simp [SchedSlot.Stale]

theorem sched_refused :
    (Function.update (slotsAfter fill bs) bs.length (.written none) k).sched = bs[k]? := by
  rw [Function.update_apply]
  split
  · rename_i hk
    rw [hk, List.getElem?_eq_none (Nat.le_refl _)]
    rfl
  · exact sched_slotsAfter

theorem stale_refused_iff :
    (Function.update (slotsAfter fill bs) bs.length (.written none) k).Stale ↔
      bs.length < k ∧ fill k ≠ none := by
  rw [Function.update_apply]
  split
  · rename_i hk
    refine iff_of_false ?_ fun h => absurd h.1 (by omega)
    rintro ⟨_, he⟩
    cases he
  · rename_i hk
    rw [stale_slotsAfter_iff]
    refine and_congr_left fun _ => ⟨fun hle => ?_, Nat.le_of_lt⟩
    omega

theorem filterMap_range_getElem? (bs : List Nat) : ∀ n : Nat,
    (List.range n).filterMap (fun i => bs[i]?) = bs.take n := by
  intro n
  induction n with
  | zero => rfl
  | succ n ih =>
    rw [List.range_succ, List.filterMap_append, ih, List.take_add_one]
    cases hn : bs[n]? <;> simp [hn]

theorem perm_released (bs : List Nat) (block array threads : Nat) :
    (bs ++ [array] ++ [threads] ++ [block]).Perm ([block, array, threads] ++ bs) := by
  have hrotate : ([array, threads, block]).Perm [block, array, threads] :=
    @List.perm_append_comm _ [array, threads] [block]
  rw [List.append_assoc, List.append_assoc]
  exact List.perm_append_comm.trans (hrotate.append_right bs)

theorem FirstRefused.unique {i j : Nat} (hi : FirstRefused grant i) (hj : FirstRefused grant j) :
    i = j := by
  rcases Nat.lt_trichotomy i j with hlt | he | hgt
  · exact absurd (hj.2 i hlt) (by simp [hi.1])
  · exact he
  · exact absurd (hi.2 j hgt) (by simp [hj.1])

/-- **A refused scheduler**: the pool is destroyed, with a null in its place and the schedulers
before it in theirs. -/
theorem refused_iff {base h : Blocks} {numWorkers block array threads : Nat}
    (hlt : bs.length < numWorkers) (hgrows : base.Grows ([block, array, threads] ++ bs) h) :
    (∃ r, (beamSchedulerPoolDestroy (PoolMemory.setScheduler
          ⟨numWorkers, block, some array, slotsAfter fill bs, some threads⟩ bs.length none) h).map
          (fun h => ((none : Option PoolMemory), h)) = some r ∧
        (r.1 = none → r.2.live = base.live)) ↔
      ∀ k, bs.length < k → k < numWorkers → fill k = none := by
  refine (destroyed_iff hgrows ?_).trans ⟨fun hno k hk hkn => ?_, fun hall => ?_⟩
  · rw [PoolMemory.blocks]
    dsimp only [PoolMemory.setScheduler, Option.toList]
    simp only [sched_refused, filterMap_range_getElem?]
    rw [List.take_of_length_le (Nat.le_of_lt hlt)]
    exact perm_released bs block array threads
  · by_contra hne
    exact hno.resolve_left (Option.some_ne_none array) k hkn (stale_refused_iff.mpr ⟨hk, hne⟩)
  · refine Or.inr fun k hkn hstale => ?_
    obtain ⟨hk, hne⟩ := stale_refused_iff.mp hstale
    exact hne (hall k hk hkn)

/-- **The loop from scheduler `i` on**, with those before it granted. -/
theorem createSchedulers_iff {base : Blocks} {numWorkers block array threads : Nat} :
    ∀ (left : Nat) (bs : List Nat) (h : Blocks), bs.length + left = numWorkers →
      base.Grows ([block, array, threads] ++ bs) h →
      (h.grant = fun k => grant (3 + bs.length + k)) → (∀ j < bs.length, grant (3 + j) = true) →
      ((∃ r, createSchedulers left bs.length
          ⟨numWorkers, block, some array, slotsAfter fill bs, some threads⟩ h = some r ∧
          (r.1 = none → r.2.live = base.live)) ↔
        ∀ i < numWorkers, FirstRefused grant i → ∀ k, i < k → k < numWorkers → fill k = none) := by
  intro left
  induction left with
  | zero =>
    intro bs h hn _ _ hbefore
    refine iff_of_true ⟨_, rfl, fun he => by cases he⟩ fun i hi hrefused => ?_
    exact absurd (hbefore i (by omega)) (by simp [hrefused.1])
  | succ left ih =>
    intro bs h hn hgrows hgrant hbefore
    have hfirst : h.grant 0 = grant (3 + bs.length) := congrFun hgrant 0
    rw [createSchedulers]
    cases hg : grant (3 + bs.length) with
    | true =>
      have hsnoc := ih (bs ++ [h.next]) h.give (by simp; omega)
        (by rw [← List.append_assoc]; exact hgrows.trans h.grows_give) ?_ ?_
      · rw [List.length_append, List.length_singleton, ← slotsAfter_snoc] at hsnoc
        rw [Blocks.alloc_granted (hfirst.trans hg)]
        exact hsnoc
      · funext k
        rw [List.length_append, List.length_singleton]
        exact (congrFun hgrant (k + 1)).trans (congrArg grant (by omega))
      · intro j hj
        rw [List.length_append, List.length_singleton] at hj
        rcases Nat.lt_succ_iff_lt_or_eq.mp hj with hlt | rfl
        · exact hbefore j hlt
        · exact hg
    | false =>
      rw [Blocks.alloc_refused (hfirst.trans hg)]
      have hlt : bs.length < numWorkers := by omega
      have hrefused : FirstRefused grant bs.length := ⟨hg, hbefore⟩
      have hgrows' : base.Grows ([block, array, threads] ++ bs) h.refuse := by
        rw [← List.append_nil ([block, array, threads] ++ bs)]
        exact hgrows.trans h.grows_refuse
      refine (refused_iff hlt hgrows').trans ⟨fun hall i _ hr => ?_, fun hall => ?_⟩
      · rw [hr.unique hrefused]
        exact hall
      · exact hall _ hlt hrefused

end Loop

/-! ### The whole creation -/

section Create

variable {numWorkers : Nat} {fill : Nat → Option Nat} {h : Blocks}

theorem slots_new (fill : Nat → Option Nat) :
    (fun i => SchedSlot.unwritten (fill i)) = slotsAfter fill [] := rfl

theorem blocks_new (numWorkers block : Nat) (schedulers threads : Option Nat) :
    (PoolMemory.blocks ⟨numWorkers, block, schedulers, slotsAfter fill [], threads⟩).Perm
      ([block] ++ schedulers.toList ++ threads.toList) := by
  have hnone : ((List.range numWorkers).filterMap fun i => (slotsAfter fill [] i).sched) = [] := by
    simp only [sched_slotsAfter, filterMap_range_getElem?, List.take_nil]
  rw [List.append_assoc]
  refine List.Perm.trans ?_ List.perm_append_comm
  cases schedulers with
  | none => exact List.Perm.refl _
  | some array =>
    rw [PoolMemory.blocks]
    dsimp only
    rw [hnone]
    exact List.Perm.refl _

/-- **A failed creation cleans up exactly** if there are no workers or no pool to begin with, or no
array of schedulers, or if the places of that array which were not reached contain null: for every
number of workers, every answer of the allocator and every content of fresh memory. -/
theorem cleansUp_iff (numWorkers : Nat) (fill : Nat → Option Nat) (h : Blocks) :
    CleansUp numWorkers fill h ↔
      numWorkers = 0 ∨ h.grant 0 = false ∨ h.grant 1 = false ∨
      (h.grant 2 = false ∧ ∀ k < numWorkers, fill k = none) ∨
      (h.grant 2 = true ∧ ∀ i < numWorkers, FirstRefused h.grant i →
        ∀ k, i < k → k < numWorkers → fill k = none) := by
  rw [CleansUp, beamSchedulerPoolCreate]
  by_cases hzero : numWorkers = 0
  · rw [if_pos hzero]
    exact iff_of_true ⟨_, rfl, fun _ => rfl⟩ (Or.inl hzero)
  rw [if_neg hzero]
  cases h0 : h.grant 0 with
  | false =>
    rw [Blocks.alloc_refused h0]
    exact iff_of_true ⟨_, rfl, fun _ => rfl⟩ (Or.inr (Or.inl rfl))
  | true =>
    rw [Blocks.alloc_granted h0]
    have hgrows := (h.grows_give.trans h.give.grows_alloc).trans h.give.alloc.1.grows_alloc
    have h1 : h.give.alloc.2 = none ↔ h.grant 1 = false := Blocks.alloc_eq_none_iff
    have h2 : h.give.alloc.1.alloc.2 = none ↔ h.grant 2 = false := by
      rw [Blocks.alloc_eq_none_iff, Blocks.grant_alloc]
      rfl
    have hgrant : h.give.alloc.1.alloc.1.grant = fun k => h.grant (3 + 0 + k) := by
      rw [Blocks.grant_alloc, Blocks.grant_alloc]
      funext k
      exact congrArg h.grant (by omega)
    have hperm := @blocks_new fill numWorkers h.next h.give.alloc.2 h.give.alloc.1.alloc.2
    have hdestroyed := destroyed_iff hgrows hperm
    dsimp only
    rw [slots_new]
    cases hs : h.give.alloc.2 with
    | none =>
      rw [hs] at hdestroyed
      rw [if_pos (Or.inl rfl)]
      exact iff_of_true (hdestroyed.mpr (Or.inl rfl)) (Or.inr (Or.inr (Or.inl (h1.mp hs))))
    | some array =>
      have hg1 : h.grant 1 = true := by
        rw [← Bool.not_eq_false, ← h1, hs]
        exact Option.some_ne_none array
      rw [hs] at hdestroyed hgrows
      cases ht : h.give.alloc.1.alloc.2 with
      | none =>
        rw [ht] at hdestroyed
        rw [if_pos (Or.inr rfl), hdestroyed, hg1, h2.mp ht]
        simp [hzero, stale_slotsAfter_iff]
      | some threads =>
        have hg2 : h.grant 2 = true := by
          rw [← Bool.not_eq_false, ← h2, ht]
          exact Option.some_ne_none threads
        rw [ht] at hgrows
        rw [if_neg (by simp), hg1, hg2]
        refine (createSchedulers_iff numWorkers [] _ (Nat.zero_add _) hgrows hgrant fun j hj =>
          absurd hj (Nat.not_lt_zero j)).trans ?_
        simp [hzero]

end Create

/-- An allocator that refuses the fourth request only. -/
def refusingFourth : Blocks := { Blocks.granting with grant := fun k => k ≠ 3 }

/-- **Two workers, the first scheduler is refused, and the fresh array is not zero**: what is behind
the first place is taken for a scheduler. -/
theorem refusedScheduler_stale : ¬CleansUp 2 (fun _ => some 64) refusingFourth := by
  rintro ⟨r, hr, _⟩
  rw [show beamSchedulerPoolCreate 2 (fun _ => some 64) refusingFourth = none from rfl] at hr
  cases hr

end BeamModular
