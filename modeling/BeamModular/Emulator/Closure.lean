import BeamModular.Emulator.Operands
import BeamModular.Scheduler.Growth

/-!
# Closures

`MAKE_FUN2` computes the size of its closure, the header and the indices it stores at in
32 bits.  `closureStores` is what it stores, in its order: `execMakeFun2_eq` says that
the instruction is its allocation and these stores.  As long as the size does not wrap
around, the indices are those of the words it has asked for, one after the other
(`closureStores_indices`), so the whole closure can be read back
(`closure_reads_back`).  The header keeps the arity modulo 2^26 (`toNat_closureHeader`), and
`closureOk_iff` puts the two together.
-/

namespace BeamModular

/-- The words a closure asks for. -/
def closureWords (instr : Instruction) : Word := (instr.arg2 + 2#32).setWidth 64

/-- The header of a closure. -/
def closureHeader (instr : Instruction) : Word :=
  ((instr.arg2 + 1#32) <<< 6).setWidth 64 ||| subtagTuple

/-- The value of a free variable: a register, or zero where there is none. -/
def freeVar (p : Process) (fv : Nat) : Eterm := if h : fv < numXRegisters then p.x ⟨fv, h⟩ else 0#64

/-- What `MAKE_FUN2` stores and at which index from `hp` on, in its order. -/
def closureStores (instr : Instruction) (p : Process) : List (Nat × Word) :=
  (0, closureHeader instr) :: (1, makeSmallInt (instr.arg1.setWidth 64)) ::
    (List.range instr.arg2.toNat).map fun fv => ((2#32 + BitVec.ofNat 32 fv).toNat, freeVar p fv)

/-- The process after `MAKE_FUN2`, with the closure at `hp`. -/
def closureProc (instr : Instruction) (p : Process) (hp : Nat) : Process :=
  match xReg instr.arg3 with
  | some dst => p.setX dst (tagAddr hp tagPrimaryBoxed)
  | none => p

section

variable {code : List Instruction} {instr : Instruction} {m m₁ m₂ : Memory} {p p₁ : Process}
  {ip ip' hp : Nat} {e : Effect}

/-! ### What the instruction stores -/

theorem storeFreeVars_eq (p : Process) (hp left : Nat) : ∀ (fv : Nat) (m : Memory),
    storeFreeVars p hp left fv m = Memory.storeAt hp ((List.range' fv left).map fun fv =>
      ((2#32 + BitVec.ofNat 32 fv).toNat, freeVar p fv)) m := by
  induction left with
  | zero => exact fun _ _ => rfl
  | succ left ih =>
    intro fv m
    rw [storeFreeVars, List.range'_succ, List.map_cons, Memory.storeAt]
    exact congrArg _ (funext fun m => ih (fv + 1) m)

theorem execMakeFun2_eq (instr : Instruction) (m : Memory) (p : Process) (ip : Nat) :
    execMakeFun2 instr m p ip = match beamProcessAllocHeap m p (closureWords instr) with
      | (m, p, none) => some (.fail m p .errNoMemory)
      | (m, p, some hp) => (Memory.storeAt hp (closureStores instr p) m).map fun m =>
          .goto m (closureProc instr p hp) (ip + 1) := by
  rw [execMakeFun2, closureWords]
  dsimp only
  rcases beamProcessAllocHeap m p ((instr.arg2 + 2#32).setWidth 64) with ⟨m₁, p₁, _ | hp⟩
  · rfl
  · dsimp only
    have hstores : Memory.storeAt hp (closureStores instr p₁) m₁
        = (m₁.writeAll hp [closureHeader instr, makeSmallInt (instr.arg1.setWidth 64)]).bind
            fun m => storeFreeVars p₁ hp instr.arg2.toNat 0 m := by
      simp only [closureStores, Memory.storeAt, Memory.writeAll, Option.bind_assoc,
        Option.bind_some, storeFreeVars_eq, List.range_eq_range', Nat.mul_zero, Nat.add_zero,
        Nat.mul_one]
    rw [hstores, Option.map_bind]
    refine congrArg _ (funext fun m₂ => ?_)
    refine congrArg (fun f => Option.map f _) (funext fun m₃ => ?_)
    rw [closureProc]
    cases xReg instr.arg3 <;> rfl

/-- **Without a wrap of the size** the indices are those of the closure's words, in their order. -/
theorem closureStores_indices (h : instr.arg2.toNat + 2 < 2 ^ 32) :
    (closureStores instr p).map Prod.fst = List.range (instr.arg2.toNat + 2) := by
  rw [closureStores, List.range_succ_eq_map, List.range_succ_eq_map]
  simp only [List.map_cons, List.map_map, List.cons.injEq, true_and]
  refine List.map_congr_left fun fv hfv => ?_
  have hlt := List.mem_range.mp hfv
  simp only [Function.comp, BitVec.toNat_add, BitVec.toNat_ofNat]
  omega

theorem toNat_closureWords (instr : Instruction) :
    (closureWords instr).toNat = (instr.arg2.toNat + 2) % 2 ^ 32 := by
  rw [closureWords, BitVec.toNat_setWidth, BitVec.toNat_add, BitVec.toNat_ofNat]
  omega

/-- The stores stay inside the words asked for exactly if their number does not wrap around. -/
theorem closureStores_inside_iff :
    (∀ x ∈ closureStores instr p, x.1 < (closureWords instr).toNat) ↔
      instr.arg2.toNat + 2 < 2 ^ 32 := by
  have hlt := instr.arg2.isLt
  rw [toNat_closureWords]
  constructor
  · intro hin
    have h1 := hin _ (List.mem_cons_of_mem _ List.mem_cons_self)
    dsimp only at h1
    omega
  · intro hsize x hx
    have hmem : x.1 ∈ (closureStores instr p).map Prod.fst := List.mem_map_of_mem hx
    rw [closureStores_indices hsize, List.mem_range] at hmem
    rw [Nat.mod_eq_of_lt hsize]
    exact hmem

/-- The header in words: the arity modulo 2^26 above six zero bits. -/
theorem toNat_closureHeader (instr : Instruction) :
    (closureHeader instr).toNat = 64 * ((instr.arg2.toNat + 1) % 2 ^ 26) := by
  have hlt := instr.arg2.isLt
  rw [closureHeader, subtagTuple, BitVec.or_zero, BitVec.toNat_setWidth, BitVec.toNat_shiftLeft,
    BitVec.toNat_add, BitVec.toNat_ofNat, Nat.shiftLeft_eq]
  omega

/-! ### Reading a closure -/

theorem alloc_pointer {n : Word} (hheap : p.heap ≠ 0) (halign : p.heap % 8 = 0)
    (hspace : ∀ a, (m.cell a).isSome → a < addressSpace)
    (ha : beamProcessAllocHeap m p n = (m₁, p₁, some hp)) (hread : (m₁.cell hp).isSome) :
    hp ≠ 0 ∧ hp % 8 = 0 ∧ hp < addressSpace := by
  rcases beamProcessAllocHeap_cases m p n with ⟨_, h⟩ | ⟨_, _, h⟩ | ⟨_, newHeap, m', hr, h⟩
  · rw [h] at ha
    cases ha
    exact ⟨by omega, by omega, hspace _ hread⟩
  · rw [h] at ha
    cases ha
  · rw [h] at ha
    cases ha
    rw [growReply] at hr
    obtain ⟨_, rest, _, _, _, hrest, _, hfree, rfl⟩ := Memory.resize_eq_some hr
    have hnz := hfree.1
    have hal := hfree.2.1
    refine ⟨by dsimp only; omega, by dsimp only; omega, ?_⟩
    by_cases hin : InBlock newHeap (growBytes p n / 8) (newHeap + 8 * p.asked.heapTop.toNat)
    · have hend := hfree.2.2.1
      have hlt := hin.2.1
      exact lt_of_lt_of_le hlt hend
    · dsimp only at hread ⊢
      rw [Memory.cell_map_out hin] at hread
      rcases hrest with rfl | rfl
      · exact hspace _ hread
      · exact hspace _ (Memory.isSome_of_free hread)

theorem tuple_reads {header : Word} (h0 : hp ≠ 0) (halign : hp % 8 = 0) (hl : hp < addressSpace)
    (hc : m.cell hp = some header) (htag : header.toNat % 64 = 0) :
    beamIsTuple m (tagAddr hp tagPrimaryBoxed) = some true ∧
      beamTupleArity m (tagAddr hp tagPrimaryBoxed) = some (header >>> (6 : Nat)) ∧
      ∀ i, beamTupleElement m (tagAddr hp tagPrimaryBoxed) i = m.cell (hp + 8 * (i + 1)) := by
  have haddr : addrOf (tagAddr hp tagPrimaryBoxed) = hp := addrOf_tagAddr halign hl (by decide)
  have hbox : (tagAddr hp tagPrimaryBoxed).toNat % 4 = 2 := by
    rw [toNat_tagAddr (by omega) hl (by decide)]
    show (hp + 2) % 4 = 2
    omega
  have hzero : header &&& 63#64 = subtagTuple := by
    apply BitVec.eq_of_toNat_eq
    rw [toNat_and_sixtyThree, htag]
    rfl
  have htuple : beamIsTuple m (tagAddr hp tagPrimaryBoxed) = some true := by
    rw [beamIsTuple_of_boxed hbox (by rw [haddr]; exact h0), haddr, hc, Option.map_some, hzero]
    rfl
  refine ⟨htuple, ?_, fun i => ?_⟩
  · rw [beamTupleArity, htuple, Option.bind_some, if_pos rfl, haddr, hc, Option.map_some]
  · rw [beamTupleElement, htuple, Option.bind_some, if_pos rfl, haddr]

theorem freeVar_congr (hframe : p₁.frame = p.frame) (fv : Nat) : freeVar p₁ fv = freeVar p fv := by
  simp only [freeVar, Process.x, hframe]

theorem execMakeFun2_goto (h : execMakeFun2 instr m p ip = some e) (hgo : e.next = .goto ip') :
    ∃ m₁ p₁ hp, beamProcessAllocHeap m p (closureWords instr) = (m₁, p₁, some hp) ∧
      p₁.frame = p.frame ∧ Memory.storeAt hp (closureStores instr p₁) m₁ = some e.mem ∧
      e.proc = closureProc instr p₁ hp := by
  have hframe := beamProcessAllocHeap_frame m p (closureWords instr)
  rw [execMakeFun2_eq] at h
  rcases ha : beamProcessAllocHeap m p (closureWords instr) with ⟨m₁, p₁, _ | hp⟩
  · rw [ha] at h
    cases h
    cases hgo
  · rw [ha] at h hframe
    obtain ⟨m₂, hs, rfl⟩ := Option.map_eq_some_iff.mp h
    exact ⟨m₁, p₁, hp, rfl, hframe, hs, rfl⟩

/-- The term is the closure of the instruction over the registers of `p`. -/
structure IsClosure (instr : Instruction) (p : Process) (m : Memory) (t : Eterm) : Prop where
  tuple : beamIsTuple m t = some true
  arity : (beamTupleArity m t).map BitVec.toNat = some (instr.arg2.toNat + 1)
  label : beamTupleElement m t 0 = some (makeSmallInt (instr.arg1.setWidth 64))
  vars : ∀ i < instr.arg2.toNat, beamTupleElement m t (i + 1) = some (freeVar p i)

/-- **Closure creation as it should be**: every store lies in the words that were asked for, and the
term in the destination register is the closure. -/
def ClosureOk (instr : Instruction) (m : Memory) (p : Process) (e : Effect) : Prop :=
  ∀ m₁ p₁ hp, beamProcessAllocHeap m p (closureWords instr) = (m₁, p₁, some hp) →
    (∀ x ∈ closureStores instr p₁, x.1 < (closureWords instr).toNat) ∧
      ∀ dst, xReg instr.arg3 = some dst → IsClosure instr p e.mem (e.proc.x dst)

/-- The arity of the closure fits into the header, or no register receives the closure and at least
its size fits into 32 bits. -/
def ClosureFits (instr : Instruction) : Prop :=
  instr.arg2.toNat + 1 < 2 ^ 26 ∨ numXRegisters ≤ instr.arg3.toNat ∧ instr.arg2.toNat + 2 < 2 ^ 32

/-- The state the instruction finds, as far as closures go: a heap, and addresses of 64 bits. -/
structure HeapPointer (m : Memory) (p : Process) : Prop where
  nonnull : p.heap ≠ 0
  aligned : p.heap % 8 = 0
  space : ∀ a, (m.cell a).isSome → a < addressSpace

/-- **A closure whose size does not wrap around** reads back whole, but for the arity. -/
theorem closure_reads_back (hp₀ : HeapPointer m p)
    (ha : beamProcessAllocHeap m p (closureWords instr) = (m₁, p₁, some hp))
    (hs : Memory.storeAt hp (closureStores instr p₁) m₁ = some m₂)
    (hsize : instr.arg2.toNat + 2 < 2 ^ 32) :
    beamIsTuple m₂ (tagAddr hp tagPrimaryBoxed) = some true ∧
      (beamTupleArity m₂ (tagAddr hp tagPrimaryBoxed)).map BitVec.toNat
        = some ((instr.arg2.toNat + 1) % 2 ^ 26) ∧
      beamTupleElement m₂ (tagAddr hp tagPrimaryBoxed) 0
        = some (makeSmallInt (instr.arg1.setWidth 64)) ∧
      ∀ i < instr.arg2.toNat,
        beamTupleElement m₂ (tagAddr hp tagPrimaryBoxed) (i + 1) = some (freeVar p₁ i) := by
  have hnodup : ((closureStores instr p₁).map Prod.fst).Nodup := by
    rw [closureStores_indices hsize]
    exact List.nodup_range
  obtain ⟨hin, _⟩ := Memory.storeAt_spec hp _ hnodup hs
  have hread : (m₁.cell hp).isSome := by
    obtain ⟨_, hw, _⟩ := Option.bind_eq_some_iff.mp hs
    exact (Memory.write_eq_some hw).1
  obtain ⟨h0, halign, hl⟩ := alloc_pointer hp₀.nonnull hp₀.aligned hp₀.space ha hread
  have hheader := hin _ List.mem_cons_self
  have hlabel := hin _ (List.mem_cons_of_mem _ List.mem_cons_self)
  have hvalue := toNat_closureHeader instr
  obtain ⟨htuple, harity, helement⟩ := tuple_reads h0 halign hl hheader (by rw [hvalue]; omega)
  refine ⟨htuple, ?_, ?_, fun i hi => ?_⟩
  · rw [harity, Option.map_some, BitVec.toNat_ushiftRight, hvalue, Nat.shiftRight_eq_div_pow]
    exact congrArg some (by omega)
  · rw [helement]
    exact hlabel
  · have hmem : ((2#32 + BitVec.ofNat 32 i).toNat, freeVar p₁ i) ∈ closureStores instr p₁ := by
      rw [closureStores]
      exact List.mem_cons_of_mem _ (List.mem_cons_of_mem _
        (List.mem_map_of_mem (List.mem_range.mpr hi)))
    have hindex : (2#32 + BitVec.ofNat 32 i).toNat = i + 1 + 1 := by
      rw [BitVec.toNat_add, BitVec.toNat_ofNat, BitVec.toNat_ofNat]
      omega
    have hcell := hin _ hmem
    rw [hindex] at hcell
    rw [helement]
    exact hcell

theorem xReg_eq_none_iff {r : BitVec 32} : xReg r = none ↔ numXRegisters ≤ r.toNat := by
  unfold xReg
  split
  · rename_i hlt
    exact iff_of_false (fun h => by cases h) (Nat.not_le.mpr hlt)
  · rename_i hge
    exact iff_of_true rfl (Nat.not_lt.mp hge)

/-- **When closure creation is well formed**: exactly if the arity fits into the 26 bits the header
has for it, or the closure goes nowhere and its size does not wrap around. -/
theorem closureOk_iff (hp₀ : HeapPointer m p) (h : execInstr code instr m p ip = some e)
    (hop : instr.opcode = .makeFun2) (hgo : e.next = .goto ip') :
    ClosureOk instr m p e ↔ ClosureFits instr := by
  have hlt := instr.arg2.isLt
  rw [execInstr, hop] at h
  obtain ⟨m₁, p₁, hp, ha, hframe, hs, hproc⟩ := execMakeFun2_goto h hgo
  constructor
  · intro hok
    obtain ⟨hinside, hterm⟩ := hok m₁ p₁ hp ha
    have hsize := closureStores_inside_iff.mp hinside
    cases hdst : xReg instr.arg3 with
    | none => exact Or.inr ⟨xReg_eq_none_iff.mp hdst, hsize⟩
    | some dst =>
      obtain ⟨_, harity, _⟩ := closure_reads_back hp₀ ha hs hsize
      have hclosure := (hterm dst hdst).arity
      rw [hproc, closureProc, hdst, Process.x_setX_self, harity, Option.some_inj] at hclosure
      exact Or.inl (by omega)
  · intro hfits m₁' p₁' hp' ha'
    rw [ha] at ha'
    cases ha'
    have hsize : instr.arg2.toNat + 2 < 2 ^ 32 := by
      rcases hfits with h | h <;> omega
    refine ⟨closureStores_inside_iff.mpr hsize, fun dst hdst => ?_⟩
    have harityFits : instr.arg2.toNat + 1 < 2 ^ 26 := by
      refine hfits.resolve_right fun hnone => ?_
      rw [xReg_eq_none_iff.mpr hnone.1] at hdst
      cases hdst
    obtain ⟨htuple, harity, hlabel, hvars⟩ := closure_reads_back hp₀ ha hs hsize
    rw [hproc, closureProc, hdst, Process.x_setX_self]
    refine ⟨htuple, ?_, hlabel, fun i hi => ?_⟩
    · rw [harity, Nat.mod_eq_of_lt harityFits]
    · rw [hvars i hi, freeVar_congr hframe]

end

/-- A new process alone in memory, with a block of `n` words. -/
def aloneWith (n : Word) : Memory × Process :=
  (Memory.empty.map 4096 n.toNat fun _ => 0#64,
    { freshProcess with heapCapacity := n, stackTop := n })

theorem heapPointer_aloneWith {n : Word} (hn : n.toNat < 2 ^ 60) :
    HeapPointer (aloneWith n).1 (aloneWith n).2 := by
  refine ⟨(by decide : 4096 ≠ 0), (by decide : 4096 % 8 = 0), fun a ha => ?_⟩
  by_cases hin : InBlock 4096 n.toNat a
  · have := hin.2.1
    exact lt_of_lt_of_le this (by unfold addressSpace; omega)
  · rw [aloneWith, Memory.cell_map_out hin] at ha
    cases ha

/-- A closure over two registers fits into four words. -/
theorem closureOk_twoRegisters : ∃ e,
    execInstr [] { opcode := .makeFun2, arg1 := 5#32, arg2 := 2#32 } (aloneWith 4#64).1
      (aloneWith 4#64).2 0 = some e ∧
    ClosureOk { opcode := .makeFun2, arg1 := 5#32, arg2 := 2#32 } (aloneWith 4#64).1
      (aloneWith 4#64).2 e := by
  obtain ⟨e, he, hgo⟩ := Option.map_eq_some_iff.mp
    (show (execInstr [] { opcode := .makeFun2, arg1 := 5#32, arg2 := 2#32 } (aloneWith 4#64).1
      (aloneWith 4#64).2 0).map (·.next) = some (.goto 1) by decide +kernel)
  exact ⟨e, he, (closureOk_iff (heapPointer_aloneWith (by decide)) he rfl hgo).mpr
    (Or.inl (by decide))⟩

/-- A closure over 2^26 - 1 variables. -/
def wideClosure : Instruction := { opcode := .makeFun2, arg2 := 67108863#32 }

/-- A gigabyte of heap has room for it. -/
def wideHeap : Memory × Process := aloneWith 134217728#64

/-- **The arity 2^26 does not fit into a header**: the closure is a tuple of arity 0. -/
theorem wideClosure_not_ok : ∃ e,
    execInstr [] wideClosure wideHeap.1 wideHeap.2 0 = some e ∧ e.next = .goto 1 ∧
      ¬ ClosureOk wideClosure wideHeap.1 wideHeap.2 e := by
  have hsize : wideClosure.arg2.toNat + 2 < 2 ^ 32 := by decide
  have hp₀ : HeapPointer wideHeap.1 wideHeap.2 := heapPointer_aloneWith (by decide)
  have ha : beamProcessAllocHeap wideHeap.1 wideHeap.2 (closureWords wideClosure)
      = (wideHeap.1, { wideHeap.2 with heapTop := 67108865#64 }, some 4096) := rfl
  obtain ⟨m₂, hs⟩ := Memory.storeAt_defined 4096
    (closureStores wideClosure { wideHeap.2 with heapTop := 67108865#64 }) (m := wideHeap.1) (by
      intro x hx
      have hmem := List.mem_map_of_mem (f := Prod.fst) hx
      rw [closureStores_indices hsize, List.mem_range] at hmem
      have hwide : wideClosure.arg2.toNat = 67108863 := rfl
      have hlt : x.1 < (134217728#64).toNat := by
        rw [BitVec.toNat_ofNat]
        omega
      rw [wideHeap, aloneWith, Memory.cell_map_slot hlt]
      rfl)
  have he : execInstr [] wideClosure wideHeap.1 wideHeap.2 0 = some (.goto m₂
      (closureProc wideClosure { wideHeap.2 with heapTop := 67108865#64 } 4096) 1) := by
    show execMakeFun2 wideClosure wideHeap.1 wideHeap.2 0 = _
    rw [execMakeFun2_eq, ha]
    dsimp only
    rw [hs]
    rfl
  refine ⟨_, he, rfl, fun hok => ?_⟩
  have hclosure := ((hok _ _ _ ha).2 0 rfl).arity
  obtain ⟨_, harity, _⟩ := closure_reads_back hp₀ ha hs hsize
  have hzero : (wideClosure.arg2.toNat + 1) % 2 ^ 26 = 0 := by decide
  have hterm : (closureProc wideClosure { wideHeap.2 with heapTop := 67108865#64 } 4096).x 0
      = tagAddr 4096 tagPrimaryBoxed := Process.x_setX_self _ _ _
  have hwide : wideClosure.arg2.toNat + 1 = 67108864 := rfl
  dsimp only [Effect.goto] at hclosure
  rw [hterm, harity, hzero, hwide] at hclosure
  cases hclosure

end BeamModular
