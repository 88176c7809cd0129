import BeamModular.Lib.Run
import BeamModular.Scheduler.Process

/-!
# Terms and the growth of the heap

A compound term is an address with a tag.  When the heap block is full,
`beam_process_alloc_heap` lets `realloc` make it larger, and `realloc` may give a
block at another address: the words are copied, but every term built before still
holds the old address.

`ReadsBack m b` says that a term built earlier still shows, through the accessors
of `beam_core.h`, exactly the elements it was built with.  `KeepsTerms` is when a
construction leaves that alone: it needs no growth, or the growth is refused and the
block is still there, or the block grows where it is without wrapping around in 64
bits (anywhere, as long as no term exists yet).  `readsBack_of_run` carries it over
every sequence of constructions, and adds that a block that moves takes every
earlier term with it.
-/

namespace BeamModular

/-- The two constructions. -/
inductive Build
  | tuple (arity : Word) (elements : Option (List Eterm))
  | list (head tail : Eterm)

/-- What a term was built from. -/
inductive Shape
  | tuple (elements : List Eterm)
  | cell (head tail : Eterm)

/-- A term and what it was built from. -/
structure Built where
  term : Eterm
  shape : Shape

/-- A process with its memory and the terms built so far. -/
structure BuildState where
  mem : Memory
  proc : Process
  built : List Built

/-- The words a construction asks the heap for. -/
def Build.request : Build → Word
  | .tuple arity _ => arity + 1#64
  | .list _ _ => 2#64

/-- The number of elements a construction stores. -/
def Build.size : Build → Nat
  | .tuple arity _ => arity.toNat
  | .list _ _ => 2

/-- The elements a tuple is asked to have: the array's first ones, or zeros without an array. -/
def requestedElements (arity : Word) : Option (List Eterm) → List Eterm
  | some es => es.take arity.toNat
  | none => List.replicate arity.toNat 0#64

/-- The shape a construction asks for. -/
def Build.shape : Build → Shape
  | .tuple arity elements => .tuple (requestedElements arity elements)
  | .list head tail => .cell head tail

/-- Run the constructor of the source. -/
def Build.make (m : Memory) (p : Process) : Build → Option (Memory × Process × Eterm)
  | .tuple arity elements => beamMakeTuple m p arity elements
  | .list head tail => beamMakeList m p head tail

/-- One construction; the term `0` means that it failed. -/
def BuildState.step (s : BuildState) (op : Build) : Option BuildState :=
  (op.make s.mem s.proc).map fun r =>
    ⟨r.1, r.2.1, if r.2.2 = 0#64 then s.built else ⟨r.2.2, op.shape⟩ :: s.built⟩

/-- The accessors show exactly the elements the term was built with. -/
def ReadsBack (m : Memory) (b : Built) : Prop :=
  match b.shape with
  | .tuple es =>
    beamIsTuple m b.term = some true ∧
    (beamTupleArity m b.term).map BitVec.toNat = some es.length ∧
    ∀ i < es.length, beamTupleElement m b.term i = es[i]?
  | .cell head tail =>
    beamIsList b.term = true ∧ beamListHead m b.term = some head ∧
    beamListTail m b.term = some tail

instance (m : Memory) (b : Built) : Decidable (ReadsBack m b) :=
  match b with
  | ⟨t, .tuple es⟩ => inferInstanceAs (Decidable (beamIsTuple m t = some true ∧
      (beamTupleArity m t).map BitVec.toNat = some es.length ∧
      ∀ i < es.length, beamTupleElement m t i = es[i]?))
  | ⟨t, .cell head tail⟩ => inferInstanceAs (Decidable (beamIsList t = true ∧
      beamListHead m t = some head ∧ beamListTail m t = some tail))

/-- The construction cannot disturb an earlier term: its growth is refused and leaves the block; or
its size fits a header, and either it needs no growth or the block grows without wrapping around,
by C's `realloc` and in place unless there is no earlier term. -/
def KeepsTerms (s : BuildState) (op : Build) : Prop :=
  RefusedSafely s.mem s.proc op.request ∨
  (op.size < 2 ^ 58 ∧
    (s.proc.heapTop + op.request ≤ s.proc.heapCapacity ∨
      (s.proc.heapCapacity.toNat * 2 + op.request.toNat < 2 ^ 61 ∧
        (s.built = [] ∨ (s.proc.alloc 0).all fun pl => pl.copies && pl.addr == s.proc.heap))))

instance (s : BuildState) (op : Build) : Decidable (KeepsTerms s op) :=
  inferInstanceAs (Decidable (_ ∨ (_ ∧ (_ ∨ (_ ∧ (_ ∨ _))))))

/-! ### A term as words of the heap -/

/-- The words of an object. -/
def Shape.words : Shape → List Word
  | .tuple es => (BitVec.ofNat 64 es.length <<< 6 ||| subtagTuple) :: es
  | .cell head tail => [head, tail]

def Shape.tag : Shape → Word
  | .tuple _ => tagPrimaryBoxed
  | .cell _ _ => tagPrimaryList

/-- The shape's arity can be written into a header. -/
def Shape.Small : Shape → Prop
  | .tuple es => es.length < 2 ^ 58
  | .cell _ _ => True

/-- The term's words lie in the heap, below `top`. -/
def Stored (m : Memory) (base top : Nat) (b : Built) : Prop :=
  b.shape.Small ∧ ∃ k, b.term = tagAddr (base + 8 * k) b.shape.tag ∧
    k + b.shape.words.length ≤ top ∧
    ∀ i < b.shape.words.length, m.cell (base + 8 * (k + i)) = b.shape.words[i]?

theorem Stored.mono {m m' : Memory} {base top top' : Nat} {b : Built} (h : Stored m base top b)
    (htop : top ≤ top') (hsame : ∀ j < top, m'.cell (base + 8 * j) = m.cell (base + 8 * j)) :
    Stored m' base top' b := by
  obtain ⟨hs, k, ht, hk, hw⟩ := h
  refine ⟨hs, k, ht, by omega, fun i hi => ?_⟩
  rw [hsame (k + i) (by omega), hw i hi]

theorem header_arity {n : Nat} (h : n < 2 ^ 58) :
    (BitVec.ofNat 64 n <<< 6 ||| subtagTuple) &&& 63#64 = subtagTuple ∧
      ((BitVec.ofNat 64 n <<< 6 ||| subtagTuple) >>> 6).toNat = n := by
  have hz : BitVec.ofNat 64 n <<< 6 ||| subtagTuple = BitVec.ofNat 64 n <<< 6 := by
    simp [subtagTuple]
  have hn : (BitVec.ofNat 64 n <<< 6).toNat = n * 64 := by
    rw [BitVec.toNat_shiftLeft, BitVec.toNat_ofNat, Nat.shiftLeft_eq]
    omega
  rw [hz]
  refine ⟨BitVec.eq_of_toNat_eq ?_, ?_⟩
  · rw [toNat_and_sixtyThree, hn, Nat.mul_mod_left]
    rfl
  · rw [BitVec.toNat_ushiftRight, hn, Nat.shiftRight_eq_div_pow]
    omega

theorem Stored.readsBack {m : Memory} {base top : Nat} {b : Built} (h : Stored m base top b)
    (h0 : base ≠ 0) (ha : base % 8 = 0) (hl : base + 8 * top ≤ addressSpace) : ReadsBack m b := by
  obtain ⟨t, shape⟩ := b
  obtain ⟨hs, k, ht, hk, hw⟩ := h
  dsimp only at hs ht hk hw
  subst ht
  cases shape with
  | tuple es =>
    simp only [Shape.tag, Shape.words, List.length_cons] at hk hw ⊢
    have hin : base + 8 * k < addressSpace := by omega
    have haddr : addrOf (tagAddr (base + 8 * k) tagPrimaryBoxed) = base + 8 * k :=
      addrOf_tagAddr (by omega) hin (by decide)
    have htag : (tagAddr (base + 8 * k) tagPrimaryBoxed).toNat % 4 = 2 :=
      boxed_iff.mp (tagAddr_and_three (by omega) hin (by decide))
    have hheader := hw 0 (by omega)
    simp only [Nat.add_zero, List.getElem?_cons_zero] at hheader
    obtain ⟨hsub, harity⟩ := header_arity hs
    have htup : beamIsTuple m (tagAddr (base + 8 * k) tagPrimaryBoxed) = some true := by
      rw [beamIsTuple_of_boxed htag (by omega), haddr, hheader, Option.map_some, hsub]
      rfl
    refine ⟨htup, ?_, fun i hi => ?_⟩
    · rw [beamTupleArity, htup, haddr, hheader]
      simpa using harity
    · rw [beamTupleElement, htup, haddr]
      have := hw (i + 1) (by omega)
      rw [List.getElem?_cons_succ] at this
      simpa [← this] using congrArg m.cell (by omega)
  | cell head tail =>
    simp only [Shape.tag, Shape.words, List.length_cons, List.length_nil] at hk hw ⊢
    have hin : base + 8 * k < addressSpace := by omega
    have haddr : addrOf (tagAddr (base + 8 * k) tagPrimaryList) = base + 8 * k :=
      addrOf_tagAddr (by omega) hin (by decide)
    have hlist : beamIsList (tagAddr (base + 8 * k) tagPrimaryList) = true := by
      rw [beamIsList, tagAddr_and_three (by omega) hin (by decide)]
      rfl
    refine ⟨hlist, ?_, ?_⟩
    · rw [beamListHead, if_pos hlist, haddr]
      simpa using hw 0 (by omega)
    · rw [beamListTail, if_pos hlist, haddr]
      simpa [Nat.mul_add, Nat.add_assoc] using hw 1 (by omega)

/-! ### One construction -/

theorem HeapOk.capacity_lt {m : Memory} {p : Process} (h : HeapOk m p) :
    p.heapCapacity.toNat < 2 ^ 61 := by
  have h1 := h.nonnull
  have h2 := h.inside
  have h3 := h.aligned
  simp only [addressSpace] at h2
  omega

section GrowHeap

variable {m m' : Memory} {p : Process} {n : Word} {newHeap : Nat}

theorem HeapOk.grown_sizes (hok : HeapOk m p)
    (hwrap : p.heapCapacity.toNat * 2 + n.toNat < 2 ^ 61) :
    (p.heapCapacity * 2#64 + n).toNat = p.heapCapacity.toNat * 2 + n.toNat ∧
      (p.heapTop + n).toNat = p.heapTop.toNat + n.toNat ∧
      growBytes p n / 8 = p.heapCapacity.toNat * 2 + n.toNat := by
  have htop := hok.top
  have hcap : (p.heapCapacity * 2#64 + n).toNat = p.heapCapacity.toNat * 2 + n.toNat := by
    rw [BitVec.toNat_add, BitVec.toNat_mul, BitVec.toNat_ofNat]
    omega
  refine ⟨hcap, ?_, ?_⟩
  · rw [BitVec.toNat_add]
    omega
  · rw [growBytes, wordBytes_div (by omega), hcap]

/-- **A block that grows** without wrapping around is a heap again. -/
theorem growHeap_ok (hok : HeapOk m p) (hwrap : p.heapCapacity.toNat * 2 + n.toNat < 2 ^ 61)
    (hr : growReply m p n = some (newHeap, m')) :
    HeapOk m' { p.asked with
      heap := newHeap, heapCapacity := p.heapCapacity * 2#64 + n, heapTop := p.heapTop + n } ∧
    p.heapCapacity.toNat ≤ (p.heapCapacity * 2#64 + n).toNat := by
  have htop := hok.top
  obtain ⟨hcap, hsum, hwords⟩ := hok.grown_sizes hwrap
  rw [growReply] at hr
  obtain ⟨_, rest, _, _, _, _, _, hfree, _⟩ := Memory.resize_eq_some hr
  refine ⟨⟨hfree.1, hfree.2.1, ?_, ?_, ?_, ?_⟩, by omega⟩
  · have hend := hfree.2.2.1
    dsimp only
    omega
  · rw [Memory.resize_block hr, hwords, hcap]
  · intro i hi
    exact Memory.resize_isSome hr (by dsimp only at hi; omega)
  · show (p.heapTop + n).toNat ≤ (p.heapCapacity * 2#64 + n).toNat
    omega

theorem growHeap_keeps (hok : HeapOk m p) (hwrap : p.heapCapacity.toNat * 2 + n.toNat < 2 ^ 61)
    (hcopies : (p.alloc 0).Copying) (hr : growReply m p n = some (newHeap, m')) :
    ∀ j < p.heapCapacity.toNat, m'.cell (newHeap + 8 * j) = m.cell (p.heap + 8 * j) := by
  intro j hj
  obtain ⟨_, _, hwords⟩ := hok.grown_sizes hwrap
  have hold : m.wordsAt p.heap = p.heapCapacity.toNat := by
    rw [Memory.wordsAt, hok.block]
    rfl
  obtain ⟨v, hv⟩ := Option.isSome_iff_exists.mp (hok.readable j hj)
  rw [growReply] at hr
  rw [Memory.resize_kept hcopies hr (by omega) (by omega), hv]
  rfl

/-- A growth that does not wrap around asks for some bytes. -/
theorem HeapOk.refusedSafely (hok : HeapOk m p)
    (hwrap : p.heapCapacity.toNat * 2 + n.toNat < 2 ^ 61) (hr : Refused m p n) :
    RefusedSafely m p n := by
  refine ⟨hr, fun hzero => ?_⟩
  have htop := hok.top
  obtain ⟨_, hsum, hwords⟩ := hok.grown_sizes hwrap
  have hg := BitVec.lt_def.mp hr.1
  omega

end GrowHeap

/-- **A granted request**: the words are taken at `heap_top` of a heap whose used words are as
they were, and if the block is not where it was, the allocator said so. -/
theorem allocHeap_keeps {m : Memory} {p : Process} {n : Word} (hok : HeapOk m p)
    (hn : n.toNat ≤ 2 ^ 58) (hgrant : ¬ RefusedSafely m p n)
    (hk : p.heapTop + n ≤ p.heapCapacity ∨ p.heapCapacity.toNat * 2 + n.toNat < 2 ^ 61) :
    ∃ m₁ p₁, beamProcessAllocHeap m p n = (m₁, p₁, some (p₁.heap + 8 * p.heapTop.toNat)) ∧
      HeapOk m₁ p₁ ∧ p₁.heapTop.toNat = p.heapTop.toNat + n.toNat ∧
      (p₁.heap = p.heap ∨ p.heapTop + n > p.heapCapacity ∧
        ∃ pl, p.alloc 0 = some pl ∧ pl.addr = p₁.heap) ∧
      (p.heapTop + n ≤ p.heapCapacity ∨ (p.alloc 0).Copying →
        ∀ j < p.heapTop.toNat, m₁.cell (p₁.heap + 8 * j) = m.cell (p.heap + 8 * j)) := by
  have hcap := hok.capacity_lt
  have htop := hok.top
  have hsum : (p.heapTop + n).toNat = p.heapTop.toNat + n.toNat := by
    rw [BitVec.toNat_add]
    omega
  rcases beamProcessAllocHeap_cases m p n with ⟨hle, ha⟩ | ⟨hg, hr, _⟩ | ⟨hg, newHeap, m', hr, ha⟩
  · rw [BitVec.le_def, hsum] at hle
    refine ⟨m, { p with heapTop := p.heapTop + n }, ha, ?_, hsum, Or.inl rfl, fun _ _ _ => rfl⟩
    exact { hok with top := by rw [hsum]; exact hle }
  · have hwrap := hk.resolve_left (BitVec.not_le.mpr hg)
    exact absurd (hok.refusedSafely hwrap ⟨hg, hr⟩) hgrant
  · have hwrap := hk.resolve_left (BitVec.not_le.mpr hg)
    obtain ⟨pl, _, _, hpl, haddr, _⟩ := Memory.resize_eq_some hr
    refine ⟨m', _, ha, (growHeap_ok hok hwrap hr).1, hsum, Or.inr ⟨hg, pl, hpl, haddr⟩, ?_⟩
    intro hcopies j hj
    exact growHeap_keeps hok hwrap (hcopies.resolve_left (BitVec.not_le.mpr hg)) hr j (by omega)

theorem tupleWords_eq {arity : Word} {elements : Option (List Eterm)} {ws : List Eterm}
    (ha : arity.toNat < 2 ^ 58) (h : tupleWords arity elements = some ws) :
    ws = requestedElements arity elements ∧ ws.length = arity.toNat := by
  have hcount := wordBytes_div (w := arity) (by omega)
  unfold tupleWords at h
  rw [hcount] at h
  cases elements with
  | none =>
    cases h
    exact ⟨rfl, by simp⟩
  | some es =>
    dsimp only at h
    split at h
    · split at h
      · cases h
        exact ⟨rfl, by simpa using ‹_›⟩
      · cases h
    · rename_i hz
      have h0 : arity.toNat = 0 := by
        rw [gt_iff_lt, BitVec.lt_def] at hz
        simpa using hz
      cases h
      simp [requestedElements, h0]

/-- **A construction that is granted stores its words at `heap_top`.** -/
theorem make_granted {m m₁ m' : Memory} {p p₁ p' : Process} {op : Build} {t : Eterm} {hp : Nat}
    (hsize : op.size < 2 ^ 58) (ha : beamProcessAllocHeap m p op.request = (m₁, p₁, some hp))
    (h : op.make m p = some (m', p', t)) :
    p' = p₁ ∧ t = tagAddr hp op.shape.tag ∧ op.shape.Small ∧
      op.shape.words.length = op.request.toNat ∧ m₁.writeAll hp op.shape.words = some m' := by
  cases op with
  | tuple arity elements =>
    simp only [Build.make, Build.request, Build.size] at hsize ha h
    rw [beamMakeTuple, ha] at h
    simp only [Option.bind_eq_some_iff, Option.map_eq_some_iff, Prod.mk.injEq] at h
    obtain ⟨m₂, hw, ws, hws, m₃, hall, rfl, rfl, rfl⟩ := h
    obtain ⟨rfl, hlen⟩ := tupleWords_eq hsize hws
    have harity : BitVec.ofNat 64 (requestedElements arity elements).length = arity := by
      rw [hlen]; exact BitVec.ofNat_toNat 64 arity
    refine ⟨rfl, rfl, ?_, ?_, ?_⟩
    · exact lt_of_eq_of_lt hlen hsize
    · show (requestedElements arity elements).length + 1 = (arity + 1#64).toNat
      rw [hlen, BitVec.toNat_add, BitVec.toNat_ofNat]
      omega
    · rw [Build.shape, Shape.words, harity, Memory.writeAll, hw]
      exact hall
  | list head tail =>
    simp only [Build.make, Build.request] at ha h
    rw [beamMakeList, ha] at h
    simp only [Option.map_eq_some_iff, Prod.mk.injEq] at h
    obtain ⟨m₂, hw, rfl, rfl, rfl⟩ := h
    exact ⟨rfl, rfl, trivial, rfl, hw⟩

theorem make_refused {m m' : Memory} {p p' : Process} {op : Build} {t : Eterm}
    (hr : RefusedSafely m p op.request) (h : op.make m p = some (m', p', t)) :
    m' = m ∧ p' = p.asked ∧ t = 0#64 := by
  have ha := allocHeap_of_refusedSafely hr
  cases op with
  | tuple arity elements =>
    simp only [Build.make, Build.request] at ha h
    rw [beamMakeTuple, ha] at h
    cases h
    exact ⟨rfl, rfl, rfl⟩
  | list head tail =>
    simp only [Build.make, Build.request] at ha h
    rw [beamMakeList, ha] at h
    cases h
    exact ⟨rfl, rfl, rfl⟩

/-- The invariant of runs that keep their terms. -/
structure TermsKept (s : BuildState) : Prop where
  ok : HeapOk s.mem s.proc
  stored : ∀ b ∈ s.built, Stored s.mem s.proc.heap s.proc.heapTop.toNat b

theorem TermsKept.readsBack {s : BuildState} (h : TermsKept s) :
    ∀ b ∈ s.built, ReadsBack s.mem b := by
  intro b hb
  have hin := h.ok.inside
  have htop := h.ok.top
  exact (h.stored b hb).readsBack h.ok.nonnull h.ok.aligned (by omega)

theorem request_le {op : Build} (h : op.size < 2 ^ 58) : op.request.toNat ≤ 2 ^ 58 := by
  cases op with
  | tuple arity elements =>
    simp only [Build.size] at h
    rw [Build.request, BitVec.toNat_add, BitVec.toNat_ofNat]
    omega
  | list head tail => show (2#64).toNat ≤ 2 ^ 58; decide

theorem tagAddr_ne_zero {a : Nat} {s : Shape} (ha : a % 8 = 0) (hl : a < addressSpace) :
    tagAddr a s.tag ≠ 0#64 := by
  intro h
  have h3 : s.tag.toNat < 4 ∧ s.tag.toNat ≠ 0 := by
    cases s <;> simp [Shape.tag, tagPrimaryBoxed, tagPrimaryList]
  have := congrArg BitVec.toNat h
  rw [toNat_tagAddr (by omega) hl h3.1, BitVec.toNat_ofNat] at this
  omega

theorem HeapOk.writeAll {m m' : Memory} {p : Process} {a : Nat} {vs : List Word} (h : HeapOk m p)
    (hw : m.writeAll a vs = some m') : HeapOk m' p := by
  obtain ⟨hin, hout, hblock⟩ := Memory.writeAll_spec vs hw
  refine ⟨h.nonnull, h.aligned, h.inside, (congrFun hblock _).trans h.block, ?_, h.top⟩
  intro i hi
  by_cases hb : InBlock a vs.length (p.heap + 8 * i)
  · obtain ⟨j, hj, he⟩ := hb.exists_slot
    rw [he, hin j hj, List.getElem?_eq_getElem hj]
    rfl
  · rw [hout _ hb]
    exact h.readable i hi

theorem termsKept_step {s s' : BuildState} {op : Build} (h : TermsKept s) (hk : KeepsTerms s op)
    (hs : s.step op = some s') : TermsKept s' := by
  obtain ⟨⟨m', p', t⟩, hmake, rfl⟩ := Option.map_eq_some_iff.mp hs
  by_cases href : RefusedSafely s.mem s.proc op.request
  · obtain ⟨rfl, rfl, rfl⟩ := make_refused href hmake
    exact ⟨{ h.ok with }, h.stored⟩
  obtain ⟨hsize, hgrow⟩ := hk.resolve_left href
  obtain ⟨m₁, p₁, ha, hok, htop, haddr, hsame⟩ := allocHeap_keeps h.ok (request_le hsize) href
    (hgrow.imp_right And.left)
  obtain ⟨rfl, rfl, hsmall, hlen, hw⟩ := make_granted hsize ha hmake
  obtain ⟨hin, hout, -⟩ := Memory.writeAll_spec _ hw
  have hle := hok.top
  have hinside := hok.inside
  have hnz : tagAddr (p'.heap + 8 * s.proc.heapTop.toNat) op.shape.tag ≠ 0#64 := by
    refine tagAddr_ne_zero ?_ ?_
    · have := hok.aligned
      omega
    · have hpos : 0 < op.shape.words.length := by cases op <;> simp [Build.shape, Shape.words]
      omega
  refine ⟨hok.writeAll hw, fun b hb => ?_⟩
  simp only [hnz, if_false, List.mem_cons] at hb
  rcases hb with rfl | hb
  · refine ⟨hsmall, s.proc.heapTop.toNat, rfl, by simp only [htop, hlen]; exact le_refl _, ?_⟩
    intro i hi
    rw [Nat.mul_add, ← Nat.add_assoc]
    exact hin i hi
  · -- there is an earlier term, so a growth is in place and copies
    have hplace : s.proc.heapTop + op.request ≤ s.proc.heapCapacity ∨
        (s.proc.alloc 0).all (fun pl => pl.copies && pl.addr == s.proc.heap) := by
      refine hgrow.imp_right fun hq => hq.2.resolve_left fun hempty => ?_
      rw [hempty] at hb
      exact absurd hb List.not_mem_nil
    have hheap : p'.heap = s.proc.heap := by
      rcases haddr with he | ⟨hg, pl, hpl, he⟩
      · exact he
      have hpl' := hplace.resolve_left (BitVec.not_le.mpr hg)
      rw [hpl, Option.all_some, Bool.and_eq_true, beq_iff_eq] at hpl'
      exact he.symm.trans hpl'.2
    have hcopies : s.proc.heapTop + op.request ≤ s.proc.heapCapacity ∨
        (s.proc.alloc 0).Copying := by
      refine hplace.imp_right fun hall => ?_
      cases hr : s.proc.alloc 0 with
      | none => rfl
      | some pl =>
        rw [hr, Option.all_some, Bool.and_eq_true] at hall
        exact hall.1
    -- the words below the new object are those of the old heap
    have hbelow : ∀ j < s.proc.heapTop.toNat,
        m'.cell (p'.heap + 8 * j) = s.mem.cell (s.proc.heap + 8 * j) := by
      intro j hj
      rw [hout _ (by unfold InBlock; omega), hsame hcopies j hj]
    rw [hheap] at hbelow ⊢
    exact (h.stored b hb).mono (by simp only [htop]; omega) hbelow

/-! ### A block that moves -/

/-- No construction makes a word readable that its allocation left unreadable. -/
theorem make_none {m m₁ m' : Memory} {p p₁ p' : Process} {op : Build} {t : Eterm} {hp a : Nat}
    (ha : beamProcessAllocHeap m p op.request = (m₁, p₁, some hp))
    (h : op.make m p = some (m', p', t)) (hnone : m₁.cell a = none) : m'.cell a = none := by
  cases op with
  | tuple arity elements =>
    simp only [Build.make, Build.request] at ha h
    rw [beamMakeTuple, ha] at h
    simp only [Option.bind_eq_some_iff, Option.map_eq_some_iff, Prod.mk.injEq] at h
    obtain ⟨m₂, hw, ws, _, m₃, hall, rfl, _⟩ := h
    exact Memory.writeAll_none (_ :: ws)
      (show m₁.writeAll hp (_ :: ws) = some m₃ by rw [Memory.writeAll, hw]; exact hall) hnone
  | list head tail =>
    simp only [Build.make, Build.request] at ha h
    rw [beamMakeList, ha] at h
    simp only [Option.map_eq_some_iff, Prod.mk.injEq] at h
    obtain ⟨m₂, hw, rfl, _⟩ := h
    exact Memory.writeAll_none _ hw hnone

theorem Stored.not_readsBack {m m' : Memory} {base top : Nat} {b : Built}
    (h : Stored m base top b) (ha : base % 8 = 0) (hl : base + 8 * top ≤ addressSpace)
    (hlost : ∀ k < top, m'.cell (base + 8 * k) = none) : ¬ ReadsBack m' b := by
  obtain ⟨t, shape⟩ := b
  obtain ⟨_, k, ht, hk, _⟩ := h
  dsimp only at ht hk
  subst ht
  cases shape with
  | tuple es =>
    simp only [Shape.words, List.length_cons] at hk
    have haddr : addrOf (tagAddr (base + 8 * k) tagPrimaryBoxed) = base + 8 * k :=
      addrOf_tagAddr (by omega) (by omega) (by decide)
    rintro ⟨htup, _⟩
    obtain ⟨_, _, header, hc, _⟩ := beamIsTuple_eq_true htup
    rw [Shape.tag, haddr, hlost k (by omega)] at hc
    cases hc
  | cell head tail =>
    simp only [Shape.words, List.length_cons, List.length_nil] at hk
    have haddr : addrOf (tagAddr (base + 8 * k) tagPrimaryList) = base + 8 * k :=
      addrOf_tagAddr (by omega) (by omega) (by decide)
    rintro ⟨hlist, hhead, _⟩
    rw [beamListHead, if_pos hlist, Shape.tag, haddr, hlost k (by omega)] at hhead
    cases hhead

/-- **A block that moves takes every earlier term with it.** -/
theorem not_readsBack_of_moved {s s' : BuildState} {op : Build} {a : Nat} {m₁ : Memory}
    (h : TermsKept s) (hg : s.proc.heapTop + op.request > s.proc.heapCapacity)
    (hc : (s.proc.alloc 0).Copying) (hr : growReply s.mem s.proc op.request = some (a, m₁))
    (hmove : a ≠ s.proc.heap) (hs : s.step op = some s') : ∀ b ∈ s.built, ¬ ReadsBack s'.mem b := by
  obtain ⟨⟨m', p', t⟩, hmake, rfl⟩ := Option.map_eq_some_iff.mp hs
  intro b hb
  have hin := h.ok.inside
  have htop := h.ok.top
  have hwords : s.mem.wordsAt s.proc.heap = s.proc.heapCapacity.toNat := by
    rw [Memory.wordsAt, h.ok.block]
    rfl
  refine (h.stored b hb).not_readsBack h.ok.aligned (by omega) fun k hk => ?_
  rcases beamProcessAllocHeap_cases s.mem s.proc op.request with
    ⟨hle, _⟩ | ⟨_, hn, _⟩ | ⟨_, a', m₁', hr', ha⟩
  · exact absurd hle (BitVec.not_le.mpr hg)
  · rw [hr] at hn; cases hn
  · rw [hr] at hr'
    cases hr'
    rw [growReply] at hr
    exact make_none ha hmake
      (Memory.resize_moved hc hr hmove (by omega) (h.ok.readable k (by omega)))

/-! ### Every sequence of constructions -/

/-- **Terms and growth.**  In a run whose constructions all keep the earlier terms, every term
built so far reads back in every state; and after such a run, one growth that moves the block as
C's `realloc` does leaves no earlier term readable. -/
theorem readsBack_of_run {m : Memory} {p : Process} (hok : HeapOk m p) (ops : List Build)
    (hkeep : Along BuildState.step KeepsTerms ⟨m, p, []⟩ ops) :
    (∀ pre s, pre <+: ops → run BuildState.step ⟨m, p, []⟩ pre = some s →
      ∀ b ∈ s.built, ReadsBack s.mem b) ∧
    (∀ s op a m₁ s', run BuildState.step ⟨m, p, []⟩ ops = some s →
      s.proc.heapTop + op.request > s.proc.heapCapacity → (s.proc.alloc 0).Copying →
      growReply s.mem s.proc op.request = some (a, m₁) → a ≠ s.proc.heap →
      s.step op = some s' → ∀ b ∈ s.built, ¬ ReadsBack s'.mem b) := by
  have hinit : TermsKept ⟨m, p, []⟩ := ⟨hok, fun b hb => absurd hb (by simp)⟩
  have hrun : ∀ {as s}, Along BuildState.step KeepsTerms ⟨m, p, []⟩ as →
      run BuildState.step ⟨m, p, []⟩ as = some s → TermsKept s := fun hk hr =>
    run_induct TermsKept (fun _ _ _ hi hok hs => termsKept_step hi hok hs) hinit hk hr
  refine ⟨?_, ?_⟩
  · rintro pre s ⟨rest, rfl⟩ hr
    exact (hrun hkeep.of_append hr).readsBack
  · intro s op a m₁ s' hr hg hc hgrow hmove hs
    exact not_readsBack_of_moved (hrun hkeep hr) hg hc hgrow hmove hs

/-- A heap of four words, and an allocator that then offers the block at `addr`. -/
def growingInto (addr : Nat) : Option (Memory × Process) :=
  beamProcessCreate Memory.empty 1#32 4#64
    (fun n => if n < 3 then offering 4096 n else offering addr n) fun _ => true

/-- Three list cells in a block of four words: the third one needs the block to grow. -/
def threeCells : List Build :=
  [.list (makeSmallInt 1#64) etermNil, .list (makeSmallInt 2#64) etermNil,
    .list (makeSmallInt 3#64) etermNil]

/-- Growing in place keeps all three. -/
theorem readsBack_of_run_threeCells : ∃ r s, growingInto 4096 = some r ∧
    run BuildState.step ⟨r.1, r.2, []⟩ threeCells = some s ∧ s.built.length = 3 ∧
      ∀ b ∈ s.built, ReadsBack s.mem b := by
  obtain ⟨r, hr⟩ : ∃ r, growingInto 4096 = some r := ⟨_, rfl⟩
  obtain ⟨s, hs, hlen⟩ := Option.map_eq_some_iff.mp
    (show (run BuildState.step ⟨r.1, r.2, []⟩ threeCells).map (fun s => s.built.length) = some 3 by
      cases hr; decide +kernel)
  exact ⟨r, s, hr, hs, hlen, (readsBack_of_run (heapOk_create hr (by decide)) threeCells
    (by cases hr; decide +kernel)).1 _ s (List.prefix_refl _) hs⟩

/-- **Growing into another block loses the terms already built.** -/
theorem moved_terms_lost : ∃ r s, growingInto 8192 = some r ∧ HeapOk r.1 r.2 ∧
    run BuildState.step ⟨r.1, r.2, []⟩ threeCells = some s ∧
      ∃ b ∈ s.built, ¬ ReadsBack s.mem b := by
  obtain ⟨r, hr⟩ : ∃ r, growingInto 8192 = some r := ⟨_, rfl⟩
  obtain ⟨s, hs, hlost⟩ := Option.map_eq_some_iff.mp
    (show (run BuildState.step ⟨r.1, r.2, []⟩ threeCells).map
      (fun s => s.built.all fun b => decide (ReadsBack s.mem b)) = some false by
        cases hr; decide +kernel)
  obtain ⟨b, hb, hnot⟩ := List.all_eq_false.mp hlost
  exact ⟨r, s, hr, heapOk_create hr (by decide), hs, b, hb, by simpa using hnot⟩

end BeamModular
