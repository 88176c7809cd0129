import BeamModular.Memory.Copy
import BeamModular.Scheduler.Process

/-!
# The collector

`src/memory/beam_gc.c`: the live terms of a process are copied depth first into a
block of the same capacity, the old block is released, and the process goes on in
the new one.  The roots are the X registers and the live slots of the stack.

`Roots` gives every root its tree.  `copyRegisters_spec` and `copySlots_spec` are the two
loops and `loops_spec` both of them; `collect_spec` is the whole call.  `Collected` says what
it leaves, whatever becomes of the copies.

The header is the point.  The constructor and the accessors keep the arity above
six tag bits; the collector writes the arity as a small integer, and no accessor
takes that for a tuple.  So a root keeps its meaning exactly when it holds no tuple
(`preserved_iff_tupleFree`).
-/

namespace BeamModular

/-! ### The source -/

/-- What the root loops carry: the memory, the new top and the registers. -/
structure Scan where
  mem : Memory
  top : Word
  xRegs : Fin numXRegisters → Eterm

/-- One turn of the register loop; a register that holds 0 is skipped. -/
def gcCopyRegister (toSpace : Nat) (toCap : Word) (s : Scan) (i : Fin numXRegisters) :
    Option Scan :=
  if s.xRegs i ≠ 0#64 then
    (gcCopyTerm toSpace toCap (toCap.toNat + 1) s.mem s.top (s.xRegs i)).map fun (m, top, t) =>
      ⟨m, top, Function.update s.xRegs i t⟩
  else some s

/-- One turn of the stack loop: the slot is read in the old block and written at the same
distance from the end of the new one. -/
def gcCopySlot (heap toSpace : Nat) (toCap : Word) (s : Memory × Word) (slot : Nat) :
    Option (Memory × Word) :=
  (s.1.cell (heap + 8 * slot)).bind fun term =>
    (gcCopyTerm toSpace toCap (toCap.toNat + 1) s.1 s.2 term).bind fun (m, top, t) =>
      (m.write (toSpace + 8 * (toCap - (toCap - BitVec.ofNat 64 slot)).toNat) t).map fun m =>
        (m, top)

/-- `beam_gc_collect_process`. -/
def beamGcCollectProcess (m : Memory) (proc : Process) : Option (Memory × Process × Result) :=
  if proc.heap = 0 then some (m, proc, .errInvalidArg)
  else
    let cap := proc.heapCapacity
    let asked := { proc with alloc := fun n => proc.alloc (n + 1) }
    match m.malloc (proc.alloc 0) (wordBytes cap) with
    | none => some (m, asked, .errNoMemory)
    | some (toSpace, m) =>
      ((List.finRange numXRegisters).foldlM (gcCopyRegister toSpace cap)
        ⟨m, 0#64, proc.frame.xRegs⟩).bind fun s =>
        let newStackTop := cap - (cap - proc.stackTop)
        ((List.range' proc.stackTop.toNat (cap.toNat - proc.stackTop.toNat)).foldlM
          (gcCopySlot proc.heap toSpace cap) (s.mem, s.top)).map fun (m, top) =>
          (m.free proc.heap,
            { asked with
              heap := toSpace
              heapCapacity := cap
              heapTop := top
              stackTop := newStackTop
              frame := { proc.frame with xRegs := s.xRegs } }, .ok)

/-! ### What a copy shows -/

/-- **The accessors and the copies.**  A copy of a tree of immediates shows the tree exactly when
the tree has no tuple: the header of a copied tuple is a small integer. -/
theorem Laid.denotes_iff {m : Memory} {toSpace lo hi : Nat} (hal : toSpace % 8 = 0)
    (hl : toSpace + 8 * hi ≤ addressSpace) {t : Term} : ∀ {w : Eterm}, t.All IsImmediate →
      Laid m toSpace lo hi w t → (Denotes m w t ↔ t.TupleFree) := by
  induction t with
  | imm v =>
    rintro w himm rfl
    exact ⟨fun _ => trivial, fun _ => ⟨rfl, himm⟩⟩
  | cons head tail ihHead ihTail =>
    rintro w ⟨hallh, hallt⟩ ⟨i, h1, h2, rfl, ⟨a, ha, hca⟩, b, hb, hcb⟩
    have haddr : addrOf (tagAddr (toSpace + 8 * i) tagPrimaryList) = toSpace + 8 * i :=
      addrOf_tagAddr (by omega) (by omega) (by decide)
    have hlist := list_tagAddr (a := toSpace + 8 * i) (by omega) (by omega)
    have hhead : beamListHead m (tagAddr (toSpace + 8 * i) tagPrimaryList) = some a := by
      rw [beamListHead, if_pos hlist, haddr, ha]
    have htail : beamListTail m (tagAddr (toSpace + 8 * i) tagPrimaryList) = some b := by
      rw [beamListTail, if_pos hlist, haddr,
        show toSpace + 8 * i + 8 = toSpace + 8 * (i + 1) by omega, hb]
    constructor
    · rintro ⟨_, ⟨a', ha', hda⟩, b', hb', hdb⟩
      rw [hhead] at ha'
      rw [htail] at hb'
      cases ha'
      cases hb'
      exact ⟨(ihHead hallh hca).mp hda, (ihTail hallt hcb).mp hdb⟩
    · rintro ⟨hfh, hft⟩
      exact ⟨hlist, ⟨a, hhead, (ihHead hallh hca).mpr hfh⟩, b, htail,
        (ihTail hallt hcb).mpr hft⟩
  | tuple arity element ih =>
    rintro w - ⟨i, h1, h2, rfl, ⟨n, -, -, hn⟩, _⟩
    have haddr : addrOf (tagAddr (toSpace + 8 * i) tagPrimaryBoxed) = toSpace + 8 * i :=
      addrOf_tagAddr (by omega) (by omega) (by decide)
    refine ⟨fun h => ?_, False.elim⟩
    obtain ⟨_, _, header, hc, hh⟩ := beamIsTuple_eq_true h.1
    rw [haddr, hn] at hc
    cases hc
    exact makeSmallInt_and_sixtyThree n hh

/-! ### The roots -/

/-- What the roots of a process mean: a tree for every register and every stack slot. -/
structure Roots where
  x : Fin numXRegisters → Term
  slot : Nat → Term

namespace Roots

/-- The process's registers and live stack slots show these trees. -/
def Held (r : Roots) (m : Memory) (p : Process) : Prop :=
  (∀ i, Denotes m (p.frame.xRegs i) (r.x i)) ∧
    ∀ s, p.stackTop.toNat ≤ s → s < p.heapCapacity.toNat →
      ∃ w, m.cell (p.heap + 8 * s) = some w ∧ Denotes m w (r.slot s)

/-- The trees the collector follows from the registers and the live stack slots. -/
def Shown (r : Roots) (m : Memory) (p : Process) : Prop :=
  (∀ i, Shows m (p.frame.xRegs i) (r.x i)) ∧
    ∀ s, p.stackTop.toNat ≤ s → s < p.heapCapacity.toNat →
      ∃ w, m.cell (p.heap + 8 * s) = some w ∧ Shows m w (r.slot s)

/-- Every leaf of the roots has the property. -/
def All (r : Roots) (p : Process) (P : Eterm → Prop) : Prop :=
  (∀ i, (r.x i).All P) ∧
    ∀ s, p.stackTop.toNat ≤ s → s < p.heapCapacity.toNat → (r.slot s).All P

/-- No root of the process holds a tuple. -/
def TupleFree (r : Roots) (p : Process) : Prop :=
  (∀ i, (r.x i).TupleFree) ∧
    ∀ s, p.stackTop.toNat ≤ s → s < p.heapCapacity.toNat → (r.slot s).TupleFree

/-- The words the copies of these registers take. -/
def xWords (r : Roots) (is : List (Fin numXRegisters)) : Nat :=
  (is.map fun i => (r.x i).words).sum

/-- The words the copies of `n` slots from `s` on take, the slots themselves not counted. -/
def slotWords (r : Roots) (s n : Nat) : Nat := ((List.range' s n).map fun s => (r.slot s).words).sum

/-- All copies, the slots of the stack among them, fit in the capacity. -/
def Fit (r : Roots) (p : Process) : Prop :=
  let slots := p.heapCapacity.toNat - p.stackTop.toNat
  r.xWords (List.finRange numXRegisters) + r.slotWords p.stackTop.toNat slots + slots ≤
    p.heapCapacity.toNat

/-- The trees of the registers, and of the live slots. -/
def xTrees (r : Roots) : List Term := (List.finRange numXRegisters).map r.x

def slotTrees (r : Roots) (p : Process) : List Term :=
  (List.range' p.stackTop.toNat (p.heapCapacity.toNat - p.stackTop.toNat)).map r.slot

/-- The trees of the registers and of the live slots, in the order of the collector. -/
def trees (r : Roots) (p : Process) : List Term := r.xTrees ++ r.slotTrees p

/-- The words of all trees; a shared cell counts once for every path that leads to it. -/
def treeWords (r : Roots) (p : Process) : Nat := wordsOf (r.trees p)

/-- The words the copies take in a block of the process's capacity. -/
def packed (r : Roots) (p : Process) : Nat := packAll p.heapCapacity.toNat (r.trees p) 0

/-- What is copied of the roots, in the order of the collector: where a cell finds no room, the word
that leads to it is a leaf. -/
def fitted (r : Roots) (m : Memory) (p : Process) : Roots where
  x i := (r.x i).fitted m p.heapCapacity.toNat (p.frame.xRegs i)
    (packAll p.heapCapacity.toNat (r.xTrees.take i) 0)
  slot s := (r.slot s).fitted m p.heapCapacity.toNat ((m.cell (p.heap + 8 * s)).getD 0#64)
    (packAll p.heapCapacity.toNat ((r.slotTrees p).take (s - p.stackTop.toNat))
      (packAll p.heapCapacity.toNat r.xTrees 0))

section

variable {r : Roots} {m : Memory} {p : Process}

theorem Held.shown (h : r.Held m p) : r.Shown m p ∧ r.All p IsImmediate := by
  refine ⟨⟨fun i => (h.1 i).shows.1, fun s h1 h2 => ?_⟩, fun i => (h.1 i).shows.2,
    fun s h1 h2 => ?_⟩
  · obtain ⟨w, hw, hd⟩ := h.2 s h1 h2
    exact ⟨w, hw, hd.shows.1⟩
  · obtain ⟨w, hw, hd⟩ := h.2 s h1 h2
    exact hd.shows.2

theorem length_xTrees (r : Roots) : r.xTrees.length = numXRegisters := by
  rw [xTrees, List.length_map, List.length_finRange]

theorem length_slotTrees (r : Roots) (p : Process) :
    (r.slotTrees p).length = p.heapCapacity.toNat - p.stackTop.toNat := by
  rw [slotTrees, List.length_map, List.length_range']

theorem getElem_slotTrees {k : Nat} (hk : k < (r.slotTrees p).length) :
    (r.slotTrees p)[k] = r.slot (p.stackTop.toNat + k) := by
  simp only [slotTrees, List.getElem_map, List.getElem_range', Nat.one_mul]

theorem treeWords_eq (r : Roots) (p : Process) :
    r.treeWords p = r.xWords (List.finRange numXRegisters) +
      r.slotWords p.stackTop.toNat (p.heapCapacity.toNat - p.stackTop.toNat) := by
  rw [treeWords, trees, wordsOf_append, wordsOf, wordsOf, xTrees, slotTrees, List.map_map,
    List.map_map]
  rfl

theorem packed_eq (r : Roots) (p : Process) : r.packed p =
    packAll p.heapCapacity.toNat (r.slotTrees p) (packAll p.heapCapacity.toNat r.xTrees 0) :=
  packAll_append _ _ _

theorem packed_eq_treeWords (h : r.treeWords p ≤ p.heapCapacity.toNat) :
    r.packed p = r.treeWords p := by
  unfold treeWords at h
  rw [packed, treeWords, packAll_of_fits (r.trees p) (fun t _ => packed_of_fits t) 0 (by omega)]
  exact Nat.zero_add _

theorem Fit.below (h : r.Fit p) : r.treeWords p ≤ p.heapCapacity.toNat ∧
    r.packed p ≤ p.stackTop.toNat := by
  have hwords := r.treeWords_eq p
  rw [Fit] at h
  have hle : r.treeWords p ≤ p.heapCapacity.toNat := by omega
  rw [packed_eq_treeWords hle]
  omega

/-- **Where the copies fit, nothing is left out.** -/
theorem fitted_eq (h : r.treeWords p ≤ p.heapCapacity.toNat) :
    (∀ i, (r.fitted m p).x i = r.x i) ∧
      ∀ s, p.stackTop.toNat ≤ s → s < p.heapCapacity.toNat → (r.fitted m p).slot s = r.slot s := by
  rw [treeWords, trees, wordsOf_append] at h
  have hx : packAll p.heapCapacity.toNat r.xTrees 0 = wordsOf r.xTrees := by
    rw [packAll_of_fits r.xTrees (fun t _ => packed_of_fits t) 0 (by omega)]
    exact Nat.zero_add _
  refine ⟨fun i => fitted_of_fits _ _ _ ?_, fun s h1 h2 => fitted_of_fits _ _ _ ?_⟩
  · have hi : (i : Nat) < r.xTrees.length := by
      rw [length_xTrees]
      exact i.isLt
    have hroom := packAll_take_of_fits p.heapCapacity.toNat 0 hi (by omega)
    rwa [show r.xTrees[(i : Nat)] = r.x i from getElem_map_finRange hi] at hroom
  · have hs : s - p.stackTop.toNat < (r.slotTrees p).length := by
      rw [length_slotTrees]
      omega
    have hroom := packAll_take_of_fits p.heapCapacity.toNat (wordsOf r.xTrees) hs (by omega)
    rwa [getElem_slotTrees hs, Nat.add_sub_cancel' h1, ← hx] at hroom

end

end Roots

theorem eq_imm_of_zero {m : Memory} {t : Term} (h : Shows m 0#64 t) : t = .imm 0#64 := by
  cases t with
  | imm v => rw [h.1]
  | cons _ _ => exact absurd h.1 (by decide)
  | tuple _ _ =>
    have h0 : beamIsTuple m 0#64 = some false := beamIsTuple_of_not_boxed (by decide)
    exact absurd h.1 (by rw [h0]; simp)

section Collect

variable {m₀ m m' : Memory} {toSpace : Nat} {toCap : Word} {r : Roots}

/-- One register is skipped or copied; either way it then holds what a copy leaves.  The fuel the
collector starts with is enough for every copy. -/
theorem gcCopyRegister_spec {s : Scan} {i : Fin numXRegisters}
    (hts : ToSpace m₀ s.mem toSpace toCap) (htop : s.top.toNat ≤ toCap.toNat)
    (hd : Shows m₀ (s.xRegs i) (r.x i)) :
    ∃ s', gcCopyRegister toSpace toCap s i = some s' ∧
      CopyResult m₀ toSpace toCap (r.x i) (s.xRegs i) s.mem s.top s'.mem s'.top (s'.xRegs i) ∧
      ∀ j ≠ i, s'.xRegs j = s.xRegs j := by
  by_cases h0 : s.xRegs i = 0#64
  · rw [h0] at hd
    have himm := eq_imm_of_zero hd
    refine ⟨s, by rw [gcCopyRegister, if_neg (not_not.mpr h0)], ?_, fun _ _ => rfl⟩
    rw [himm, h0]
    exact .kept htop rfl rfl
  · obtain ⟨m₁, top₁, w₁, hc, hr⟩ := gcCopyTerm_spec (r.x i) (toCap.toNat + 1) s.mem s.top
      (s.xRegs i) (by omega) htop hd hts
    refine ⟨⟨m₁, top₁, Function.update s.xRegs i w₁⟩, ?_, ?_, fun j hj => ?_⟩
    · rw [gcCopyRegister, if_pos h0, hc]
      rfl
    · dsimp only
      rwa [Function.update_self]
    · exact Function.update_of_ne hj _ _

/-- What is copied of a register's tree. -/
def Roots.xFitted (r : Roots) (m : Memory) (cap : Nat) (xRegs : Fin numXRegisters → Eterm)
    (top : Nat) (i : Fin numXRegisters) : Term :=
  (r.x i).fitted m cap (xRegs i) (packAll cap (r.xTrees.take i) top)

/-- What the register loop leaves over the first `k` registers. -/
structure RegistersResult (m₀ : Memory) (toSpace : Nat) (toCap : Word) (r : Roots) (k : Nat)
    (s s' : Scan) : Prop where
  grows : s.top.toNat ≤ s'.top.toNat
  inside : s'.top.toNat ≤ toCap.toNat
  packed : s'.top.toNat = packAll toCap.toNat (r.xTrees.take k) s.top.toNat
  changed : s.mem.ChangedIn toSpace s.top.toNat s'.top.toNat s'.mem
  rest : ∀ i : Fin numXRegisters, k ≤ i → s'.xRegs i = s.xRegs i
  laid : ∀ i : Fin numXRegisters, i < k → Laid s'.mem toSpace s.top.toNat s'.top.toNat (s'.xRegs i)
    (r.xFitted m₀ toCap.toNat s.xRegs s.top.toNat i)
  inked : ∀ P, (∀ i : Fin numXRegisters, i < k →
      (r.xFitted m₀ toCap.toNat s.xRegs s.top.toNat i).All P) →
    ∀ i, s.top.toNat ≤ i → i < s'.top.toNat → Inked s'.mem toSpace toCap.toNat P i

theorem copyRegisters_spec {s : Scan} (hts : ToSpace m₀ s.mem toSpace toCap)
    (hd : ∀ i, Shows m₀ (s.xRegs i) (r.x i)) (htop : s.top.toNat ≤ toCap.toNat) :
    ∀ k ≤ numXRegisters, ∃ s', ((List.finRange numXRegisters).take k).foldlM
        (gcCopyRegister toSpace toCap) s = some s' ∧
      RegistersResult m₀ toSpace toCap r k s s' := by
  intro k
  induction k with
  | zero =>
    exact fun _ => ⟨s, by rw [List.take_zero]; rfl, le_refl _, htop, rfl, .refl _ _ _ _, fun _ _ => rfl,
      fun _ hi => absurd hi (Nat.not_lt_zero _), fun _ _ i h1 h2 => absurd h1 (by omega)⟩
  | succ k ih =>
    intro hk
    obtain ⟨s₁, hs₁, hg₁, hin₁, hp₁, hch₁, hrest₁, hl₁, hi₁⟩ := ih (by omega)
    have hlen : k < r.xTrees.length := by rwa [r.length_xTrees]
    have hkeep : s₁.xRegs ⟨k, hk⟩ = s.xRegs ⟨k, hk⟩ := hrest₁ _ (le_refl k)
    obtain ⟨s₂, hs₂, ⟨hg₂, hin₂, hp₂, hch₂, hl₂, hi₂⟩, hrest₂⟩ := gcCopyRegister_spec (i := ⟨k, hk⟩)
      (hts.changedIn hch₁ hin₁) hin₁ (by rw [hkeep]; exact hd _)
    have hfitted : (r.x ⟨k, hk⟩).fitted m₀ toCap.toNat (s₁.xRegs ⟨k, hk⟩) s₁.top.toNat =
        r.xFitted m₀ toCap.toNat s.xRegs s.top.toNat ⟨k, hk⟩ := by
      rw [Roots.xFitted, hkeep, hp₁]
    rw [hfitted] at hl₂ hi₂
    refine ⟨s₂, ?_, by omega, hin₂, ?_, ?_, fun i hi => ?_, fun i hi => ?_,
      fun P hall i h1 h2 => ?_⟩
    · rw [take_finRange_succ hk, List.foldlM_append, hs₁]
      exact congrArg (Option.bind · some) hs₂
    · rw [hp₂, hp₁, packAll_take_succ hlen]
      congr 1
      exact (getElem_map_finRange hlen).symm
    · exact (hch₁.mono (by omega) (by omega)).trans (hch₂.mono (by omega) (by omega))
    · rw [hrest₂ i fun he => by
        rw [he] at hi
        exact Nat.not_succ_le_self k hi, hrest₁ i (by omega)]
    · by_cases hlast : i = ⟨k, hk⟩
      · subst hlast
        exact hl₂.widen (by omega) (le_refl _)
      · rw [hrest₂ i hlast]
        have hlt : (i : Nat) < k := by
          have : (i : Nat) ≠ k := fun h => hlast (Fin.ext h)
          omega
        exact ((hl₁ i hlt).changedIn hch₂ (by omega)).widen (by omega) (by omega)
    · by_cases hcopy : s₁.top.toNat ≤ i
      · exact hi₂ P (hall ⟨k, hk⟩ (Nat.lt_succ_self k)) i hcopy h2
      · exact (hi₁ P (fun j hj => hall j (by omega)) i h1 (by omega)).changedIn hch₂ (by omega)

/-- The stack loop, whose copies may reach into the slots. -/
theorem copySlots_spec {p : Process} {top : Word} (hts : ToSpace m₀ m toSpace p.heapCapacity)
    (hd : ∀ s, p.stackTop.toNat ≤ s → s < p.heapCapacity.toNat →
      ∃ w, m₀.cell (p.heap + 8 * s) = some w ∧ Shows m₀ w (r.slot s))
    (htop : top.toNat ≤ p.heapCapacity.toNat) :
    ∃ m' top', (List.range' p.stackTop.toNat (p.heapCapacity.toNat - p.stackTop.toNat)).foldlM
        (gcCopySlot p.heap toSpace p.heapCapacity) (m, top) = some (m', top') ∧
      StoresResult m₀ toSpace p.heapCapacity (r.slotTrees p)
        (fun k => (m₀.cell (p.heap + 8 * (p.stackTop.toNat + k))).getD 0#64) p.stackTop.toNat
        (p.heapCapacity.toNat - p.stackTop.toNat) m top m' top' := by
  have hsmall := hts.small
  have hlen := r.length_slotTrees p
  have hword : ∀ k < p.heapCapacity.toNat - p.stackTop.toNat,
      ∃ w, m₀.cell (p.heap + 8 * (p.stackTop.toNat + k)) = some w ∧
        (m₀.cell (p.heap + 8 * (p.stackTop.toNat + k))).getD 0#64 = w ∧
        Shows m₀ w (r.slot (p.stackTop.toNat + k)) := fun k hk => by
    obtain ⟨w, hw, hdw⟩ := hd (p.stackTop.toNat + k) (by omega) (by omega)
    exact ⟨w, hw, by rw [hw]; rfl, hdw⟩
  rw [List.range'_eq_map_range, List.foldlM_map]
  refine stores_spec _ _ _ (fun k hk => gcCopyTerm_spec _) (fun k hk => ?_)
    (fun k hk m top m₁ top' e m₂ hts hc hw => ?_)
    (show p.heapCapacity.toNat - top.toNat < p.heapCapacity.toNat + 1 by omega)
    (fun k hk => by omega) hts htop _ (by omega)
  · obtain ⟨w, _, hget, hdw⟩ := hword k (by omega)
    rw [Roots.getElem_slotTrees hk, hget]
    exact hdw
  · -- the slot keeps its index
    obtain ⟨w, hcell, hget, _⟩ := hword k (by omega)
    rw [hget] at hc
    have hslot : (p.heapCapacity - (p.heapCapacity - BitVec.ofNat 64 (p.stackTop.toNat + k))).toNat =
        p.stackTop.toNat + k := by
      rw [sub_sub_cancel, BitVec.toNat_ofNat]
      exact Nat.mod_eq_of_lt (by omega)
    rw [gcCopySlot]
    dsimp only
    rw [hts.extends' _ _ hcell, Option.bind_some, hc, Option.bind_some]
    dsimp only
    rw [hslot, hw]
    rfl

end Collect

/-! ### The whole collection -/

theorem collect_eq {m m₁ m₃ : Memory} {p : Process} {toSpace : Nat} {s₂ : Scan} {top₃ : Word}
    (hnull : p.heap ≠ 0)
    (hm : m.malloc (p.alloc 0) (wordBytes p.heapCapacity) = some (toSpace, m₁))
    (hs₂ : (List.finRange numXRegisters).foldlM (gcCopyRegister toSpace p.heapCapacity)
      ⟨m₁, 0#64, p.frame.xRegs⟩ = some s₂)
    (hf₃ : (List.range' p.stackTop.toNat (p.heapCapacity.toNat - p.stackTop.toNat)).foldlM
      (gcCopySlot p.heap toSpace p.heapCapacity) (s₂.mem, s₂.top) = some (m₃, top₃)) :
    beamGcCollectProcess m p = some (m₃.free p.heap, { p.asked with
      heap := toSpace
      heapTop := top₃
      stackTop := p.heapCapacity - (p.heapCapacity - p.stackTop)
      frame := { p.frame with xRegs := s₂.xRegs } }, .ok) := by
  rw [beamGcCollectProcess, if_neg hnull]
  dsimp only
  rw [hm]
  dsimp only
  rw [hs₂, Option.bind_some, hf₃]
  rfl

theorem ToSpace.of_malloc {m m₁ : Memory} {p : Process} {toSpace : Nat} (hok : HeapOk m p)
    (h : m.malloc (p.alloc 0) (wordBytes p.heapCapacity) = some (toSpace, m₁)) :
    ToSpace m m₁ toSpace p.heapCapacity ∧ m.Free toSpace p.heapCapacity.toNat ∧
      m₁.block = Function.update m.block toSpace (some p.heapCapacity.toNat) := by
  have hin := hok.inside
  have hsmall : p.heapCapacity.toNat < 2 ^ 61 := by
    have := hok.nonnull
    simp only [addressSpace] at hin
    omega
  obtain ⟨pl, _, _, hfree, rfl⟩ := Memory.malloc_eq_some h
  rw [wordBytes_div hsmall] at hfree ⊢
  refine ⟨⟨hfree.2.2.2.2, fun i hi => ?_, hfree.extends_map, hsmall⟩, hfree, rfl⟩
  rw [Memory.cell_map_slot hi]
  rfl

theorem loops_sameShape {m m' : Memory} {top top' : Word} {s s' : Scan} {toSpace heap : Nat}
    {toCap : Word} {is : List (Fin numXRegisters)} {slots : List Nat}
    (hregs : is.foldlM (gcCopyRegister toSpace toCap) s = some s')
    (hslots : slots.foldlM (gcCopySlot heap toSpace toCap) (m, top) = some (m', top')) :
    s.mem.SameShape s'.mem ∧ m.SameShape m' := by
  rw [foldlM_eq_run] at hregs hslots
  constructor
  · exact run_invariant (fun s₁ : Scan => s.mem.SameShape s₁.mem) (fun s₁ i s₂ hinv hi => by
      unfold gcCopyRegister at hi
      split at hi
      · obtain ⟨r, hr, rfl⟩ := Option.map_eq_some_iff.mp hi
        exact hinv.trans (gcCopyTerm_sameShape _ hr)
      · cases hi
        exact hinv) (.refl _) hregs
  · exact run_invariant (fun s₁ : Memory × Word => m.SameShape s₁.1) (fun s₁ i s₂ hinv hi => by
      obtain ⟨t, _, hi⟩ := Option.bind_eq_some_iff.mp hi
      obtain ⟨r, hr, hi⟩ := Option.bind_eq_some_iff.mp hi
      obtain ⟨m₃, h3, rfl⟩ := Option.map_eq_some_iff.mp hi
      exact (hinv.trans (gcCopyTerm_sameShape _ hr)).trans (.of_write h3)) (.refl _) hslots

/-- **A collection that succeeds has released the old block**, whatever its roots were. -/
theorem collect_releases {m m' : Memory} {p p' : Process} (hok : HeapOk m p)
    (h : beamGcCollectProcess m p = some (m', p', .ok)) {i : Nat}
    (hi : i < p.heapCapacity.toNat) : m'.cell (p.heap + 8 * i) = none := by
  rw [beamGcCollectProcess, if_neg hok.nonnull] at h
  dsimp only at h
  split at h
  · cases h
  · rename_i toSpace m₁ hm
    obtain ⟨s, hs, h⟩ := Option.bind_eq_some_iff.mp h
    obtain ⟨⟨m₂, top₂⟩, h2, h⟩ := Option.map_eq_some_iff.mp h
    cases h
    obtain ⟨-, hfree, hb⟩ := ToSpace.of_malloc hok hm
    obtain ⟨hregs, hslots⟩ := loops_sameShape hs h2
    have hblock : m₂.block p.heap = some p.heapCapacity.toNat := by
      rw [hslots.block, hregs.block, hb, Function.update_of_ne (hfree.ne_of_block hok.block).symm,
        hok.block]
    rw [Memory.free, Memory.wordsAt, hblock]
    exact Memory.cell_unmap_in (inBlock_slot.mpr hi)

/-- What a collection leaves: a sound heap block of the same capacity, everything outside the two
blocks as it was, and the copies.  When these end at the stack or below, every root holds its copy;
in any case every word of them is one the collector has written. -/
structure Collected (r : Roots) (m : Memory) (p : Process) (m' : Memory) (p' : Process) : Prop where
  heapOk : HeapOk m' p'
  same : p' = { p with
    alloc := p'.alloc
    heap := p'.heap
    heapTop := p'.heapTop
    frame := { p.frame with xRegs := p'.frame.xRegs } }
  top : p'.heapTop.toNat = r.packed p
  base : m.block p'.heap = none
  fresh : ∀ i < p.heapCapacity.toNat, m.cell (p'.heap + 8 * i) = none
  kept : ∀ a v, m.cell a = some v → ¬ InBlock p.heap p.heapCapacity.toNat a → m'.cell a = some v
  blocks : ∀ b n, m.block b = some n → b ≠ p.heap → m'.block b = some n
  laid : r.packed p ≤ p.stackTop.toNat →
    (∀ i, Laid m' p'.heap 0 p'.heapTop.toNat (p'.frame.xRegs i) ((r.fitted m p).x i)) ∧
    ∀ s, p.stackTop.toNat ≤ s → s < p.heapCapacity.toNat →
      ∃ w, m'.cell (p'.heap + 8 * s) = some w ∧
        Laid m' p'.heap 0 p'.heapTop.toNat w ((r.fitted m p).slot s)
  inked : ∀ P, (r.fitted m p).All p P →
    (∀ i, Placed p'.heap p.heapCapacity.toNat P (p'.frame.xRegs i)) ∧
    ∀ i < p.heapCapacity.toNat, i < p'.heapTop.toNat ∨ p.stackTop.toNat ≤ i →
      Inked m' p'.heap p.heapCapacity.toNat P i

section Collected

variable {r : Roots} {m m' m₁ : Memory} {p p' : Process}

theorem Collected.capacity (h : Collected r m p m' p') : p'.heapCapacity = p.heapCapacity := by
  rw [h.same]

theorem Collected.stackTop (h : Collected r m p m' p') : p'.stackTop = p.stackTop := by
  rw [h.same]

theorem Collected.mailbox (h : Collected r m p m' p') : p'.mailbox = p.mailbox := by
  rw [h.same]

theorem Collected.complete (h : Collected r m p m' p') (hfit : r.Fit p) :
    p'.heapTop.toNat = r.treeWords p ∧
    (∀ i, Laid m' p'.heap 0 p'.heapTop.toNat (p'.frame.xRegs i) (r.x i)) ∧
    ∀ s, p.stackTop.toNat ≤ s → s < p.heapCapacity.toNat →
      ∃ w, m'.cell (p'.heap + 8 * s) = some w ∧
        Laid m' p'.heap 0 p'.heapTop.toNat w (r.slot s) := by
  obtain ⟨hwords, hbelow⟩ := hfit.below
  obtain ⟨hx, hs⟩ := h.laid hbelow
  obtain ⟨hfx, hfs⟩ := Roots.fitted_eq (m := m) hwords
  refine ⟨h.top.trans (Roots.packed_eq_treeWords hwords), fun i => hfx i ▸ hx i, fun s h1 h2 => ?_⟩
  rw [← hfs s h1 h2]
  exact hs s h1 h2

theorem cell_free_out {base n a : Nat} (hblock : m.block base = some n)
    (ha : ¬ InBlock base n a) : (m.free base).cell a = m.cell a := by
  rw [Memory.free, Memory.wordsAt, hblock]
  exact Memory.cell_unmap_out ha

theorem ToSpace.not_inBlock {toSpace i : Nat} (hok : HeapOk m p)
    (hts : ToSpace m m₁ toSpace p.heapCapacity) (hi : i < p.heapCapacity.toNat) :
    ¬ InBlock p.heap p.heapCapacity.toNat (toSpace + 8 * i) := by
  intro hin
  obtain ⟨j, hj, he⟩ := hin.exists_slot
  have hread := hok.readable j hj
  rw [← he, hts.fresh i hi] at hread
  cases hread

theorem fittedAt_slot {s top : Nat} (htop : top = packAll p.heapCapacity.toNat r.xTrees 0)
    (h1 : p.stackTop.toNat ≤ s) (hs : s - p.stackTop.toNat < (r.slotTrees p).length) :
    fittedAt m p.heapCapacity.toNat (r.slotTrees p)
      (fun k => (m.cell (p.heap + 8 * (p.stackTop.toNat + k))).getD 0#64) top
      (s - p.stackTop.toNat) hs = (r.fitted m p).slot s := by
  rw [fittedAt, Roots.getElem_slotTrees, Nat.add_sub_cancel' h1, htop]
  rfl

/-- **The two loops**, before the old block is released. -/
theorem loops_spec {toSpace : Nat} (hts : ToSpace m m₁ toSpace p.heapCapacity)
    (hshown : r.Shown m p) : ∃ s₂ m₃ top₃,
      (List.finRange numXRegisters).foldlM (gcCopyRegister toSpace p.heapCapacity)
        ⟨m₁, 0#64, p.frame.xRegs⟩ = some s₂ ∧
      (List.range' p.stackTop.toNat (p.heapCapacity.toNat - p.stackTop.toNat)).foldlM
        (gcCopySlot p.heap toSpace p.heapCapacity) (s₂.mem, s₂.top) = some (m₃, top₃) ∧
      top₃.toNat ≤ p.heapCapacity.toNat ∧ top₃.toNat = r.packed p ∧
      ToSpace m m₃ toSpace p.heapCapacity ∧
      (r.packed p ≤ p.stackTop.toNat →
        (∀ i, Laid m₃ toSpace 0 top₃.toNat (s₂.xRegs i) ((r.fitted m p).x i)) ∧
        ∀ s, p.stackTop.toNat ≤ s → s < p.heapCapacity.toNat →
          ∃ w, m₃.cell (toSpace + 8 * s) = some w ∧
            Laid m₃ toSpace 0 top₃.toNat w ((r.fitted m p).slot s)) ∧
      ∀ P, (r.fitted m p).All p P →
        (∀ i, Placed toSpace p.heapCapacity.toNat P (s₂.xRegs i)) ∧
        ∀ i < p.heapCapacity.toNat, i < top₃.toNat ∨ p.stackTop.toNat ≤ i →
          Inked m₃ toSpace p.heapCapacity.toNat P i := by
  obtain ⟨s₂, hs₂, hg₂, hin₂, hp₂, hch₂, -, hl₂, hi₂⟩ :=
    copyRegisters_spec (s := ⟨m₁, 0#64, p.frame.xRegs⟩) hts hshown.1 (Nat.zero_le _) numXRegisters
      (le_refl _)
  rw [List.take_of_length_le (by rw [List.length_finRange])] at hs₂
  rw [List.take_of_length_le (by rw [r.length_xTrees])] at hp₂
  obtain ⟨m₃, top₃, hf₃, hg₃, hin₃, hp₃, hts₃, -, hkeep₃, hl₃, hi₃⟩ :=
    copySlots_spec (r := r) (hts.changedIn hch₂ hin₂) hshown.2 hin₂
  have hlen := r.length_slotTrees p
  rw [List.take_of_length_le (le_of_eq hlen)] at hp₃
  have hpacked : top₃.toNat = r.packed p := by
    rw [hp₃, hp₂, Roots.packed_eq]
    rfl
  have hslot : ∀ s (h1 : p.stackTop.toNat ≤ s) (h2 : s < p.heapCapacity.toNat),
      ∃ hs : s - p.stackTop.toNat < (r.slotTrees p).length,
        fittedAt m p.heapCapacity.toNat (r.slotTrees p)
          (fun k => (m.cell (p.heap + 8 * (p.stackTop.toNat + k))).getD 0#64) s₂.top.toNat
          (s - p.stackTop.toNat) hs = (r.fitted m p).slot s := fun s h1 h2 =>
    ⟨by omega, fittedAt_slot hp₂ h1 (by omega)⟩
  refine ⟨s₂, m₃, top₃, hs₂, hf₃, hin₃, hpacked, hts₃, fun hbelow => ⟨fun i => ?_, fun s h1 h2 => ?_⟩,
    fun P hall => ⟨fun i => (hl₂ i i.isLt).placed hin₂ (hall.1 i), fun i h1 h2 => ?_⟩⟩
  · refine ((hl₂ i i.isLt).mono (Nat.zero_le _) (by omega) fun j _ hj => ?_)
    exact hkeep₃ j (Or.inl hj) (by omega)
  · obtain ⟨hs, hfitted⟩ := hslot s h1 h2
    obtain ⟨w, hw, hl⟩ := hl₃ (by omega) _ hs (by omega)
    rw [Nat.add_sub_cancel' h1] at hw
    rw [hfitted] at hl
    exact ⟨w, hw, hl.widen (Nat.zero_le _) (le_refl _)⟩
  · have hslots : ∀ j (hj : j < (r.slotTrees p).length),
        j < p.heapCapacity.toNat - p.stackTop.toNat →
        (fittedAt m p.heapCapacity.toNat (r.slotTrees p)
          (fun k => (m.cell (p.heap + 8 * (p.stackTop.toNat + k))).getD 0#64) s₂.top.toNat
          j hj).All P := fun j hj hjn => by
      obtain ⟨hs, hfitted⟩ := hslot (p.stackTop.toNat + j) (by omega) (by omega)
      simp only [Nat.add_sub_cancel_left] at hfitted
      rw [hfitted]
      exact hall.2 _ (by omega) (by omega)
    by_cases hreg : i < s₂.top.toNat ∧ i < p.stackTop.toNat
    · obtain ⟨v, hv, hplaced⟩ := hi₂ P (fun j _ => hall.1 j) i (Nat.zero_le _) hreg.1
      exact ⟨v, by rw [hkeep₃ i (Or.inl hreg.1) (Or.inl hreg.2), hv], hplaced⟩
    · exact hi₃ P hslots i (by omega)

/-- **A collection** of a process whose roots can be read, and whose new block is granted. -/
theorem collect_spec (hok : HeapOk m p) (hshown : r.Shown m p)
    (hgrant : (m.malloc (p.alloc 0) (wordBytes p.heapCapacity)).isSome) :
    ∃ m' p', beamGcCollectProcess m p = some (m', p', .ok) ∧ Collected r m p m' p' := by
  obtain ⟨⟨toSpace, m₁⟩, hm⟩ := Option.isSome_iff_exists.mp hgrant
  obtain ⟨hts, hfree, hb⟩ := ToSpace.of_malloc hok hm
  obtain ⟨s₂, m₃, top₃, hs₂, hf₃, hin₃, hpacked, hspace, hlaid, hinked⟩ := loops_spec hts hshown
  obtain ⟨hregs, hslots⟩ := loops_sameShape hs₂ hf₃
  have hblock : m₃.block = Function.update m.block toSpace (some p.heapCapacity.toNat) := by
    rw [hslots.block, hregs.block]
    exact hb
  have hne := hfree.ne_of_block hok.block
  have hbH : m₃.block p.heap = some p.heapCapacity.toNat := by
    rw [hblock, Function.update_of_ne hne.symm, hok.block]
  -- the release leaves the new block alone
  have hcell : ∀ i < p.heapCapacity.toNat,
      (m₃.free p.heap).cell (toSpace + 8 * i) = m₃.cell (toSpace + 8 * i) :=
    fun i hi => cell_free_out hbH (hspace.not_inBlock hok hi)
  have hmono : ∀ {w : Eterm} {t : Term}, Laid m₃ toSpace 0 top₃.toNat w t →
      Laid (m₃.free p.heap) toSpace 0 top₃.toNat w t := fun h =>
    h.mono (le_refl _) (le_refl _) fun i _ hi => hcell i (by omega)
  refine ⟨_, _, collect_eq hok.nonnull hm hs₂ hf₃,
    { heapOk := ⟨hfree.1, hfree.2.1, hfree.2.2.1, ?_, fun i hi => ?_, hin₃⟩
      same := ?_
      top := hpacked
      base := hfree.2.2.2.1
      fresh := hts.fresh
      kept := fun a v ha hout => (cell_free_out hbH hout).trans (hspace.extends' a v ha)
      blocks := fun b n hbn hnb => ?_
      laid := fun hbelow => ⟨fun i => hmono ((hlaid hbelow).1 i), fun s h1 h2 => ?_⟩
      inked := fun P hall => ⟨(hinked P hall).1, fun i h1 h2 => ?_⟩ }⟩
  · refine (Function.update_of_ne hne _ _).trans ?_
    rw [hblock]
    exact Function.update_self _ _ _
  · exact (congrArg Option.isSome (hcell i hi)).trans (hspace.readable i hi)
  · dsimp only [Process.asked]
    rw [sub_sub_cancel]
  · refine (Function.update_of_ne hnb _ _).trans ?_
    rw [hblock, Function.update_of_ne (hfree.ne_of_block hbn).symm, hbn]
  · obtain ⟨w, hw, hl⟩ := (hlaid hbelow).2 s h1 h2
    exact ⟨w, (hcell s h2).trans hw, hmono hl⟩
  · obtain ⟨v, hv, hplaced⟩ := (hinked P hall).2 i h1 h2
    exact ⟨v, (hcell i h1).trans hv, hplaced⟩

theorem Collected.denotes_iff (h : Collected r m p m' p') {w : Eterm} {t : Term}
    (himm : t.All IsImmediate) (hl : Laid m' p'.heap 0 p'.heapTop.toNat w t) :
    Denotes m' w t ↔ t.TupleFree := by
  have hin := h.heapOk.inside
  have htop := h.heapOk.top
  exact hl.denotes_iff h.heapOk.aligned (by omega) himm

end Collected

/-- **Collection and meaning.**  Where the copies fit and the new block is granted, a collection
returns `BEAM_OK` with the stack as deep as it was, and every root shows the tree it showed before
exactly when no root held a tuple. -/
theorem preserved_iff_tupleFree {m : Memory} {p : Process} {r : Roots} (hok : HeapOk m p)
    (hheld : r.Held m p) (hfit : r.Fit p)
    (hgrant : (m.malloc (p.alloc 0) (wordBytes p.heapCapacity)).isSome) :
    ∃ m' p', beamGcCollectProcess m p = some (m', p', .ok) ∧
      p'.heapCapacity = p.heapCapacity ∧ p'.stackTop = p.stackTop ∧
      (r.Held m' p' ↔ r.TupleFree p) := by
  obtain ⟨hshown, hxImm, hsImm⟩ := hheld.shown
  obtain ⟨m', p', hc, hcol⟩ := collect_spec hok hshown hgrant
  obtain ⟨-, hx, hs⟩ := hcol.complete hfit
  have hcap := hcol.capacity
  have hst := hcol.stackTop
  refine ⟨m', p', hc, hcap, hst, ?_⟩
  constructor
  · rintro ⟨hdx, hds⟩
    refine ⟨fun i => (hcol.denotes_iff (hxImm i) (hx i)).mp (hdx i), fun s h1 h2 => ?_⟩
    obtain ⟨w, hw, hl⟩ := hs s h1 h2
    obtain ⟨w', hw', hd⟩ := hds s (by rwa [hst]) (by rwa [hcap])
    rw [hw] at hw'
    cases hw'
    exact (hcol.denotes_iff (hsImm s h1 h2) hl).mp hd
  · rintro ⟨hfx, hfs⟩
    refine ⟨fun i => (hcol.denotes_iff (hxImm i) (hx i)).mpr (hfx i), fun s h1 h2 => ?_⟩
    rw [hst] at h1
    rw [hcap] at h2
    obtain ⟨w, hw, hl⟩ := hs s h1 h2
    exact ⟨w, hw, (hcol.denotes_iff (hsImm s h1 h2) hl).mpr (hfs s h1 h2)⟩

/-- The process with a term in its first register. -/
def inX0 (p : Process) (t : Eterm) : Process :=
  { p with frame := { p.frame with xRegs := Function.update p.frame.xRegs 0 t } }

/-- The trees of a process with one term in its first register and one immediate in its slots. -/
def oneRoot (t : Term) (slot : Eterm) : Roots where
  x i := if i = 0 then t else .imm 0#64
  slot _ := .imm slot

theorem oneRoot_held {m : Memory} {p : Process} {w slot : Eterm} {t : Term}
    (hx : ∀ i, p.frame.xRegs i = if i = 0 then w else 0#64) (hw : Denotes m w t)
    (hslot : IsImmediate slot) (hs : ∀ s < p.heapCapacity.toNat, p.stackTop.toNat ≤ s →
      m.cell (p.heap + 8 * s) = some slot) : (oneRoot t slot).Held m p := by
  refine ⟨fun i => ?_, fun s h1 h2 => ⟨slot, hs s h2 h1, rfl, hslot⟩⟩
  rw [hx i]
  unfold oneRoot
  dsimp only
  split
  · exact hw
  · exact ⟨rfl, by decide⟩

/-- The list `[7]`. -/
def sevenList : Term := .cons (.imm (makeSmallInt 7#64)) (.imm etermNil)

/-- The tuple `{7}`. -/
def sevenTuple : Term := .tuple 1 fun _ => .imm (makeSmallInt 7#64)

/-- A process with `[7]` in its first register and 9 on its stack. -/
def listRoot : Option (Memory × Process) :=
  (beamMakeList freshMemory freshProcess (makeSmallInt 7#64) etermNil).bind fun (m, p, t) =>
    (beamProcessStackPush m (inX0 p t) (makeSmallInt 9#64)).map fun (m, p, _) => (m, p)

/-- A process with `{7}` in its first register. -/
def tupleRoot : Option (Memory × Process) :=
  (beamMakeTuple freshMemory freshProcess 1#64 (some [makeSmallInt 7#64])).map fun (m, p, t) =>
    (m, inX0 p t)

theorem preserved_iff_tupleFree_list : ∃ m p m' p', listRoot = some (m, p) ∧
    (oneRoot sevenList (makeSmallInt 9#64)).Held m p ∧
    beamGcCollectProcess m p = some (m', p', .ok) ∧ p'.stackTop = p.stackTop ∧
    (oneRoot sevenList (makeSmallInt 9#64)).Held m' p' := by
  obtain ⟨⟨m, p⟩, hr⟩ : ∃ r, listRoot = some r := ⟨_, rfl⟩
  have hheld : (oneRoot sevenList (makeSmallInt 9#64)).Held m p := by
    cases hr
    refine oneRoot_held (w := tagAddr 4096 tagPrimaryList) (fun i => ?_)
      ⟨by decide, ⟨makeSmallInt 7#64, by decide, rfl, by decide⟩, etermNil, by decide, rfl,
        by decide⟩
      (by decide) (by decide)
    exact Function.update_apply _ _ _ i
  obtain ⟨m', p', hc, _, hst, hiff⟩ := preserved_iff_tupleFree
    (by cases hr; exact ⟨by decide, by decide, by decide, rfl, by decide, by decide⟩) hheld
    (by cases hr; unfold Roots.Fit; decide +kernel) (by cases hr; decide)
  refine ⟨m, p, m', p', hr, hheld, hc, hst, hiff.mpr ⟨fun i => ?_, fun _ _ _ => trivial⟩⟩
  unfold oneRoot
  dsimp only
  split
  · exact ⟨trivial, trivial⟩
  · exact trivial

/-- **A tuple is lost**: after the collection its register holds no tuple. -/
theorem tuple_root_lost : ∃ m p m' p', tupleRoot = some (m, p) ∧ HeapOk m p ∧
    (oneRoot sevenTuple 0#64).Held m p ∧ (oneRoot sevenTuple 0#64).Fit p ∧
    beamGcCollectProcess m p = some (m', p', .ok) ∧ ¬ (oneRoot sevenTuple 0#64).Held m' p' := by
  obtain ⟨⟨m, p⟩, hr⟩ : ∃ r, tupleRoot = some r := ⟨_, rfl⟩
  have hok : HeapOk m p := by
    cases hr
    exact ⟨by decide, by decide, by decide, rfl, by decide, by decide⟩
  have hheld : (oneRoot sevenTuple 0#64).Held m p := by
    cases hr
    refine oneRoot_held (w := tagAddr 4096 tagPrimaryBoxed) (fun i => ?_)
      ⟨by decide, ⟨1#64, by decide, rfl⟩, fun i => ⟨makeSmallInt 7#64, ?_, rfl, by decide⟩⟩
      (by decide) (by decide)
    · exact Function.update_apply _ _ _ i
    · revert i
      decide
  have hfit : (oneRoot sevenTuple 0#64).Fit p := by
    cases hr
    unfold Roots.Fit
    decide +kernel
  obtain ⟨hshown, himm⟩ := hheld.shown
  obtain ⟨m', p', hc, hcol⟩ := collect_spec hok hshown (by cases hr; decide)
  refine ⟨m, p, m', p', hr, hok, hheld, hfit, hc, fun h => ?_⟩
  exact (hcol.denotes_iff (himm.1 0) ((hcol.complete hfit).2.1 0)).mp (h.1 0)

end BeamModular
