import BeamModular.Memory.Packing

/-!
# Pointers into the old block

After a collection the old block is released, and a word that still points into it is
a dangling pointer.  A process keeps terms in its registers, on its stack and in its
mailbox; `NoDangling` says that nothing reachable from any of them points into the
block.

The collector leaves three kinds of pointers behind.  A boxed term whose header it does
not know stays as it is; that includes every tuple that has been through a collection
before.  A list or a tuple that finds no place in the new block stays as it is.  And
the mailbox is not among the roots.  `LeavesClean` says that none of these leads into the
old block, and `noDangling_iff` that then there is no dangling pointer, whatever the copies
and the stack do to each other; and the other way round, as long as the copies end at the
stack or below.

Copies that reach into the stack and the slots written there are written over each other,
and a pointer into the old block may be lost with the word that held it.  A slot may also come
to lie on the header of a copied tuple and make it larger than the heap; what is behind the
last word of the heap is not reached from it (`HeapField`).
-/

namespace BeamModular

/-- `Field`, where an object that starts in the heap of the process ends with it. -/
def HeapField (m : Memory) (p : Process) (w u : Eterm) : Prop :=
  ∃ k < objectWords m w, (beamIsList w = false → 0 < k) ∧ m.cell (addrOf w + 8 * k) = some u ∧
    (InBlock p.heap p.heapCapacity.toNat (addrOf w) →
      InBlock p.heap p.heapCapacity.toNat (addrOf w + 8 * k))

/-- Nothing the process can reach from the word points into the block. -/
def Avoids (m : Memory) (p : Process) (base n : Nat) (w : Eterm) : Prop :=
  Throughout (HeapField m p) (fun u => ¬ PointsInto base n u) w

/-- Nothing reachable from the process's registers, its live stack slots or its pending messages
points into the block. -/
structure NoDangling (m : Memory) (p : Process) (base n : Nat) : Prop where
  x : ∀ i, Avoids m p base n (p.frame.xRegs i)
  slot : ∀ s w, p.stackTop.toNat ≤ s → s < p.heapCapacity.toNat →
    m.cell (p.heap + 8 * s) = some w → Avoids m p base n w
  pending : ∀ msg ∈ p.mailbox.messages, Avoids m p base n msg.2

/-- Every object reachable from the same places can be read, and none lies across the border of
the process's heap. -/
structure IntactTerms (m : Memory) (p : Process) : Prop where
  x : ∀ i, Intact m p.heap p.heapCapacity.toNat (p.frame.xRegs i)
  slot : ∀ s w, p.stackTop.toNat ≤ s → s < p.heapCapacity.toNat →
    m.cell (p.heap + 8 * s) = some w → Intact m p.heap p.heapCapacity.toNat w
  pending : ∀ msg ∈ p.mailbox.messages, Intact m p.heap p.heapCapacity.toNat msg.2

/-- What a collection leaves alone does not lead into the process's heap: the words it keeps of the
roots (boxed terms it does not know, and cells that find no room) and the pending messages. -/
structure LeavesClean (r : Roots) (m : Memory) (p : Process) : Prop where
  roots : (r.fitted m p).All p (Clean m p.heap p.heapCapacity.toNat)
  pending : ∀ msg ∈ p.mailbox.messages, Clean m p.heap p.heapCapacity.toNat msg.2

/-! ### The tree and the graph -/

section Fields

variable {m : Memory} {p : Process} {w a e u : Eterm}

theorem field_head (hl : beamIsList w = true) (h : beamListHead m w = some a) : Field m w a := by
  rw [beamListHead, if_pos hl] at h
  refine ⟨0, ?_, fun h' => ?_, h⟩
  · rw [objectWords, if_pos hl]
    omega
  · rw [hl] at h'
    cases h'

theorem field_tail (hl : beamIsList w = true) (h : beamListTail m w = some a) : Field m w a := by
  rw [beamListTail, if_pos hl] at h
  refine ⟨1, ?_, fun _ => by omega, h⟩
  rw [objectWords, if_pos hl]
  omega

theorem field_element {n : Word} {i : Nat} (ht : beamIsTuple m w = some true)
    (hn : beamTupleArity m w = some n) (hi : i < n.toNat)
    (h : beamTupleElement m w i = some e) : Field m w e := by
  obtain ⟨hbox, h0, header, hc, hh⟩ := beamIsTuple_eq_true ht
  rw [beamTupleElement, ht, Option.bind_some, if_pos rfl] at h
  rw [beamTupleArity, ht, Option.bind_some, if_pos rfl, hc, Option.map_some] at hn
  have hcount : fieldCount header = n.toNat := by
    rw [fieldCount, if_pos (beq_iff_eq.mpr hh), ← Option.some.inj hn]
  refine ⟨i + 1, ?_, fun _ => by omega, h⟩
  rw [objectWords, (not_immediate_of_boxed hbox).2.2.2, if_neg (by decide), if_pos ⟨hbox, h0⟩, hc,
    Option.map_some, Option.getD_some, hcount]
  omega

/-- What holds of everything reachable from a word holds from each word on that a copy of its tree
keeps. -/
theorem Shows.fitted_all {P : Eterm → Prop} {cap : Nat} {t : Term} : ∀ {w : Eterm} {top : Nat},
    Shows m w t → Throughout (Field m) P w →
      (t.fitted m cap w top).All (Throughout (Field m) P) := by
  induction t with
  | imm v =>
    rintro w top ⟨rfl, _, _⟩ h
    exact h
  | cons head tail ihHead ihTail =>
    rintro w top ⟨hl, ⟨a, ha, hda⟩, b, hb, hdb⟩ h
    have hstep := (throughout_iff.mp h).2
    rw [Term.fitted, ha, hb]
    split
    · exact h
    · exact ⟨ihHead hda (hstep a (field_head hl ha)), ihTail hdb (hstep b (field_tail hl hb))⟩
  | tuple arity element ih =>
    rintro w top ⟨ht, ⟨n, hn, rfl⟩, he⟩ h
    rw [Term.fitted]
    split
    · exact h
    · intro i
      obtain ⟨e, hei, hde⟩ := he i
      dsimp only
      rw [hei]
      exact ih i hde ((throughout_iff.mp h).2 e (field_element ht hn i.isLt hei))

theorem heapField_iff (h : ∀ k < objectWords m w, InBlock p.heap p.heapCapacity.toNat (addrOf w) →
    InBlock p.heap p.heapCapacity.toNat (addrOf w + 8 * k)) : HeapField m p w u ↔ Field m w u := by
  constructor
  · rintro ⟨k, hk, hpos, hc, _⟩
    exact ⟨k, hk, hpos, hc⟩
  · rintro ⟨k, hk, hpos, hc⟩
    exact ⟨k, hk, hpos, hc, h k hk⟩

end Fields

theorem Term.All.mono {P Q : Eterm → Prop} (h : ∀ v, P v → Q v) {t : Term} :
    t.All P → t.All Q := by
  induction t with
  | imm v => exact h v
  | cons head tail ihHead ihTail => exact fun ha => ⟨ihHead ha.1, ihTail ha.2⟩
  | tuple arity element ih => exact fun ha i => ih i (ha i)

theorem Term.all_congr {P Q Q' : Eterm → Prop} (h : ∀ v, P v → (Q v ↔ Q' v)) {t : Term} :
    t.All P → (t.All Q ↔ t.All Q') := by
  induction t with
  | imm v => exact h v
  | cons head tail ihHead ihTail => exact fun ha => and_congr (ihHead ha.1) (ihTail ha.2)
  | tuple arity element ih => exact fun ha => forall_congr' fun i => ih i (ha i)

theorem Term.All.and {P Q : Eterm → Prop} {t : Term} :
    t.All P → t.All Q → t.All fun v => P v ∧ Q v := by
  induction t with
  | imm v => exact And.intro
  | cons head tail ihHead ihTail => exact fun hp hq => ⟨ihHead hp.1 hq.1, ihTail hp.2 hq.2⟩
  | tuple arity element ih => exact fun hp hq i => ih i (hp i) (hq i)

/-! ### The copies -/

section Copies

variable {m : Memory} {p : Process} {base n hi : Nat}

theorem HeapOk.not_pointsInto (hok : HeapOk m p) {i : Nat} (tag : Word) (htag : tag.toNat < 4)
    (hi : i < p.heapCapacity.toNat) (hout : ¬ InRange base n (p.heap + 8 * i)) :
    ¬ PointsInto base n (tagAddr (p.heap + 8 * i) tag) := by
  rintro ⟨_, hin⟩
  have hal := hok.aligned
  have hl := hok.inside
  rw [addrOf_tagAddr (by omega) (by omega) htag] at hin
  exact hout hin

/-- The fields of a list cell of the heap. -/
theorem HeapOk.heapField_list (hok : HeapOk m p) {i : Nat} (hi : i + 1 < p.heapCapacity.toNat)
    {u : Eterm} : HeapField m p (tagAddr (p.heap + 8 * i) tagPrimaryList) u ↔
      m.cell (p.heap + 8 * i) = some u ∨ m.cell (p.heap + 8 * (i + 1)) = some u := by
  have hal := hok.aligned
  have hl := hok.inside
  rw [heapField_iff, field_list (by omega) (by omega),
    show p.heap + 8 * i + 8 = p.heap + 8 * (i + 1) by omega]
  intro k hk _
  rw [objectWords, if_pos (list_tagAddr (by omega) (by omega))] at hk
  rw [addrOf_tagAddr (by omega) (by omega) (by decide), Nat.add_assoc, ← Nat.mul_add]
  exact inBlock_slot.mpr (by omega)

/-- The fields of a boxed object of the heap. -/
theorem HeapOk.heapField_boxed (hok : HeapOk m p) {i arity : Nat} {h : Word}
    (hh : m.cell (p.heap + 8 * i) = some h) (hcount : fieldCount h = arity)
    (hi : i + arity < p.heapCapacity.toNat) {u : Eterm} :
    HeapField m p (tagAddr (p.heap + 8 * i) tagPrimaryBoxed) u ↔
      ∃ k < arity, m.cell (p.heap + 8 * (i + 1 + k)) = some u := by
  have hal := hok.aligned
  have hl := hok.inside
  have hnn := hok.nonnull
  have haddr : addrOf (tagAddr (p.heap + 8 * i) tagPrimaryBoxed) = p.heap + 8 * i :=
    addrOf_tagAddr (by omega) (by omega) (by decide)
  rw [heapField_iff, field_boxed (by omega) (by omega) (by omega) hh, hcount]
  · simp only [show ∀ k, p.heap + 8 * i + 8 * (k + 1) = p.heap + 8 * (i + 1 + k) by omega]
  · intro k hk _
    have hbox := boxed_tagAddr (a := p.heap + 8 * i) (by omega) (by omega)
    rw [objectWords, (not_immediate_of_boxed hbox).2.2.2, if_neg (by decide), haddr,
      if_pos ⟨hbox, by omega⟩, hh, Option.map_some, Option.getD_some, hcount] at hk
    rw [haddr, Nat.add_assoc, ← Nat.mul_add]
    exact inBlock_slot.mpr (by omega)

/-- **A complete copy leads where its leaves lead.** -/
theorem Laid.avoids_iff (hok : HeapOk m p)
    (hout : ∀ i < p.heapCapacity.toNat, ¬ InRange base n (p.heap + 8 * i))
    (hhi : hi ≤ p.heapCapacity.toNat) {t : Term} : ∀ {w : Eterm}, Laid m p.heap 0 hi w t →
      (Avoids m p base n w ↔ t.All (Avoids m p base n)) := by
  have hal := hok.aligned
  have hl := hok.inside
  induction t with
  | imm v =>
    rintro w rfl
    exact Iff.rfl
  | cons head tail ihHead ihTail =>
    rintro w ⟨i, -, h2, rfl, ⟨a, ha, hla⟩, b, hb, hlb⟩
    have hnot := hok.not_pointsInto tagPrimaryList (by decide) (show i < _ by omega)
      (hout i (by omega))
    have hfield := fun u => hok.heapField_list (i := i) (u := u) (by omega)
    rw [Avoids, throughout_iff, Term.All, ← ihHead hla, ← ihTail hlb]
    constructor
    · rintro ⟨_, hstep⟩
      exact ⟨hstep a ((hfield a).mpr (Or.inl ha)), hstep b ((hfield b).mpr (Or.inr hb))⟩
    · rintro ⟨hca, hcb⟩
      refine ⟨hnot, fun u hu => ?_⟩
      rcases (hfield u).mp hu with hu | hu
      · rw [ha] at hu
        cases hu
        exact hca
      · rw [hb] at hu
        cases hu
        exact hcb
  | tuple arity element ih =>
    rintro w ⟨i, -, h2, rfl, ⟨c, hc, hlt, hh⟩, he⟩
    have hnot := hok.not_pointsInto tagPrimaryBoxed (by decide) (show i < _ by omega)
      (hout i (by omega))
    have hfield := fun u => hok.heapField_boxed (u := u) hh
      (by rw [fieldCount_makeSmallInt (by omega), hc]) (show i + arity < _ by omega)
    rw [Avoids, throughout_iff, Term.All]
    constructor
    · rintro ⟨_, hstep⟩ k
      obtain ⟨e, hek, hle⟩ := he k
      exact (ih k hle).mp (hstep e ((hfield e).mpr ⟨k, k.isLt, hek⟩))
    · intro hall
      refine ⟨hnot, fun u hu => ?_⟩
      obtain ⟨k, hk, hu⟩ := (hfield u).mp hu
      obtain ⟨e, hek, hle⟩ := he ⟨k, hk⟩
      dsimp only at hek
      rw [hek] at hu
      cases hu
      exact (ih ⟨k, hk⟩ hle).mpr (hall ⟨k, hk⟩)

end Copies

/-! ### The collection -/

section Collection

variable {r : Roots} {m m' : Memory} {p p' : Process} {w u : Eterm}

theorem Collected.not_inRange (h : Collected r m p m' p') (hok : HeapOk m p) {i : Nat}
    (hi : i < p.heapCapacity.toNat) :
    ¬ InRange p.heap p.heapCapacity.toNat (p'.heap + 8 * i) := by
  rintro ⟨h1, h2⟩
  have hal := hok.aligned
  have hal' := h.heapOk.aligned
  have hin : InBlock p.heap p.heapCapacity.toNat (p'.heap + 8 * i) := ⟨h1, h2, by omega⟩
  obtain ⟨j, hj, he⟩ := hin.exists_slot
  have hread := hok.readable j hj
  rw [← he, h.fresh i hi] at hread
  cases hread

theorem Collected.heapField_iff (h : Collected r m p m' p')
    (hwhole : Whole m p.heap p.heapCapacity.toNat w)
    (hout : ¬ PointsInto p.heap p.heapCapacity.toNat w) :
    Field m w u ↔ HeapField m' p' w u := by
  have hcell : ∀ k < objectWords m w, m'.cell (addrOf w + 8 * k) = m.cell (addrOf w + 8 * k) := by
    intro k hk
    obtain ⟨hread, hborder⟩ := hwhole k hk
    obtain ⟨v, hv⟩ := Option.isSome_iff_exists.mp hread
    rw [h.kept _ v hv fun hin => hout ⟨objectWords_pos (m := m) (by omega),
      hborder.mp ⟨hin.1, hin.2.1⟩⟩, hv]
  constructor
  · rintro ⟨k, hk, hpos, hc⟩
    have hfield := (field_congr hcell).mp ⟨k, hk, hpos, hc⟩
    refine (BeamModular.heapField_iff fun k _ hin => ?_).mpr hfield
    -- the object could be read before, and no word of the new heap could
    obtain ⟨i, hi, he⟩ := hin.exists_slot
    rw [h.capacity] at hi
    have hread := (hwhole 0 (by omega)).1
    rw [Nat.mul_zero, Nat.add_zero, he, h.fresh i hi] at hread
    cases hread
  · rintro ⟨k, hk, hpos, hc, _⟩
    exact (field_congr hcell).mpr ⟨k, hk, hpos, hc⟩

/-- A word that stays as it is leads to the old block after the collection if it did before. -/
theorem Collected.clean_iff (h : Collected r m p m' p')
    (hw : Intact m p.heap p.heapCapacity.toNat w) :
    Clean m p.heap p.heapCapacity.toNat w ↔ Avoids m' p' p.heap p.heapCapacity.toNat w :=
  throughout_congr fun u hu hout _ => h.heapField_iff (hw u hu) hout

theorem IntactTerms.fitted (h : IntactTerms m p) (hshown : r.Shown m p) :
    (r.fitted m p).All p (Intact m p.heap p.heapCapacity.toNat) := by
  refine ⟨fun i => Shows.fitted_all (hshown.1 i) (h.x i), fun s h1 h2 => ?_⟩
  obtain ⟨w, hw, hd⟩ := hshown.2 s h1 h2
  rw [Roots.fitted]
  dsimp only
  rw [hw]
  exact Shows.fitted_all hd (h.slot s w h1 h2 hw)

/-- **Where every word of the new heap is one the collector has written**, nothing in it leads into
the old block if no word that was kept does, however the words lie over each other. -/
theorem Collected.avoids_of_inked (h : Collected r m p m' p') (hok : HeapOk m p)
    (hinked : ∀ i < p.heapCapacity.toNat, Inked m' p'.heap p.heapCapacity.toNat
      (fun v => Clean m p.heap p.heapCapacity.toNat v ∧ Intact m p.heap p.heapCapacity.toNat v) i)
    (hw : Placed p'.heap p.heapCapacity.toNat (fun v => Clean m p.heap p.heapCapacity.toNat v ∧
      Intact m p.heap p.heapCapacity.toNat v) w) :
    Avoids m' p' p.heap p.heapCapacity.toNat w := by
  have hok' := h.heapOk
  have hal := hok'.aligned
  have hl := hok'.inside
  rw [h.capacity] at hl
  -- an object of the new heap ends with it, and every word of that is written
  have hobject : ∀ {i : Nat} {tag u v : Word}, tag.toNat < 4 → i < p.heapCapacity.toNat →
      u = tagAddr (p'.heap + 8 * i) tag → HeapField m' p' u v →
      Placed p'.heap p.heapCapacity.toNat (fun v => Clean m p.heap p.heapCapacity.toNat v ∧
        Intact m p.heap p.heapCapacity.toNat v) v := by
    rintro i tag u v htag hi rfl ⟨k, _, _, hc, hin⟩
    rw [addrOf_tagAddr (by omega) (by omega) htag, h.capacity] at hin
    obtain ⟨j, hj, he⟩ := (hin (inBlock_slot.mpr hi)).exists_slot
    rw [addrOf_tagAddr (by omega) (by omega) htag, he] at hc
    obtain ⟨v', hv', hplaced⟩ := hinked j hj
    rw [hc] at hv'
    cases hv'
    exact hplaced
  refine throughout_of_closed hw (fun u v hu hv => ?_) fun u hu => ?_
  · cases hu with
    | leaf hleaf =>
      obtain ⟨hclean, hintact⟩ := hleaf
      have hfield := (h.heapField_iff (throughout_iff.mp hintact).1
        (throughout_iff.mp hclean).1).mpr hv
      exact .leaf ⟨(throughout_iff.mp hclean).2 v hfield, (throughout_iff.mp hintact).2 v hfield⟩
    | header n =>
      obtain ⟨k, hk, _⟩ := hv
      rw [objectWords_of_immediate (isImmediate_makeSmallInt n)] at hk
      omega
    | list hi => exact hobject (by decide) (by omega) rfl hv
    | boxed hi => exact hobject (by decide) hi rfl hv
  · have hout : ∀ i < p.heapCapacity.toNat,
        ¬ InRange p.heap p.heapCapacity.toNat (p'.heap + 8 * i) := fun i hi =>
      h.not_inRange hok hi
    cases hu with
    | leaf hleaf => exact (throughout_iff.mp hleaf.1).1
    | header n => exact fun hp => hp.1 (isImmediate_makeSmallInt n)
    | list hi =>
      exact hok'.not_pointsInto tagPrimaryList (by decide) (by rw [h.capacity]; omega)
        (hout _ (by omega))
    | boxed hi =>
      exact hok'.not_pointsInto tagPrimaryBoxed (by decide) (by rwa [h.capacity]) (hout _ hi)

/-- **Copies that reach into the stack.**  The two then cover the new heap. -/
theorem Collected.noDangling_of_above (h : Collected r m p m' p') (hok : HeapOk m p)
    (hshown : r.Shown m p) (hint : IntactTerms m p) (habove : p.stackTop.toNat < r.packed p)
    (hclean : LeavesClean r m p) : NoDangling m' p' p.heap p.heapCapacity.toNat := by
  have hintact := hint.fitted hshown
  obtain ⟨hx, hwords⟩ := h.inked _ ⟨fun i => (hclean.roots.1 i).and (hintact.1 i),
    fun s h1 h2 => (hclean.roots.2 s h1 h2).and (hintact.2 s h1 h2)⟩
  have htop := h.top
  have hcover : ∀ i < p.heapCapacity.toNat, Inked m' p'.heap p.heapCapacity.toNat
      (fun v => Clean m p.heap p.heapCapacity.toNat v ∧ Intact m p.heap p.heapCapacity.toNat v) i :=
    fun i hi => hwords i hi (by omega)
  refine ⟨fun i => h.avoids_of_inked hok hcover (hx i), fun s w _ h2 hw => ?_, fun msg hmsg => ?_⟩
  · rw [h.capacity] at h2
    obtain ⟨v, hv, hplaced⟩ := hcover s h2
    rw [hw] at hv
    cases hv
    exact h.avoids_of_inked hok hcover hplaced
  · rw [h.mailbox] at hmsg
    exact (h.clean_iff (hint.pending msg hmsg)).mp (hclean.pending msg hmsg)

/-- **Copies that end at the stack or below.**  Every root then leads where the words lead that were
kept of it. -/
theorem Collected.noDangling_iff_of_below (h : Collected r m p m' p') (hok : HeapOk m p)
    (hshown : r.Shown m p) (hint : IntactTerms m p) (hbelow : r.packed p ≤ p.stackTop.toNat) :
    NoDangling m' p' p.heap p.heapCapacity.toNat ↔ LeavesClean r m p := by
  have hok' := h.heapOk
  obtain ⟨hx, hs⟩ := h.laid hbelow
  obtain ⟨hxInt, hsInt⟩ := hint.fitted hshown
  have hiff : ∀ {w : Eterm} {t : Term}, t.All (Intact m p.heap p.heapCapacity.toNat) →
      Laid m' p'.heap 0 p'.heapTop.toNat w t → (Avoids m' p' p.heap p.heapCapacity.toNat w ↔
        t.All (Clean m p.heap p.heapCapacity.toNat)) := fun {w t} hall hl => by
    rw [Term.all_congr (fun v hv => h.clean_iff hv) hall]
    exact hl.avoids_iff hok' (fun i hi => h.not_inRange hok (by rwa [h.capacity] at hi)) hok'.top
  constructor
  · rintro ⟨hax, has, hap⟩
    refine ⟨⟨fun i => (hiff (hxInt i) (hx i)).mp (hax i), fun s h1 h2 => ?_⟩, fun msg hmsg => ?_⟩
    · obtain ⟨w, hw, hl⟩ := hs s h1 h2
      exact (hiff (hsInt s h1 h2) hl).mp
        (has s w (by rwa [h.stackTop]) (by rwa [h.capacity]) hw)
    · exact (h.clean_iff (hint.pending msg hmsg)).mpr (hap msg (by rwa [h.mailbox]))
  · rintro ⟨⟨hcx, hcs⟩, hcp⟩
    refine ⟨fun i => (hiff (hxInt i) (hx i)).mpr (hcx i), fun s w h1 h2 hw => ?_,
      fun msg hmsg => ?_⟩
    · rw [h.stackTop] at h1
      rw [h.capacity] at h2
      obtain ⟨w', hw', hl⟩ := hs s h1 h2
      rw [hw] at hw'
      cases hw'
      exact (hiff (hsInt s h1 h2) hl).mpr (hcs s h1 h2)
    · rw [h.mailbox] at hmsg
      exact (h.clean_iff (hint.pending msg hmsg)).mp (hcp msg hmsg)

end Collection

/-- The trees of `sharedRoot`: the list in two registers, the integer on the stack. -/
def sharedTrees : Roots where
  x i := if i = 1 ∨ i = 0 then sevenList else .imm 0#64
  slot _ := .imm (makeSmallInt 9#64)

/-- A process with the list `[7]` in its first register that has sent the list to itself. -/
def selfSent : Option (Memory × Process) :=
  (beamMakeList freshMemory freshProcess (makeSmallInt 7#64) etermNil).bind fun (m, p, t) =>
    (p.mailbox.enqueue t).map fun r => (m, { inX0 p t with mailbox := r.1 })

end BeamModular
