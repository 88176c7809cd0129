import BeamModular.Core.Graph
import BeamModular.Lib.Moves
import BeamModular.Lib.Run

/-!
# Copying one term

`gc_copy_term` of `src/memory/beam_gc.c`: a depth-first copy into a new block, without
forwarding addresses.  Immediates stay as they are; so do the boxed terms the function
does not know and, once the new block is full, the lists and tuples that find no place.

`Shows m w t` is the tree the function follows from a word; a word that is neither a
list nor a tuple is a leaf of it.  `Term.packed` counts the words the copy of a tree takes
from a given top on, and `Term.fitted` is what is copied of it: a cell that finds no room
is left out with everything below it, and the word that leads to it is a leaf.

`gcCopyTerm_spec` is the induction over the tree.  The copy is `Laid` out in a window of the
new block, every word of the window is written, and no other word of the memory is.
-/

namespace BeamModular

/-! ### The source -/

/-- One turn of the element loop: copy element `i` and store it behind the new header. -/
def gcCopyElement (copy : Memory → Word → Eterm → Option (Memory × Word × Eterm))
    (toSpace newIdx : Nat) (term : Eterm) (s : Memory × Word) (i : Nat) :
    Option (Memory × Word) :=
  (beamTupleElement s.1 term i).bind fun elem =>
    (copy s.1 s.2 elem).bind fun r =>
      (r.1.write (toSpace + 8 * (newIdx + 1 + i)) r.2.2).map fun m => (m, r.2.1)

/-- `gc_copy_term`: the memory, the new top and the copy.  Each level of the recursion takes a
word of the new block first, so a block of `toCap` words bounds its depth. -/
def gcCopyTerm (toSpace : Nat) (toCap : Word) :
    Nat → Memory → Word → Eterm → Option (Memory × Word × Eterm)
  | 0, _, _, _ => none
  | depth + 1, m, toTop, term =>
    if beamIsSmallInt term || beamIsAtom term || beamIsNil term then some (m, toTop, term)
    else (beamIsTuple m term).bind fun isTuple =>
      if isTuple then
        (beamTupleArity m term).bind fun arity =>
          let wordsNeeded := arity + 1#64
          if toTop + wordsNeeded > toCap then some (m, toTop, term)
          else
            let new := toSpace + 8 * toTop.toNat
            (m.write new (makeSmallInt arity)).bind fun m =>
              ((List.range arity.toNat).foldlM
                (gcCopyElement (gcCopyTerm toSpace toCap depth) toSpace toTop.toNat term)
                (m, toTop + wordsNeeded)).map fun s =>
                  (s.1, s.2, tagAddr new tagPrimaryBoxed)
      else if beamIsList term then
        if toTop + 2#64 > toCap then some (m, toTop, term)
        else
          let new := toSpace + 8 * toTop.toNat
          (beamListHead m term).bind fun head =>
            (beamListTail m term).bind fun tail =>
              (gcCopyTerm toSpace toCap depth m (toTop + 2#64) head).bind fun (m, top, h) =>
                (m.write new h).bind fun m =>
                  (gcCopyTerm toSpace toCap depth m top tail).bind fun (m, top, t) =>
                    (m.write (new + 8) t).map fun m => (m, top, tagAddr new tagPrimaryList)
      else some (m, toTop, term)

/-! ### The three ways of a copy -/

section Equations

variable {toSpace depth : Nat} {toCap top : Word} {m : Memory} {w : Eterm}

theorem gcCopyTerm_leaf (hl : beamIsList w = false) (ht : beamIsTuple m w = some false) :
    gcCopyTerm toSpace toCap (depth + 1) m top w = some (m, top, w) := by
  by_cases himm : (beamIsSmallInt w || beamIsAtom w || beamIsNil w) = true
  · rw [gcCopyTerm, if_pos himm]
  · rw [gcCopyTerm, if_neg himm, ht, Option.bind_some, if_neg (by decide),
      if_neg (by rw [hl]; decide)]

theorem gcCopyTerm_list (hl : beamIsList w = true) :
    gcCopyTerm toSpace toCap (depth + 1) m top w =
      if top + 2#64 > toCap then some (m, top, w)
      else
        let new := toSpace + 8 * top.toNat
        (beamListHead m w).bind fun head =>
          (beamListTail m w).bind fun tail =>
            (gcCopyTerm toSpace toCap depth m (top + 2#64) head).bind fun (m, top, h) =>
              (m.write new h).bind fun m =>
                (gcCopyTerm toSpace toCap depth m top tail).bind fun (m, top, t) =>
                  (m.write (new + 8) t).map fun m => (m, top, tagAddr new tagPrimaryList) := by
  obtain ⟨hi1, hi2, hi3⟩ := not_immediate_of_list (beamIsList_iff.mp hl)
  rw [gcCopyTerm, hi1, hi2, hi3, if_neg (by decide), beamIsTuple_of_list hl, Option.bind_some,
    if_neg (by decide), if_pos hl]

theorem gcCopyTerm_tuple {arity : Word} (ht : beamIsTuple m w = some true)
    (ha : beamTupleArity m w = some arity) :
    gcCopyTerm toSpace toCap (depth + 1) m top w =
      if top + (arity + 1#64) > toCap then some (m, top, w)
      else
        let new := toSpace + 8 * top.toNat
        (m.write new (makeSmallInt arity)).bind fun m =>
          ((List.range arity.toNat).foldlM
            (gcCopyElement (gcCopyTerm toSpace toCap depth) toSpace top.toNat w)
            (m, top + (arity + 1#64))).map fun s => (s.1, s.2, tagAddr new tagPrimaryBoxed) := by
  obtain ⟨hi1, hi2, hi3, -⟩ := not_immediate_of_boxed (beamIsTuple_eq_true ht).1
  rw [gcCopyTerm, hi1, hi2, hi3, if_neg (by decide), ht, Option.bind_some, if_pos rfl, ha,
    Option.bind_some]

/-- A copy allocates nothing and releases nothing. -/
theorem gcCopyTerm_sameShape : ∀ (depth : Nat) {m m' : Memory} {top top' : Word} {w w' : Eterm},
    gcCopyTerm toSpace toCap depth m top w = some (m', top', w') → m.SameShape m' := by
  intro depth
  induction depth with
  | zero => intro m m' top top' w w' h; cases h
  | succ depth ih =>
    intro m m' top top' w w' h
    by_cases hl : beamIsList w = true
    · rw [gcCopyTerm_list hl] at h
      split at h
      · cases h; exact .refl _
      · obtain ⟨a, _, h⟩ := Option.bind_eq_some_iff.mp h
        obtain ⟨b, _, h⟩ := Option.bind_eq_some_iff.mp h
        obtain ⟨⟨m₁, top₁, a'⟩, h1, h⟩ := Option.bind_eq_some_iff.mp h
        obtain ⟨m₂, h2, h⟩ := Option.bind_eq_some_iff.mp h
        obtain ⟨⟨m₃, top₃, b'⟩, h3, h⟩ := Option.bind_eq_some_iff.mp h
        obtain ⟨m₄, h4, h⟩ := Option.map_eq_some_iff.mp h
        cases h
        exact (((ih h1).trans (.of_write h2)).trans (ih h3)).trans (.of_write h4)
    by_cases himm : (beamIsSmallInt w || beamIsAtom w || beamIsNil w) = true
    · rw [gcCopyTerm, if_pos himm] at h
      cases h
      exact .refl _
    · rw [gcCopyTerm, if_neg himm] at h
      obtain ⟨isTuple, ht, h⟩ := Option.bind_eq_some_iff.mp h
      split at h
      · obtain ⟨arity, _, h⟩ := Option.bind_eq_some_iff.mp h
        dsimp only at h
        split at h
        · cases h; exact .refl _
        · obtain ⟨m₁, h1, h⟩ := Option.bind_eq_some_iff.mp h
          obtain ⟨⟨m₂, top₂⟩, h2, h⟩ := Option.map_eq_some_iff.mp h
          cases h
          rw [foldlM_eq_run] at h2
          have hinv := run_invariant (fun s : Memory × Word => m₁.SameShape s.1)
            (fun s i s' hs hi => by
              obtain ⟨e, _, hi⟩ := Option.bind_eq_some_iff.mp hi
              obtain ⟨r, hr, hi⟩ := Option.bind_eq_some_iff.mp hi
              obtain ⟨m₃, h3, rfl⟩ := Option.map_eq_some_iff.mp hi
              exact (hs.trans (ih hr)).trans (.of_write h3)) (.refl _) h2
          exact (Memory.SameShape.of_write h1).trans hinv
      · cases h
        exact .refl _

end Equations

/-! ### What the function follows -/

/-- The word shows the tree; what is neither a list nor a tuple is a leaf. -/
abbrev Shows (m : Memory) : Eterm → Term → Prop :=
  Unfolds (fun w => beamIsList w = false ∧ beamIsTuple m w = some false) m

/-- A term without unknown boxed terms is followed to its leaves. -/
theorem Denotes.shows {m : Memory} {t : Term} {w : Eterm} (h : Denotes m w t) :
    Shows m w t ∧ t.All IsImmediate :=
  Unfolds.mono (fun _ hi => ⟨hi.not_list, hi.not_tuple m⟩) h

theorem beamTupleArity_lt {m : Memory} {w : Eterm} {n : Word}
    (h : beamTupleArity m w = some n) : n.toNat < 2 ^ 58 := by
  obtain ⟨b, _, hr⟩ := Option.bind_eq_some_iff.mp h
  cases b with
  | false =>
    cases hr
    decide
  | true =>
    obtain ⟨header, _, rfl⟩ := Option.map_eq_some_iff.mp hr
    have hlt := header.isLt
    rw [BitVec.toNat_ushiftRight, Nat.shiftRight_eq_div_pow]
    omega

/-! ### What a copy takes -/

/-- The top after a copy of the tree into a block of `cap` words; a cell for which there is no
room is left out with everything below it. -/
def Term.packed (cap : Nat) : Term → Nat → Nat
  | .imm _, top => top
  | .cons head tail, top =>
    if top + 2 > cap then top else tail.packed cap (head.packed cap (top + 2))
  | .tuple arity element, top =>
    if top + (arity + 1) > cap then top
    else (List.finRange arity).foldl (fun top i => (element i).packed cap top) (top + (arity + 1))

/-- The same for one tree after the other. -/
def packAll (cap : Nat) (ts : List Term) (top : Nat) : Nat :=
  ts.foldl (fun top t => t.packed cap top) top

/-- The words of all trees. -/
def wordsOf (ts : List Term) : Nat := (ts.map Term.words).sum

/-- What is copied of the tree of a word into a block of `cap` words: where a cell finds no room,
the word that leads to it is a leaf. -/
def Term.fitted (m : Memory) (cap : Nat) : Term → Eterm → Nat → Term
  | .imm v, _, _ => .imm v
  | .cons head tail, w, top =>
    if top + 2 > cap then .imm w
    else .cons (head.fitted m cap ((beamListHead m w).getD 0#64) (top + 2))
      (tail.fitted m cap ((beamListTail m w).getD 0#64) (head.packed cap (top + 2)))
  | .tuple arity element, w, top =>
    if top + (arity + 1) > cap then .imm w
    else .tuple arity fun i => (element i).fitted m cap ((beamTupleElement m w i).getD 0#64)
      (packAll cap (((List.finRange arity).map element).take i) (top + (arity + 1)))

section Packed

variable {cap : Nat}

theorem packed_tuple (cap : Nat) {arity : Nat} (element : Fin arity → Term) (top : Nat) :
    (Term.tuple arity element).packed cap top = if top + (arity + 1) > cap then top
      else packAll cap ((List.finRange arity).map element) (top + (arity + 1)) := by
  rw [Term.packed, packAll, List.foldl_map]

theorem words_tuple_eq {arity : Nat} (element : Fin arity → Term) :
    (Term.tuple arity element).words =
      arity + 1 + wordsOf ((List.finRange arity).map element) := by
  rw [Term.words, wordsOf, Fin.sum_univ_def, List.map_map]
  rfl

theorem getElem_map_finRange {α : Type*} {n k : Nat} {f : Fin n → α}
    (h : k < ((List.finRange n).map f).length) :
    ((List.finRange n).map f)[k] = f ⟨k, by simpa using h⟩ := by
  rw [List.getElem_map, List.getElem_finRange]
  rfl

theorem take_finRange_succ {n k : Nat} (hk : k < n) :
    (List.finRange n).take (k + 1) = (List.finRange n).take k ++ [⟨k, hk⟩] := by
  have hlen : k < (List.finRange n).length := by rwa [List.length_finRange]
  rw [← List.take_append_getElem hlen, List.getElem_finRange]
  rfl

theorem packAll_append (ts us : List Term) (top : Nat) :
    packAll cap (ts ++ us) top = packAll cap us (packAll cap ts top) := List.foldl_append

theorem packAll_take_succ {ts : List Term} {k : Nat} (hk : k < ts.length) (top : Nat) :
    packAll cap (ts.take (k + 1)) top = ts[k].packed cap (packAll cap (ts.take k) top) := by
  rw [← List.take_append_getElem hk, packAll_append]
  rfl

theorem wordsOf_append (ts us : List Term) : wordsOf (ts ++ us) = wordsOf ts + wordsOf us := by
  rw [wordsOf, List.map_append, List.sum_append]
  rfl

theorem wordsOf_take_le {ts : List Term} {k : Nat} (hk : k < ts.length) :
    wordsOf (ts.take k) + ts[k].words ≤ wordsOf ts := by
  have hall := congrArg wordsOf (List.take_append_drop (k + 1) ts)
  have hone : wordsOf [ts[k]] = ts[k].words := Nat.add_zero _
  rw [← List.take_append_getElem hk, wordsOf_append, wordsOf_append, hone] at hall
  omega

theorem packAll_of_fits (ts : List Term)
    (ih : ∀ t ∈ ts, ∀ top, top + t.words ≤ cap → t.packed cap top = top + t.words) :
    ∀ top, top + wordsOf ts ≤ cap → packAll cap ts top = top + wordsOf ts := by
  induction ts with
  | nil => intro top _; rfl
  | cons t ts ihts =>
    intro top hfit
    simp only [wordsOf, List.map_cons, List.sum_cons] at hfit ⊢
    rw [packAll, List.foldl_cons, ih t List.mem_cons_self top (by omega)]
    have hrest := ihts (fun t ht => ih t (List.mem_cons_of_mem _ ht)) (top + t.words)
      (by simp only [wordsOf]; omega)
    simp only [packAll, wordsOf] at hrest
    omega

/-- **Where there is room for the tree, its copy takes its words.** -/
theorem packed_of_fits (t : Term) : ∀ top, top + t.words ≤ cap →
    t.packed cap top = top + t.words := by
  induction t with
  | imm v => intro top _; rfl
  | cons head tail ihHead ihTail =>
    intro top hfit
    simp only [Term.words] at hfit ⊢
    rw [Term.packed, if_neg (by omega), ihHead (top + 2) (by omega), ihTail _ (by omega)]
    omega
  | tuple arity element ih =>
    intro top hfit
    rw [words_tuple_eq] at hfit ⊢
    have hall := packAll_of_fits ((List.finRange arity).map element)
      (fun t ht => by
        obtain ⟨i, _, rfl⟩ := List.mem_map.mp ht
        exact ih i) (top + (arity + 1)) (by omega)
    rw [packed_tuple, if_neg (by omega), hall]
    omega

/-- The trees of which there is room for all take the words of those before. -/
theorem packAll_take_of_fits (cap top : Nat) {ts : List Term} {k : Nat} (hk : k < ts.length)
    (hfit : top + wordsOf ts ≤ cap) :
    packAll cap (ts.take k) top + ts[k].words ≤ cap := by
  have hle := wordsOf_take_le hk
  rw [packAll_of_fits _ (fun t _ => packed_of_fits t) top (by omega)]
  omega

theorem fitted_of_fits {m : Memory} (t : Term) : ∀ (w : Eterm) (top : Nat), top + t.words ≤ cap →
    t.fitted m cap w top = t := by
  induction t with
  | imm v => intro w top _; rfl
  | cons head tail ihHead ihTail =>
    intro w top hfit
    simp only [Term.words] at hfit
    rw [Term.fitted, if_neg (by omega), ihHead _ _ (by omega), packed_of_fits head _ (by omega),
      ihTail _ _ (by omega)]
  | tuple arity element ih =>
    intro w top hfit
    rw [words_tuple_eq] at hfit
    rw [Term.fitted, if_neg (by omega)]
    refine congrArg (Term.tuple arity) (funext fun i => ih i _ _ ?_)
    have hi : (i : Nat) < ((List.finRange arity).map element).length := by simp
    have hroom := packAll_take_of_fits cap (top + (arity + 1)) hi (by omega)
    rwa [getElem_map_finRange hi] at hroom

end Packed

/-! ### What a copy leaves -/

/-- The word is a copy of the tree, laid out in the words `lo ≤ i < hi` of the new block. -/
def Laid (m : Memory) (toSpace lo hi : Nat) : Eterm → Term → Prop
  | w, .imm v => w = v
  | w, .cons head tail => ∃ i, lo ≤ i ∧ i + 2 ≤ hi ∧
    w = tagAddr (toSpace + 8 * i) tagPrimaryList ∧
    (∃ a, m.cell (toSpace + 8 * i) = some a ∧ Laid m toSpace lo hi a head) ∧
    ∃ b, m.cell (toSpace + 8 * (i + 1)) = some b ∧ Laid m toSpace lo hi b tail
  | w, .tuple arity element => ∃ i, lo ≤ i ∧ i + arity + 1 ≤ hi ∧
    w = tagAddr (toSpace + 8 * i) tagPrimaryBoxed ∧
    (∃ n : Word, n.toNat = arity ∧ arity < 2 ^ 58 ∧
      m.cell (toSpace + 8 * i) = some (makeSmallInt n)) ∧
    ∀ k : Fin arity, ∃ e, m.cell (toSpace + 8 * (i + 1 + k)) = some e ∧
      Laid m toSpace lo hi e (element k)

section Stable

variable {m m' : Memory} {toSpace lo hi lo' hi' : Nat} {w : Eterm}

/-- **A copy is stable**: a wider window and any change outside it keep the copy. -/
theorem Laid.mono (hlo : lo' ≤ lo) (hhi : hi ≤ hi')
    (hsame : ∀ i, lo ≤ i → i < hi → m'.cell (toSpace + 8 * i) = m.cell (toSpace + 8 * i))
    {t : Term} : ∀ {w : Eterm}, Laid m toSpace lo hi w t → Laid m' toSpace lo' hi' w t := by
  induction t with
  | imm v => exact fun h => h
  | cons head tail ihHead ihTail =>
    rintro w ⟨i, h1, h2, rfl, ⟨a, ha, hca⟩, b, hb, hcb⟩
    refine ⟨i, by omega, by omega, rfl, ⟨a, ?_, ihHead hca⟩, b, ?_, ihTail hcb⟩
    · rw [hsame i h1 (by omega), ha]
    · rw [hsame (i + 1) (by omega) (by omega), hb]
  | tuple arity element ih =>
    rintro w ⟨i, h1, h2, rfl, ⟨n, hn, hlt, hh⟩, he⟩
    refine ⟨i, by omega, by omega, rfl, ⟨n, hn, hlt, ?_⟩, fun k => ?_⟩
    · rw [hsame i h1 (by omega), hh]
    · obtain ⟨e, hek, hce⟩ := he k
      exact ⟨e, by rw [hsame _ (by omega) (by omega), hek], ih k hce⟩

theorem Laid.widen {t : Term} (h : Laid m toSpace lo hi w t) (hlo : lo' ≤ lo) (hhi : hi ≤ hi') :
    Laid m toSpace lo' hi' w t := h.mono hlo hhi fun _ _ _ => rfl

theorem Laid.changedIn {t : Term} (h : Laid m toSpace lo hi w t)
    (hc : m.ChangedIn toSpace lo' hi' m') (hdisj : hi ≤ lo' ∨ hi' ≤ lo) :
    Laid m' toSpace lo hi w t :=
  h.mono (le_refl lo) (le_refl hi) fun i h1 h2 => hc.cell_eq (by omega)

end Stable

/-! ### The new block -/

/-- The new block while the collector fills it: none of its words could be read before, all of
them can now, and everything that could be read before still can. -/
structure ToSpace (m₀ m : Memory) (toSpace : Nat) (toCap : Word) : Prop where
  fresh : ∀ i < toCap.toNat, m₀.cell (toSpace + 8 * i) = none
  readable : ∀ i < toCap.toNat, (m.cell (toSpace + 8 * i)).isSome
  extends' : m₀.Extends m
  small : toCap.toNat < 2 ^ 61

section ToSpace

variable {m₀ m m' : Memory} {toSpace : Nat} {toCap : Word}

theorem ToSpace.changedIn {lo hi : Nat} (h : ToSpace m₀ m toSpace toCap)
    (hc : m.ChangedIn toSpace lo hi m') (hhi : hi ≤ toCap.toNat) : ToSpace m₀ m' toSpace toCap where
  fresh := h.fresh
  readable i hi := hc.readable _ (h.readable i hi)
  extends' := h.extends'.changedIn hc fun i _ h2 => h.fresh i (by omega)
  small := h.small

theorem ToSpace.write (h : ToSpace m₀ m toSpace toCap) {i : Nat} (hi : i < toCap.toNat) (v : Word) :
    ∃ m', m.write (toSpace + 8 * i) v = some m' ∧ m.ChangedIn toSpace i (i + 1) m' ∧
      m'.cell (toSpace + 8 * i) = some v := by
  have hw := Memory.write_of_isSome v (h.readable i hi)
  exact ⟨_, hw, .of_write hw, by rw [Memory.cell_write hw, if_pos rfl]⟩

end ToSpace

/-! ### The words of a copy -/

/-- A word as the collector writes it: a leaf, a header, or a pointer to a cell of the new block. -/
inductive Placed (toSpace cap : Nat) (P : Eterm → Prop) : Eterm → Prop
  | leaf {v : Eterm} (h : P v) : Placed toSpace cap P v
  | header (n : Word) : Placed toSpace cap P (makeSmallInt n)
  | list {i : Nat} (h : i + 2 ≤ cap) : Placed toSpace cap P (tagAddr (toSpace + 8 * i) tagPrimaryList)
  | boxed {i : Nat} (h : i < cap) : Placed toSpace cap P (tagAddr (toSpace + 8 * i) tagPrimaryBoxed)

/-- The word at index `i` of the new block is such a word. -/
def Inked (m : Memory) (toSpace cap : Nat) (P : Eterm → Prop) (i : Nat) : Prop :=
  ∃ v, m.cell (toSpace + 8 * i) = some v ∧ Placed toSpace cap P v

theorem Laid.placed {m : Memory} {toSpace lo hi cap : Nat} {P : Eterm → Prop} (hhi : hi ≤ cap)
    {t : Term} (hall : t.All P) : ∀ {w : Eterm}, Laid m toSpace lo hi w t →
      Placed toSpace cap P w := by
  cases t with
  | imm v => rintro w rfl; exact .leaf hall
  | cons head tail => rintro w ⟨i, _, h2, rfl, _⟩; exact .list (by omega)
  | tuple arity element => rintro w ⟨i, _, h2, rfl, _⟩; exact .boxed (by omega)

/-! ### One copy -/

section OneCopy

variable {m₀ m m' : Memory} {toSpace : Nat} {toCap : Word}

theorem Inked.changedIn {cap i lo hi : Nat} {P : Eterm → Prop} (h : Inked m toSpace cap P i)
    (hc : m.ChangedIn toSpace lo hi m') (hout : i < lo ∨ hi ≤ i) : Inked m' toSpace cap P i := by
  obtain ⟨v, hv, hp⟩ := h
  exact ⟨v, by rw [hc.cell_eq hout, hv], hp⟩

/-- What a copy of the tree leaves: it takes words from the new block's top on and changes no other;
what finds room is laid out in them, and each of them is written. -/
structure CopyResult (m₀ : Memory) (toSpace : Nat) (toCap : Word) (t : Term) (w : Eterm)
    (m : Memory) (top : Word) (m' : Memory) (top' : Word) (w' : Eterm) : Prop where
  grows : top.toNat ≤ top'.toNat
  inside : top'.toNat ≤ toCap.toNat
  packed : top'.toNat = t.packed toCap.toNat top.toNat
  changed : m.ChangedIn toSpace top.toNat top'.toNat m'
  laid : Laid m' toSpace top.toNat top'.toNat w' (t.fitted m₀ toCap.toNat w top.toNat)
  inked : ∀ P, (t.fitted m₀ toCap.toNat w top.toNat).All P →
    ∀ i, top.toNat ≤ i → i < top'.toNat → Inked m' toSpace toCap.toNat P i

/-- The copy of every word that shows the tree has a result, whatever is left of the new block. -/
def CopiesTree (m₀ : Memory) (toSpace : Nat) (toCap : Word) (t : Term) : Prop :=
  ∀ (depth : Nat) (m : Memory) (top : Word) (w : Eterm), toCap.toNat - top.toNat < depth →
    top.toNat ≤ toCap.toNat → Shows m₀ w t → ToSpace m₀ m toSpace toCap →
    ∃ m' top' w', gcCopyTerm toSpace toCap depth m top w = some (m', top', w') ∧
      CopyResult m₀ toSpace toCap t w m top m' top' w'

theorem CopyResult.kept {t : Term} {w : Eterm} {top : Word} (htop : top.toNat ≤ toCap.toNat)
    (hpacked : t.packed toCap.toNat top.toNat = top.toNat)
    (hfitted : t.fitted m₀ toCap.toNat w top.toNat = .imm w) :
    CopyResult m₀ toSpace toCap t w m top m top w where
  grows := le_refl _
  inside := htop
  packed := hpacked.symm
  changed := .refl _ _ _ _
  laid := by rw [hfitted]; rfl
  inked _ _ i h1 h2 := absurd h2 (by omega)

theorem CopyResult.complete {t : Term} {w w' : Eterm} {top top' : Word}
    (h : CopyResult m₀ toSpace toCap t w m top m' top' w')
    (hfit : top.toNat + t.words ≤ toCap.toNat) :
    top'.toNat = top.toNat + t.words ∧ Laid m' toSpace top.toNat top'.toNat w' t := by
  have hlaid := h.laid
  rw [fitted_of_fits t w _ hfit] at hlaid
  exact ⟨h.packed.trans (packed_of_fits t _ hfit), hlaid⟩

theorem copiesTree_imm (v : Eterm) : CopiesTree m₀ toSpace toCap (.imm v) := by
  rintro depth m top w hd htop ⟨rfl, hl, ht⟩ hts
  obtain ⟨depth, rfl⟩ : ∃ d, depth = d + 1 := ⟨depth - 1, by omega⟩
  exact ⟨m, top, w, gcCopyTerm_leaf hl (beamIsTuple_extends hts.extends' ht), .kept htop rfl rfl⟩

theorem toNat_add_of_le {a b : Word} {n : Nat} (h : a.toNat + b.toNat ≤ n) (hn : n < 2 ^ 62) :
    (a + b).toNat = a.toNat + b.toNat := by
  rw [BitVec.toNat_add]
  exact Nat.mod_eq_of_lt (by omega)

/-- **A cell whose parts are copied**: the head behind the new cell, the tail behind the head, each
then stored in the cell. -/
theorem CopyResult.cons {head tail : Term} {w a b h' t' : Eterm} {top top₁ top₂ top₃ : Word}
    {m₁ m₂ m₃ m₄ : Memory} (htop₂ : top₂.toNat = top.toNat + 2)
    (hroom : top.toNat + 2 ≤ toCap.toNat) (ha : beamListHead m₀ w = some a)
    (hb : beamListTail m₀ w = some b)
    (hr₁ : CopyResult m₀ toSpace toCap head a m top₂ m₁ top₁ h')
    (hch₂ : m₁.ChangedIn toSpace top.toNat (top.toNat + 1) m₂)
    (hcell₂ : m₂.cell (toSpace + 8 * top.toNat) = some h')
    (hr₃ : CopyResult m₀ toSpace toCap tail b m₂ top₁ m₃ top₃ t')
    (hch₄ : m₃.ChangedIn toSpace (top.toNat + 1) (top.toNat + 1 + 1) m₄)
    (hcell₄ : m₄.cell (toSpace + 8 * (top.toNat + 1)) = some t') :
    CopyResult m₀ toSpace toCap (.cons head tail) w m top m₄ top₃
      (tagAddr (toSpace + 8 * top.toNat) tagPrimaryList) := by
  obtain ⟨hg₁, hin₁, hp₁, hch₁, hl₁, hi₁⟩ := hr₁
  obtain ⟨hg₃, hin₃, hp₃, hch₃, hl₃, hi₃⟩ := hr₃
  have hfitted : (Term.cons head tail).fitted m₀ toCap.toNat w top.toNat =
      .cons (head.fitted m₀ toCap.toNat a top₂.toNat)
        (tail.fitted m₀ toCap.toNat b top₁.toNat) := by
    rw [Term.fitted, if_neg (by omega), ha, hb, hp₁, htop₂]
    rfl
  have hhead : m₄.cell (toSpace + 8 * top.toNat) = some h' := by
    rw [hch₄.cell_eq (by omega), hch₃.cell_eq (by omega), hcell₂]
  refine ⟨by omega, hin₃, ?_, ?_, ?_, ?_⟩
  · rw [Term.packed, if_neg (by omega), hp₃, hp₁, htop₂]
  · exact (((hch₁.mono (by omega) (by omega)).trans (hch₂.mono (by omega) (by omega))).trans
      (hch₃.mono (by omega) (by omega))).trans (hch₄.mono (by omega) (by omega))
  · rw [hfitted]
    refine ⟨top.toNat, le_refl _, by omega, rfl, ⟨h', hhead, ?_⟩, t', hcell₄, ?_⟩
    · exact (((hl₁.changedIn hch₂ (by omega)).changedIn hch₃ (by omega)).changedIn hch₄
        (by omega)).widen (by omega) (by omega)
    · exact (hl₃.changedIn hch₄ (by omega)).widen (by omega) (by omega)
  · rw [hfitted]
    rintro P ⟨hall₁, hall₃⟩ i h1 h2
    have hcase : i = top.toNat ∨ i = top.toNat + 1 ∨ (top₂.toNat ≤ i ∧ i < top₁.toNat) ∨
        top₁.toNat ≤ i := by omega
    rcases hcase with rfl | rfl | ⟨h3, h4⟩ | h3
    · exact ⟨h', hhead, hl₁.placed (by omega) hall₁⟩
    · exact ⟨t', hcell₄, hl₃.placed (by omega) hall₃⟩
    · exact (((hi₁ P hall₁ i h3 h4).changedIn hch₂ (by omega)).changedIn hch₃
        (by omega)).changedIn hch₄ (by omega)
    · exact (hi₃ P hall₃ i h3 h2).changedIn hch₄ (by omega)

theorem copiesTree_cons {head tail : Term} (ihHead : CopiesTree m₀ toSpace toCap head)
    (ihTail : CopiesTree m₀ toSpace toCap tail) :
    CopiesTree m₀ toSpace toCap (.cons head tail) := by
  rintro depth m top w hd htop ⟨hl, ⟨a, ha, hda⟩, b, hb, hdb⟩ hts
  obtain ⟨depth, rfl⟩ : ∃ d, depth = d + 1 := ⟨depth - 1, by omega⟩
  have hsmall := hts.small
  have htop₂ : (top + 2#64).toNat = top.toNat + 2 :=
    toNat_add_of_le (n := 2 ^ 61 + 2) (by simp only [BitVec.toNat_ofNat]; omega) (by omega)
  by_cases hfull : top + 2#64 > toCap
  · -- no place for the cell: it stays in the old block
    have hover : top.toNat + 2 > toCap.toNat := by
      rwa [gt_iff_lt, BitVec.lt_def, htop₂] at hfull
    refine ⟨m, top, w, ?_, .kept htop ?_ ?_⟩
    · rw [gcCopyTerm_list hl, if_pos hfull]
    · rw [Term.packed, if_pos hover]
    · rw [Term.fitted, if_pos hover]
  · have hroom : top.toNat + 2 ≤ toCap.toNat := by
      rw [gt_iff_lt, BitVec.lt_def, htop₂] at hfull
      omega
    obtain ⟨m₁, top₁, h', hc₁, hr₁⟩ :=
      ihHead depth m (top + 2#64) a (by omega) (by omega) hda hts
    have hg₁ := hr₁.grows
    have hts₁ := hts.changedIn hr₁.changed hr₁.inside
    obtain ⟨m₂, hw₂, hch₂, hcell₂⟩ := hts₁.write (i := top.toNat) (by omega) h'
    have hts₂ := hts₁.changedIn hch₂ (by omega)
    obtain ⟨m₃, top₃, t', hc₃, hr₃⟩ :=
      ihTail depth m₂ top₁ b (by omega) hr₁.inside hdb hts₂
    have hts₃ := hts₂.changedIn hr₃.changed hr₃.inside
    obtain ⟨m₄, hw₄, hch₄, hcell₄⟩ := hts₃.write (i := top.toNat + 1) (by omega) t'
    refine ⟨m₄, top₃, tagAddr (toSpace + 8 * top.toNat) tagPrimaryList, ?_,
      .cons htop₂ hroom ha hb hr₁ hch₂ hcell₂ hr₃ hch₄ hcell₄⟩
    rw [gcCopyTerm_list hl, if_neg hfull]
    simp only [beamListHead_extends hts.extends' ha, beamListTail_extends hts.extends' hb,
      Option.bind_some, hc₁, hw₂, hc₃,
      show toSpace + 8 * top.toNat + 8 = toSpace + 8 * (top.toNat + 1) by omega, hw₄,
      Option.map_some]

end OneCopy

/-! ### Copies stored one after the other -/

section Stores

variable {m₀ m m' : Memory} {toSpace : Nat} {toCap : Word} {ts : List Term} {w : Nat → Eterm}
  {place k : Nat}

/-- What is copied of tree number `k`, when the first copy starts at `top`. -/
def fittedAt (m₀ : Memory) (cap : Nat) (ts : List Term) (w : Nat → Eterm) (top : Nat) (k : Nat)
    (hk : k < ts.length) : Term :=
  ts[k].fitted m₀ cap (w k) (packAll cap (ts.take k) top)

/-- What a loop leaves that has copied the first `k` trees and stored copy number `j` at index
`place + j` of the new block.  A store may hit a copy and a copy a store; each copy is there in the
end when the stores all lie below the copies or all behind them. -/
structure StoresResult (m₀ : Memory) (toSpace : Nat) (toCap : Word) (ts : List Term)
    (w : Nat → Eterm) (place k : Nat) (m : Memory) (top : Word) (m' : Memory) (top' : Word) :
    Prop where
  grows : top.toNat ≤ top'.toNat
  inside : top'.toNat ≤ toCap.toNat
  packed : top'.toNat = packAll toCap.toNat (ts.take k) top.toNat
  space : ToSpace m₀ m' toSpace toCap
  changed : ∀ lo hi, lo ≤ top.toNat → lo ≤ place → top'.toNat ≤ hi → place + k ≤ hi →
    m.ChangedIn toSpace lo hi m'
  kept : ∀ i, i < top.toNat ∨ top'.toNat ≤ i → i < place ∨ place + k ≤ i →
    m'.cell (toSpace + 8 * i) = m.cell (toSpace + 8 * i)
  laid : place + k ≤ top.toNat ∨ top'.toNat ≤ place → ∀ j (hj : j < ts.length), j < k →
    ∃ e, m'.cell (toSpace + 8 * (place + j)) = some e ∧
      Laid m' toSpace top.toNat top'.toNat e (fittedAt m₀ toCap.toNat ts w top.toNat j hj)
  inked : ∀ P, (∀ j (hj : j < ts.length), j < k →
      (fittedAt m₀ toCap.toNat ts w top.toNat j hj).All P) →
    ∀ i, top.toNat ≤ i ∧ i < top'.toNat ∨ place ≤ i ∧ i < place + k →
      Inked m' toSpace toCap.toNat P i

theorem StoresResult.refl {top : Word} (hts : ToSpace m₀ m toSpace toCap)
    (htop : top.toNat ≤ toCap.toNat) :
    StoresResult m₀ toSpace toCap ts w place 0 m top m top where
  grows := le_refl _
  inside := htop
  packed := rfl
  space := hts
  changed _ _ _ _ _ _ := .refl _ _ _ _
  kept _ _ _ := rfl
  laid _ _ _ hj := absurd hj (Nat.not_lt_zero _)
  inked _ _ i hi := absurd hi (by omega)

/-- **One turn of the loop**: one more tree is copied, and its copy stored. -/
theorem StoresResult.next {top top₁ top₂ : Word} {m₁ m₂ m₃ : Memory} {e : Eterm}
    (hk : k < ts.length) (hplace : place + k < toCap.toNat)
    (hr₁ : StoresResult m₀ toSpace toCap ts w place k m top m₁ top₁)
    (hr₂ : CopyResult m₀ toSpace toCap ts[k] (w k) m₁ top₁ m₂ top₂ e)
    (hch₃ : m₂.ChangedIn toSpace (place + k) (place + k + 1) m₃)
    (hcell₃ : m₃.cell (toSpace + 8 * (place + k)) = some e) :
    StoresResult m₀ toSpace toCap ts w place (k + 1) m top m₃ top₂ := by
  obtain ⟨hg₁, hin₁, hp₁, hts₁, hch₁, hkeep₁, hl₁, hi₁⟩ := hr₁
  obtain ⟨hg₂, hin₂, hp₂, hch₂, hl₂, hi₂⟩ := hr₂
  have hfitted : fittedAt m₀ toCap.toNat ts w top.toNat k hk =
      ts[k].fitted m₀ toCap.toNat (w k) top₁.toNat := by rw [fittedAt, hp₁]
  refine ⟨by omega, hin₂, ?_, (hts₁.changedIn hch₂ hin₂).changedIn hch₃ (by omega),
    fun lo hi h1 h2 h3 h4 => ?_, fun i h1 h2 => ?_, fun hapart j hj hjk => ?_,
    fun P hall i hi => ?_⟩
  · rw [hp₂, hp₁, packAll_take_succ hk]
  · exact ((hch₁ lo hi h1 h2 (by omega) (by omega)).trans (hch₂.mono (by omega) (by omega))).trans
      (hch₃.mono (by omega) (by omega))
  · rw [hch₃.cell_eq (by omega), hch₂.cell_eq (by omega), hkeep₁ i (by omega) (by omega)]
  · by_cases hlast : j = k
    · subst hlast
      rw [hfitted]
      exact ⟨e, hcell₃, (hl₂.changedIn hch₃ (by omega)).widen (by omega) (le_refl _)⟩
    · -- a copy stored before is still there
      obtain ⟨ej, hcj, hlj⟩ := hl₁ (by omega) j hj (by omega)
      refine ⟨ej, by rw [hch₃.cell_eq (by omega), hch₂.cell_eq (by omega), hcj], ?_⟩
      exact ((hlj.changedIn hch₂ (by omega)).changedIn hch₃ (by omega)).widen (le_refl _) hg₂
  · have hlast := hall k hk (Nat.lt_succ_self k)
    rw [hfitted] at hlast
    by_cases hstore : i = place + k
    · subst hstore
      exact ⟨e, hcell₃, hl₂.placed hin₂ hlast⟩
    by_cases hcopy : top₁.toNat ≤ i ∧ i < top₂.toNat
    · exact (hi₂ P hlast i hcopy.1 hcopy.2).changedIn hch₃ (by omega)
    · have hold := hi₁ P (fun j hj hjk => hall j hj (by omega)) i (by omega)
      exact (hold.changedIn hch₂ (by omega)).changedIn hch₃ (by omega)

/-- **A loop** whose turns each copy a word and store the copy. -/
theorem stores_spec (ts : List Term) (w : Nat → Eterm) (place : Nat)
    {f : Memory × Word → Nat → Option (Memory × Word)} {depth : Nat} {top : Word}
    (hcopies : ∀ k (hk : k < ts.length), CopiesTree m₀ toSpace toCap ts[k])
    (hshows : ∀ k (hk : k < ts.length), Shows m₀ (w k) ts[k])
    (hturn : ∀ k < ts.length, ∀ (m : Memory) (top : Word) (m₁ : Memory) (top' : Word) (e : Eterm)
      (m₂ : Memory), ToSpace m₀ m toSpace toCap →
      gcCopyTerm toSpace toCap depth m top (w k) = some (m₁, top', e) →
      m₁.write (toSpace + 8 * (place + k)) e = some m₂ → f (m, top) k = some (m₂, top'))
    (hd : toCap.toNat - top.toNat < depth) (hplace : ∀ k < ts.length, place + k < toCap.toNat)
    (hts : ToSpace m₀ m toSpace toCap) (htop : top.toNat ≤ toCap.toNat) :
    ∀ k ≤ ts.length, ∃ m' top', (List.range k).foldlM f (m, top) = some (m', top') ∧
      StoresResult m₀ toSpace toCap ts w place k m top m' top' := by
  intro k
  induction k with
  | zero => exact fun _ => ⟨m, top, rfl, .refl hts htop⟩
  | succ k ih =>
    intro hk
    obtain ⟨m₁, top₁, hf, hr₁⟩ := ih (by omega)
    have hg₁ := hr₁.grows
    obtain ⟨m₂, top₂, e, hc₂, hr₂⟩ :=
      hcopies k hk depth m₁ top₁ (w k) (by omega) hr₁.inside (hshows k hk) hr₁.space
    have hts₂ := hr₁.space.changedIn hr₂.changed hr₂.inside
    obtain ⟨m₃, hw₃, hch₃, hcell₃⟩ := hts₂.write (hplace k hk) e
    refine ⟨m₃, top₂, ?_, hr₁.next hk (hplace k hk) hr₂ hch₃ hcell₃⟩
    rw [List.range_succ, List.foldlM_append, hf]
    show (f (m₁, top₁) k).bind some = _
    rw [hturn k hk m₁ top₁ m₂ top₂ e m₃ hr₁.space hc₂ hw₃]
    rfl

end Stores

section Copy

variable {m₀ : Memory} {toSpace : Nat} {toCap : Word}

/-- **The loop over the elements**, which are copied behind the words of the tuple at `base`. -/
theorem elements_spec (base : Nat) {arity depth : Nat} {element : Fin arity → Term} {w : Eterm}
    {m : Memory} {top : Word} (ih : ∀ i, CopiesTree m₀ toSpace toCap (element i))
    (he : ∀ i : Fin arity, ∃ e, beamTupleElement m₀ w i = some e ∧ Shows m₀ e (element i))
    (hd : toCap.toNat - top.toNat < depth) (hplace : base + 1 + arity ≤ toCap.toNat)
    (hts : ToSpace m₀ m toSpace toCap) (htop : top.toNat ≤ toCap.toNat) :
    ∃ m' top', (List.range arity).foldlM
        (gcCopyElement (gcCopyTerm toSpace toCap depth) toSpace base w) (m, top) =
          some (m', top') ∧
      StoresResult m₀ toSpace toCap ((List.finRange arity).map element)
        (fun k => (beamTupleElement m₀ w k).getD 0#64) (base + 1) arity m top m' top' := by
  have hlen : ((List.finRange arity).map element).length = arity := by simp
  have hword : ∀ k (hk : k < arity), ∃ e, beamTupleElement m₀ w k = some e ∧
      (beamTupleElement m₀ w k).getD 0#64 = e ∧ Shows m₀ e (element ⟨k, hk⟩) := fun k hk => by
    obtain ⟨e, hek, hde⟩ := he ⟨k, hk⟩
    exact ⟨e, hek, by rw [hek]; rfl, hde⟩
  refine stores_spec _ _ (base + 1) (fun k hk => ?_) (fun k hk => ?_)
    (fun k hk m top m₁ top' e' m₂ hts hc hw => ?_) hd (fun k hk => by omega) hts htop arity
    (by omega)
  · rw [getElem_map_finRange hk]
    exact ih _
  · obtain ⟨e, _, hget, hde⟩ := hword k (by omega)
    rw [getElem_map_finRange hk, hget]
    exact hde
  · obtain ⟨e, hek, hget, _⟩ := hword k (by omega)
    rw [hget] at hc
    rw [gcCopyElement, beamTupleElement_extends hts.extends' hek, Option.bind_some]
    dsimp only
    rw [hc, Option.bind_some, hw]
    rfl

/-- With room for its words a tuple stays a tuple, and its elements are what the loop copies. -/
theorem fitted_tuple {arity cap top : Nat} (element : Fin arity → Term) (w : Eterm)
    (hroom : top + (arity + 1) ≤ cap) :
    (Term.tuple arity element).fitted m₀ cap w top =
      .tuple arity fun i => fittedAt m₀ cap ((List.finRange arity).map element)
        (fun k => (beamTupleElement m₀ w k).getD 0#64) (top + (arity + 1)) i
        (by rw [List.length_map, List.length_finRange]; exact i.isLt) := by
  rw [Term.fitted, if_neg (by omega)]
  refine congrArg _ (funext fun i => ?_)
  rw [fittedAt, getElem_map_finRange]

theorem copiesTree_tuple {arity : Nat} {element : Fin arity → Term}
    (ih : ∀ i, CopiesTree m₀ toSpace toCap (element i)) :
    CopiesTree m₀ toSpace toCap (.tuple arity element) := by
  rintro depth m top w hd htop ⟨ht, ⟨n, hn, rfl⟩, he⟩ hts
  obtain ⟨depth, rfl⟩ : ∃ d, depth = d + 1 := ⟨depth - 1, by omega⟩
  have hsmall := hts.small
  have harity := beamTupleArity_lt hn
  have hwords : (n + 1#64).toNat = n.toNat + 1 :=
    toNat_add_of_le (n := 2 ^ 58 + 1) (by simp only [BitVec.toNat_ofNat]; omega) (by omega)
  have htop₀ : (top + (n + 1#64)).toNat = top.toNat + (n.toNat + 1) := by
    rw [toNat_add_of_le (n := 2 ^ 61 + 2 ^ 58 + 1) (by omega) (by omega), hwords]
  by_cases hfull : top + (n + 1#64) > toCap
  · -- no place for the tuple: it stays in the old block
    have hover : top.toNat + (n.toNat + 1) > toCap.toNat := by
      rwa [gt_iff_lt, BitVec.lt_def, htop₀] at hfull
    refine ⟨m, top, w, ?_, .kept htop ?_ ?_⟩
    · rw [gcCopyTerm_tuple (beamIsTuple_extends hts.extends' ht)
        (beamTupleArity_extends hts.extends' hn), if_pos hfull]
    · rw [packed_tuple, if_pos hover]
    · rw [Term.fitted, if_pos hover]
  · have hroom : top.toNat + (n.toNat + 1) ≤ toCap.toNat := by
      rw [gt_iff_lt, BitVec.lt_def, htop₀] at hfull
      omega
    obtain ⟨m₁, hw₁, hch₁, hcell₁⟩ := hts.write (i := top.toNat) (by omega) (makeSmallInt n)
    have hts₁ := hts.changedIn hch₁ (by omega)
    have hlen : ((List.finRange n.toNat).map element).length = n.toNat := by simp
    obtain ⟨m₂, top₂, hf, hg, hin, hp, -, hch, hkeep, hlaid, hinked⟩ :=
      elements_spec top.toNat ih he (show toCap.toNat - (top + (n + 1#64)).toNat < depth
        by omega) (by omega) hts₁ (by omega)
    have hfitted : (Term.tuple n.toNat element).fitted m₀ toCap.toNat w top.toNat = _ :=
      fitted_tuple element w hroom
    simp only [← htop₀] at hfitted
    have hheader : m₂.cell (toSpace + 8 * top.toNat) = some (makeSmallInt n) := by
      rw [hkeep _ (by omega) (by omega), hcell₁]
    refine ⟨m₂, top₂, tagAddr (toSpace + 8 * top.toNat) tagPrimaryBoxed, ?_,
      ⟨by omega, hin, ?_, ?_, ?_, fun P hall i h1 h2 => ?_⟩⟩
    · rw [gcCopyTerm_tuple (beamIsTuple_extends hts.extends' ht)
        (beamTupleArity_extends hts.extends' hn), if_neg hfull]
      simp only [hw₁, Option.bind_some, hf, Option.map_some]
    · rw [hp, List.take_of_length_le (by omega), packed_tuple, if_neg (by omega), htop₀]
    · exact (hch₁.mono (by omega) (by omega)).trans
        (hch _ _ (by omega) (by omega) (by omega) (by omega))
    · rw [hfitted]
      refine ⟨top.toNat, le_refl _, by omega, rfl, ⟨n, rfl, harity, hheader⟩, fun k => ?_⟩
      obtain ⟨e, hek, hl⟩ := hlaid (by omega) k (by omega) k.isLt
      exact ⟨e, hek, hl.widen (by omega) (le_refl _)⟩
    · rw [hfitted] at hall
      by_cases hfirst : i = top.toNat
      · rw [hfirst]
        exact ⟨_, hheader, .header n⟩
      · exact hinked P (fun j hj hjk => hall ⟨j, hjk⟩) i (by omega)

/-- **One copy**, over every tree. -/
theorem gcCopyTerm_spec (t : Term) : CopiesTree m₀ toSpace toCap t := by
  induction t with
  | imm v => exact copiesTree_imm v
  | cons head tail ihHead ihTail => exact copiesTree_cons ihHead ihTail
  | tuple arity element ih => exact copiesTree_tuple ih

end Copy

end BeamModular
