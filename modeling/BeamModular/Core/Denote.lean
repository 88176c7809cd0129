import BeamModular.Core.Term

/-!
# What a term means

A `Term` is a finite tree: immediates, list cells and tuples.  `Unfolds leaf m w t` says
that the word `w`, read recursively through the accessors of `beam_core.h` down to leaves
of one kind, is the tree `t`; `Denotes m w t` is the case where the leaves are the
immediates.  The memory may share cells between terms; the tree does not, so
`Term.words` counts a shared cell once for each place it is reached from, as a
copy that keeps no forwarding addresses does.

A word denotes at most one tree (`Denotes.unique`), and a tree is kept by every
change that leaves the readable words alone (`Denotes.extends`).
-/

namespace BeamModular

/-- A term as a tree. -/
inductive Term
  | imm (w : Eterm)
  | cons (head tail : Term)
  | tuple (arity : Nat) (element : Fin arity → Term)

namespace Term

/-- The words a copy of the term takes. -/
def words : Term → Nat
  | imm _ => 0
  | cons head tail => 2 + head.words + tail.words
  | tuple arity element => arity + 1 + ∑ i, (element i).words

/-- No tuple anywhere in the term. -/
def TupleFree : Term → Prop
  | imm _ => True
  | cons head tail => head.TupleFree ∧ tail.TupleFree
  | tuple _ _ => False

/-- Every leaf of the tree has the property. -/
def All (P : Eterm → Prop) : Term → Prop
  | imm v => P v
  | cons head tail => head.All P ∧ tail.All P
  | tuple _ element => ∀ i, (element i).All P

end Term

/-- The word carries no pointer: neither a list nor a boxed term. -/
def IsImmediate (w : Eterm) : Prop := w.toNat % 4 ≠ 1 ∧ w.toNat % 4 ≠ 2

instance (w : Eterm) : Decidable (IsImmediate w) :=
  inferInstanceAs (Decidable (w.toNat % 4 ≠ 1 ∧ w.toNat % 4 ≠ 2))

/-- The word is the tree, through the accessors, with leaves of this kind. -/
def Unfolds (leaf : Eterm → Prop) (m : Memory) : Eterm → Term → Prop
  | w, .imm v => w = v ∧ leaf w
  | w, .cons head tail => beamIsList w = true ∧
    (∃ a, beamListHead m w = some a ∧ Unfolds leaf m a head) ∧
    ∃ b, beamListTail m w = some b ∧ Unfolds leaf m b tail
  | w, .tuple arity element => beamIsTuple m w = some true ∧
    (∃ n, beamTupleArity m w = some n ∧ n.toNat = arity) ∧
    ∀ i : Fin arity, ∃ e, beamTupleElement m w i = some e ∧ Unfolds leaf m e (element i)

/-- The word shows the tree of immediates, list cells and tuples. -/
abbrev Denotes (m : Memory) : Eterm → Term → Prop := Unfolds IsImmediate m

/-! ### Immediates -/

theorem IsImmediate.not_list {w : Eterm} (h : IsImmediate w) : beamIsList w = false := by
  rw [Bool.eq_false_iff, Ne, beamIsList_iff]
  exact h.1

theorem isImmediate_makeSmallInt (v : Word) : IsImmediate (makeSmallInt v) := by
  have := toNat_makeSmallInt v
  unfold IsImmediate
  omega

theorem IsImmediate.not_tuple {w : Eterm} (h : IsImmediate w) (m : Memory) :
    beamIsTuple m w = some false := beamIsTuple_of_not_boxed h.2

/-! ### The accessors under an extension of the memory -/

section Extends

variable {m m' : Memory}

theorem beamIsTuple_extends (h : m.Extends m') {w : Eterm} {b : Bool}
    (hb : beamIsTuple m w = some b) : beamIsTuple m' w = some b := by
  unfold beamIsTuple at hb ⊢
  split
  · rwa [if_pos ‹_›] at hb
  · rw [if_neg ‹_›] at hb
    split
    · rwa [if_pos ‹_›] at hb
    · rw [if_neg ‹_›] at hb
      obtain ⟨header, hc, hh⟩ := Option.map_eq_some_iff.mp hb
      rw [h _ _ hc, Option.map_some, hh]

theorem beamTupleArity_extends (h : m.Extends m') {w : Eterm} {n : Word}
    (hn : beamTupleArity m w = some n) : beamTupleArity m' w = some n := by
  obtain ⟨b, hb, hr⟩ := Option.bind_eq_some_iff.mp hn
  rw [beamTupleArity, beamIsTuple_extends h hb]
  cases b with
  | false => exact hr
  | true =>
    obtain ⟨header, hc, hh⟩ := Option.map_eq_some_iff.mp hr
    simp only [Option.bind_some, if_true]
    rw [h _ _ hc, Option.map_some, hh]

theorem beamTupleElement_extends (h : m.Extends m') {w e : Eterm} {i : Nat}
    (he : beamTupleElement m w i = some e) : beamTupleElement m' w i = some e := by
  obtain ⟨b, hb, hr⟩ := Option.bind_eq_some_iff.mp he
  rw [beamTupleElement, beamIsTuple_extends h hb]
  cases b with
  | false => exact hr
  | true => exact h _ _ hr

theorem beamListHead_extends (h : m.Extends m') {w a : Eterm}
    (ha : beamListHead m w = some a) : beamListHead m' w = some a := by
  unfold beamListHead at ha ⊢
  split
  · rw [if_pos ‹_›] at ha
    exact h _ _ ha
  · rwa [if_neg ‹_›] at ha

theorem beamListTail_extends (h : m.Extends m') {w b : Eterm}
    (hb : beamListTail m w = some b) : beamListTail m' w = some b := by
  unfold beamListTail at hb ⊢
  split
  · rw [if_pos ‹_›] at hb
    exact h _ _ hb
  · rwa [if_neg ‹_›] at hb

/-- **A tree stays where the readable words stay.** -/
theorem Unfolds.extends {leaf : Eterm → Prop} (h : m.Extends m') {t : Term} :
    ∀ {w : Eterm}, Unfolds leaf m w t → Unfolds leaf m' w t := by
  induction t with
  | imm v => exact fun hd => hd
  | cons head tail ihHead ihTail =>
    rintro w ⟨hl, ⟨a, ha, hda⟩, b, hb, hdb⟩
    exact ⟨hl, ⟨a, beamListHead_extends h ha, ihHead hda⟩,
      b, beamListTail_extends h hb, ihTail hdb⟩
  | tuple arity element ih =>
    rintro w ⟨ht, ⟨n, hn, rfl⟩, he⟩
    refine ⟨beamIsTuple_extends h ht, ⟨n, beamTupleArity_extends h hn, rfl⟩, fun i => ?_⟩
    obtain ⟨e, hei, hde⟩ := he i
    exact ⟨e, beamTupleElement_extends h hei, ih i hde⟩

theorem Denotes.extends (h : m.Extends m') {w : Eterm} {t : Term} (hd : Denotes m w t) :
    Denotes m' w t := Unfolds.extends h hd

end Extends

theorem Unfolds.mono {m : Memory} {leaf leaf' : Eterm → Prop} (h : ∀ v, leaf v → leaf' v)
    {t : Term} : ∀ {w : Eterm}, Unfolds leaf m w t → Unfolds leaf' m w t ∧ t.All leaf := by
  induction t with
  | imm v =>
    rintro w ⟨rfl, hi⟩
    exact ⟨⟨rfl, h w hi⟩, hi⟩
  | cons head tail ihHead ihTail =>
    rintro w ⟨hl, ⟨a, ha, hda⟩, b, hb, hdb⟩
    exact ⟨⟨hl, ⟨a, ha, (ihHead hda).1⟩, b, hb, (ihTail hdb).1⟩, (ihHead hda).2, (ihTail hdb).2⟩
  | tuple arity element ih =>
    rintro w ⟨ht, hn, he⟩
    refine ⟨⟨ht, hn, fun i => ?_⟩, fun i => ?_⟩
    · obtain ⟨e, hei, hde⟩ := he i
      exact ⟨e, hei, (ih i hde).1⟩
    · obtain ⟨e, hei, hde⟩ := he i
      exact (ih i hde).2

/-! ### One word, one tree -/

theorem beamIsTuple_of_list {m : Memory} {w : Eterm} (h : beamIsList w = true) :
    beamIsTuple m w = some false := by
  apply beamIsTuple_of_not_boxed
  rw [beamIsList_iff] at h
  omega

/-- **A word shows at most one tree.** -/
theorem Denotes.unique {m : Memory} {t : Term} :
    ∀ {w : Eterm} {t' : Term}, Denotes m w t → Denotes m w t' → t = t' := by
  induction t with
  | imm v =>
    rintro w t' ⟨rfl, hi⟩ h'
    cases t' with
    | imm v' => rw [h'.1]
    | cons _ _ => exact absurd h'.1 (by rw [hi.not_list]; decide)
    | tuple _ _ => exact absurd h'.1 (by rw [hi.not_tuple]; simp)
  | cons head tail ihHead ihTail =>
    rintro w t' ⟨hl, ⟨a, ha, hda⟩, b, hb, hdb⟩ h'
    cases t' with
    | imm v' => exact absurd hl (by rw [h'.2.not_list]; decide)
    | cons head' tail' =>
      obtain ⟨_, ⟨a', ha', hda'⟩, b', hb', hdb'⟩ := h'
      rw [ha] at ha'
      rw [hb] at hb'
      cases ha'
      cases hb'
      rw [ihHead hda hda', ihTail hdb hdb']
    | tuple _ _ => exact absurd h'.1 (by rw [beamIsTuple_of_list hl]; simp)
  | tuple arity element ih =>
    rintro w t' ⟨ht, ⟨n, hn, rfl⟩, he⟩ h'
    cases t' with
    | imm v' => exact absurd ht (by rw [h'.2.not_tuple]; simp)
    | cons _ _ => exact absurd ht (by rw [beamIsTuple_of_list h'.1]; simp)
    | tuple arity' element' =>
      obtain ⟨_, ⟨n', hn', rfl⟩, he'⟩ := h'
      rw [hn] at hn'
      cases hn'
      congr 1
      funext i
      obtain ⟨e, hei, hde⟩ := he i
      obtain ⟨e', hei', hde'⟩ := he' i
      rw [hei] at hei'
      cases hei'
      exact ih i hde hde'

end BeamModular
