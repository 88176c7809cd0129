import BeamModular.Global.AtomTable

/-!
# Which terms are atoms

An atom term carries the number of its name in the bits above the tag.  `atom_index`
takes 32 of these 60 bits, so the 28 highest ones are not looked at: beside an atom
that has been returned, `beam_atom_lookup` accepts every term that differs from it in
those bits only.

`lookupExact_iff` is for every table, whatever its allocator refuses, after any steps
of any threads: a term is accepted exactly if a call has returned it, and leads back
to itself, unless it is one of those.
-/

namespace BeamModular

/-- An atom term is its tag and its number, and nothing above them. -/
theorem eq_atomEterm_iff {term : Eterm} :
    term = atomEterm (atomIndex term) ↔ term &&& 15#64 = tagImmed1Atom ∧ term.toNat < 2 ^ 36 := by
  have hindex : (atomIndex term).toNat = term.toNat / 2 ^ 4 % 2 ^ 32 := by
    rw [atomIndex, BitVec.toNat_setWidth, BitVec.toNat_ushiftRight, Nat.shiftRight_eq_div_pow]
  constructor
  · intro h
    refine ⟨?_, ?_⟩
    · rw [h]
      exact atomEterm_tag _
    · have hlt := (atomIndex term).isLt
      rw [h, toNat_atomEterm]
      omega
  · rintro ⟨htag, hlt⟩
    have hlow := congrArg BitVec.toNat htag
    rw [toNat_and_fifteen, show tagImmed1Atom.toNat = 11 from rfl] at hlow
    apply BitVec.eq_of_toNat_eq
    rw [toNat_atomEterm, hindex]
    omega

section Issued

variable {κ : Type}

/-- The term has been returned by a call that succeeded. -/
def Interning.Issued (s : Interning κ) (term : Eterm) : Prop :=
  ∃ name, (name, term) ∈ s.log ∧ term ≠ 0#64

/-- What has been returned, beside the 0 of calls that failed, are the numbers of the names. -/
structure Interning.Numbered (s : Interning κ) (names : List (List Byte))
    (L : Nat → List (Nat × AtomEntry)) : Prop where
  interned : Interned s.table names L
  issued : ∀ term, s.Issued term ↔ ∃ i < names.length, term = atomEterm (BitVec.ofNat 32 i)

theorem atomEterm_ne_zero (index : BitVec 32) : atomEterm index ≠ 0#64 := by
  intro h
  have htag := atomEterm_tag index
  rw [h] at htag
  exact absurd htag (by decide)

namespace Interning

variable [DecidableEq κ] {s : Interning κ} {k : κ}

theorem issued_answer {t : AtomTable} {name : List Byte} {term other : Eterm} :
    (s.answer k t name term).Issued other ↔ (other = term ∧ term ≠ 0#64) ∨ s.Issued other := by
  constructor
  · rintro ⟨n, hm, hne⟩
    rcases List.mem_cons.mp hm with he | hm
    · cases he
      exact Or.inl ⟨rfl, hne⟩
    · exact Or.inr ⟨n, hm, hne⟩
  · rintro (⟨rfl, hne⟩ | ⟨n, hm, hne⟩)
    · exact ⟨name, List.mem_cons_self, hne⟩
    · exact ⟨n, List.mem_cons_of_mem _ hm, hne⟩

namespace Numbered

variable {s' : Interning κ} {names : List (List Byte)} {L : Nat → List (Nat × AtomEntry)}

omit [DecidableEq κ] in
theorem start {initialCapacity : Nat} {alloc : Nat → Bool}
    {realloc : Nat → Option (Nat → Option Nat)} {t : AtomTable}
    (hsize : 8 * initialCapacity < 2 ^ 64)
    (hnew : beamAtomTableCreate initialCapacity alloc realloc = some t) :
    (Interning.start t : Interning κ).Numbered [] fun _ => [] := by
  refine ⟨interned_create hsize hnew, fun term => iff_of_false ?_ ?_⟩
  · rintro ⟨_, hm, _⟩
    cases hm
  · rintro ⟨_, hlt, _⟩
    exact Nat.not_lt_zero _ hlt

theorem answer_old (h : s.Numbered names L) {i : Nat} {name : List Byte}
    (hi : names[i]? = some name) :
    (s.answer k s.table name (atomEterm (BitVec.ofNat 32 i))).Numbered names L := by
  refine ⟨h.interned, fun term => ?_⟩
  rw [issued_answer, h.issued]
  refine or_iff_right_of_imp ?_
  rintro ⟨rfl, _⟩
  exact ⟨i, (List.getElem?_eq_some_iff.mp hi).1, rfl⟩

theorem answer_failed (h : s.Numbered names L) {t : AtomTable} {name : List Byte}
    (ht : Interned t names L) : (s.answer k t name 0#64).Numbered names L := by
  refine ⟨ht, fun term => ?_⟩
  rw [issued_answer, h.issued]
  exact or_iff_right fun he => he.2 rfl

theorem answer_new (h : s.Numbered names L) {t : AtomTable} {name : List Byte}
    {L' : Nat → List (Nat × AtomEntry)} (ht : Interned t (names ++ [name]) L') :
    (s.answer k t name (atomEterm (BitVec.ofNat 32 names.length))).Numbered (names ++ [name])
      L' := by
  refine ⟨ht, fun term => ?_⟩
  rw [issued_answer, h.issued, List.length_append, List.length_singleton]
  constructor
  · rintro (⟨rfl, _⟩ | ⟨i, hi, rfl⟩)
    · exact ⟨names.length, Nat.lt_succ_self _, rfl⟩
    · exact ⟨i, Nat.lt_succ_of_lt hi, rfl⟩
  · rintro ⟨i, hi, rfl⟩
    rcases Nat.lt_succ_iff_lt_or_eq.mp hi with hlt | rfl
    · exact Or.inr ⟨i, hlt, rfl⟩
    · exact Or.inl ⟨rfl, atomEterm_ne_zero _⟩

theorem search (h : s.Numbered names L) {call : AtomCall}
    (hs : s.step (.search k call) = some s') : s'.Numbered names L := by
  rw [Interning.step] at hs
  cases hk : s.threads k with
  | missed name =>
    rw [hk] at hs
    cases hs
  | idle =>
    rw [hk] at hs
    dsimp only at hs
    rcases h.interned.findEntry call.name with ⟨_, hf⟩ | ⟨i, node, hi, hf⟩
    · rw [hf] at hs
      cases hs
      exact ⟨h.interned, h.issued⟩
    · rw [hf] at hs
      cases hs
      exact h.answer_old hi

theorem insert (h : s.Numbered names L) (hs : s.step (.insert k) = some s') :
    ∃ names' L', s'.Numbered names' L' := by
  rw [Interning.step] at hs
  cases hk : s.threads k with
  | idle =>
    rw [hk] at hs
    cases hs
  | missed name =>
    rw [hk] at hs
    dsimp only at hs
    rcases h.interned.findEntry name with ⟨hnew, hf⟩ | ⟨i, node, hi, hf⟩
    · rw [hf] at hs
      have hfew : ¬ s.table.Exhausted := fun hfull => by
        rw [Option.bind_some, AtomTable.insert, if_pos hfull] at hs
        cases hs
      obtain ⟨t', ⟨hins, ht⟩ | ⟨L', hins, ht⟩⟩ := h.interned.insert_cases hfew hnew
      · dsimp only [Option.bind_some] at hs
        rw [hins] at hs
        cases hs
        exact ⟨names, L, h.answer_failed ht⟩
      · dsimp only [Option.bind_some] at hs
        rw [hins] at hs
        cases hs
        exact ⟨names ++ [name], L', h.answer_new ht⟩
    · rw [hf] at hs
      cases hs
      exact ⟨names, L, h.answer_old hi⟩

theorem step (h : s.Numbered names L) {act : AtomAct κ} (hs : s.step act = some s') :
    ∃ names' L', s'.Numbered names' L' := by
  cases act with
  | search k call => exact ⟨names, L, h.search hs⟩
  | insert k => exact h.insert hs

theorem of_run {initialCapacity : Nat} {alloc : Nat → Bool}
    {realloc : Nat → Option (Nat → Option Nat)} {t : AtomTable}
    (hsize : 8 * initialCapacity < 2 ^ 64)
    (hnew : beamAtomTableCreate initialCapacity alloc realloc = some t) {acts : List (AtomAct κ)}
    (hrun : run Interning.step (Interning.start t) acts = some s) :
    ∃ names L, s.Numbered names L :=
  run_invariant (fun s : Interning κ => ∃ names L, s.Numbered names L)
    (fun _ _ _ ⟨_, _, hi⟩ hs => hi.step hs) ⟨_, _, start hsize hnew⟩ hrun

end Numbered

end Interning

/-! ### What is accepted -/

variable {s : Interning κ} {names : List (List Byte)} {L : Nat → List (Nat × AtomEntry)}

theorem Interned.lookup_isSome_iff {t : AtomTable} (h : Interned t names L) {term : Eterm} :
    (∃ buffer, beamAtomLookup t term = some (some buffer)) ↔
      term &&& 15#64 = tagImmed1Atom ∧ (atomIndex term).toNat < t.count := by
  rw [h.lookup_eq, h.count]
  by_cases htag : term &&& 15#64 = tagImmed1Atom
  · rw [if_pos htag, and_iff_right htag]
    cases hi : names[(atomIndex term).toNat]? with
    | none => simpa using List.getElem?_eq_none_iff.mp hi
    | some name => simpa using (List.getElem?_eq_some_iff.mp hi).1
  · rw [if_neg htag]
    simp [htag]

/-- An atom that has been returned has the tag and the number of a name, and is small. -/
theorem Interning.Numbered.issued_iff (h : s.Numbered names L) {term : Eterm} :
    s.Issued term ↔ term &&& 15#64 = tagImmed1Atom ∧ (atomIndex term).toNat < s.table.count ∧
      term.toNat < 2 ^ 36 := by
  rw [h.issued, h.interned.count]
  constructor
  · rintro ⟨i, hi, rfl⟩
    have hlow : (atomIndex (atomEterm (BitVec.ofNat 32 i))).toNat ≤ i := by
      rw [atomIndex_atomEterm, BitVec.toNat_ofNat]
      exact Nat.mod_le _ _
    have hself := congrArg atomEterm (atomIndex_atomEterm (BitVec.ofNat 32 i))
    obtain ⟨htag, hlt⟩ := eq_atomEterm_iff.mp hself.symm
    exact ⟨htag, hlow.trans_lt hi, hlt⟩
  · rintro ⟨htag, hi, hlt⟩
    refine ⟨_, hi, ?_⟩
    rw [BitVec.ofNat_toNat, BitVec.setWidth_eq]
    exact eq_atomEterm_iff.mpr ⟨htag, hlt⟩

variable [DecidableEq κ]

/-- **What is said of one term**: it is accepted exactly if it has been returned, and a call of
`beam_atom_intern` with the string it leads to returns it. -/
structure LookupExact (s : Interning κ) (term : Eterm) : Prop where
  accepted : (∃ buffer, beamAtomLookup s.table term = some (some buffer)) ↔ s.Issued term
  back : ∀ k name, beamAtomLookup s.table term = some (some (name ++ [0#8])) → 0#8 ∉ name →
    s.threads k = .idle →
    s.step (.search k (.intern (name ++ [0#8]))) = some (s.answer k s.table name term)

theorem Interning.Numbered.back (h : s.Numbered names L) {term : Eterm} (hlt : term.toNat < 2 ^ 36)
    {k : κ} {name : List Byte}
    (hl : beamAtomLookup s.table term = some (some (name ++ [0#8]))) (hnul : 0#8 ∉ name)
    (hk : s.threads k = .idle) :
    s.step (.search k (.intern (name ++ [0#8]))) = some (s.answer k s.table name term) := by
  obtain ⟨htag, _⟩ := h.interned.lookup_isSome_iff.mp ⟨_, hl⟩
  rw [h.interned.lookup_eq, if_pos htag, Option.some_inj, Option.map_eq_some_iff] at hl
  obtain ⟨other, hi, he⟩ := hl
  obtain rfl : other = name := List.append_cancel_right he
  obtain ⟨hil, hie⟩ := List.getElem?_eq_some_iff.mp hi
  rcases h.interned.findEntry other with ⟨hnew, _⟩ | ⟨j, node, hj, hf⟩
  · exact absurd (List.mem_of_getElem? hi) hnew
  · obtain ⟨hjl, hje⟩ := List.getElem?_eq_some_iff.mp hj
    obtain rfl : j = (atomIndex term).toNat :=
      (List.Nodup.getElem_inj_iff h.interned.distinct).mp (hje.trans hie.symm)
    have hterm : atomEterm (entryFor other (atomIndex term).toNat).index = term := by
      rw [entryFor, BitVec.ofNat_toNat, BitVec.setWidth_eq]
      exact (eq_atomEterm_iff.mpr ⟨htag, hlt⟩).symm
    rw [Interning.step, hk]
    dsimp only [AtomCall.name]
    rw [cString_terminated hnul, hf]
    dsimp only [Option.map_some]
    rw [hterm]

/-- **Look-up accepts what was issued** if and only if the term is below `2 ^ 36`, or has another
tag, or a number that no name has: for every table whose blocks have the size they are asked for,
every answer of its allocator and every interleaving of calls. -/
theorem lookupExact_iff {initialCapacity : Nat} {alloc : Nat → Bool}
    {realloc : Nat → Option (Nat → Option Nat)} {t : AtomTable}
    (hsize : 8 * initialCapacity < 2 ^ 64)
    (hnew : beamAtomTableCreate initialCapacity alloc realloc = some t) {acts : List (AtomAct κ)}
    (hrun : run Interning.step (Interning.start t) acts = some s) (term : Eterm) :
    LookupExact s term ↔ term.toNat < 2 ^ 36 ∨ term &&& 15#64 ≠ tagImmed1Atom ∨
      s.table.count ≤ (atomIndex term).toNat := by
  obtain ⟨names, L, h⟩ := Interning.Numbered.of_run hsize hnew hrun
  have haccepted : ((∃ buffer, beamAtomLookup s.table term = some (some buffer)) ↔
      s.Issued term) ↔ term.toNat < 2 ^ 36 ∨ term &&& 15#64 ≠ tagImmed1Atom ∨
      s.table.count ≤ (atomIndex term).toNat := by
    rw [h.interned.lookup_isSome_iff, h.issued_iff, ← Nat.not_lt]
    tauto
  refine ⟨fun he => haccepted.mp he.accepted, fun hcond => ⟨haccepted.mpr hcond, ?_⟩⟩
  intro k name hl hnul hk
  obtain ⟨_, _, hlt⟩ := h.issued_iff.mp ((haccepted.mpr hcond).mp ⟨_, hl⟩)
  exact h.back hlt hl hnul hk

end Issued

/-- One thread interns `ok`. -/
def oneAtom : List (AtomAct Unit) := [.search () (.intern [111#8, 107#8, 0#8]), .insert ()]

theorem run_oneAtom :
    ∃ t s, beamAtomTableCreate 1 (fun _ => true) (fun _ => none) = some t ∧
      run Interning.step (Interning.start t) oneAtom = some s ∧
      s.log = [([111#8, 107#8], atomEterm 0#32)] ∧
      beamAtomLookup s.table (atomEterm 0#32 ||| 0x1000000000#64) =
        some (some [111#8, 107#8, 0#8]) := by
  obtain ⟨s, hs, hv⟩ := Option.map_eq_some_iff.mp
    (show (run Interning.step (Interning.start ⟨[], fun _ => none, [none], 1, 0, 1, fun _ => true,
      fun _ => none⟩) oneAtom).map (fun s => (s.log,
        beamAtomLookup s.table (atomEterm 0#32 ||| 0x1000000000#64))) =
        some ([([111#8, 107#8], atomEterm 0#32)], some (some [111#8, 107#8, 0#8])) by decide)
  exact ⟨_, s, rfl, hs, Prod.mk.inj hv⟩

/-- After one name, its atom leads back to it. -/
theorem lookupExact_oneAtom :
    ∃ t s, beamAtomTableCreate 1 (fun _ => true) (fun _ => none) = some t ∧
      run Interning.step (Interning.start t) oneAtom = some s ∧
      LookupExact s (atomEterm 0#32) := by
  obtain ⟨t, s, hnew, hs, _⟩ := run_oneAtom
  exact ⟨t, s, hnew, hs, (lookupExact_iff (by decide) hnew hs _).mpr (Or.inl (by decide))⟩

/-- The same atom with bit 36 set is accepted as well. -/
theorem forgedAtom_accepted :
    ∃ t s, beamAtomTableCreate 1 (fun _ => true) (fun _ => none) = some t ∧
      run Interning.step (Interning.start t) oneAtom = some s ∧
      ¬LookupExact s (atomEterm 0#32 ||| 0x1000000000#64) := by
  obtain ⟨t, s, hnew, hs, hlog, hl⟩ := run_oneAtom
  refine ⟨t, s, hnew, hs, fun h => ?_⟩
  obtain ⟨name, hm, _⟩ := h.accepted.mp ⟨_, hl⟩
  rw [hlog, List.mem_singleton] at hm
  have hterm : atomEterm 0#32 ||| 0x1000000000#64 = atomEterm 0#32 := congrArg Prod.snd hm
  exact absurd hterm (by decide)

end BeamModular
