import BeamModular.Emulator.Arithmetic
import BeamModular.Global.EtsKinds

/-!
# Counters

`beam_ets_update_counter` shifts the tag off the value it finds, whatever the tag is,
adds the increment in 64 bits and shifts the tag of a small integer on.  So what a
counter carries is the exact sum taken into 60 bits, after one update and after any
number of them (`smallValue_of_run`), and a value that was no counter becomes one.

`counts_iff` says when this is a counter: the value is a small integer and the sum
has 60 bits.  Between the updates there may be any operations on the table's other
keys.
-/

namespace BeamModular

/-- The value that a search for the key finds first. -/
def firstValue (key : Eterm) (l : List EtsEntry) : Option Eterm :=
  (l.find? fun e => e.key == key).map EtsEntry.value

theorem firstValue_self {key value : Eterm} {X Y : List EtsEntry} (hX : ∀ e ∈ X, e.key ≠ key) :
    firstValue key (X ++ ⟨key, value⟩ :: Y) = some value := by
  have hfind : (X ++ ⟨key, value⟩ :: Y).find? (fun e => e.key == key) = some ⟨key, value⟩ :=
    List.find?_eq_some_iff_append.mpr
      ⟨beq_self_eq_true key, X, Y, rfl, fun e he => by simpa using hX e he⟩
  rw [firstValue, hfind]
  rfl

theorem firstValue_other {key : Eterm} {e : EtsEntry} {X Y : List EtsEntry} (hne : e.key ≠ key) :
    firstValue key (X ++ e :: Y) = firstValue key (X ++ Y) := by
  rw [firstValue, firstValue, List.find?_append, List.find?_append,
    List.find?_cons_of_neg (by simpa using hne)]

/-! ### Operations -/

/-- The operation leaves the key to `beam_ets_update_counter`. -/
def EtsOp.LeavesTo (key : Eterm) : EtsOp → Prop
  | .insert other _ => other ≠ key
  | .delete other => other ≠ key
  | .lookup _ => True
  | .updateCounter _ _ => True

/-- What the operation adds to the counter of the key. -/
def EtsOp.amount (key : Eterm) : EtsOp → Int
  | .updateCounter other increment => if other = key then increment.toInt else 0
  | _ => 0

section Values

variable {t t' : EtsTable} {key v : Eterm} {op : EtsOp}

theorem lookup_iff_firstValue (hs : t.Sound) :
    beamEtsLookup t key = some (.ok, some v) ↔ firstValue key t.entries = some v := by
  rw [EtsTable.beamEtsLookup_entries hs, firstValue]
  cases t.entries.find? fun e => e.key == key with
  | none => simp
  | some e => simp

theorem firstValue_kept (hs : t.Sound) (hop : op.LeavesTo key)
    (hno : ∀ increment, op ≠ .updateCounter key increment) (h : etsNext t op = some t') :
    firstValue key t'.entries = firstValue key t.entries := by
  obtain ⟨_, _, hc⟩ := etsNext_changes hs h
  generalize t'.entries = after at hc
  cases hc with
  | keep => rfl
  | add other value X Y he => rw [he, firstValue_other (e := ⟨other, value⟩) hop]
  | replace other old value X Y he =>
    rw [he, firstValue_other (e := ⟨other, value⟩) hop, firstValue_other (e := ⟨other, old⟩) hop]
  | count other old increment X Y he =>
    have hne : other ≠ key := fun hk => hno increment (by rw [hk])
    rw [he, firstValue_other (e := ⟨other, old⟩) hne,
      firstValue_other (e := ⟨other, makeSmallInt (etermToSmallInt old + increment)⟩) hne]
  | drop other old X Y he => rw [he, firstValue_other (e := ⟨other, old⟩) hop]

/-- **An update of a key that is there** always succeeds. -/
theorem beamEtsUpdateCounter_eq (hs : t.Sound) (hv : firstValue key t.entries = some v)
    (increment : Word) :
    ∃ t', beamEtsUpdateCounter t key increment
        = some (t', .ok, some (makeSmallInt (etermToSmallInt v + increment))) ∧ t'.Sound ∧
      firstValue key t'.entries = some (makeSmallInt (etermToSmallInt v + increment)) := by
  obtain ⟨L, A, B, h⟩ := hs.around key
  rcases h.searchKey with ⟨_, hno⟩ | ⟨K, i, old, R, hL, hK, hsome⟩
  · obtain ⟨e, hf, _⟩ := Option.map_eq_some_iff.mp hv
    have hkey := List.find?_some hf
    exact absurd (beq_iff_eq.mp hkey) (hno e (List.mem_of_find?_eq_some hf))
  · obtain ⟨t', X, Y, hset, _, hs', he, he', hX⟩ :=
      EtsTable.setValue_entries h hs hL hK (makeSmallInt (etermToSmallInt old + increment))
    rw [he, firstValue_self hX] at hv
    cases hv
    refine ⟨t', ?_, hs', by rw [he', firstValue_self hX]⟩
    rw [beamEtsUpdateCounter, hsome, Option.bind_some]
    dsimp only
    rw [hset]
    rfl

theorem smallValue_updated (v : Eterm) (increment : Word) :
    smallValue (makeSmallInt (etermToSmallInt v + increment))
      = (smallValue v + increment.toInt).bmod (2 ^ 60) := by
  rw [smallValue_makeSmallInt, BitVec.toInt_add, Int.bmod_bmod_of_dvd (by decide), smallValue]

/-! ### One operation, and any number -/

theorem smallValue_of_step (hs : t.Sound) (hv : firstValue key t.entries = some v)
    (hsmall : beamIsSmallInt v = true) (hop : op.LeavesTo key) (h : etsNext t op = some t') :
    ∃ w, t'.Sound ∧ firstValue key t'.entries = some w ∧ beamIsSmallInt w = true ∧
      smallValue w = (smallValue v + op.amount key).bmod (2 ^ 60) := by
  by_cases hcount : ∃ increment, op = .updateCounter key increment
  · obtain ⟨increment, rfl⟩ := hcount
    obtain ⟨t₁, hu, hs', hv'⟩ := beamEtsUpdateCounter_eq hs hv increment
    rw [etsNext, etsStep, hu] at h
    cases h
    refine ⟨_, hs', hv', beamIsSmallInt_makeSmallInt _, ?_⟩
    rw [smallValue_updated, EtsOp.amount, if_pos rfl]
  · have hno : ∀ increment, op ≠ .updateCounter key increment := fun i hi => hcount ⟨i, hi⟩
    have hzero : op.amount key = 0 := by
      cases op with
      | updateCounter other increment => exact if_neg fun hk => hno increment (by rw [hk])
      | insert other value => rfl
      | lookup other => rfl
      | delete other => rfl
    refine ⟨v, (etsNext_changes hs h).2.1, ?_, hsmall, ?_⟩
    · rw [firstValue_kept hs hop hno h, hv]
    · rw [hzero, add_zero, bmod_eq_self_iff.mpr (smallRange_smallValue v)]

/-- **A run**: the counter carries its first value and all increments, in 60 bits. -/
theorem smallValue_of_run {ops : List EtsOp} (hs : t.Sound)
    (hv : firstValue key t.entries = some v) (hsmall : beamIsSmallInt v = true)
    (hops : ∀ op ∈ ops, op.LeavesTo key) (hrun : run etsNext t ops = some t') :
    ∃ w, t'.Sound ∧ firstValue key t'.entries = some w ∧ beamIsSmallInt w = true ∧
      smallValue w = (smallValue v + (ops.map (EtsOp.amount key)).sum).bmod (2 ^ 60) := by
  induction ops generalizing t v with
  | nil =>
    cases hrun
    refine ⟨v, hs, hv, hsmall, ?_⟩
    rw [List.map_nil, List.sum_nil, add_zero, bmod_eq_self_iff.mpr (smallRange_smallValue v)]
  | cons op ops ih =>
    obtain ⟨t₁, hstep, hrest⟩ := run_cons_eq_some hrun
    obtain ⟨v₁, hs₁, hv₁, hsmall₁, he₁⟩ :=
      smallValue_of_step hs hv hsmall (hops op List.mem_cons_self) hstep
    obtain ⟨w, hs', hw, hsmall', he⟩ :=
      ih hs₁ hv₁ hsmall₁ (fun o ho => hops o (List.mem_cons_of_mem op ho)) hrest
    refine ⟨w, hs', hw, hsmall', ?_⟩
    rw [he, he₁, Int.bmod_add_bmod, List.map_cons, List.sum_cons, add_assoc]

end Values

/-! ### What a counter owes -/

/-- **What one update owes** to a key with this value: a small integer is counted exactly, or
there is an error and the table is as it was; anything else is an error. -/
def CountsExactly (t : EtsTable) (key v : Eterm) (increment : Word) : Prop :=
  ∃ t' res out, beamEtsUpdateCounter t key increment = some (t', res, out) ∧
    ((beamIsSmallInt v = true ∧ res = .ok ∧ ∃ w, out = some w ∧
        beamEtsLookup t' key = some (.ok, some w) ∧ beamIsSmallInt w = true ∧
        smallValue w = smallValue v + increment.toInt) ∨
      (res ≠ .ok ∧ t' = t))

/-- **What a run owes**: the updates add up. -/
def AddsUp (t' : EtsTable) (key v : Eterm) (ops : List EtsOp) : Prop :=
  ∃ w, beamEtsLookup t' key = some (.ok, some w) ∧ beamIsSmallInt w = true ∧
    smallValue w = smallValue v + (ops.map (EtsOp.amount key)).sum

theorem countsExactly_iff {t : EtsTable} {key v : Eterm} (hs : t.Sound)
    (hv : firstValue key t.entries = some v) (increment : Word) :
    CountsExactly t key v increment ↔
      beamIsSmallInt v = true ∧ SmallRange (smallValue v + increment.toInt) := by
  obtain ⟨t', hu, hs', hv'⟩ := beamEtsUpdateCounter_eq hs hv increment
  have hexact : smallValue (makeSmallInt (etermToSmallInt v + increment))
      = smallValue v + increment.toInt ↔ SmallRange (smallValue v + increment.toInt) := by
    rw [smallValue_updated, bmod_eq_self_iff]
  constructor
  · rintro ⟨_, _, _, hu', hor⟩
    rw [hu] at hu'
    cases hu'
    rcases hor with ⟨hsmall, _, w, hw, _, _, he⟩ | ⟨hbad, _⟩
    · cases hw
      exact ⟨hsmall, hexact.mp he⟩
    · exact absurd rfl hbad
  · rintro ⟨hsmall, hrange⟩
    exact ⟨t', .ok, _, hu, Or.inl ⟨hsmall, rfl, _, rfl, (lookup_iff_firstValue hs').mpr hv',
      beamIsSmallInt_makeSmallInt _, hexact.mpr hrange⟩⟩

/-- **Counters count** as long as the value is a small integer and the sum has 60 bits: one update
of any table, and any number of them with other operations between. -/
theorem counts_iff {type : EtsType} {alloc : Nat → Bool} {t₀ t : EtsTable} {before : List EtsOp}
    (hnew : beamEtsTableCreateTyped type alloc = some t₀)
    (hrun : run etsNext t₀ before = some t) {key v : Eterm}
    (hv : beamEtsLookup t key = some (.ok, some v)) :
    (∀ increment, CountsExactly t key v increment ↔
      beamIsSmallInt v = true ∧ SmallRange (smallValue v + increment.toInt)) ∧
    ∀ ops t', beamIsSmallInt v = true → (∀ op ∈ ops, op.LeavesTo key) →
      run etsNext t ops = some t' → (AddsUp t' key v ops ↔
        SmallRange (smallValue v + (ops.map (EtsOp.amount key)).sum)) := by
  obtain ⟨_, hs⟩ := sound_of_run hnew hrun
  have hfirst := (lookup_iff_firstValue hs).mp hv
  refine ⟨countsExactly_iff hs hfirst, fun ops t' hsmall hops hrun' => ?_⟩
  obtain ⟨w, hs', hw, hsmall', he⟩ := smallValue_of_run hs hfirst hsmall hops hrun'
  have hlook := (lookup_iff_firstValue hs').mpr hw
  rw [← bmod_eq_self_iff, ← he]
  constructor
  · rintro ⟨w', hw', _, he'⟩
    rw [hlook] at hw'
    cases hw'
    exact he'
  · exact fun he' => ⟨w, hlook, hsmall', he'⟩

/-- A counter of 100 counts 5 and then -7, with another key inserted between. -/
theorem counts_iff_hundred :
    ∃ t₀ t t', beamEtsTableCreateTyped .set (fun _ => true) = some t₀ ∧
      run etsNext t₀ [.insert 11#64 (makeSmallInt 100#64)] = some t ∧
      run etsNext t [.updateCounter 11#64 5#64, .insert 27#64 11#64,
        .updateCounter 11#64 (-7#64)] = some t' ∧
      CountsExactly t 11#64 (makeSmallInt 100#64) 5#64 ∧
      AddsUp t' 11#64 (makeSmallInt 100#64) [.updateCounter 11#64 5#64, .insert 27#64 11#64,
        .updateCounter 11#64 (-7#64)] := by
  refine ⟨_, _, _, rfl, rfl, rfl, ?_⟩
  obtain ⟨hone, hall⟩ := @counts_iff .set (fun _ => true) _ _
    [.insert 11#64 (makeSmallInt 100#64)] rfl rfl 11#64 (makeSmallInt 100#64) (by decide)
  refine ⟨(hone 5#64).mpr (by decide), (hall _ _ (by decide) ?_ rfl).mpr (by decide)⟩
  intro op hop
  simp only [List.mem_cons, List.not_mem_nil, or_false] at hop
  rcases hop with rfl | rfl | rfl
  · trivial
  · exact (by decide : (27#64 : Eterm) ≠ 11#64)
  · trivial

/-- An atom becomes a number, and the largest counter becomes the smallest. -/
theorem atom_counted :
    ∃ t₀ t, beamEtsTableCreateTyped .set (fun _ => true) = some t₀ ∧
      run etsNext t₀ [.insert 11#64 27#64, .insert 27#64 (makeSmallInt 0x7ffffffffffffff#64)]
        = some t ∧
      beamEtsLookup t 11#64 = some (.ok, some 27#64) ∧
      beamEtsLookup t 27#64 = some (.ok, some (makeSmallInt 0x7ffffffffffffff#64)) ∧
      ¬CountsExactly t 11#64 27#64 1#64 ∧
      ¬CountsExactly t 27#64 (makeSmallInt 0x7ffffffffffffff#64) 1#64 := by
  refine ⟨_, _, rfl, rfl, by decide, by decide, ?_, ?_⟩
  · rintro ⟨t', res, out, hu, ⟨hsmall, _⟩ | ⟨hbad, _⟩⟩
    · exact absurd hsmall (by decide)
    · cases hu
      exact hbad rfl
  · rintro ⟨t', res, out, hu, ⟨_, _, w, hw, _, _, he⟩ | ⟨hbad, _⟩⟩
    · cases hu
      cases hw
      exact absurd he (by decide)
    · cases hu
      exact hbad rfl

end BeamModular
