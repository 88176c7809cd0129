import BeamModular.Core.Denote
import BeamModular.Emulator.Branches
import BeamModular.Global.EtsKinds

/-!
# Exact equality

`TEST_IS_EQ_EXACT`, `TEST_IS_NE_EXACT` and the searches of the term storage compare
terms as words; nothing in the source follows a pointer to compare what it leads to.
The same word shows the same tree, and an immediate is the only word that shows its
tree (`Denotes.eq_of_immediate`), so for immediates the words say it all.  Lists and
tuples are equal when they are the same object: two that were built separately are
different terms to all three (`builtTwice_differ`).

`lookup_insert` is the storage's side, for every table a run can reach.
-/

namespace BeamModular

/-! ### Words and trees -/

section

variable {m : Memory} {w w₁ w₂ : Eterm} {t t₁ t₂ : Term}

theorem Denotes.eq_imm (h : Denotes m w t) (hw : IsImmediate w) : t = .imm w := by
  cases t with
  | imm v => rw [h.1]
  | cons head tail =>
    have hl := h.1
    rw [hw.not_list] at hl
    cases hl
  | tuple arity element =>
    have ht := h.1
    rw [hw.not_tuple] at ht
    cases ht

/-- **A tree that an immediate shows** is shown by no other word. -/
theorem Denotes.eq_of_immediate (h₁ : Denotes m w₁ t) (h₂ : Denotes m w₂ t)
    (hw : IsImmediate w₁ ∨ IsImmediate w₂) : w₁ = w₂ := by
  rcases hw with hw | hw
  · rw [h₁.eq_imm hw] at h₂
    exact h₂.1.symm
  · rw [h₂.eq_imm hw] at h₁
    exact h₁.1

end

/-! ### The instructions -/

theorem execInstr_testExact {code : List Instruction} {instr : Instruction} {m : Memory}
    {p : Process} {ip : Nat} {r₁ r₂ : Fin numXRegisters} (h₁ : xReg instr.arg2 = some r₁)
    (h₂ : xReg instr.arg3 = some r₂) :
    (instr.opcode = .testIsEqExact → execInstr code instr m p ip = some (.goto m p
      (if p.x r₁ = p.x r₂ then ip + 1 else jumpToLabel code instr.arg1.toNat ip))) ∧
    (instr.opcode = .testIsNeExact → execInstr code instr m p ip = some (.goto m p
      (if p.x r₁ = p.x r₂ then jumpToLabel code instr.arg1.toNat ip else ip + 1))) := by
  constructor <;> intro hop
  · have ht : testHolds instr m p = some (p.x r₁ == p.x r₂) := by
      rw [testHolds, hop, h₁, h₂]
      rfl
    rw [execInstr_of_testHolds ht, execTest]
    by_cases heq : p.x r₁ = p.x r₂ <;> simp [heq]
  · have ht : testHolds instr m p = some (p.x r₁ != p.x r₂) := by
      rw [testHolds, hop, h₁, h₂]
      rfl
    rw [execInstr_of_testHolds ht, execTest]
    by_cases heq : p.x r₁ = p.x r₂ <;> simp [heq]

/-! ### The storage -/

section

variable {t t' : EtsTable} {em : EtsMap}

theorem EtsTable.Models.of_run (ops : List EtsOp) : ∀ {t t' : EtsTable} {em : EtsMap},
    t.Models em → run etsNext t ops = some t' → ∃ em', t'.Models em' := by
  induction ops with
  | nil =>
    intro t t' em h hr
    cases hr
    exact ⟨em, h⟩
  | cons op ops ih =>
    intro t t' em h hr
    obtain ⟨t₁, hs, hrest⟩ := run_cons_eq_some hr
    obtain ⟨t₁', hstep, hmodels⟩ := etsStep_refines t em op h
    rw [etsNext, hstep] at hs
    cases hs
    exact ih hmodels hrest

theorem EtsTable.Models.lookup (h : t.Models em) (key : Eterm) :
    beamEtsLookup t key = some (em.step (.lookup key)).2 := by
  obtain ⟨t₁, hstep, _⟩ := etsStep_refines t em (.lookup key) h
  obtain ⟨r, hr, he⟩ := Option.map_eq_some_iff.mp hstep
  rw [hr]
  cases he
  rfl

theorem lookup_insert {key value : Eterm} (h : t.Models em)
    (hins : beamEtsInsert t key value = some (t', .ok)) (key' : Eterm) :
    beamEtsLookup t' key' =
      if key = key' then some (.ok, some value) else beamEtsLookup t key' := by
  obtain ⟨t₁, hstep, hmodels⟩ := etsStep_refines t em (.insert key value) h
  rw [etsStep, hins] at hstep
  obtain ⟨rfl, hres⟩ : t' = t₁ ∧ (em.insert key value).2 = .ok := by
    simpa [EtsMap.step, eq_comm] using hstep
  -- an insertion that succeeds is one in the map, with or without a new entry
  have hmap : (em.insert key value).1.map = em.map.insert key value := by
    rw [EtsMap.insert] at hres ⊢
    split at hres <;> rename_i hmem
    · rw [if_pos hmem]
    · split at hres <;> rename_i hgrant
      · rw [if_neg hmem, if_pos hgrant]
      · cases hres
  rw [hmodels.lookup, h.lookup, EtsMap.step, EtsMap.step, EtsMap.step, hmap]
  by_cases hk : key = key'
  · rw [if_pos hk, ← hk, Finmap.lookup_insert]
  · rw [if_neg hk, Finmap.lookup_insert_of_ne _ (Ne.symm hk)]
    cases em.map.lookup key' <;> rfl

end

/-- **Exact equality is that of words.**  For any two terms: the same word shows the same tree, and
the other way round if one of them is an immediate; the tests fall through and branch by the words;
and what is inserted into a set under one is found under the other exactly if they are the same
word, every other key keeping what it had. -/
theorem exactEquality_words {m : Memory} {w₁ w₂ : Eterm} {t₁ t₂ : Term} (h₁ : Denotes m w₁ t₁)
    (h₂ : Denotes m w₂ t₂) :
    (w₁ = w₂ → t₁ = t₂) ∧ (IsImmediate w₁ ∨ IsImmediate w₂ → (w₁ = w₂ ↔ t₁ = t₂)) ∧
    (∀ (code : List Instruction) (instr : Instruction) (p : Process) (ip : Nat)
      (r₁ r₂ : Fin numXRegisters), xReg instr.arg2 = some r₁ → xReg instr.arg3 = some r₂ →
      p.x r₁ = w₁ → p.x r₂ = w₂ →
      (instr.opcode = .testIsEqExact → execInstr code instr m p ip = some (.goto m p
        (if w₁ = w₂ then ip + 1 else jumpToLabel code instr.arg1.toNat ip))) ∧
      (instr.opcode = .testIsNeExact → execInstr code instr m p ip = some (.goto m p
        (if w₁ = w₂ then jumpToLabel code instr.arg1.toNat ip else ip + 1)))) ∧
    ∀ (alloc : Nat → Bool) (new t t' : EtsTable) (ops : List EtsOp) (value : Eterm),
      beamEtsTableCreateTyped .set alloc = some new → run etsNext new ops = some t →
      beamEtsInsert t w₁ value = some (t', .ok) →
      beamEtsLookup t' w₂ = if w₁ = w₂ then some (.ok, some value) else beamEtsLookup t w₂ := by
  have hsame : w₁ = w₂ → t₁ = t₂ := by
    rintro rfl
    exact h₁.unique h₂
  refine ⟨hsame, fun himm => ⟨hsame, ?_⟩, fun code instr p ip r₁ r₂ hr₁ hr₂ hx₁ hx₂ => ?_,
    fun alloc new t t' ops value hnew hrun hins => ?_⟩
  · rintro rfl
    exact h₁.eq_of_immediate h₂ himm
  · rw [← hx₁, ← hx₂]
    exact execInstr_testExact hr₁ hr₂
  · obtain ⟨em, hmodels⟩ :=
      (EtsTable.models_create (Or.inl rfl) hnew).of_run ops hrun
    exact lookup_insert hmodels hins w₂

/-- The list `[7]`, built twice in the heap of a new process. -/
def builtTwice : Option (Memory × Eterm × Eterm) :=
  (beamMakeList freshMemory freshProcess (makeSmallInt 7#64) etermNil).bind fun (m, p, w₁) =>
    (beamMakeList m p (makeSmallInt 7#64) etermNil).map fun (m, _, w₂) => (m, w₁, w₂)

/-- The tree of both. -/
def listOfSeven : Term := .cons (.imm (makeSmallInt 7#64)) (.imm etermNil)

/-- A test of `x0` against `x1`, and behind it the two places it can go to. -/
def testCode (op : Opcode) : List Instruction :=
  [{ opcode := op, arg1 := 5#32, arg2 := 0#32, arg3 := 1#32 }, { opcode := .halt },
    { opcode := .label, arg1 := 5#32 }]

/-- A process with the two words in `x0` and `x1`. -/
def holdingBoth (w₁ w₂ : Eterm) : Process := (freshProcess.setX 0 w₁).setX 1 w₂

/-- A new set with the entry of a key. -/
def setWith (key value : Eterm) : Option (EtsTable × Result) :=
  (beamEtsTableCreateTyped .set fun _ => true).bind fun t => beamEtsInsert t key value

theorem exactEquality_words_seven : ∃ m w₁ w₂ t, builtTwice = some (m, w₁, w₂) ∧
    Denotes m w₁ listOfSeven ∧ setWith w₁ etermNil = some (t, .ok) ∧
    beamEtsLookup t w₁ = some (.ok, some etermNil) ∧
    ∀ instr, (testCode .testIsEqExact)[0]? = some instr →
      execInstr (testCode .testIsEqExact) instr m (holdingBoth w₁ w₁) 0 =
        some (.goto m (holdingBoth w₁ w₁) 1) := by
  obtain ⟨m, w₁, w₂, hbuilt, hden⟩ : ∃ m w₁ w₂, builtTwice = some (m, w₁, w₂) ∧
      Denotes m w₁ listOfSeven :=
    ⟨_, _, _, rfl, by decide, ⟨makeSmallInt 7#64, by decide, rfl, by decide⟩, etermNil, by decide,
      rfl, by decide⟩
  obtain ⟨new, hnew⟩ : ∃ t, beamEtsTableCreateTyped .set (fun _ => true) = some t := ⟨_, rfl⟩
  obtain ⟨t, hins⟩ : ∃ t, beamEtsInsert new w₁ etermNil = some (t, .ok) := by
    cases hbuilt
    cases hnew
    exact ⟨_, rfl⟩
  obtain ⟨_, _, htests, hets⟩ := exactEquality_words hden hden
  refine ⟨m, w₁, w₂, t, hbuilt, hden, ?_, ?_, ?_⟩
  · rw [setWith, hnew]
    exact hins
  · rw [hets _ new new t [] etermNil hnew rfl hins, if_pos rfl]
  · intro instr hinstr
    have hop : instr.opcode = .testIsEqExact ∧ xReg instr.arg2 = some 0 ∧
        xReg instr.arg3 = some 1 := by
      cases hinstr
      exact ⟨rfl, rfl, rfl⟩
    have heq := (htests (testCode .testIsEqExact) instr (holdingBoth w₁ w₁) 0 0 1 hop.2.1 hop.2.2
      rfl rfl).1 hop.1
    rw [heq, if_pos rfl]

/-- **Equal lists that were built separately differ**: both words show `[7]`, but the test for
equality branches, the one for inequality does not, and what is stored under the one is not found
under the other. -/
theorem builtTwice_differ : ∃ m w₁ w₂ t, builtTwice = some (m, w₁, w₂) ∧
    Denotes m w₁ listOfSeven ∧ Denotes m w₂ listOfSeven ∧
    setWith w₁ etermNil = some (t, .ok) ∧ beamEtsLookup t w₂ = some (.errNotFound, none) ∧
    (∀ instr, (testCode .testIsEqExact)[0]? = some instr →
      execInstr (testCode .testIsEqExact) instr m (holdingBoth w₁ w₂) 0 =
        some (.goto m (holdingBoth w₁ w₂) 2)) ∧
    ∀ instr, (testCode .testIsNeExact)[0]? = some instr →
      execInstr (testCode .testIsNeExact) instr m (holdingBoth w₁ w₂) 0 =
        some (.goto m (holdingBoth w₁ w₂) 1) := by
  refine ⟨_, _, _, _, rfl, ?_, ?_, rfl, by decide +kernel, ?_, ?_⟩
  · exact ⟨by decide, ⟨makeSmallInt 7#64, by decide, rfl, by decide⟩, etermNil, by decide, rfl,
      by decide⟩
  · exact ⟨by decide, ⟨makeSmallInt 7#64, by decide, rfl, by decide⟩, etermNil, by decide, rfl,
      by decide⟩
  · intro instr hinstr
    cases hinstr
    rfl
  · intro instr hinstr
    cases hinstr
    rfl

end BeamModular
