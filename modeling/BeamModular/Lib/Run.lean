import Mathlib.Tactic

/-!
# Runs of a partial step function

A system is a step function that takes a state and an action; an action that
cannot be taken has no result.  A run is a list of actions, and since the list is
arbitrary, a statement about every run is a statement about every order of steps.

`Along step ok s as` says that every step of the run from `s` meets a condition in
the state it is taken from.  `run_induct` is the main induction of the file: what
every step that meets the condition preserves, every such run preserves.
`always_iff_along` says when a property of all states of a run is such a condition.

A step may also answer.  `answers step s as` lists the answers of a run, and
`refines_answers` is refinement: an implementation that answers each action as a
specification does, and stays related to it, answers every run as the specification
does.
-/

namespace BeamModular

variable {σ α : Type*}

/-- The numerals of two parties that take steps. -/
instance twoParties : NeZero 2 := ⟨by decide⟩

/-- The state after the actions, taken in order. -/
def run (step : σ → α → Option σ) (s : σ) : List α → Option σ
  | [] => some s
  | a :: as => (step s a).bind fun s' => run step s' as

/-- Every step of the run meets the condition in the state it is taken from. -/
def Along (step : σ → α → Option σ) (ok : σ → α → Prop) (s : σ) : List α → Prop
  | [] => True
  | a :: as => ok s a ∧ ∀ s', step s a = some s' → Along step ok s' as

variable {step : σ → α → Option σ}

instance {ok : σ → α → Prop} [∀ s a, Decidable (ok s a)] (s : σ) (as : List α) :
    Decidable (Along step ok s as) :=
  decideAlong s as
where
  decideAlong (s : σ) : (as : List α) → Decidable (Along step ok s as)
    | [] => .isTrue trivial
    | a :: as =>
      match hs : step s a with
      | none => decidable_of_iff (ok s a) ⟨fun h => ⟨h, fun _ h' => by rw [hs] at h'; cases h'⟩,
          And.left⟩
      | some s₁ =>
        have := decideAlong s₁ as
        decidable_of_iff (ok s a ∧ Along step ok s₁ as)
          ⟨fun h => ⟨h.1, fun _ h' => by rw [hs] at h'; cases h'; exact h.2⟩,
            fun h => ⟨h.1, h.2 s₁ hs⟩⟩

theorem run_cons_eq_some {s s' : σ} {a : α} {as : List α} (h : run step s (a :: as) = some s') :
    ∃ s₁, step s a = some s₁ ∧ run step s₁ as = some s' := Option.bind_eq_some_iff.mp h

theorem run_append (s : σ) (as bs : List α) :
    run step s (as ++ bs) = (run step s as).bind fun s' => run step s' bs := by
  induction as generalizing s with
  | nil => rfl
  | cons a as ih =>
    rw [List.cons_append, run, run]
    cases step s a with
    | none => rfl
    | some s₁ => exact ih s₁

theorem foldlM_eq_run (f : σ → α → Option σ) : ∀ (as : List α) (s : σ),
    as.foldlM f s = run f s as := by
  intro as
  induction as with
  | nil => intro s; rfl
  | cons a as ih =>
    intro s
    rw [List.foldlM_cons, run]
    exact congrArg (Option.bind (f s a)) (funext ih)

theorem Along.of_append {ok : σ → α → Prop} : ∀ {s : σ} {as bs : List α},
    Along step ok s (as ++ bs) → Along step ok s as := by
  intro s as
  induction as generalizing s with
  | nil => intro _ _; exact trivial
  | cons a as ih => intro bs h; exact ⟨h.1, fun s' hs => ih (h.2 s' hs)⟩

theorem Along.of_forall {ok : α → Prop} : ∀ {as : List α} (s : σ), (∀ a ∈ as, ok a) →
    Along step (fun _ a => ok a) s as := by
  intro as
  induction as with
  | nil => intro _ _; exact trivial
  | cons a as ih =>
    intro s h
    exact ⟨h a List.mem_cons_self, fun s' _ => ih s' fun b hb => h b (List.mem_cons_of_mem a hb)⟩

theorem Along.and {ok ok' : σ → α → Prop} : ∀ {as : List α} {s : σ}, Along step ok s as →
    Along step ok' s as → Along step (fun s a => ok s a ∧ ok' s a) s as := by
  intro as
  induction as with
  | nil => intro _ _ _; exact trivial
  | cons a as ih => intro s h h'; exact ⟨⟨h.1, h'.1⟩, fun s₁ hs => ih (h.2 s₁ hs) (h'.2 s₁ hs)⟩

/-- A condition on every step is a condition on the next action after every part of the run. -/
theorem along_iff_take {ok : σ → α → Prop} : ∀ {as : List α} {s : σ}, Along step ok s as ↔
    ∀ n s' a, run step s (as.take n) = some s' → as[n]? = some a → ok s' a := by
  intro as
  induction as with
  | nil => intro s; exact iff_of_true trivial fun _ _ _ _ h => by simp at h
  | cons b as ih =>
    intro s
    refine ⟨fun h n s' a hr ha => ?_, fun h => ⟨h 0 s b rfl rfl, fun s₁ hs => ?_⟩⟩
    · cases n with
      | zero => cases hr; cases ha; exact h.1
      | succ n =>
        obtain ⟨s₁, hs, hr'⟩ := run_cons_eq_some (by rwa [List.take_succ_cons] at hr)
        exact ih.mp (h.2 s₁ hs) n s' a hr' ha
    · refine ih.mpr fun n s' a hr ha => h (n + 1) s' a ?_ ha
      rw [List.take_succ_cons, run, hs]
      exact hr

/-- **What every step preserves, every run preserves.** -/
theorem run_induct (inv : σ → Prop) {ok : σ → α → Prop}
    (hstep : ∀ s a s', inv s → ok s a → step s a = some s' → inv s') :
    ∀ {s s' : σ} {as : List α}, inv s → Along step ok s as → run step s as = some s' → inv s' := by
  intro s s' as
  induction as generalizing s with
  | nil => intro hi _ hr; cases hr; exact hi
  | cons a as ih =>
    intro hi hok hr
    obtain ⟨s₁, hs, hr'⟩ := run_cons_eq_some hr
    exact ih (hstep s a s₁ hi hok.1 hs) (hok.2 s₁ hs) hr'

theorem run_invariant (inv : σ → Prop) (hstep : ∀ s a s', inv s → step s a = some s' → inv s')
    {s s' : σ} {as : List α} (hi : inv s) (hr : run step s as = some s') : inv s' := by
  have hok : Along step (fun _ _ => True) s as := .of_forall s fun _ _ => trivial
  exact run_induct inv (fun s a s' hi _ hs => hstep s a s' hi hs) hi hok hr

/-- **What holds of every state** of a run whose steps meet a condition. -/
theorem always_of_along (inv good : σ → Prop) {ok : σ → α → Prop} (hgood : ∀ s, inv s → good s)
    (hstep : ∀ s a s', inv s → ok s a → step s a = some s' → inv s') {as : List α} {s : σ}
    (hi : inv s) (hok : Along step ok s as) (n : Nat) (s' : σ)
    (hr : run step s (as.take n) = some s') : good s' := by
  rw [← List.take_append_drop n as] at hok
  exact hgood s' (run_induct inv hstep hi hok.of_append hr)

/-- **The other way round**: `inv` says what is known of the states as long as all is well, and a
step after which all is well meets the condition. -/
theorem along_of_always (inv good : σ → Prop) {ok : σ → α → Prop}
    (hstep : ∀ s a s', inv s → ok s a → step s a = some s' → inv s')
    (honly : ∀ s a, inv s → (∀ s', step s a = some s' → good s') → ok s a) :
    ∀ {as : List α} {s : σ}, inv s →
      (∀ n s', run step s (as.take n) = some s' → good s') → Along step ok s as := by
  intro as
  induction as with
  | nil => intro _ _ _; exact trivial
  | cons a as ih =>
    intro s hi hall
    have hok : ok s a := by
      apply honly s a hi
      intro s' hs
      apply hall 1 s'
      rw [List.take_succ_cons, run, hs]
      rfl
    refine ⟨hok, fun s₁ hs => ih (hstep s a s₁ hi hok hs) fun n s' hr => hall (n + 1) s' ?_⟩
    rw [List.take_succ_cons, run, hs]
    exact hr

theorem always_iff_along (inv good : σ → Prop) {ok : σ → α → Prop} (hgood : ∀ s, inv s → good s)
    (hstep : ∀ s a s', inv s → ok s a → step s a = some s' → inv s')
    (honly : ∀ s a, inv s → (∀ s', step s a = some s' → good s') → ok s a) {as : List α} {s : σ}
    (hi : inv s) : (∀ n s', run step s (as.take n) = some s' → good s') ↔ Along step ok s as :=
  ⟨along_of_always inv good hstep honly hi, always_of_along inv good hgood hstep hi⟩

/-- **A run no step of which can get stuck** ends, and every step of it meets what the invariant
and the condition give. -/
theorem run_total (inv : σ → Prop) {ok ok' : σ → α → Prop}
    (hstep : ∀ s a, inv s → ok s a → ok' s a ∧ ∃ s', step s a = some s' ∧ inv s') :
    ∀ {s : σ} {as : List α}, inv s → Along step ok s as →
      Along step ok' s as ∧ ∃ s', run step s as = some s' ∧ inv s' := by
  intro s as
  induction as generalizing s with
  | nil => intro hi _; exact ⟨trivial, s, rfl, hi⟩
  | cons a as ih =>
    intro hi hok
    obtain ⟨hmet, s₁, hs, hi₁⟩ := hstep s a hi hok.1
    obtain ⟨hrest, s', hr, hi'⟩ := ih hi₁ (hok.2 s₁ hs)
    refine ⟨⟨hmet, fun s₂ hs₂ => ?_⟩, s', ?_, hi'⟩
    · rw [hs] at hs₂
      cases hs₂
      exact hrest
    · rw [run, hs]
      exact hr

/-! ### Steps that answer -/

section Answers

variable {β τ : Type*}

/-- The last state and the answers of the actions, taken in order. -/
def answers (step : σ → α → Option (σ × β)) (s : σ) : List α → Option (σ × List β)
  | [] => some (s, [])
  | a :: as =>
    (step s a).bind fun r => (answers step r.1 as).map fun q => (q.1, r.2 :: q.2)

/-- The same for a specification, which always answers. -/
def specAnswers (spec : τ → α → τ × β) (t : τ) : List α → τ × List β
  | [] => (t, [])
  | a :: as =>
    let r := spec t a
    let q := specAnswers spec r.1 as
    (q.1, r.2 :: q.2)

/-- **An implementation that follows its specification step by step follows it in every run.** -/
theorem refines_answers {step : σ → α → Option (σ × β)} {spec : τ → α → τ × β} {R : σ → τ → Prop}
    (hstep : ∀ s t a, R s t → ∃ s', step s a = some (s', (spec t a).2) ∧ R s' (spec t a).1) :
    ∀ (as : List α) {s : σ} {t : τ}, R s t →
      ∃ s', answers step s as = some (s', (specAnswers spec t as).2) ∧
        R s' (specAnswers spec t as).1 := by
  intro as
  induction as with
  | nil => intro s t h; exact ⟨s, rfl, h⟩
  | cons a as ih =>
    intro s t h
    obtain ⟨s₁, hs, h₁⟩ := hstep s t a h
    obtain ⟨s', hr, h'⟩ := ih h₁
    refine ⟨s', ?_, h'⟩
    rw [answers, hs, Option.bind_some, hr]
    rfl

theorem run_answers {step : σ → α → Option (σ × β)} : ∀ (as : List α) (s : σ),
    run (fun s a => (step s a).map Prod.fst) s as = (answers step s as).map Prod.fst := by
  intro as
  induction as with
  | nil => intro s; rfl
  | cons a as ih =>
    intro s
    rw [run, answers]
    cases step s a with
    | none => rfl
    | some r =>
      rw [Option.map_some, Option.bind_some, Option.bind_some, ih, Option.map_map]
      rfl

section Simulations

variable {γ : Type*} {step : σ → α → Option (σ × β)} {spec : τ → α → Option (τ × γ)}
  {R : σ → τ → Prop} {Q : σ → τ → β → γ → Prop}

/-- **An implementation that follows a specification as far as that goes**: wherever the
specification has an answer and the implementation meets the condition, the implementation has an
answer that shows the other one, and so along every run.  What an answer shows may be read off the
last states, if no step takes it back. -/
theorem simulates_along {ok : σ → α → Prop}
    (hstep : ∀ s t a t' c, R s t → ok s a → spec t a = some (t', c) →
      ∃ s' b, step s a = some (s', b) ∧ R s' t' ∧ Q s' t' b c ∧ ∀ b c, Q s t b c → Q s' t' b c) :
    ∀ (as : List α) {s : σ} {t t' : τ} {cs : List γ}, R s t →
      Along (fun s a => (step s a).map Prod.fst) ok s as → answers spec t as = some (t', cs) →
        ∃ s' bs, answers step s as = some (s', bs) ∧ R s' t' ∧ List.Forall₂ (Q s' t') bs cs ∧
          ∀ b c, Q s t b c → Q s' t' b c := by
  intro as
  induction as with
  | nil => intro s t t' cs h _ hr; cases hr; exact ⟨s, [], rfl, h, .nil, fun _ _ hq => hq⟩
  | cons a as ih =>
    intro s t t' cs h hok hr
    obtain ⟨⟨t₁, c⟩, ha, hr⟩ := Option.bind_eq_some_iff.mp hr
    obtain ⟨⟨t₂, cs'⟩, hrest, he⟩ := Option.map_eq_some_iff.mp hr
    cases he
    obtain ⟨s₁, b, hs, h₁, hq, hkeep⟩ := hstep s t a t₁ c h hok.1 ha
    have hok₁ := hok.2 s₁ (Option.map_eq_some_iff.mpr ⟨_, hs, rfl⟩)
    obtain ⟨s', bs, hr', h', hqs, hkeep'⟩ := ih h₁ hok₁ hrest
    refine ⟨s', b :: bs, ?_, h', .cons (hkeep' b c hq) hqs, fun b c hq => hkeep' b c (hkeep b c hq)⟩
    rw [answers, hs, Option.bind_some, hr']
    rfl

theorem simulates_answers
    (hstep : ∀ s t a t' c, R s t → spec t a = some (t', c) →
      ∃ s' b, step s a = some (s', b) ∧ R s' t' ∧ Q s' t' b c ∧ ∀ b c, Q s t b c → Q s' t' b c)
    (as : List α) {s : σ} {t t' : τ} {cs : List γ} (h : R s t)
    (hr : answers spec t as = some (t', cs)) :
    ∃ s' bs, answers step s as = some (s', bs) ∧ R s' t' ∧ List.Forall₂ (Q s' t') bs cs ∧
      ∀ b c, Q s t b c → Q s' t' b c := by
  have hok : Along (fun s a => (step s a).map Prod.fst) (fun _ _ => True) s as :=
    .of_forall s fun _ _ => trivial
  exact simulates_along (fun s t a t' c h _ ha => hstep s t a t' c h ha) as h hok hr

end Simulations

/-- **Books kept step by step are kept in every run**: `inv s m` says that `m` is in stock, and each
answer is what came in and what went out. -/
theorem answers_balance {M : Type*} [AddCommMonoid M] {step : σ → α → Option (σ × M × M)}
    (inv : σ → M → Prop)
    (hstep : ∀ s a s' i o m, inv s m → step s a = some (s', i, o) →
      ∃ m', inv s' m' ∧ m + i = m' + o) :
    ∀ {as : List α} {s s' : σ} {moves : List (M × M)} {m : M}, inv s m →
      answers step s as = some (s', moves) →
        ∃ m', inv s' m' ∧ m + (moves.map Prod.fst).sum = m' + (moves.map Prod.snd).sum := by
  intro as
  induction as with
  | nil => intro s s' moves m hi hr; cases hr; exact ⟨m, hi, rfl⟩
  | cons a as ih =>
    intro s s' moves m hi hr
    obtain ⟨⟨s₁, i, o⟩, hs, hr⟩ := Option.bind_eq_some_iff.mp hr
    obtain ⟨⟨s₂, rest⟩, hrest, he⟩ := Option.map_eq_some_iff.mp hr
    cases he
    obtain ⟨m₁, hi₁, hone⟩ := hstep s a s₁ i o m hi hs
    obtain ⟨m', hi', hall⟩ := ih hi₁ hrest
    refine ⟨m', hi', ?_⟩
    rw [List.map_cons, List.sum_cons, List.map_cons, List.sum_cons]
    calc m + (i + (rest.map Prod.fst).sum)
        = m₁ + (rest.map Prod.fst).sum + o := by rw [← add_assoc, hone, add_right_comm]
      _ = m' + (o + (rest.map Prod.snd).sum) := by rw [hall, add_assoc, add_comm _ o]

/-- A simulation of steps that do not answer. -/
theorem simulates_run {step : σ → α → Option σ} {spec : τ → α → Option τ} {R : σ → τ → Prop}
    (hstep : ∀ s t a t', R s t → spec t a = some t' → ∃ s', step s a = some s' ∧ R s' t')
    (as : List α) {s : σ} {t t' : τ} (h : R s t) (hr : run spec t as = some t') :
    ∃ s', run step s as = some s' ∧ R s' t' := by
  -- they answer `()`
  let step₁ := fun s a => (step s a).map fun s' => (s', ())
  let spec₁ := fun t a => (spec t a).map fun t' => (t', ())
  have hstep₁ : (fun s a => (step₁ s a).map Prod.fst) = step := by
    funext s a
    simp [step₁, Function.comp_def]
  have hspec₁ : (fun t a => (spec₁ t a).map Prod.fst) = spec := by
    funext t a
    simp [spec₁, Function.comp_def]
  rw [← hspec₁, run_answers] at hr
  rw [← hstep₁, run_answers]
  obtain ⟨⟨t₁, cs⟩, hrun, rfl⟩ := Option.map_eq_some_iff.mp hr
  have hfollow : ∀ s t a t' c, R s t → spec₁ t a = some (t', c) →
      ∃ s' b, step₁ s a = some (s', b) ∧ R s' t' ∧ True ∧ ∀ _ _ : Unit, True → True := by
    intro s t a t' c h ha
    obtain ⟨t₂, ht, he⟩ := Option.map_eq_some_iff.mp ha
    obtain ⟨rfl, rfl⟩ := Prod.mk.inj he
    obtain ⟨s', hs, h'⟩ := hstep s t a t₂ h ht
    exact ⟨s', (), Option.map_eq_some_iff.mpr ⟨s', hs, rfl⟩, h', trivial, fun _ _ h => h⟩
  obtain ⟨s', bs, hrun', h', -⟩ := simulates_answers (Q := fun _ _ _ _ => True) hfollow as h hrun
  exact ⟨s', by rw [hrun']; rfl, h'⟩

end Answers

end BeamModular
