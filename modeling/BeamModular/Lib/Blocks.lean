import Mathlib.Data.Finset.Dedup
import Mathlib.Tactic

/-!
# An allocator as a set of blocks

What a program owes to its allocator: the blocks it has been given and has not given
back.  A block is a number, a granted request gives one that was never given before, and
which requests are granted is arbitrary.  To give back what is not live has no result, so
a sequence of releases that has one releases each block once.

`Grows h bs h'` says that `bs` are the blocks obtained on the way from `h` to `h'`;
`freeAll_of_grows` is the balance: who releases what has been obtained, in any order,
leaves the live blocks as they were.  `allocAll` asks for several blocks and keeps them
only together (`allocAll_spec`).
-/

namespace BeamModular

/-- The live blocks, and the answers to the next requests. -/
structure Blocks where
  live : Finset Nat
  next : Nat
  grant : Nat → Bool
  fresh : ∀ b ∈ live, b < next

namespace Blocks

/-- An allocator that has given nothing yet and refuses nothing. -/
def granting : Blocks := ⟨∅, 0, fun _ => true, fun b hb => absurd hb (Finset.notMem_empty b)⟩

/-- After a request that is refused. -/
def refuse (h : Blocks) : Blocks := { h with grant := fun k => h.grant (k + 1) }

/-- After a request that is granted. -/
def give (h : Blocks) : Blocks where
  live := insert h.next h.live
  next := h.next + 1
  grant k := h.grant (k + 1)
  fresh b hb := by
    rcases Finset.mem_insert.mp hb with rfl | hb
    · exact Nat.lt_succ_self _
    · exact (h.fresh b hb).trans (Nat.lt_succ_self _)

/-- A request for a block. -/
def alloc (h : Blocks) : Blocks × Option Nat :=
  if h.grant 0 then (h.give, some h.next) else (h.refuse, none)

/-- A release. -/
def free (h : Blocks) (b : Nat) : Option Blocks :=
  if b ∈ h.live then
    some { h with
      live := h.live.erase b
      fresh := fun b hb => h.fresh b (Finset.mem_of_mem_erase hb) }
  else none

/-- Releases, one after the other. -/
def freeAll : List Nat → Blocks → Option Blocks
  | [], h => some h
  | b :: bs, h => (h.free b).bind (freeAll bs)

/-- `bs` are the blocks obtained between two states. -/
structure Grows (h : Blocks) (bs : List Nat) (h' : Blocks) : Prop where
  live : h'.live = h.live ∪ bs.toFinset
  nodup : bs.Nodup
  new : ∀ b ∈ bs, h.next ≤ b
  next : h.next ≤ h'.next

variable {h h₁ h' : Blocks} {bs cs : List Nat}

theorem alloc_refused (hg : h.grant 0 = false) : h.alloc = (h.refuse, none) := by
  rw [alloc, hg]
  rfl

theorem alloc_granted (hg : h.grant 0 = true) : h.alloc = (h.give, some h.next) := by
  rw [alloc, hg]
  rfl

theorem Grows.refl (h : Blocks) : h.Grows [] h where
  live := by simp
  nodup := List.nodup_nil
  new b hb := by cases hb
  next := Nat.le_refl _

theorem grows_refuse (h : Blocks) : h.Grows [] h.refuse :=
  ⟨(Grows.refl h).live, List.nodup_nil, (Grows.refl h).new, Nat.le_refl _⟩

theorem grows_give (h : Blocks) : h.Grows [h.next] h.give where
  live := by
    rw [give, List.toFinset_cons, List.toFinset_nil, insert_empty_eq, Finset.union_comm,
      ← Finset.insert_eq]
  nodup := List.nodup_singleton _
  new b hb := by rw [List.mem_singleton.mp hb]
  next := Nat.le_succ _

theorem grows_alloc (h : Blocks) : h.Grows h.alloc.2.toList h.alloc.1 := by
  cases hg : h.grant 0 with
  | false =>
    rw [alloc_refused hg]
    exact h.grows_refuse
  | true =>
    rw [alloc_granted hg]
    exact h.grows_give

theorem alloc_eq_none_iff {h : Blocks} : h.alloc.2 = none ↔ h.grant 0 = false := by
  cases hg : h.grant 0 with
  | false => simp [alloc_refused hg]
  | true => simp [alloc_granted hg]

theorem grant_alloc (h : Blocks) : h.alloc.1.grant = fun k => h.grant (k + 1) := by
  cases hg : h.grant 0 with
  | false => rw [alloc_refused hg]; rfl
  | true => rw [alloc_granted hg]; rfl

/-- What has been obtained is live, and was not before. -/
theorem Grows.mem (hg : h.Grows bs h') {b : Nat} (hb : b ∈ bs) : b ∈ h'.live ∧ b ∉ h.live := by
  refine ⟨?_, fun hlive => ?_⟩
  · rw [hg.live]
    exact Finset.mem_union_right _ (List.mem_toFinset.mpr hb)
  · have hlt := h.fresh b hlive
    have hle := hg.new b hb
    omega

theorem Grows.keeps (hg : h.Grows bs h') {b : Nat} (hb : b ∈ h.live) : b ∈ h'.live := by
  rw [hg.live]
  exact Finset.mem_union_left _ hb

theorem Grows.trans (hg : h.Grows bs h₁) (hg' : h₁.Grows cs h') : h.Grows (bs ++ cs) h' where
  live := by rw [hg'.live, hg.live, List.toFinset_append, Finset.union_assoc]
  nodup := by
    rw [List.nodup_append]
    refine ⟨hg.nodup, hg'.nodup, fun b hb c hc he => ?_⟩
    exact (hg'.mem hc).2 (he ▸ (hg.mem hb).1)
  new b hb := by
    rcases List.mem_append.mp hb with hb | hb
    · exact hg.new b hb
    · exact hg.next.trans (hg'.new b hb)
  next := hg.next.trans hg'.next

theorem live_of_freeAll : ∀ {bs : List Nat} {h h' : Blocks}, freeAll bs h = some h' →
    h'.live = h.live \ bs.toFinset := by
  intro bs
  induction bs with
  | nil => intro h h' he; cases he; simp
  | cons b bs ih =>
    intro h h' he
    obtain ⟨h₁, hf, hr⟩ := Option.bind_eq_some_iff.mp he
    rw [free] at hf
    split at hf
    · cases hf
      rw [ih hr, List.toFinset_cons, Finset.sdiff_insert]
      exact Finset.erase_sdiff_comm _ _ _
    · cases hf

theorem freeAll_single (b : Nat) (h : Blocks) : freeAll [b] h = h.free b :=
  Option.bind_fun_some _

theorem freeAll_append (cs : List Nat) : ∀ (bs : List Nat) (h : Blocks),
    freeAll (bs ++ cs) h = (freeAll bs h).bind (freeAll cs) := by
  intro bs
  induction bs with
  | nil => intro h; rfl
  | cons b bs ih =>
    intro h
    rw [List.cons_append, freeAll, freeAll, Option.bind_assoc]
    exact congrArg (Option.bind (h.free b)) (funext ih)

theorem freeAll_of_nodup : ∀ {bs : List Nat} {h : Blocks}, bs.Nodup → (∀ b ∈ bs, b ∈ h.live) →
    ∃ h', freeAll bs h = some h' := by
  intro bs
  induction bs with
  | nil => intro h _ _; exact ⟨h, rfl⟩
  | cons b bs ih =>
    intro h hnd hlive
    obtain ⟨hb, hnd⟩ := List.nodup_cons.mp hnd
    rw [freeAll, free, if_pos (hlive b List.mem_cons_self), Option.bind_some]
    refine ih hnd fun c hc => Finset.mem_erase.mpr ⟨?_, hlive c (List.mem_cons_of_mem b hc)⟩
    rintro rfl
    exact hb hc

/-- **The balance**: with the release of what has been obtained, the live blocks are those from
before. -/
theorem freeAll_of_grows (hg : h.Grows bs h') (hperm : cs.Perm bs) :
    ∃ h'', freeAll cs h' = some h'' ∧ h''.live = h.live := by
  obtain ⟨h'', hf⟩ := freeAll_of_nodup (hperm.nodup_iff.mpr hg.nodup) fun b hb =>
    (hg.mem (hperm.mem_iff.mp hb)).1
  refine ⟨h'', hf, ?_⟩
  have hdisj : Disjoint h.live bs.toFinset := by
    rw [Finset.disjoint_right]
    exact fun b hb => (hg.mem (List.mem_toFinset.mp hb)).2
  rw [live_of_freeAll hf, List.toFinset_eq_of_perm _ _ hperm, hg.live,
    Finset.union_sdiff_cancel_right hdisj]

/-! ### All or nothing -/

/-- `n` requests behind the blocks already obtained; when one is refused, all are given back, the
newest first. -/
def allocOn : Nat → List Nat → Blocks → Option (Option (List Nat) × Blocks)
  | 0, got, h => some (some got, h)
  | n + 1, got, h =>
    match h.alloc with
    | (h, none) => (freeAll got.reverse h).map fun h => (none, h)
    | (h, some b) => allocOn n (got ++ [b]) h

/-- `n` blocks, or none. -/
def allocAll (n : Nat) (h : Blocks) : Option (Option (List Nat) × Blocks) := h.allocOn n []

theorem freeAll_keeps : ∀ {bs : List Nat} {h h' : Blocks}, freeAll bs h = some h' →
    h'.next = h.next ∧ h'.grant = h.grant := by
  intro bs
  induction bs with
  | nil => intro h h' he; cases he; exact ⟨rfl, rfl⟩
  | cons b bs ih =>
    intro h h' he
    obtain ⟨h₁, hb, hr⟩ := Option.bind_eq_some_iff.mp he
    rw [free] at hb
    split at hb
    · obtain rfl := Option.some.inj hb
      have hrest := ih hr
      exact hrest
    · cases hb

/-- Who gives back what has been obtained has obtained nothing. -/
theorem Grows.undo (hg : h.Grows bs h₁) (hperm : cs.Perm bs) :
    ∃ h', freeAll cs h₁ = some h' ∧ h.Grows [] h' ∧ h'.grant = h₁.grant := by
  obtain ⟨h', hf, hlive⟩ := freeAll_of_grows hg hperm
  obtain ⟨hnext, hgrant⟩ := freeAll_keeps hf
  refine ⟨h', hf, ?_, hgrant⟩
  exact ⟨by simpa using hlive, List.nodup_nil, (Grows.refl h).new, hnext ▸ hg.next⟩

/-- What an attempt at `n` blocks leaves. -/
structure Attempt (n : Nat) (h : Blocks) (r : Option (List Nat)) (h' : Blocks) : Prop where
  grows : h.Grows (r.getD []) h'
  granted : r.isSome = true ↔ ∀ k < n, h.grant k = true
  rest : r.isSome = true → h'.grant = fun k => h.grant (n + k)

theorem allocOn_spec {h₀ : Blocks} : ∀ (n : Nat) {got : List Nat} {h : Blocks}, h₀.Grows got h →
    ∃ r h', h.allocOn n got = some (r, h') ∧ h₀.Grows (r.getD []) h' ∧
      (r.isSome = true ↔ ∀ k < n, h.grant k = true) ∧
      (r.isSome = true → h'.grant = fun k => h.grant (n + k)) := by
  intro n
  induction n with
  | zero =>
    intro got h hg
    exact ⟨some got, h, rfl, hg, by simp, fun _ => by simp⟩
  | succ n ih =>
    intro got h hg
    rw [allocOn]
    cases h0 : h.grant 0 with
    | false =>
      have hrefused : h₀.Grows got h.refuse := by
        simpa using hg.trans h.grows_refuse
      obtain ⟨h', hf, hback, _⟩ := hrefused.undo got.reverse_perm
      rw [alloc_refused h0]
      refine ⟨none, h', by dsimp only; rw [hf]; rfl, hback, ?_, by simp⟩
      exact iff_of_false (by simp) fun hall => by simp [hall 0 (Nat.succ_pos n)] at h0
    | true =>
      obtain ⟨r, h', hr, hgr, hiff, hrest⟩ := ih (hg.trans h.grows_give)
      rw [alloc_granted h0]
      refine ⟨r, h', hr, hgr, hiff.trans ⟨fun hall k hk => ?_, fun hall k hk => ?_⟩, fun hs => ?_⟩
      · cases k with
        | zero => exact h0
        | succ k => exact hall k (Nat.lt_of_succ_lt_succ hk)
      · exact hall (k + 1) (Nat.succ_lt_succ hk)
      · rw [hrest hs]
        funext k
        exact congrArg h.grant (by omega)

/-- **All or nothing**: `n` blocks exactly if `n` requests are granted, else nothing is kept. -/
theorem allocAll_spec (n : Nat) (h : Blocks) : ∃ r h', h.allocAll n = some (r, h') ∧
    h.Attempt n r h' := by
  obtain ⟨r, h', hr, hg, hiff, hrest⟩ := allocOn_spec n (Grows.refl h)
  exact ⟨r, h', hr, hg, hiff, hrest⟩

end Blocks

end BeamModular
