import Mathlib.Data.Fintype.Card
import Mathlib.Data.Fintype.EquivFin
import Mathlib.Logic.Relation
import Mathlib.SetTheory.Cardinal.Finite
import Mathlib.Tactic.Push

/-!
# What a graph leads to

`Throughout r P v` says that every node that can be reached from `v` along the edges
`r` has the property.  It unfolds one edge at a time (`throughout_iff`), and it holds where
the edges do not lead out of some set of nodes with the property (`throughout_of_closed`).
It depends only on the edges that leave the nodes which are reachable and have the property
(`throughout_congr`): a change behind a node without it, or at a node out of reach, does
not matter.

Where no reachable node lies on a cycle and the nodes are finitely many, what a node
inherits from its successors holds of every reachable one (`acyclic_induct`), and no walk
is longer than there are nodes (`cycle_of_walk`).
-/

namespace BeamModular

variable {α : Type*} {r r' : α → α → Prop} {P : α → Prop} {v : α}

/-- Every reachable node has the property. -/
def Throughout (r : α → α → Prop) (P : α → Prop) (v : α) : Prop :=
  ∀ u, Relation.ReflTransGen r v u → P u

theorem throughout_iff : Throughout r P v ↔ P v ∧ ∀ u, r v u → Throughout r P u := by
  constructor
  · intro h
    exact ⟨h v .refl, fun u hu x hx => h x (.head hu hx)⟩
  · rintro ⟨hv, hstep⟩ u hu
    rcases hu.cases_head with rfl | ⟨x, hx, hxu⟩
    · exact hv
    · exact hstep x hx u hxu

theorem throughout_of_closed {Q : α → Prop} (hv : Q v) (hstep : ∀ u x, Q u → r u x → Q x)
    (hP : ∀ u, Q u → P u) : Throughout r P v := by
  intro u hu
  refine hP u ?_
  induction hu with
  | refl => exact hv
  | tail _ hbc ih => exact hstep _ _ ih hbc

/-- **Only the edges on the way count.** -/
theorem throughout_congr
    (h : ∀ u, Relation.ReflTransGen r v u → P u → ∀ x, r u x ↔ r' u x) :
    Throughout r P v ↔ Throughout r' P v := by
  constructor
  · intro ha u hu
    have hr : Relation.ReflTransGen r v u := by
      induction hu with
      | refl => exact .refl
      | tail _ hbc ih => exact ih.tail ((h _ ih (ha _ ih) _).mpr hbc)
    exact ha u hr
  · intro ha u hu
    have hr : Relation.ReflTransGen r' v u := by
      induction hu with
      | refl => exact .refl
      | tail hab hbc ih => exact ih.tail ((h _ hab (ha _ ih) _).mp hbc)
    exact ha u hr

/-- **Induction over the reachable part of a finite graph** in which no cycle is reachable. -/
theorem acyclic_induct [Finite α] {C : α → Prop}
    (hcyc : Throughout r (fun u => ¬ Relation.TransGen r u u) v)
    (hstep : ∀ u, Relation.ReflTransGen r v u → (∀ x, r u x → C x) → C u) : C v := by
  let below : {u // Relation.ReflTransGen r v u} → {u // Relation.ReflTransGen r v u} → Prop :=
    fun b a => Relation.TransGen r a.1 b.1
  have : IsTrans _ below := ⟨fun _ _ _ hab hbc => hbc.trans hab⟩
  have : Std.Irrefl below := ⟨fun a ha => hcyc a.1 a.2 ha⟩
  have hwf : WellFounded below := Finite.wellFounded_of_trans_of_irrefl below
  have hall : ∀ a : {u // Relation.ReflTransGen r v u}, C a.1 := by
    intro a
    induction a using hwf.induction with
    | h a ih => exact hstep a.1 a.2 fun x hx => ih ⟨x, a.2.tail hx⟩ (.single hx)
  exact hall ⟨v, .refl⟩

theorem transGen_of_walk {f : Nat → α} {n : Nat} (hwalk : ∀ i < n, r (f i) (f (i + 1))) :
    ∀ {i j : Nat}, i < j → j ≤ n → Relation.TransGen r (f i) (f j) := by
  intro i j hij
  induction hij with
  | refl => intro hj; exact .single (hwalk i hj)
  | step hlt ih => intro hj; exact (ih (Nat.le_of_succ_le hj)).tail (hwalk _ hj)

/-- **A walk longer than there are nodes** has come round. -/
theorem cycle_of_walk [Finite α] {f : Nat → α} {n : Nat} (hn : Nat.card α ≤ n)
    (hwalk : ∀ i < n, r (f i) (f (i + 1))) :
    ∃ u, Relation.ReflTransGen r (f 0) u ∧ Relation.TransGen r u u := by
  have hnot : ¬ Function.Injective fun i : Fin (n + 1) => f i := fun hinj => by
    have hle := Nat.card_le_card_of_injective _ hinj
    rw [Nat.card_fin] at hle
    omega
  rw [Function.Injective] at hnot
  push Not at hnot
  obtain ⟨i, j, heq, hne⟩ := hnot
  have hcycle : ∀ {a b : Fin (n + 1)}, a < b → f a = f b →
      ∃ u, Relation.ReflTransGen r (f 0) u ∧ Relation.TransGen r u u := by
    intro a b hab hf
    refine ⟨f a, ?_, ?_⟩
    · rcases Nat.eq_zero_or_pos a with h0 | h0
      · rw [h0]
      · exact (transGen_of_walk hwalk h0 (Nat.le_of_lt_succ a.isLt)).to_reflTransGen
    · have ht := transGen_of_walk hwalk hab (Nat.le_of_lt_succ b.isLt)
      rwa [← hf] at ht
  rcases lt_or_gt_of_ne hne with hlt | hgt
  · exact hcycle hlt heq
  · exact hcycle hgt heq.symm

end BeamModular
