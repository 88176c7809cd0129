import BeamModular.Lib.Chain
import Mathlib.Logic.Function.Basic

/-!
# Linked buckets

A hash table whose buckets are chains in one store of nodes.  `home` says which
bucket a value belongs to.  `Bucketed home s heads L` says that following the links
from each bucket's head visits the nodes `L`, and that every value is at home.

Values at home keep the chains apart: a node in two chains would have two homes.  So
what is done to one bucket leaves the others alone, and `push`, `setVal` and
`unlinkAt` say what it does to the lists.
-/

namespace BeamModular

variable {α : Type}

/-- The chains of the buckets, every value in the bucket it belongs to. -/
structure Bucketed (home : α → Nat) (s : Nodes α) (heads : Nat → Option Nat)
    (L : Nat → List (Nat × α)) : Prop where
  chain : ∀ b, Chain s (heads b) (L b) none
  placed : ∀ b, ∀ x ∈ L b, home x.2 = b

namespace Bucketed

variable {home : α → Nat} {s : Nodes α} {heads : Nat → Option Nat} {L : Nat → List (Nat × α)}

theorem empty (home : α → Nat) : Bucketed home [] (fun _ => none) fun _ => [] :=
  ⟨fun _ => rfl, fun _ x hx => absurd hx (by simp)⟩

/-- A node stands in one bucket only. -/
theorem apart (h : Bucketed home s heads L) {b b' : Nat} {x y : Nat × α} (hx : x ∈ L b)
    (hy : y ∈ L b') (he : x.1 = y.1) : b = b' := by
  obtain ⟨l, hl⟩ := (h.chain b).get_of_mem x hx
  obtain ⟨l', hl'⟩ := (h.chain b').get_of_mem y hy
  rw [he, hl'] at hl
  have hv : y.2 = x.2 := congrArg Node.val (Option.some.inj hl)
  rw [← h.placed b x hx, ← h.placed b' y hy, hv]

theorem search (h : Bucketed home s heads L) (p : α → Bool) (b : Nat) :
    s.search p s.length (heads b) = some ((L b).find? fun x => p x.2) :=
  (h.chain b).search_eq (h.chain b).length_le

theorem chain_of_ne (h : Bucketed home s heads L) {b b' : Nat} (hne : b' ≠ b) {s' : Nodes α}
    (hs : ∀ i, i ∉ (L b).map Prod.fst → s'.get i = s.get i) : Chain s' (heads b') (L b') none := by
  refine (h.chain b').congr fun x hx => hs x.1 fun hm => ?_
  obtain ⟨y, hy, hyx⟩ := List.mem_map.mp hm
  exact hne (h.apart hx hy hyx.symm)

theorem replace (h : Bucketed home s heads L) {b : Nat} {s' : Nodes α} {a : Option Nat}
    {M : List (Nat × α)} (hc : Chain s' a M none) (hM : ∀ x ∈ M, home x.2 = b)
    (hs : ∀ i, i ∉ (L b).map Prod.fst → s'.get i = s.get i) :
    Bucketed home s' (Function.update heads b a) (Function.update L b M) where
  chain b' := by
    rw [Function.update_apply, Function.update_apply]
    split
    · exact hc
    · exact h.chain_of_ne ‹_› hs
  placed b' x hx := by
    rw [Function.update_apply] at hx
    split at hx
    · rename_i hb
      rw [hb]
      exact hM x hx
    · exact h.placed b' x hx

theorem push (h : Bucketed home s heads L) (v : α) :
    Bucketed home (s.alloc ⟨v, heads (home v)⟩) (Function.update heads (home v) (some s.length))
      (Function.update L (home v) ((s.length, v) :: L (home v))) where
  chain b := by
    rw [Function.update_apply, Function.update_apply]
    split
    · exact ⟨rfl, _, Nodes.get_alloc_new s _, (h.chain (home v)).alloc _⟩
    · exact (h.chain b).alloc _
  placed b x hx := by
    rw [Function.update_apply] at hx
    split at hx
    · rename_i hb
      rw [hb]
      rcases List.mem_cons.mp hx with rfl | hx
      · rfl
      · exact h.placed (home v) x hx
    · exact h.placed b x hx

theorem setVal (h : Bucketed home s heads L) {b i : Nat} {v : α} {K R : List (Nat × α)}
    (hL : L b = K ++ (i, v) :: R) {w : α} (hw : home w = b) :
    ∃ s', s.setVal i w = some s' ∧
      Bucketed home s' heads (Function.update L b (K ++ (i, w) :: R)) := by
  obtain ⟨s', hs, hc, hout⟩ := Chain.setVal w (hL ▸ h.chain b)
  refine ⟨s', hs, ?_⟩
  have hrep := h.replace (b := b) hc ?_ ?_
  · rwa [Function.update_eq_self] at hrep
  · intro x hx
    rcases List.mem_append.mp hx with hm | hm
    · exact h.placed b x (by rw [hL]; exact List.mem_append_left _ hm)
    · rcases List.mem_cons.mp hm with rfl | hm
      · exact hw
      · exact h.placed b x (by rw [hL]; simp [hm])
  · intro j hj
    refine hout j fun hji => hj ?_
    rw [hL, hji]
    simp

theorem unlinkAt (h : Bucketed home s heads L) {b c : Nat} {w : α} {K R : List (Nat × α)}
    (hL : L b = K ++ (c, w) :: R) :
    ∃ s' a, s.unlinkAt (heads b) (K.getLast?.map Prod.fst) c = some (s', a) ∧
      Bucketed home s' (Function.update heads b a) (Function.update L b (K ++ R)) := by
  obtain ⟨s', a, hs, hc, hout⟩ := Chain.unlinkAt (hL ▸ h.chain b)
  refine ⟨s', a, hs, h.replace hc ?_ ?_⟩
  · intro x hx
    refine h.placed b x ?_
    rw [hL]
    rcases List.mem_append.mp hx with hm | hm
    · exact List.mem_append_left _ hm
    · exact List.mem_append_right _ (List.mem_cons_of_mem _ hm)
  · intro j hj
    refine hout j fun hm => hj ?_
    rw [hL]
    rw [List.map_append] at hm ⊢
    rcases List.mem_append.mp hm with hm | hm
    · exact List.mem_append_left _ hm
    · refine List.mem_append_right _ ?_
      rw [List.map_cons, List.mem_singleton.mp hm]
      exact List.mem_cons_self

end Bucketed

end BeamModular
