import BeamModular.Lib.Chain

/-!
# Taking linked lists down

How many nodes of a store are in use, and the loop that frees a whole list: it reads
the link of a node before it frees the node, and goes on there.

`live` counts the nodes in use, and each operation of a linked list has one lemma that
says what it does to the count.  `release` is the loop; it has no result when it comes
to a node that is free.  On a chain it frees the chain's nodes (`Chain.release_eq`), on
chains that are apart one after the other it frees them all (`releaseAll_eq`), and if
they are as many as are in use then none is left (`Chain.release_clears`,
`releaseAll_clears`).
-/

namespace BeamModular

variable {α : Type}

namespace Nodes

/-- The number of nodes in use. -/
def live (s : Nodes α) : Nat := s.countP Option.isSome

/-- Free the nodes, in this order. -/
def freeAll (s : Nodes α) (is : List Nat) : Nodes α := is.foldl free s

/-- Free the nodes from `a` on.  There is no result when a link leads to a freed node, or when
`fuel` steps are not enough. -/
def release (s : Nodes α) : Nat → Option Nat → Option (Nodes α)
  | _, none => some s
  | 0, some _ => none
  | fuel + 1, some i => (s.get i).bind fun n => release (s.free i) fuel n.next

/-- The same for several lists, one after the other. -/
def releaseAll {κ : Type} (heads : κ → Option Nat) (ks : List κ) (s : Nodes α) :
    Option (Nodes α) :=
  ks.foldlM (fun s k => s.release s.length (heads k)) s

variable {s s' : Nodes α} {i : Nat} {n : Node α}

/-! ### Counting -/

@[simp] theorem live_alloc (s : Nodes α) (n : Node α) : (s.alloc n).live = s.live + 1 := by
  simp [live, alloc]

theorem getElem_of_get (h : s.get i = some n) :
    ∃ hi : i < s.length, s[i] = some n := by
  refine ⟨lt_length_of_get h, ?_⟩
  rw [get, List.getElem?_eq_getElem (lt_length_of_get h)] at h
  exact h

/-- A store counts a node off, and counts what is put in its place. -/
theorem live_set (h : s.get i = some n) (o : Option (Node α)) :
    live (s.set i o) + 1 = s.live + if o.isSome then 1 else 0 := by
  obtain ⟨hi, hs⟩ := getElem_of_get h
  have hpos : 0 < s.countP Option.isSome :=
    List.countP_pos_iff.mpr ⟨s[i], List.getElem_mem hi, by rw [hs]; rfl⟩
  rw [live, live, List.countP_set hi, hs]
  simp only [Option.isSome_some, if_true]
  omega

theorem live_setNext {link : Option Nat} (h : s.setNext i link = some s') : s'.live = s.live := by
  obtain ⟨n, hn, rfl⟩ := setNext_eq_some h
  simpa using live_set hn (some { n with next := link })

theorem live_setVal {v : α} (h : s.setVal i v = some s') : s'.live = s.live := by
  obtain ⟨n, hn, rfl⟩ := Option.map_eq_some_iff.mp h
  simpa using live_set hn (some { n with val := v })

theorem live_free (h : s.get i = some n) : (s.free i).live + 1 = s.live := by
  simpa [free] using live_set h none

theorem live_unlinkAt {a a' prev : Option Nat} {c : Nat}
    (h : s.unlinkAt a prev c = some (s', a')) : s'.live + 1 = s.live := by
  obtain ⟨n, hn, h⟩ := Option.bind_eq_some_iff.mp h
  cases prev with
  | none =>
    cases h
    exact live_free hn
  | some p =>
    obtain ⟨s₁, hs, he⟩ := Option.map_eq_some_iff.mp h
    cases he
    obtain ⟨m, hm, rfl⟩ := setNext_eq_some hs
    -- the node is still there when its neighbour, or itself, has a new link
    have hc : ∃ k, get (s.set p (some { m with next := n.next })) c = some k := by
      rw [get_set _ (lt_length_of_get hm)]
      split
      · exact ⟨_, rfl⟩
      · exact ⟨n, hn⟩
    obtain ⟨k, hk⟩ := hc
    rw [live_free hk, live_setNext hs]

/-! ### Freeing -/

theorem get_free_of_ne {j : Nat} (h : j ≠ i) : (s.free i).get j = s.get j := by
  simp [get, free, List.getElem?_set_ne h.symm]

theorem freeAll_append (s : Nodes α) (is js : List Nat) :
    s.freeAll (is ++ js) = (s.freeAll is).freeAll js := List.foldl_append

theorem get_freeAll_of_notMem {is : List Nat} (h : i ∉ is) : (s.freeAll is).get i = s.get i := by
  induction is generalizing s with
  | nil => rfl
  | cons j is ih =>
    rw [List.mem_cons, not_or] at h
    exact (ih h.2).trans (get_free_of_ne h.1)

theorem live_freeAll {is : List Nat} (hnd : is.Nodup) (hlive : ∀ i ∈ is, s.get i ≠ none) :
    (s.freeAll is).live + is.length = s.live := by
  induction is generalizing s with
  | nil => rfl
  | cons i is ih =>
    rw [List.nodup_cons] at hnd
    obtain ⟨n, hn⟩ := Option.ne_none_iff_exists'.mp (hlive i List.mem_cons_self)
    have hother : ∀ j ∈ is, (s.free i).get j ≠ none := fun j hj => by
      have hne : j ≠ i := fun he => hnd.1 (he ▸ hj)
      rw [get_free_of_ne hne]
      exact hlive j (List.mem_cons_of_mem i hj)
    have hrest := ih hnd.2 hother
    have hfirst := live_free hn
    rw [List.length_cons]
    change ((s.free i).freeAll is).live + (is.length + 1) = s.live
    omega

end Nodes

/-! ### The loop -/

theorem Chain.inUse {L : List (Nat × α)} {s : Nodes α} {a b : Option Nat} (h : Chain s a L b) :
    ∀ i ∈ L.map Prod.fst, s.get i ≠ none := by
  intro i hi
  obtain ⟨x, hx, rfl⟩ := List.mem_map.mp hi
  obtain ⟨link, hg⟩ := h.get_of_mem x hx
  rw [hg]
  exact Option.some_ne_none _

/-- **The loop frees the nodes of its chain.** -/
theorem Chain.release_eq {L : List (Nat × α)} : ∀ {s : Nodes α} {a : Option Nat} {fuel : Nat},
    Chain s a L none → L.length ≤ fuel → s.release fuel a = some (s.freeAll (L.map Prod.fst)) := by
  induction L with
  | nil =>
    intro s a fuel h _
    cases h
    cases fuel <;> rfl
  | cons x L ih =>
    intro s a fuel h hf
    obtain ⟨k, rfl⟩ : ∃ k, fuel = k + 1 := ⟨fuel - 1, by simp at hf; omega⟩
    -- the link is read before the node is freed
    obtain ⟨link, hg, _, hfree⟩ := h.dropFirst
    obtain ⟨rfl, _⟩ := h
    rw [Nodes.release, hg, Option.bind_some]
    exact ih hfree (by simpa using hf)

/-- **If the chain has as many nodes as are in use, none is left.** -/
theorem Chain.release_clears {L : List (Nat × α)} {s : Nodes α} {a : Option Nat}
    (h : Chain s a L none) (hlive : s.live = L.length) :
    ∃ s', s.release s.length a = some s' ∧ s'.live = 0 := by
  refine ⟨_, h.release_eq h.length_le, ?_⟩
  have hfreed := Nodes.live_freeAll h.nodup h.inUse
  rw [List.length_map] at hfreed
  omega

section Several

variable {κ : Type} {s : Nodes α} {heads : κ → Option Nat} {L : κ → List (Nat × α)} {ks : List κ}

/-- The nodes of several chains. -/
def chainNodes (L : κ → List (Nat × α)) (ks : List κ) : List Nat :=
  ks.flatMap fun k => (L k).map Prod.fst

/-- No node is in two of the chains. -/
def ChainsApart (L : κ → List (Nat × α)) : Prop :=
  ∀ k k', k ≠ k' → ∀ x ∈ L k, ∀ y ∈ L k', x.1 ≠ y.1

theorem ChainsApart.notMem (h : ChainsApart L) {k : κ} (hk : k ∉ ks) {x : Nat × α} (hx : x ∈ L k) :
    x.1 ∉ chainNodes L ks := by
  intro hm
  obtain ⟨k', hk', hm⟩ := List.mem_flatMap.mp hm
  obtain ⟨y, hy, hyx⟩ := List.mem_map.mp hm
  exact h k k' (fun he => hk (he ▸ hk')) x hx y hy hyx.symm

/-- **Chains that are apart** are freed one after the other. -/
theorem releaseAll_eq (hchain : ∀ k, Chain s (heads k) (L k) none) (hapart : ChainsApart L)
    (hnd : ks.Nodup) : Nodes.releaseAll heads ks s = some (s.freeAll (chainNodes L ks)) := by
  suffices h : ∀ (ks done : List κ), (done ++ ks).Nodup →
      Nodes.releaseAll heads ks (s.freeAll (chainNodes L done))
        = some (s.freeAll (chainNodes L (done ++ ks))) by
    simpa [chainNodes, Nodes.freeAll] using h ks [] hnd
  intro ks
  induction ks with
  | nil =>
    intro done _
    rw [List.append_nil]
    rfl
  | cons k ks ih =>
    intro done hnd
    have hk : k ∉ done := fun hm => by
      rw [List.nodup_append] at hnd
      exact hnd.2.2 k hm k List.mem_cons_self rfl
    -- what was freed so far is none of this chain
    have hc : Chain (s.freeAll (chainNodes L done)) (heads k) (L k) none :=
      (hchain k).congr fun x hx => Nodes.get_freeAll_of_notMem (hapart.notMem hk hx)
    have hthis : s.freeAll (chainNodes L (done ++ [k]))
        = (s.freeAll (chainNodes L done)).freeAll ((L k).map Prod.fst) := by
      rw [chainNodes, List.flatMap_append, Nodes.freeAll_append]
      simp [chainNodes]
    have hrest := ih (done ++ [k]) (by rwa [List.append_assoc])
    rw [hthis, List.append_assoc] at hrest
    rw [Nodes.releaseAll, List.foldlM_cons, hc.release_eq hc.length_le]
    exact hrest

theorem nodup_chainNodes (hchain : ∀ k, Chain s (heads k) (L k) none) (hapart : ChainsApart L)
    (hnd : ks.Nodup) : (chainNodes L ks).Nodup := by
  refine List.nodup_flatMap.mpr ⟨fun k _ => (hchain k).nodup, hnd.imp fun hne => ?_⟩
  intro i hi hi'
  obtain ⟨x, hx, rfl⟩ := List.mem_map.mp hi
  obtain ⟨y, hy, hyx⟩ := List.mem_map.mp hi'
  exact hapart _ _ hne x hx y hy hyx.symm

/-- **If the chains have as many nodes as are in use, none is left**, and none is freed twice. -/
theorem releaseAll_clears (hchain : ∀ k, Chain s (heads k) (L k) none) (hapart : ChainsApart L)
    (hnd : ks.Nodup) (hlive : s.live ≤ (ks.map fun k => (L k).length).sum) :
    ∃ s', Nodes.releaseAll heads ks s = some s' ∧ s'.live = 0 := by
  refine ⟨_, releaseAll_eq hchain hapart hnd, ?_⟩
  have hfreed := Nodes.live_freeAll (nodup_chainNodes hchain hapart hnd) fun i hi => by
    obtain ⟨k, _, hm⟩ := List.mem_flatMap.mp hi
    exact (hchain k).inUse i hm
  have hlen : (chainNodes L ks).length = (ks.map fun k => (L k).length).sum := by
    simp [chainNodes, List.length_flatMap]
  omega

end Several

end BeamModular
