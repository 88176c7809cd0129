import Mathlib.Data.List.Basic
import Mathlib.Data.List.Nodup
import Mathlib.Data.List.GetD
import Mathlib.Tactic

/-!
# Singly linked nodes

A store of nodes, each with a value and a link.  A node's identity is its place in
the store and is never used twice, so a link to a freed node stays recognisable:
reading it has no result.

`Chain s a L b` says that following the links from `a` visits exactly the nodes `L`,
with those values, and arrives at `b`.  A chain that ends at `none` visits no node
twice (`Chain.nodup`), because from one node there is only one way on.  The list
operations of a queue are then three lemmas: `Chain.snoc` appends behind the last
node, `Chain.unlink` drops a node behind another one, and dropping the first node
is reading the definition.

A loop that follows the links is `search`, with a bound on its steps that no chain
exceeds; `Chain.search_eq` says that it finds what `find?` finds on the list.
`searchLink` and `unlinkAt` are the loop with a pointer to the link, which can drop the
node it has found wherever it stands.
-/

namespace BeamModular

/-- A value and the link to the next node. -/
structure Node (α : Type) where
  val : α
  next : Option Nat
  deriving DecidableEq, Repr

/-- A store of nodes; a freed node is `none`. -/
abbrev Nodes (α : Type) := List (Option (Node α))

namespace Nodes

variable {α : Type}

def get (s : Nodes α) (i : Nat) : Option (Node α) := s[i]?.join

/-- A new node; its identity is `s.length`. -/
def alloc (s : Nodes α) (n : Node α) : Nodes α := s ++ [some n]

/-- Store a link; there is no result on a freed node. -/
def setNext (s : Nodes α) (i : Nat) (link : Option Nat) : Option (Nodes α) :=
  (s.get i).map fun n => s.set i (some { n with next := link })

def free (s : Nodes α) (i : Nat) : Nodes α := s.set i none

theorem lt_length_of_get {s : Nodes α} {i : Nat} {n : Node α} (h : s.get i = some n) :
    i < s.length := by
  by_contra hge
  rw [get, List.getElem?_eq_none (by omega)] at h
  cases h

@[simp] theorem get_alloc_new (s : Nodes α) (n : Node α) : (s.alloc n).get s.length = some n := by
  simp [get, alloc]

theorem get_alloc_of_lt {s : Nodes α} {i : Nat} (n : Node α) (h : i < s.length) :
    (s.alloc n).get i = s.get i := by
  simp [get, alloc, List.getElem?_append_left h]

theorem get_alloc_of_get {s : Nodes α} {i : Nat} {n k : Node α} (h : s.get i = some k) :
    (s.alloc n).get i = some k := by
  rw [get_alloc_of_lt n (lt_length_of_get h), h]

theorem get_set {s : Nodes α} {i j : Nat} (o : Option (Node α)) (hi : i < s.length) :
    get (s.set i o) j = if j = i then o else s.get j := by
  by_cases h : j = i
  · subst h
    simp [get, hi]
  · simp [get, h, List.getElem?_set_ne (fun he => h he.symm)]

theorem get_free {s : Nodes α} {i j : Nat} (hi : i < s.length) :
    (s.free i).get j = if j = i then none else s.get j := get_set none hi

theorem setNext_eq_some {s s' : Nodes α} {i : Nat} {link : Option Nat}
    (h : s.setNext i link = some s') :
    ∃ n, s.get i = some n ∧ s' = s.set i (some { n with next := link }) := by
  obtain ⟨n, hn, hs⟩ := Option.map_eq_some_iff.mp h
  exact ⟨n, hn, hs.symm⟩

theorem setNext_of_get {s : Nodes α} {i : Nat} {n : Node α} (link : Option Nat)
    (h : s.get i = some n) : s.setNext i link = some (s.set i (some { n with next := link })) := by
  rw [setNext, h]
  rfl

@[simp] theorem length_alloc (s : Nodes α) (n : Node α) : (s.alloc n).length = s.length + 1 := by
  simp [alloc]

end Nodes

/-! ### Chains -/

variable {α : Type}

/-- Following the links from `a` visits the nodes `L` and arrives at `b`. -/
def Chain (s : Nodes α) (a : Option Nat) : List (Nat × α) → Option Nat → Prop
  | [], b => a = b
  | x :: L, b => a = some x.1 ∧ ∃ link, s.get x.1 = some ⟨x.2, link⟩ ∧ Chain s link L b

namespace Chain

variable {s s' : Nodes α}

theorem head_eq {L : List (Nat × α)} {a : Option Nat} (h : Chain s a L none) :
    a = L.head?.map Prod.fst := by
  cases L with
  | nil => exact h
  | cons x L => exact h.1

theorem append : ∀ {L₁ L₂ : List (Nat × α)} {a b c : Option Nat},
    Chain s a L₁ b → Chain s b L₂ c → Chain s a (L₁ ++ L₂) c := by
  intro L₁
  induction L₁ with
  | nil => intro L₂ a b c h1 h2; cases h1; exact h2
  | cons x L ih =>
    rintro L₂ a b c ⟨ha, link, hg, hr⟩ h2
    exact ⟨ha, link, hg, ih hr h2⟩

theorem split : ∀ {L₁ L₂ : List (Nat × α)} {a c : Option Nat}, Chain s a (L₁ ++ L₂) c →
    ∃ b, Chain s a L₁ b ∧ Chain s b L₂ c := by
  intro L₁
  induction L₁ with
  | nil => intro L₂ a c h; exact ⟨a, rfl, h⟩
  | cons x L ih =>
    rintro L₂ a c ⟨ha, link, hg, hr⟩
    obtain ⟨b, h1, h2⟩ := ih hr
    exact ⟨b, ⟨ha, link, hg, h1⟩, h2⟩

theorem congr : ∀ {L : List (Nat × α)} {a b : Option Nat}, Chain s a L b →
    (∀ x ∈ L, s'.get x.1 = s.get x.1) → Chain s' a L b := by
  intro L
  induction L with
  | nil => intro a b h _; exact h
  | cons x L ih =>
    rintro a b ⟨ha, link, hg, hr⟩ hs
    exact ⟨ha, link, by rw [hs x List.mem_cons_self, hg],
      ih hr fun y hy => hs y (List.mem_cons_of_mem x hy)⟩

theorem get_of_mem : ∀ {L : List (Nat × α)} {a b : Option Nat}, Chain s a L b →
    ∀ x ∈ L, ∃ link, s.get x.1 = some ⟨x.2, link⟩ := by
  intro L
  induction L with
  | nil => intro a b _ x hx; exact absurd hx (by simp)
  | cons y L ih =>
    rintro a b ⟨_, link, hg, hr⟩ x hx
    rcases List.mem_cons.mp hx with rfl | hm
    · exact ⟨link, hg⟩
    · exact ih hr x hm

theorem lt_length {L : List (Nat × α)} {a b : Option Nat} (h : Chain s a L b) :
    ∀ i ∈ L.map Prod.fst, i < s.length := by
  intro i hi
  obtain ⟨x, hx, rfl⟩ := List.mem_map.mp hi
  obtain ⟨link, hg⟩ := h.get_of_mem x hx
  exact Nodes.lt_length_of_get hg

/-- **From one node there is only one way on.** -/
theorem unique : ∀ {L₁ L₂ : List (Nat × α)} {a : Option Nat}, Chain s a L₁ none →
    Chain s a L₂ none → L₁ = L₂ := by
  intro L₁
  induction L₁ with
  | nil =>
    intro L₂ a h1 h2
    cases h1
    cases L₂ with
    | nil => rfl
    | cons x L => exact absurd h2.1 (by simp)
  | cons x L ih =>
    rintro L₂ a ⟨ha, link, hg, hr⟩ h2
    cases L₂ with
    | nil => rw [show a = none from h2] at ha; cases ha
    | cons y K =>
      obtain ⟨hb, link', hg', hr'⟩ := h2
      have hxy : x.1 = y.1 := Option.some.inj (ha.symm.trans hb)
      rw [hxy] at hg
      rw [hg] at hg'
      obtain ⟨hv, hl⟩ := Node.mk.inj (Option.some.inj hg')
      rw [← hl] at hr'
      rw [ih hr hr', Prod.ext hxy hv]

/-- **A chain that ends visits no node twice.** -/
theorem nodup : ∀ {L : List (Nat × α)} {a : Option Nat}, Chain s a L none →
    (L.map Prod.fst).Nodup := by
  intro L
  induction L with
  | nil => intro a _; exact List.nodup_nil
  | cons x L ih =>
    rintro a ⟨ha, link, hg, hr⟩
    rw [List.map_cons, List.nodup_cons]
    refine ⟨fun hmem => ?_, ih hr⟩
    obtain ⟨y, hy, hyx⟩ := List.mem_map.mp hmem
    obtain ⟨K₁, K₂, rfl⟩ := List.append_of_mem hy
    -- the rest of the chain from the second visit is the rest from the first
    obtain ⟨b, _, hb, link', hg', hr'⟩ := hr.split
    have hwhole : Chain s (some x.1) (x :: (K₁ ++ y :: K₂)) none := ⟨rfl, link, hg, hr⟩
    have hagain : Chain s (some x.1) (y :: K₂) none := ⟨by rw [hyx], link', hg', hr'⟩
    have hlen := congrArg List.length (hwhole.unique hagain)
    simp only [List.length_cons, List.length_append] at hlen
    omega

theorem set_out {L : List (Nat × α)} {a b : Option Nat} {i : Nat} (o : Option (Node α))
    (h : Chain s a L b) (hi : i ∉ L.map Prod.fst) : Chain (s.set i o) a L b := by
  refine h.congr fun x hx => ?_
  have hne : x.1 ≠ i := fun he => hi (he ▸ List.mem_map_of_mem hx)
  by_cases hlt : i < s.length
  · rw [Nodes.get_set o hlt, if_neg hne]
  · rw [List.set_eq_of_length_le (by omega)]

theorem alloc {L : List (Nat × α)} {a b : Option Nat} (n : Node α) (h : Chain s a L b) :
    Chain (s.alloc n) a L b := by
  refine h.congr fun x hx => ?_
  obtain ⟨link, hg⟩ := h.get_of_mem x hx
  rw [Nodes.get_alloc_of_get hg, hg]

/-- Redirecting the link of `p` cuts the chain behind `p` and joins it to another one. -/
theorem setNext {L R R' : List (Nat × α)} {a : Option Nat} {p : Nat} {v : α} {link : Option Nat}
    (h : Chain s a (L ++ (p, v) :: R) none) (hR : Chain s link R' none)
    (hp : p ∉ R'.map Prod.fst) :
    ∃ s', s.setNext p link = some s' ∧ Chain s' a (L ++ (p, v) :: R') none ∧
      (∀ i, i ≠ p → s'.get i = s.get i) ∧ s'.length = s.length := by
  have hnd := h.nodup
  obtain ⟨b, hL, hb, old, hg, _⟩ := h.split
  have hlt := Nodes.lt_length_of_get hg
  have hpL : p ∉ L.map Prod.fst := by
    rw [List.map_append, List.map_cons] at hnd
    exact fun hm => (List.nodup_append.mp hnd).2.2 p hm p List.mem_cons_self rfl
  refine ⟨_, Nodes.setNext_of_get link hg, ?_, ?_, by simp⟩
  · refine (hL.set_out _ hpL).append ⟨hb, link, ?_, hR.set_out _ hp⟩
    rw [Nodes.get_set _ hlt, if_pos rfl]
  · intro i hi
    rw [Nodes.get_set _ hlt, if_neg hi]

theorem snoc {L : List (Nat × α)} {a : Option Nat} {t : Nat} {v w : α}
    (h : Chain s a (L ++ [(t, v)]) none) :
    ∃ s', Nodes.setNext (s.alloc ⟨w, none⟩) t (some s.length) = some s' ∧
      Chain s' a (L ++ [(t, v)] ++ [(s.length, w)]) none ∧
      ∀ i, i ≠ t → s'.get i = Nodes.get (s.alloc ⟨w, none⟩) i := by
  have hlt : t < s.length := h.lt_length t (by simp)
  have hnew : Chain (s.alloc ⟨w, none⟩) (some s.length) [(s.length, w)] none :=
    ⟨rfl, none, Nodes.get_alloc_new s _, rfl⟩
  obtain ⟨s', hs, hc, hout, _⟩ := Chain.setNext (h.alloc ⟨w, none⟩) hnew (by simp; omega)
  exact ⟨s', hs, by rw [List.append_assoc]; exact hc, hout⟩

/-- **Dropping the node behind `p`.** -/
theorem unlink {L R : List (Nat × α)} {a : Option Nat} {p c : Nat} {v w : α}
    (h : Chain s a (L ++ (p, v) :: (c, w) :: R) none) :
    ∃ link s', s.get c = some ⟨w, link⟩ ∧ Chain s link R none ∧ s.setNext p link = some s' ∧
      Chain (s'.free c) a (L ++ (p, v) :: R) none ∧ s'.length = s.length := by
  have hnd := h.nodup
  simp only [List.map_append, List.map_cons, List.nodup_append, List.nodup_cons,
    List.mem_cons] at hnd
  obtain ⟨_, _, _, _, _, _, link, hg, hR⟩ := h.split
  have hpR : p ∉ R.map Prod.fst := fun hm => hnd.2.1.1 (Or.inr hm)
  obtain ⟨s', hs, hc, _, hlen⟩ := Chain.setNext h hR hpR
  refine ⟨link, s', hg, hR, hs, hc.set_out none ?_, hlen⟩
  simp only [List.map_append, List.map_cons, List.mem_append, List.mem_cons]
  rintro (hm | rfl | hm)
  · exact hnd.2.2 c hm c (Or.inr (Or.inl rfl)) rfl
  · exact hnd.2.1.1 (Or.inl rfl)
  · exact hnd.2.1.2.1 hm

theorem dropFirst {R : List (Nat × α)} {a : Option Nat} {c : Nat} {w : α}
    (h : Chain s a ((c, w) :: R) none) :
    ∃ link, s.get c = some ⟨w, link⟩ ∧ Chain s link R none ∧ Chain (s.free c) link R none := by
  have hnd := h.nodup
  obtain ⟨_, link, hg, hR⟩ := h
  rw [List.map_cons, List.nodup_cons] at hnd
  exact ⟨link, hg, hR, hR.set_out none hnd.1⟩

theorem length_le {L : List (Nat × α)} {a : Option Nat} (h : Chain s a L none) :
    L.length ≤ s.length := by
  have hsub : L.map Prod.fst ⊆ List.range s.length := fun i hi =>
    List.mem_range.mpr (h.lt_length i hi)
  simpa using (List.subperm_of_subset h.nodup hsub).length_le

end Chain

/-- The nodes met on the way from `a`, at most `fuel` of them. -/
def Nodes.walk (s : Nodes α) : Nat → Option Nat → List (Nat × α)
  | 0, _ => []
  | _ + 1, none => []
  | fuel + 1, some i =>
    match s.get i with
    | none => []
    | some n => (i, n.val) :: walk s fuel n.next

/-- **Walking a chain lists it.** -/
theorem Chain.walk_eq {s : Nodes α} : ∀ {L : List (Nat × α)} {a : Option Nat} {fuel : Nat},
    Chain s a L none → L.length ≤ fuel → s.walk fuel a = L := by
  intro L
  induction L with
  | nil =>
    intro a fuel h _
    cases h
    cases fuel <;> rfl
  | cons x L ih =>
    rintro a fuel ⟨rfl, link, hg, hr⟩ hf
    obtain ⟨k, rfl⟩ : ∃ k, fuel = k + 1 := ⟨fuel - 1, by simp at hf; omega⟩
    simp only [Nodes.walk, hg]
    rw [ih hr (by simpa using hf)]

/-! ### Searching -/

namespace Nodes

/-- Store a value; there is no result on a freed node. -/
def setVal (s : Nodes α) (i : Nat) (v : α) : Option (Nodes α) :=
  (s.get i).map fun n => s.set i (some { n with val := v })

/-- The first node from `a` on whose value meets `p`.  There is no result when a link leads to a
freed node, or when `fuel` steps are not enough. -/
def search (s : Nodes α) (p : α → Bool) : Nat → Option Nat → Option (Option (Nat × α))
  | _, none => some none
  | 0, some _ => none
  | fuel + 1, some i =>
    (s.get i).bind fun n => if p n.val then some (some (i, n.val)) else search s p fuel n.next

/-- The same, with the node whose link leads to the one found; `prev` is the one before `a`. -/
def searchLink (s : Nodes α) (p : α → Bool) :
    Nat → Option Nat → Option Nat → Option (Option (Option Nat × Nat))
  | _, _, none => some none
  | 0, _, some _ => none
  | fuel + 1, prev, some i =>
    (s.get i).bind fun n =>
      if p n.val then some (some (prev, i)) else searchLink s p fuel (some i) n.next

/-- Drop the node `c` from the list at `a`, by the link of `prev` or by the list's own. -/
def unlinkAt (s : Nodes α) (a prev : Option Nat) (c : Nat) : Option (Nodes α × Option Nat) :=
  (s.get c).bind fun n =>
    match prev with
    | none => some (s.free c, n.next)
    | some p => (s.setNext p n.next).map fun s => (s.free c, a)

end Nodes

namespace Chain

variable {s : Nodes α} {p : α → Bool}

/-- **A search along a chain is a search in its list.** -/
theorem search_eq : ∀ {L : List (Nat × α)} {a : Option Nat} {fuel : Nat}, Chain s a L none →
    L.length ≤ fuel → s.search p fuel a = some (L.find? fun x => p x.2) := by
  intro L
  induction L with
  | nil =>
    intro a fuel h _
    cases h
    cases fuel <;> rfl
  | cons x L ih =>
    rintro a fuel ⟨rfl, link, hg, hr⟩ hf
    obtain ⟨k, rfl⟩ : ∃ k, fuel = k + 1 := ⟨fuel - 1, by simp at hf; omega⟩
    rw [Nodes.search, hg, Option.bind_some, List.find?_cons]
    cases hp : p x.2 with
    | true => rfl
    | false => exact ih hr (by simpa using hf)

theorem searchLink_none : ∀ {L : List (Nat × α)} {a prev : Option Nat} {fuel : Nat},
    Chain s a L none → L.length ≤ fuel → (∀ x ∈ L, p x.2 = false) →
      s.searchLink p fuel prev a = some none := by
  intro L
  induction L with
  | nil =>
    intro a prev fuel h _ _
    cases h
    cases fuel <;> rfl
  | cons x L ih =>
    rintro a prev fuel ⟨rfl, link, hg, hr⟩ hf hno
    obtain ⟨k, rfl⟩ : ∃ k, fuel = k + 1 := ⟨fuel - 1, by simp at hf; omega⟩
    rw [Nodes.searchLink, hg, Option.bind_some, hno x List.mem_cons_self]
    exact ih hr (by simpa using hf) fun y hy => hno y (List.mem_cons_of_mem x hy)

/-- The search stops at the first match, with the node before it. -/
theorem searchLink_found {x : Nat × α} {R : List (Nat × α)} (hx : p x.2 = true) :
    ∀ {K : List (Nat × α)} {a prev : Option Nat} {fuel : Nat}, Chain s a (K ++ x :: R) none →
      (K ++ x :: R).length ≤ fuel → (∀ y ∈ K, p y.2 = false) →
      s.searchLink p fuel prev a = some (some ((K.getLast?.map Prod.fst).or prev, x.1)) := by
  intro K
  induction K with
  | nil =>
    rintro a prev fuel ⟨rfl, link, hg, hr⟩ hf _
    obtain ⟨k, rfl⟩ : ∃ k, fuel = k + 1 := ⟨fuel - 1, by simp at hf; omega⟩
    rw [Nodes.searchLink, hg, Option.bind_some, if_pos hx]
    rfl
  | cons y K ih =>
    rintro a prev fuel ⟨rfl, link, hg, hr⟩ hf hno
    obtain ⟨k, rfl⟩ : ∃ k, fuel = k + 1 := ⟨fuel - 1, by simp at hf; omega⟩
    rw [Nodes.searchLink, hg, Option.bind_some, hno y List.mem_cons_self, if_neg (by simp)]
    rw [ih hr (by simpa using hf) fun z hz => hno z (List.mem_cons_of_mem y hz)]
    cases K with
    | nil => rfl
    | cons z K => simp [List.getLast?_cons]

theorem setVal {K R : List (Nat × α)} {a : Option Nat} {i : Nat} {v : α} (w : α)
    (h : Chain s a (K ++ (i, v) :: R) none) :
    ∃ s', s.setVal i w = some s' ∧ Chain s' a (K ++ (i, w) :: R) none ∧
      ∀ j, j ≠ i → s'.get j = s.get j := by
  have hnd := h.nodup
  obtain ⟨b, hK, hb, link, hg, hR⟩ := h.split
  have hlt := Nodes.lt_length_of_get hg
  simp only [List.map_append, List.map_cons, List.nodup_append, List.nodup_cons] at hnd
  have hiK : i ∉ K.map Prod.fst := fun hm => hnd.2.2 i hm i List.mem_cons_self rfl
  refine ⟨s.set i (some ⟨w, link⟩), by rw [Nodes.setVal, hg]; rfl, ?_, fun j hj => ?_⟩
  · refine (hK.set_out _ hiK).append ⟨hb, link, ?_, hR.set_out _ hnd.2.1.1⟩
    rw [Nodes.get_set _ hlt, if_pos rfl]
  · rw [Nodes.get_set _ hlt, if_neg hj]

theorem unlinkAt {K R : List (Nat × α)} {a : Option Nat} {c : Nat} {w : α}
    (h : Chain s a (K ++ (c, w) :: R) none) :
    ∃ s' a', s.unlinkAt a (K.getLast?.map Prod.fst) c = some (s', a') ∧
      Chain s' a' (K ++ R) none ∧ ∀ j, j ∉ (K ++ [(c, w)]).map Prod.fst → s'.get j = s.get j := by
  rcases List.eq_nil_or_concat' K with rfl | ⟨K, ⟨q, v⟩, rfl⟩
  · have hlt := h.lt_length c (by simp)
    obtain ⟨link, hg, _, hfree⟩ := Chain.dropFirst h
    refine ⟨s.free c, link, by rw [Nodes.unlinkAt, hg]; rfl, hfree, fun j hj => ?_⟩
    rw [Nodes.get_free hlt, if_neg (by simpa using hj)]
  · rw [List.append_assoc, List.singleton_append] at h
    have hlt := h.lt_length c (by simp)
    obtain ⟨link, s', hg, _, hs, hc, hlen⟩ := Chain.unlink h
    obtain ⟨n, hq, rfl⟩ := Nodes.setNext_eq_some hs
    refine ⟨_, a, ?_, by rw [List.append_assoc]; exact hc, fun j hj => ?_⟩
    · simp only [Nodes.unlinkAt, hg, Option.bind_some, List.getLast?_concat, Option.map_some, hs]
    · have hjc : j ≠ c ∧ j ≠ q := by
        simp only [List.map_append, List.map_cons, List.map_nil, List.mem_append, List.mem_cons,
          List.not_mem_nil, or_false, not_or] at hj
        exact ⟨hj.2, hj.1.2⟩
      rw [Nodes.get_free (by rw [hlen]; exact hlt), if_neg hjc.1,
        Nodes.get_set _ (Nodes.lt_length_of_get hq), if_neg hjc.2]

end Chain

end BeamModular
