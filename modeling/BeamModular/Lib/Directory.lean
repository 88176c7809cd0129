import Mathlib.Tactic

/-!
# Directories

A directory is a list of entries with room for a fixed number of them.  It is searched from the
front for an entry with some key, a new entry is put behind the others, and the first entry with
a key can be changed in place.

What a key finds after a change is what it found before, except at the key of the entry
(`find_push`, `find_modify_of_ne`).  Nothing says that the key of an entry is the one that was
searched for when it was put in: then the key is still not found, and the next search for it puts
in another entry.
-/

namespace BeamModular

/-- Entries in the order in which they came. -/
structure Directory (ε : Type*) (capacity : Nat) where
  entries : List ε
  bounded : entries.length ≤ capacity
  deriving DecidableEq, Repr

namespace Directory

variable {ε κ : Type*} [DecidableEq κ] {capacity : Nat}

def empty : Directory ε capacity := ⟨[], Nat.zero_le _⟩

/-- The first entry with the key. -/
def find (d : Directory ε capacity) (key : ε → κ) (k : κ) : Option ε :=
  d.entries.find? fun e => key e = k

/-- With one more entry. -/
def push (d : Directory ε capacity) (e : ε) (hroom : d.entries.length < capacity) :
    Directory ε capacity where
  entries := d.entries ++ [e]
  bounded := by
    rw [List.length_append]
    exact hroom

/-- With the first entry of the key changed. -/
def modify (d : Directory ε capacity) (key : ε → κ) (k : κ) (f : ε → ε) : Directory ε capacity where
  entries := d.entries.replaceF fun e => if key e = k then some (f e) else none
  bounded := by
    rw [List.length_replaceF]
    exact d.bounded

variable {d : Directory ε capacity} {key : ε → κ} {k k' : κ} {e : ε} {f : ε → ε}
  {hroom : d.entries.length < capacity}

theorem find_key (h : d.find key k = some e) : key e = k := by
  have hp := List.find?_some h
  exact of_decide_eq_true hp

theorem find_isSome_iff : (d.find key k).isSome ↔ k ∈ d.entries.map key := by
  rw [find, List.find?_isSome, List.mem_map]
  simp only [decide_eq_true_eq]

/-! ### A new entry -/

/-- **What was found is still found**, and the new entry is the last one to be looked at. -/
theorem find_push : (d.push e hroom).find key k =
    (d.find key k).or (if key e = k then some e else none) := by
  rw [find, push, List.find?_append, find, List.find?_singleton]
  simp only [decide_eq_true_eq]

theorem find_push_of_ne (hne : key e ≠ k) : (d.push e hroom).find key k = d.find key k := by
  rw [find_push, if_neg hne, Option.or_none]

theorem find_push_self (hnew : d.find key k = none) (he : key e = k) :
    (d.push e hroom).find key k = some e := by
  rw [find_push, hnew, if_pos he, Option.none_or]

theorem length_push : (d.push e hroom).entries.length = d.entries.length + 1 := by
  rw [push, List.length_append, List.length_singleton]

/-! ### An entry changed in place -/

theorem length_modify : (d.modify key k f).entries.length = d.entries.length :=
  List.length_replaceF

theorem find?_replaceF (hf : ∀ e, key (f e) = key e) : ∀ entries : List ε,
    (entries.replaceF fun e => if key e = k then some (f e) else none).find?
        (fun e => key e = k') =
      if k' = k then (entries.find? fun e => key e = k).map f
      else entries.find? fun e => key e = k' := by
  intro entries
  induction entries with
  | nil => simp
  | cons e entries ih =>
    by_cases he : key e = k
    · simp only [List.replaceF_cons, if_pos he]
      by_cases hk : k' = k
      · simp [hk, he, hf]
      · simp [hk, he, hf, Ne.symm hk]
    · simp only [List.replaceF_cons, if_neg he]
      rw [List.find?_cons, ih]
      by_cases hk : k' = k
      · simp [hk, he]
      · simp [hk, List.find?_cons]

/-- **The key finds its entry changed.** -/
theorem find_modify_self (hf : ∀ e, key (f e) = key e) :
    (d.modify key k f).find key k = (d.find key k).map f :=
  (find?_replaceF hf d.entries).trans (if_pos rfl)

theorem find_modify_of_ne (hf : ∀ e, key (f e) = key e) (hne : k' ≠ k) :
    (d.modify key k f).find key k' = d.find key k' :=
  (find?_replaceF hf d.entries).trans (if_neg hne)

end Directory

end BeamModular
