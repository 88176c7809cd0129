import Mathlib.Data.List.Rotate
import Mathlib.Tactic

/-!
# Two lines in front of one server

The head is served, and goes back to the end or leaves.  There are two lines: the
second one is served only while the first one is empty, and whoever goes back joins the
first.  `turns` says for each turn whether the one who was served comes back.

Nobody overtakes in the first line: `first_turns` says how it stands after a number of
turns that does not exceed its length, whoever comes back.  `turns_rotate` is the case in
which everybody comes back: the first line goes round, and the second is never served.
-/

namespace BeamModular

/-- The two lines, heads in front. -/
structure Lines (α : Type*) where
  first : List α
  second : List α

namespace Lines

variable {α : Type*}

/-- Who is served next. -/
def head (l : Lines α) : Option α := (l.first ++ l.second).head?

/-- One turn: the head is served, and comes back or not. -/
def turn (l : Lines α) (back : Bool) : Lines α :=
  match l with
  | ⟨x :: first, second⟩ => ⟨if back then first ++ [x] else first, second⟩
  | ⟨[], x :: second⟩ => ⟨if back then [x] else [], second⟩
  | ⟨[], []⟩ => ⟨[], []⟩

/-- Turns, one after the other. -/
def turns (l : Lines α) : List Bool → Lines α
  | [] => l
  | back :: rest => (l.turn back).turns rest

/-- Those of a line that come back. -/
def kept : List α → List Bool → List α
  | x :: xs, back :: rest => if back then x :: kept xs rest else kept xs rest
  | _, _ => []

variable {l : Lines α}

theorem turn_cons (x : α) (first second : List α) (back : Bool) :
    turn ⟨x :: first, second⟩ back = ⟨first ++ kept [x] [back], second⟩ := by
  cases back with
  | true => rfl
  | false => simp [turn, kept]

/-- Whoever comes back does so after the others have moved up. -/
theorem turn_true {x : α} (h : l.head = some x) :
    (⟨(l.turn false).first ++ [x], (l.turn false).second⟩ : Lines α) = l.turn true := by
  obtain ⟨first, second⟩ := l
  cases first with
  | nil =>
    cases second with
    | nil => cases h
    | cons y second => cases h; rfl
  | cons y first => cases h; rfl

theorem kept_cons (x : α) (xs : List α) (back : Bool) (rest : List Bool) :
    kept (x :: xs) (back :: rest) = kept [x] [back] ++ kept xs rest := by
  cases back <;> rfl

/-- **Nobody overtakes**: who was served has left or stands at the end, in the order of the turns,
and the others have moved up. -/
theorem first_turns : ∀ (done rest second : List α) (backs : List Bool),
    backs.length = done.length →
      turns ⟨done ++ rest, second⟩ backs = ⟨rest ++ kept done backs, second⟩ := by
  intro done
  induction done with
  | nil =>
    intro rest second backs hlen
    rw [List.length_nil, List.length_eq_zero_iff] at hlen
    subst hlen
    simp [turns, kept]
  | cons x done ih =>
    intro rest second backs hlen
    cases backs with
    | nil => simp at hlen
    | cons back backs =>
      have hlen' : backs.length = done.length := by simpa using hlen
      rw [List.cons_append, turns, turn_cons, List.append_assoc, ih _ _ _ hlen', kept_cons x done,
        List.append_assoc]

/-- **Who stands behind `n` others is served after `n` turns.** -/
theorem head_turns {first second : List α} {backs : List Bool} {x : α}
    (h : first[backs.length]? = some x) : (turns ⟨first, second⟩ backs).head = some x := by
  obtain ⟨hlt, hx⟩ := List.getElem?_eq_some_iff.mp h
  have hsplit : first = first.take backs.length ++ x :: first.drop (backs.length + 1) := by
    rw [← hx, List.cons_getElem_drop_succ, List.take_append_drop]
  have hlen : backs.length = (first.take backs.length).length := by
    rw [List.length_take, Nat.min_eq_left hlt.le]
  rw [hsplit, first_turns _ _ _ _ hlen]
  rfl

/-- **The first line goes round** as long as everybody comes back. -/
theorem turns_rotate : ∀ (n : Nat) (first second : List α), first ≠ [] →
    turns ⟨first, second⟩ (List.replicate n true) = ⟨first.rotate n, second⟩ := by
  intro n
  induction n with
  | zero => intro first second _; rw [List.rotate_zero]; rfl
  | succ n ih =>
    intro first second hne
    obtain ⟨x, xs, rfl⟩ := List.exists_cons_of_ne_nil hne
    rw [List.replicate_succ, turns, turn, if_pos rfl, ih _ _ (by simp), List.rotate_cons_succ]

theorem head_rotate {first second : List α} (hne : first ≠ []) (n : Nat) :
    head ⟨first.rotate n, second⟩ = first[n % first.length]? := by
  have hlt : n % first.length < first.length := Nat.mod_lt _ (List.length_pos_of_ne_nil hne)
  rw [← List.rotate_mod, ← List.head?_rotate hlt, head]
  have hrot : first.rotate (n % first.length) ≠ [] := mt List.rotate_eq_nil_iff.mp hne
  obtain ⟨y, ys, hy⟩ := List.exists_cons_of_ne_nil hrot
  rw [hy]
  rfl

end Lines

end BeamModular
