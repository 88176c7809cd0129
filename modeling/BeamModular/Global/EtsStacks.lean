import BeamModular.Global.Ets

/-!
# Tables of all four types as stacks

What a table of `ets.c` is for, whatever its type: each key has a stack of values, and
`beam_ets_lookup`, `beam_ets_delete` and `beam_ets_update_counter` see the top of it.  The
types differ in `beam_ets_insert` only: a set or an ordered set replaces the top, a bag
pushes what is not on the stack, a duplicate bag pushes.  `EtsStacks` is that, with the
counter of the entries and the answers of the allocator.

`refines_stacks` says that every sequence of operations on a new table of any type returns
what it returns on the stacks, and that the counter is the number of values on them
(`Total`).  The values of a key may lie anywhere in its bucket, among
the entries of other keys; it is their order that counts (`valuesIn`).
-/

namespace BeamModular

/-! ### Stacks -/

/-- The values of each key, the newest in front, and how many there are. -/
structure EtsStacks where
  type : EtsType
  stackOf : Eterm → List Eterm
  count : Nat
  alloc : Nat → Bool

namespace EtsStacks

def create (type : EtsType) (alloc : Nat → Bool) : EtsStacks := ⟨type, fun _ => [], 0, alloc⟩

/-- Push a value, if there is memory for the entry. -/
def push (m : EtsStacks) (key value : Eterm) : EtsStacks × Result :=
  let rest := fun n => m.alloc (n + 1)
  if m.alloc 0 then
    ({ m with
        stackOf := Function.update m.stackOf key (value :: m.stackOf key)
        count := m.count + 1
        alloc := rest }, .ok)
  else ({ m with alloc := rest }, .errNoMemory)

/-- Put another value in the place of the newest one. -/
def replace (m : EtsStacks) (key value : Eterm) : EtsStacks :=
  { m with stackOf := Function.update m.stackOf key (value :: (m.stackOf key).tail) }

def insert (m : EtsStacks) (key value : Eterm) : EtsStacks × Result :=
  match m.type with
  | .set | .orderedSet =>
    if m.stackOf key = [] then m.push key value else (m.replace key value, .ok)
  | .bag => if value ∈ m.stackOf key then (m, .ok) else m.push key value
  | .duplicateBag => m.push key value

def step (m : EtsStacks) : EtsOp → EtsStacks × Result × Option Eterm
  | .insert key value => ((m.insert key value).1, (m.insert key value).2, none)
  | .lookup key =>
    match m.stackOf key with
    | [] => (m, .errNotFound, none)
    | value :: _ => (m, .ok, some value)
  | .delete key =>
    match m.stackOf key with
    | [] => (m, .errNotFound, none)
    | _ :: rest =>
      ({ m with stackOf := Function.update m.stackOf key rest, count := m.count - 1 }, .ok, none)
  | .updateCounter key increment =>
    match m.stackOf key with
    | [] => (m, .errNotFound, none)
    | value :: _ =>
      let value := makeSmallInt (etermToSmallInt value + increment)
      (m.replace key value, .ok, some value)

end EtsStacks

/-! ### The values on all stacks -/

/-- All stacks together hold `n` values. -/
def Total (stackOf : Eterm → List Eterm) (n : Nat) : Prop :=
  ∃ keys : Finset Eterm, (∀ key ∉ keys, stackOf key = []) ∧ n = ∑ key ∈ keys, (stackOf key).length

section Total

variable {stackOf : Eterm → List Eterm} {n n' : Nat} {key : Eterm}

theorem Total.length_le (h : Total stackOf n) (key : Eterm) : (stackOf key).length ≤ n := by
  obtain ⟨keys, hout, rfl⟩ := h
  by_cases hk : key ∈ keys
  · have hrest := Finset.add_sum_erase keys (fun key => (stackOf key).length) hk
    omega
  · rw [hout key hk]
    exact Nat.zero_le _

theorem Total.update (h : Total stackOf n) {vs : List Eterm}
    (hn : n' + (stackOf key).length = n + vs.length) :
    Total (Function.update stackOf key vs) n' := by
  obtain ⟨keys, hout, rfl⟩ := h
  refine ⟨insert key keys, fun k hk => ?_, ?_⟩
  · rw [Finset.mem_insert, not_or] at hk
    rw [Function.update_of_ne hk.1, hout k hk.2]
  · have hold : ∑ k ∈ insert key keys, (stackOf k).length = ∑ k ∈ keys, (stackOf k).length :=
      Finset.sum_insert_of_eq_zero_if_notMem fun hk => by rw [hout key hk]; rfl
    have hbefore := Finset.add_sum_erase _ (fun k => (stackOf k).length)
      (Finset.mem_insert_self key keys)
    have hafter := Finset.add_sum_erase _ (fun k => (Function.update stackOf key vs k).length)
      (Finset.mem_insert_self key keys)
    have hrest : ∑ k ∈ (insert key keys).erase key, (Function.update stackOf key vs k).length =
        ∑ k ∈ (insert key keys).erase key, (stackOf k).length :=
      Finset.sum_congr rfl fun k hk => by
        rw [Function.update_of_ne (Finset.ne_of_mem_erase hk)]
    rw [Function.update_self, hrest] at hafter
    omega

end Total

/-! ### The values in a bucket -/

/-- The values of a key among some entries, in their order. -/
def valuesIn (M : List (Nat × EtsEntry)) (key : Eterm) : List Eterm :=
  (M.filter fun x => x.2.key == key).map fun x => x.2.value

section Values

variable {K R M : List (Nat × EtsEntry)} {i : Nat} {key key' value : Eterm}

theorem valuesIn_append (K M : List (Nat × EtsEntry)) (key : Eterm) :
    valuesIn (K ++ M) key = valuesIn K key ++ valuesIn M key := by
  rw [valuesIn, List.filter_append, List.map_append]
  rfl

theorem valuesIn_cons_self (i : Nat) (key value : Eterm) (R : List (Nat × EtsEntry)) :
    valuesIn ((i, ⟨key, value⟩) :: R) key = value :: valuesIn R key := by
  rw [valuesIn, List.filter_cons_of_pos (by simp)]
  rfl

theorem valuesIn_cons_other (hne : key' ≠ key) :
    valuesIn ((i, ⟨key, value⟩) :: R) key' = valuesIn R key' := by
  rw [valuesIn, List.filter_cons_of_neg (by simpa using hne.symm)]
  rfl

theorem valuesIn_eq_nil (hK : ∀ x ∈ K, x.2.key ≠ key) : valuesIn K key = [] := by
  rw [valuesIn, List.filter_eq_nil_iff.mpr (by simpa using hK)]
  rfl

theorem valuesIn_first (hK : ∀ x ∈ K, x.2.key ≠ key) :
    valuesIn (K ++ (i, ⟨key, value⟩) :: R) key = value :: valuesIn R key := by
  rw [valuesIn_append, valuesIn_eq_nil hK, valuesIn_cons_self]
  rfl

theorem valuesIn_middle (hne : key' ≠ key) :
    valuesIn (K ++ (i, ⟨key, value⟩) :: R) key' = valuesIn (K ++ R) key' := by
  rw [valuesIn_append, valuesIn_append, valuesIn_cons_other hne]

theorem mem_valuesIn : value ∈ valuesIn M key ↔ ∃ x ∈ M, x.2 = ⟨key, value⟩ := by
  rw [valuesIn, List.mem_map]
  constructor
  · rintro ⟨⟨i, k, v⟩, hx, rfl⟩
    obtain ⟨hx, hk⟩ := List.mem_filter.mp hx
    have hk' : k = key := by simpa using hk
    exact ⟨_, hx, by rw [hk']⟩
  · rintro ⟨⟨i, e⟩, hx, rfl⟩
    exact ⟨_, List.mem_filter.mpr ⟨hx, by simp⟩, rfl⟩

end Values

/-! ### The buckets hold the stacks -/

/-- **The buckets hold the stacks**, the entries of a key in the order of its stack. -/
structure EtsTable.Stacks (t : EtsTable) (m : EtsStacks) (L : Nat → List (Nat × EtsEntry)) :
    Prop extends t.Linked L where
  type : t.type = m.type
  values : ∀ key, m.stackOf key = valuesIn (L (keyBucket key)) key
  count : t.itemCount = m.count
  total : Total m.stackOf m.count
  alloc : t.alloc = m.alloc

namespace EtsTable.Stacks

variable {t : EtsTable} {m : EtsStacks} {L : Nat → List (Nat × EtsEntry)} {key : Eterm}

/-- The bucket of a key is replaced by one in which the other keys are as before. -/
theorem values_update (h : t.Stacks m L) {M : List (Nat × EtsEntry)} {vs : List Eterm}
    (hself : valuesIn M key = vs)
    (hother : ∀ key', key' ≠ key → valuesIn M key' = valuesIn (L (keyBucket key)) key') :
    ∀ key', Function.update m.stackOf key vs key' =
      valuesIn (Function.update L (keyBucket key) M (keyBucket key')) key' := by
  intro key'
  by_cases hk : key' = key
  · subst hk
    rw [Function.update_self, Function.update_self, hself]
  · rw [Function.update_of_ne hk, h.values]
    by_cases hb : keyBucket key' = keyBucket key
    · rw [hb, Function.update_self, hother key' hk]
    · rw [Function.update_of_ne hb]

/-- **A search for a key** finds the entry on top of its stack. -/
theorem search (h : t.Stacks m L) (key : Eterm) :
    (m.stackOf key = [] ∧ (∀ x ∈ L (keyBucket key), x.2.key ≠ key) ∧
      t.search key (fun e => e.key == key) = some none) ∨
    ∃ K i value R, L (keyBucket key) = K ++ (i, ⟨key, value⟩) :: R ∧ (∀ y ∈ K, y.2.key ≠ key) ∧
      m.stackOf key = value :: valuesIn R key ∧
      t.search key (fun e => e.key == key) = some (some (i, ⟨key, value⟩)) := by
  rw [h.values key]
  rcases h.toLinked.search key with ⟨hno, hs⟩ | ⟨K, i, value, R, hL, hK, hs⟩
  · exact Or.inl ⟨valuesIn_eq_nil hno, hno, hs⟩
  · exact Or.inr ⟨K, i, value, R, hL, hK, by rw [hL, valuesIn_first hK], hs⟩

/-- **A search for a pair** says whether the value is on the stack. -/
theorem searchPair (h : t.Stacks m L) (key value : Eterm) :
    (value ∉ m.stackOf key ∧
      t.search key (fun e => e.key == key && e.value == value) = some none) ∨
    (value ∈ m.stackOf key ∧
      ∃ x, t.search key (fun e => e.key == key && e.value == value) = some (some x)) := by
  rw [EtsTable.search, h.idx, h.bucketed.search, h.values key, mem_valuesIn]
  cases hf : (L (keyBucket key)).find? fun x => x.2.key == key && x.2.value == value with
  | none =>
    refine Or.inl ⟨?_, rfl⟩
    rintro ⟨⟨i, e⟩, hx, rfl⟩
    have hno := List.find?_eq_none.mp hf _ hx
    simp at hno
  | some x =>
    obtain ⟨hx, K, R, hL, -⟩ := List.find?_eq_some_iff_append.mp hf
    obtain ⟨i, k, v⟩ := x
    have hkv : k = key ∧ v = value := by simpa using hx
    obtain ⟨rfl, rfl⟩ := hkv
    exact Or.inr ⟨⟨(i, ⟨k, v⟩), by rw [hL]; simp, rfl⟩, _, rfl⟩

/-! ### The operations -/

theorem addEntry (h : t.Stacks m L) (key value : Eterm) :
    ∃ t' L', t.addEntry key value = (t', (m.push key value).2) ∧
      t'.Stacks (m.push key value).1 L' := by
  by_cases hg : t.alloc 0 = true
  · rw [EtsStacks.push, if_pos (h.alloc ▸ hg)]
    obtain ⟨t', hadd, hlinked, hty, hcount, ha⟩ := h.toLinked.addEntry hg key value
    refine ⟨t', _, hadd, hlinked, hty.trans h.type,
      h.values_update ?_ fun key' hk => valuesIn_cons_other hk, ?_, h.total.update ?_, ?_⟩
    · rw [h.values key]
      exact valuesIn_cons_self _ key value _
    · dsimp only
      rw [hcount, h.count]
    · dsimp only
      rw [List.length_cons]
      omega
    · dsimp only
      rw [ha, h.alloc]
  · rw [EtsStacks.push, if_neg (h.alloc ▸ hg)]
    refine ⟨_, L, EtsTable.addEntry_refused hg key value, ⟨h.bucketed, h.size⟩, h.type, h.values,
      h.count, h.total, ?_⟩
    dsimp only
    rw [h.alloc]

theorem setValue (h : t.Stacks m L) (value : Eterm) {old : Eterm} {i : Nat}
    {K R : List (Nat × EtsEntry)} (hL : L (keyBucket key) = K ++ (i, ⟨key, old⟩) :: R)
    (hK : ∀ y ∈ K, y.2.key ≠ key) (hm : m.stackOf key = old :: valuesIn R key) :
    ∃ t' L', t.setValue i ⟨key, old⟩ value = some t' ∧ t'.Stacks (m.replace key value) L' := by
  obtain ⟨t', hs, hlinked, hty, hcount, ha⟩ := h.toLinked.setValue value hL
  refine ⟨t', _, hs, hlinked, hty.trans h.type, h.values_update ?_ fun key' hk => ?_,
    hcount.trans h.count, h.total.update ?_, ha.trans h.alloc⟩
  · rw [valuesIn_first hK, hm, List.tail_cons]
  · rw [hL, valuesIn_middle hk, valuesIn_middle hk]
  · rw [hm, List.tail_cons, List.length_cons, List.length_cons]
    rfl

theorem delete (h : t.Stacks m L) {old : Eterm} {i : Nat} {K R : List (Nat × EtsEntry)}
    (hL : L (keyBucket key) = K ++ (i, ⟨key, old⟩) :: R) (hK : ∀ y ∈ K, y.2.key ≠ key)
    (hm : m.stackOf key = old :: valuesIn R key) :
    ∃ t' L', beamEtsDelete t key = some (t', .ok) ∧
      t'.Stacks { m with
        stackOf := Function.update m.stackOf key (valuesIn R key), count := m.count - 1 } L' := by
  obtain ⟨t', hdel, hlinked, hty, hcount, ha⟩ := h.toLinked.delete hL hK
  refine ⟨t', _, hdel, hlinked, hty.trans h.type, h.values_update ?_ fun key' hk => ?_, ?_,
    h.total.update ?_, ha.trans h.alloc⟩
  · rw [valuesIn_append, valuesIn_eq_nil hK, List.nil_append]
  · rw [hL, valuesIn_middle hk]
  · dsimp only
    rw [hcount, h.count]
  · have hle := h.total.length_le key
    rw [hm, List.length_cons] at hle ⊢
    dsimp only
    omega

/-- **An insertion**, by the type of the table. -/
theorem insert (h : t.Stacks m L) (key value : Eterm) :
    ∃ t' L', beamEtsInsert t key value = some (t', (m.insert key value).2) ∧
      t'.Stacks (m.insert key value).1 L' := by
  obtain ⟨t₁, L₁, hadd, h₁⟩ := h.addEntry key value
  have hone (htype : t.type = .set ∨ t.type = .orderedSet) (hm : m.insert key value =
      if m.stackOf key = [] then m.push key value else (m.replace key value, .ok)) :
      ∃ t' L', beamEtsInsert t key value = some (t', (m.insert key value).2) ∧
        t'.Stacks (m.insert key value).1 L' := by
    rw [beamEtsInsert_set htype, hm]
    rcases h.search key with ⟨hnil, _, hs⟩ | ⟨K, i, old, R, hL, hK, hcons, hs⟩
    · rw [hs, if_pos hnil, Option.bind_some]
      exact ⟨t₁, L₁, congrArg some hadd, h₁⟩
    · obtain ⟨t', L', hset, h'⟩ := h.setValue value hL hK hcons
      rw [hs, if_neg (by rw [hcons]; simp), Option.bind_some]
      dsimp only
      rw [hset]
      exact ⟨t', L', rfl, h'⟩
  have htype := h.type
  cases hty : m.type with
  | set => exact hone (Or.inl (htype.trans hty)) (by rw [EtsStacks.insert, hty])
  | orderedSet => exact hone (Or.inr (htype.trans hty)) (by rw [EtsStacks.insert, hty])
  | bag =>
    rw [beamEtsInsert, htype, EtsStacks.insert, hty]
    dsimp only
    rcases h.searchPair key value with ⟨hno, hs⟩ | ⟨hyes, x, hs⟩
    · rw [hs, if_neg hno]
      exact ⟨t₁, L₁, congrArg some hadd, h₁⟩
    · rw [hs, if_pos hyes]
      exact ⟨t, L, rfl, h⟩
  | duplicateBag =>
    rw [beamEtsInsert, htype, EtsStacks.insert, hty]
    exact ⟨t₁, L₁, congrArg some hadd, h₁⟩

end EtsTable.Stacks

/-! ### Refinement -/

/-- The table stands for the stacks. -/
def EtsTable.Holds (t : EtsTable) (m : EtsStacks) : Prop := ∃ L, t.Stacks m L

/-- **One operation on the table is one operation on the stacks.** -/
theorem etsStep_stacks (t : EtsTable) (m : EtsStacks) (op : EtsOp) (h : t.Holds m) :
    ∃ t', etsStep t op = some (t', (m.step op).2) ∧ t'.Holds (m.step op).1 := by
  obtain ⟨L, h⟩ := h
  cases op with
  | insert key value =>
    obtain ⟨t', L', hins, h'⟩ := h.insert key value
    exact ⟨t', by rw [etsStep, hins]; rfl, L', h'⟩
  | lookup key =>
    rw [etsStep, beamEtsLookup, EtsStacks.step]
    rcases h.search key with ⟨hnil, _, hs⟩ | ⟨K, i, old, R, _, _, hcons, hs⟩
    · rw [hs, hnil]
      exact ⟨t, rfl, L, h⟩
    · rw [hs, hcons]
      exact ⟨t, rfl, L, h⟩
  | delete key =>
    rw [etsStep, EtsStacks.step]
    rcases h.search key with ⟨hnil, hno, _⟩ | ⟨K, i, old, R, hL, hK, hcons, _⟩
    · rw [h.toLinked.delete_none hno, hnil]
      exact ⟨t, rfl, L, h⟩
    · obtain ⟨t', L', hdel, h'⟩ := h.delete hL hK hcons
      rw [hdel, hcons]
      exact ⟨t', rfl, L', h'⟩
  | updateCounter key increment =>
    rw [etsStep, beamEtsUpdateCounter, EtsStacks.step]
    rcases h.search key with ⟨hnil, _, hs⟩ | ⟨K, i, old, R, hL, hK, hcons, hs⟩
    · rw [hs, hnil]
      exact ⟨t, rfl, L, h⟩
    · obtain ⟨t', L', hset, h'⟩ :=
        h.setValue (makeSmallInt (etermToSmallInt old + increment)) hL hK hcons
      rw [hs, hcons, Option.bind_some]
      dsimp only
      rw [hset]
      exact ⟨t', rfl, L', h'⟩

theorem EtsTable.holds_create {type : EtsType} {alloc : Nat → Bool} {t : EtsTable}
    (hnew : beamEtsTableCreateTyped type alloc = some t) : t.Holds (.create type t.alloc) := by
  unfold beamEtsTableCreateTyped at hnew
  split at hnew
  · cases hnew
    exact ⟨fun _ => [], ⟨Bucketed.empty _, rfl⟩, rfl, fun _ => rfl, rfl, ⟨∅, fun _ _ => rfl, rfl⟩,
      rfl⟩
  · cases hnew

/-- **A table of any type is stacks of values.**  Every sequence of operations on a new table, with
any allocator, returns what it returns on the stacks; in the table it leaves, the entries of a key
are its stack, each of them in the bucket of the key's hash, and the counter is the sum of the
stacks' lengths. -/
theorem refines_stacks {type : EtsType} (alloc : Nat → Bool) {t : EtsTable}
    (hnew : beamEtsTableCreateTyped type alloc = some t) (ops : List EtsOp) :
    let m := (specAnswers EtsStacks.step (.create type t.alloc) ops).1
    ∃ (t' : EtsTable) (L : Nat → List (Nat × EtsEntry)),
      answers etsStep t ops = some (t', (specAnswers EtsStacks.step (.create type t.alloc) ops).2) ∧
      (∀ b, Chain t'.nodes (t'.buckets b) (L b) none) ∧ (∀ b, ∀ x ∈ L b, keyBucket x.2.key = b) ∧
      (∀ key, valuesIn (L (keyBucket key)) key = m.stackOf key) ∧ beamEtsCount t' = m.count ∧
      ∃ keys : Finset Eterm, (∀ key ∉ keys, m.stackOf key = []) ∧
        beamEtsCount t' = ∑ key ∈ keys, (m.stackOf key).length := by
  intro m
  obtain ⟨t', hrun, L, h⟩ := refines_answers etsStep_stacks ops (EtsTable.holds_create hnew)
  obtain ⟨keys, hout, hsum⟩ := h.total
  exact ⟨t', L, hrun, h.bucketed.chain, h.bucketed.placed, fun key => (h.values key).symm, h.count,
    keys, hout, h.count.trans hsum⟩

/-- Two values of one key and a third in its bucket, the newest of them counted up and dropped. -/
def bagOps : List EtsOp :=
  [.insert 1#64 (makeSmallInt 5#64), .insert (1#64 <<< 32) 7#64, .insert 1#64 (makeSmallInt 6#64),
    .insert 1#64 (makeSmallInt 5#64), .updateCounter 1#64 2#64, .lookup 1#64, .delete 1#64,
    .lookup 1#64]

theorem refines_stacks_bagOps :
    ∃ t t', beamEtsTableCreateTyped .bag (fun _ => true) = some t ∧
      answers etsStep t bagOps = some (t', [(.ok, none), (.ok, none), (.ok, none), (.ok, none),
        (.ok, some (makeSmallInt 8#64)), (.ok, some (makeSmallInt 8#64)), (.ok, none),
        (.ok, some (makeSmallInt 5#64))]) ∧
      beamEtsCount t' = 2 := by
  obtain ⟨t', L, hrun, _, _, _, hcount, _⟩ := refines_stacks (fun _ => true)
    (show beamEtsTableCreateTyped .bag (fun _ => true) = some _ from rfl) bagOps
  exact ⟨_, t', rfl, hrun, hcount⟩

end BeamModular
