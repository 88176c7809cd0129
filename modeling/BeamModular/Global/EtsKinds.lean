import BeamModular.Global.Ets

/-!
# Bags and sets

What the operations do to the entries of a table of any of the four types.
`EtsTable.entries` lists them bucket by bucket, and `etsStep_changes` says once what an
operation can do to that list: leave it, put an entry in, store a value in the first
entry of a key, drop the first entry of a key.

Two results are read off it.  A bag stays without duplicates as long as
`beam_ets_update_counter` does not make a value that another entry of the key has
(`bag_nodup_iff`): insertion looks for the pair first, the counter does not.
`beam_ets_delete` takes one entry, so it removes a key that has one
(`beamEtsDelete_removes_iff`), as every key of a set does (`set_keys_nodup`).
-/

namespace BeamModular

namespace EtsTable

/-- The entries of a bucket, in the order the loops meet them. -/
def bucketEntries (t : EtsTable) (b : Nat) : List EtsEntry :=
  (t.nodes.walk t.nodes.length (t.buckets b)).map Prod.snd

/-- All entries, bucket by bucket. -/
def entries (t : EtsTable) : List EtsEntry := (List.range t.bucketCount).flatMap t.bucketEntries

/-- The buckets are linked, and the counter counts the entries. -/
structure Sound (t : EtsTable) : Prop where
  linked : ∃ L, t.Linked L
  count : t.itemCount = t.entries.length

/-- The entries around the bucket of a key: none of them has the key, and they stay when the
bucket changes. -/
structure Around (t : EtsTable) (key : Eterm) (L : Nat → List (Nat × EtsEntry))
    (A B : List EtsEntry) : Prop extends t.Linked L where
  entries : t.entries = A ++ (L (keyBucket key)).map Prod.snd ++ B
  apart : ∀ e ∈ A ++ B, e.key ≠ key
  replace : ∀ (t' : EtsTable) (M : List (Nat × EtsEntry)),
    t'.Linked (Function.update L (keyBucket key) M) → t'.entries = A ++ M.map Prod.snd ++ B

variable {t : EtsTable} {L : Nat → List (Nat × EtsEntry)} {key : Eterm}

theorem bucketEntries_eq (h : t.Linked L) (b : Nat) : t.bucketEntries b = (L b).map Prod.snd := by
  have hchain := h.bucketed.chain b
  rw [bucketEntries, hchain.walk_eq hchain.length_le]

theorem keyBucket_lt (key : Eterm) : keyBucket key < etsDefaultBuckets :=
  Nat.mod_lt _ (by decide)

/-- **A key lives in its bucket only.** -/
theorem Sound.around (h : t.Sound) (key : Eterm) : ∃ L A B, t.Around key L A B := by
  obtain ⟨L, hL⟩ := h.linked
  obtain ⟨before, behind, hrange⟩ :=
    List.append_of_mem (List.mem_range.mpr (keyBucket_lt key))
  have hnd : (before ++ keyBucket key :: behind).Nodup := hrange ▸ List.nodup_range
  rw [List.nodup_middle, List.nodup_cons] at hnd
  have hflat (t' : EtsTable) (hsize : t'.bucketCount = etsDefaultBuckets) :
      t'.entries = before.flatMap t'.bucketEntries ++ t'.bucketEntries (keyBucket key) ++
        behind.flatMap t'.bucketEntries := by
    rw [EtsTable.entries, hsize, hrange, List.flatMap_append, List.flatMap_cons, List.append_assoc]
  have hne : ∀ b ∈ before ++ behind, b ≠ keyBucket key := fun b hb he => hnd.1 (he ▸ hb)
  refine ⟨L, before.flatMap t.bucketEntries, behind.flatMap t.bucketEntries, hL, ?_, ?_, ?_⟩
  · rw [hflat t hL.size, bucketEntries_eq hL]
  · rw [← List.flatMap_append]
    intro e he
    obtain ⟨b, hb, he⟩ := List.mem_flatMap.mp he
    rw [bucketEntries_eq hL] at he
    obtain ⟨x, hx, rfl⟩ := List.mem_map.mp he
    intro hkey
    have hhome : keyBucket x.2.key = b := hL.bucketed.placed b x hx
    exact hne b hb (by rw [← hhome, hkey])
  · intro t' M hM
    have hsame : ∀ b ∈ before ++ behind, t'.bucketEntries b = t.bucketEntries b := by
      intro b hb
      rw [bucketEntries_eq hM, bucketEntries_eq hL, Function.update_of_ne (hne b hb)]
    rw [hflat t' hM.size, bucketEntries_eq hM (keyBucket key), Function.update_self,
      List.flatMap_congr fun b hb => hsame b (List.mem_append_left _ hb),
      List.flatMap_congr fun b hb => hsame b (List.mem_append_right _ hb)]

/-- **A search** finds the first entry of the bucket that matches, or none of the table does. -/
theorem Around.search {A B : List EtsEntry} (h : t.Around key L A B) {p : EtsEntry → Bool}
    (hp : ∀ e, p e = true → e.key = key) :
    (t.search key p = some none ∧ ∀ e ∈ t.entries, p e = false) ∨
    ∃ K i e R, L (keyBucket key) = K ++ (i, e) :: R ∧ p e = true ∧ (∀ y ∈ K, p y.2 = false) ∧
      t.search key p = some (some (i, e)) := by
  have hs : t.search key p = some ((L (keyBucket key)).find? fun x => p x.2) := by
    rw [EtsTable.search, h.idx]
    exact h.bucketed.search p (keyBucket key)
  rw [hs]
  cases hf : (L (keyBucket key)).find? fun x => p x.2 with
  | none =>
    refine Or.inl ⟨rfl, fun e he => ?_⟩
    have hno := List.find?_eq_none.mp hf
    rw [h.entries, List.append_assoc, List.mem_append, List.mem_append] at he
    rw [Bool.eq_false_iff]
    intro hpe
    rcases he with he | he | he
    · exact h.apart e (List.mem_append_left _ he) (hp e hpe)
    · obtain ⟨x, hx, rfl⟩ := List.mem_map.mp he
      exact hno x hx hpe
    · exact h.apart e (List.mem_append_right _ he) (hp e hpe)
  | some x =>
    obtain ⟨hx, K, R, hL, hK⟩ := List.find?_eq_some_iff_append.mp hf
    exact Or.inr ⟨K, x.1, x.2, R, hL, hx, fun y hy => by simpa using hK y hy, rfl⟩

theorem Around.searchKey {A B : List EtsEntry} (h : t.Around key L A B) :
    (t.search key (fun e => e.key == key) = some none ∧ ∀ e ∈ t.entries, e.key ≠ key) ∨
    ∃ K i old R, L (keyBucket key) = K ++ (i, ⟨key, old⟩) :: R ∧ (∀ y ∈ K, y.2.key ≠ key) ∧
      t.search key (fun e => e.key == key) = some (some (i, ⟨key, old⟩)) := by
  rcases h.search (p := fun e => e.key == key) (fun e he => by simpa using he) with
    ⟨hnone, hno⟩ | ⟨K, i, ⟨k, old⟩, R, hL, hk, hK, hsome⟩
  · exact Or.inl ⟨hnone, fun e he => by simpa using hno e he⟩
  · obtain rfl : k = key := by simpa using hk
    exact Or.inr ⟨K, i, old, R, hL, fun y hy => by simpa using hK y hy, hsome⟩

theorem Around.split {A B : List EtsEntry} (h : t.Around key L A B) {i : Nat}
    {K R : List (Nat × EtsEntry)} {e : EtsEntry} (hL : L (keyBucket key) = K ++ (i, e) :: R)
    (hK : ∀ y ∈ K, y.2.key ≠ key) :
    t.entries = (A ++ K.map Prod.snd) ++ e :: (R.map Prod.snd ++ B) ∧
      ∀ x ∈ A ++ K.map Prod.snd, x.key ≠ key := by
  refine ⟨by rw [h.entries, hL]; simp, fun x hx => ?_⟩
  rcases List.mem_append.mp hx with hx | hx
  · exact h.apart x (List.mem_append_left _ hx)
  · obtain ⟨y, hy, rfl⟩ := List.mem_map.mp hx
    exact hK y hy

theorem addEntry_entries {A B : List EtsEntry} (h : t.Around key L A B) (hs : t.Sound)
    (value : Eterm) :
    (∃ t', t.addEntry key value = (t', .errNoMemory) ∧ t'.type = t.type ∧ t'.Sound ∧
      t'.entries = t.entries) ∨
    ∃ t' X Y, t.addEntry key value = (t', .ok) ∧ t'.type = t.type ∧ t'.Sound ∧
      t.entries = X ++ Y ∧ t'.entries = X ++ ⟨key, value⟩ :: Y := by
  cases hg : t.alloc 0 with
  | false =>
    refine Or.inl ⟨_, addEntry_refused (by rw [hg]; decide) key value, rfl, ?_, rfl⟩
    obtain ⟨L, hL⟩ := hs.linked
    exact ⟨⟨L, hL.bucketed, hL.size⟩, hs.count⟩
  | true =>
    obtain ⟨t', hadd, hlinked, hty, hcount, -⟩ := h.toLinked.addEntry hg key value
    have hentries := h.replace t' _ hlinked
    refine Or.inr ⟨t', A, (L (keyBucket key)).map Prod.snd ++ B, hadd, hty, ⟨⟨_, hlinked⟩, ?_⟩,
      ?_, ?_⟩
    · rw [hentries, hcount, hs.count, h.entries]
      simp only [List.length_append, List.map_cons, List.length_cons]
      omega
    · rw [h.entries, List.append_assoc]
    · rw [hentries, List.map_cons, List.append_assoc, List.cons_append]

theorem setValue_entries {A B : List EtsEntry} (h : t.Around key L A B) (hs : t.Sound) {i : Nat}
    {K R : List (Nat × EtsEntry)} {old : Eterm} (hL : L (keyBucket key) = K ++ (i, ⟨key, old⟩) :: R)
    (hK : ∀ y ∈ K, y.2.key ≠ key) (value : Eterm) :
    ∃ t' X Y, t.setValue i ⟨key, old⟩ value = some t' ∧ t'.type = t.type ∧ t'.Sound ∧
      t.entries = X ++ ⟨key, old⟩ :: Y ∧ t'.entries = X ++ ⟨key, value⟩ :: Y ∧
      ∀ e ∈ X, e.key ≠ key := by
  obtain ⟨t', hset, hlinked, hty, hcount, -⟩ := h.toLinked.setValue value hL
  have hentries := h.replace t' _ hlinked
  obtain ⟨hbefore, hfirst⟩ := h.split hL hK
  have hafter : t'.entries = (A ++ K.map Prod.snd) ++ ⟨key, value⟩ :: (R.map Prod.snd ++ B) := by
    rw [hentries]
    simp
  refine ⟨t', A ++ K.map Prod.snd, R.map Prod.snd ++ B, hset, hty, ⟨⟨_, hlinked⟩, ?_⟩, hbefore,
    hafter, hfirst⟩
  rw [hafter, hcount, hs.count, hbefore]
  simp only [List.length_append, List.length_cons]

/-- **A deletion** drops the first entry of the key, or there is none. -/
theorem beamEtsDelete_entries (hs : t.Sound) (key : Eterm) :
    (beamEtsDelete t key = some (t, .errNotFound) ∧ ∀ e ∈ t.entries, e.key ≠ key) ∨
    ∃ t' X old Y, beamEtsDelete t key = some (t', .ok) ∧ t'.type = t.type ∧ t'.Sound ∧
      t.entries = X ++ ⟨key, old⟩ :: Y ∧ t'.entries = X ++ Y ∧ ∀ e ∈ X, e.key ≠ key := by
  obtain ⟨L, A, B, h⟩ := hs.around key
  rcases h.searchKey with ⟨_, hno⟩ | ⟨K, i, old, R, hL, hK, _⟩
  · refine Or.inl ⟨h.toLinked.delete_none fun x hx => hno x.2 ?_, hno⟩
    rw [h.entries]
    exact List.mem_append_left _ (List.mem_append_right _ (List.mem_map_of_mem hx))
  · obtain ⟨t', hdel, hlinked, hty, hcount, -⟩ := h.toLinked.delete hL hK
    have hentries := h.replace t' _ hlinked
    obtain ⟨hbefore, hfirst⟩ := h.split hL hK
    refine Or.inr ⟨t', A ++ K.map Prod.snd, old, R.map Prod.snd ++ B, hdel, hty,
      ⟨⟨_, hlinked⟩, ?_⟩, hbefore, ?_, hfirst⟩
    · rw [hentries, hcount, hs.count, hbefore]
      simp only [List.length_append, List.length_cons, List.map_append]
      omega
    · rw [hentries]
      simp

theorem beamEtsLookup_entries (hs : t.Sound) (key : Eterm) :
    beamEtsLookup t key = some (match t.entries.find? fun e => e.key == key with
      | some e => (.ok, some e.value)
      | none => (.errNotFound, none)) := by
  obtain ⟨L, A, B, h⟩ := hs.around key
  rcases h.searchKey with ⟨hnone, hno⟩ | ⟨K, i, old, R, hL, hK, hsome⟩
  · have hfind : t.entries.find? (fun e => e.key == key) = none :=
      List.find?_eq_none.mpr fun e he => by simpa using hno e he
    rw [beamEtsLookup, hnone, hfind]
    rfl
  · obtain ⟨hbefore, hfirst⟩ := h.split hL hK
    have hfind : t.entries.find? (fun e => e.key == key) = some ⟨key, old⟩ :=
      List.find?_eq_some_iff_append.mpr
        ⟨beq_self_eq_true key, _, _, hbefore, fun x hx => by simpa using hfirst x hx⟩
    rw [beamEtsLookup, hsome, hfind]
    rfl

/-! ### What an operation does to the entries -/

/-- The types of tables that keep one value for a key. -/
def KeepsOne (t : EtsTable) : Prop := t.type = .set ∨ t.type = .orderedSet

/-- **What an operation can do to the entries.** -/
inductive Changes (t : EtsTable) : EtsOp → List EtsEntry → Prop
  | keep (op : EtsOp)
      (hcount : ∀ key inc, op = .updateCounter key inc → ∀ e ∈ t.entries, e.key ≠ key) :
      Changes t op t.entries
  | add (key value : Eterm) (X Y : List EtsEntry) (h : t.entries = X ++ Y)
      (hset : t.KeepsOne → ∀ e ∈ t.entries, e.key ≠ key)
      (hbag : t.type = .bag → ⟨key, value⟩ ∉ t.entries) :
      Changes t (.insert key value) (X ++ ⟨key, value⟩ :: Y)
  | replace (key old value : Eterm) (X Y : List EtsEntry) (h : t.entries = X ++ ⟨key, old⟩ :: Y)
      (hset : t.KeepsOne) : Changes t (.insert key value) (X ++ ⟨key, value⟩ :: Y)
  | count (key old : Eterm) (inc : Word) (X Y : List EtsEntry)
      (h : t.entries = X ++ ⟨key, old⟩ :: Y) (hX : ∀ e ∈ X, e.key ≠ key) :
      Changes t (.updateCounter key inc)
        (X ++ ⟨key, makeSmallInt (etermToSmallInt old + inc)⟩ :: Y)
  | drop (key old : Eterm) (X Y : List EtsEntry) (h : t.entries = X ++ ⟨key, old⟩ :: Y) :
      Changes t (.delete key) (X ++ Y)

theorem addEntry_changes {A B : List EtsEntry} (h : t.Around key L A B) (hs : t.Sound)
    (value : Eterm) (hset : t.KeepsOne → ∀ e ∈ t.entries, e.key ≠ key)
    (hbag : t.type = .bag → ⟨key, value⟩ ∉ t.entries) :
    ∃ t' res, t.addEntry key value = (t', res) ∧ t'.type = t.type ∧ t'.Sound ∧
      t.Changes (.insert key value) t'.entries := by
  rcases addEntry_entries h hs value with ⟨t', hadd, hty, hs', he⟩ |
    ⟨t', X, Y, hadd, hty, hs', he, he'⟩
  · exact ⟨t', _, hadd, hty, hs', he ▸ .keep _ fun _ _ hop => by cases hop⟩
  · exact ⟨t', _, hadd, hty, hs', he' ▸ .add key value X Y he hset hbag⟩

theorem beamEtsInsert_changes (hs : t.Sound) (key value : Eterm) :
    ∃ t' res, beamEtsInsert t key value = some (t', res) ∧ t'.type = t.type ∧ t'.Sound ∧
      t.Changes (.insert key value) t'.entries := by
  obtain ⟨L, A, B, h⟩ := hs.around key
  have hone (hty : t.KeepsOne) :
      ∃ t' res, beamEtsInsert t key value = some (t', res) ∧ t'.type = t.type ∧ t'.Sound ∧
        t.Changes (.insert key value) t'.entries := by
    rw [beamEtsInsert_set hty]
    rcases h.searchKey with ⟨hnone, hno⟩ | ⟨K, i, old, R, hL, hK, hsome⟩
    · obtain ⟨t', res, hadd, hr⟩ := addEntry_changes h hs value (fun _ => hno)
        fun hb => by rcases hty with h | h <;> simp [h] at hb
      exact ⟨t', res, by rw [hnone, Option.bind_some, hadd], hr⟩
    · obtain ⟨t', X, Y, hset, hty', hs', he, he', _⟩ := setValue_entries h hs hL hK value
      refine ⟨t', .ok, ?_, hty', hs', he' ▸ .replace key old value X Y he hty⟩
      rw [hsome, Option.bind_some]
      dsimp only
      rw [hset]
      rfl
  cases hty : t.type with
  | set => exact hty ▸ hone (Or.inl hty)
  | orderedSet => exact hty ▸ hone (Or.inr hty)
  | bag =>
    rcases h.search (p := fun e => e.key == key && e.value == value)
      (fun e he => by simp at he; exact he.1) with ⟨hnone, hno⟩ | ⟨K, i, e, R, hL, hk, hK, hsome⟩
    · obtain ⟨t', res, hadd, hr⟩ := addEntry_changes h hs value
        (fun hone => by rcases hone with h | h <;> simp [hty] at h) fun _ hm => by
          simpa using hno _ hm
      exact ⟨t', res, by simp only [beamEtsInsert, hty, hnone, Option.map_some, hadd], hty ▸ hr⟩
    · exact ⟨t, .ok, by simp only [beamEtsInsert, hty, hsome, Option.map_some], hty, hs,
        .keep _ fun _ _ hop => by cases hop⟩
  | duplicateBag =>
    obtain ⟨t', res, hadd, hr⟩ := addEntry_changes h hs value
      (fun hone => by rcases hone with h | h <;> simp [hty] at h) fun hb => by simp [hty] at hb
    exact ⟨t', res, by simp only [beamEtsInsert, hty, hadd], hty ▸ hr⟩

theorem beamEtsUpdateCounter_changes (hs : t.Sound) (key : Eterm) (inc : Word) :
    ∃ t' ans, beamEtsUpdateCounter t key inc = some (t', ans) ∧ t'.type = t.type ∧ t'.Sound ∧
      t.Changes (.updateCounter key inc) t'.entries := by
  obtain ⟨L, A, B, h⟩ := hs.around key
  rcases h.searchKey with ⟨hnone, hno⟩ | ⟨K, i, old, R, hL, hK, hsome⟩
  · refine ⟨t, (.errNotFound, none), by rw [beamEtsUpdateCounter, hnone]; rfl, rfl, hs,
      .keep _ fun k _ hop => ?_⟩
    cases hop
    exact hno
  · obtain ⟨t', X, Y, hset, hty', hs', he, he', hX⟩ :=
      setValue_entries h hs hL hK (makeSmallInt (etermToSmallInt old + inc))
    refine ⟨t', (.ok, some (makeSmallInt (etermToSmallInt old + inc))), ?_, hty', hs',
      he' ▸ .count key old inc X Y he hX⟩
    rw [beamEtsUpdateCounter, hsome, Option.bind_some]
    dsimp only
    rw [hset]
    rfl

/-- **Every operation ends**, and does one of these things. -/
theorem etsStep_changes (hs : t.Sound) (op : EtsOp) :
    ∃ t' ans, etsStep t op = some (t', ans) ∧ t'.type = t.type ∧ t'.Sound ∧
      t.Changes op t'.entries := by
  cases op with
  | insert key value =>
    obtain ⟨t', res, hr, hrest⟩ := beamEtsInsert_changes hs key value
    exact ⟨t', _, by rw [etsStep, hr]; rfl, hrest⟩
  | lookup key =>
    exact ⟨t, _, by rw [etsStep, beamEtsLookup_entries hs]; rfl, rfl, hs,
      .keep _ fun _ _ hop => by cases hop⟩
  | delete key =>
    rcases beamEtsDelete_entries hs key with ⟨hr, _⟩ | ⟨t', X, old, Y, hr, hty, hs', he, he', _⟩
    · exact ⟨t, _, by rw [etsStep, hr]; rfl, rfl, hs, .keep _ fun _ _ hop => by cases hop⟩
    · exact ⟨t', _, by rw [etsStep, hr]; rfl, hty, hs', he' ▸ .drop key old X Y he⟩
  | updateCounter key inc => exact beamEtsUpdateCounter_changes hs key inc

end EtsTable

/-- An operation without its answer. -/
def etsNext (t : EtsTable) (op : EtsOp) : Option EtsTable := (etsStep t op).map Prod.fst

theorem sound_create {type : EtsType} {alloc : Nat → Bool} {t : EtsTable}
    (h : beamEtsTableCreateTyped type alloc = some t) :
    t.type = type ∧ t.Sound ∧ t.entries = [] := by
  unfold beamEtsTableCreateTyped at h
  split at h
  · cases h
    have hempty : ∀ b, EtsTable.bucketEntries
        ⟨type, [], fun _ => none, etsDefaultBuckets, 0, fun n => alloc (n + 2)⟩ b = [] :=
      fun _ => rfl
    have hentries : EtsTable.entries
        ⟨type, [], fun _ => none, etsDefaultBuckets, 0, fun n => alloc (n + 2)⟩ = [] :=
      List.flatMap_eq_nil_iff.mpr fun b _ => hempty b
    exact ⟨rfl, ⟨⟨_, Bucketed.empty _, rfl⟩, by rw [hentries]; rfl⟩, hentries⟩
  · cases h

section Steps

variable {t t' : EtsTable} {op : EtsOp}

theorem etsNext_changes (hs : t.Sound) (h : etsNext t op = some t') :
    t'.type = t.type ∧ t'.Sound ∧ t.Changes op t'.entries := by
  obtain ⟨r, hr, rfl⟩ := Option.map_eq_some_iff.mp h
  obtain ⟨t₁, ans, hr', hrest⟩ := EtsTable.etsStep_changes hs op
  rw [hr] at hr'
  cases hr'
  exact hrest

theorem etsNext_total (hs : t.Sound) (op : EtsOp) : ∃ t', etsNext t op = some t' := by
  obtain ⟨t', ans, hr, _⟩ := EtsTable.etsStep_changes hs op
  exact ⟨t', by rw [etsNext, hr]; rfl⟩

/-! ### Bags -/

/-- The counter's new value is no other entry's of its key. -/
def KeepsDistinct (t : EtsTable) : EtsOp → Prop
  | .updateCounter key inc => ∀ old, beamEtsLookup t key = some (.ok, some old) →
      makeSmallInt (etermToSmallInt old + inc) = old ∨
        ⟨key, makeSmallInt (etermToSmallInt old + inc)⟩ ∉ t.entries
  | _ => True

theorem nodup_replace_iff {X Y : List EtsEntry} {e e' : EtsEntry} (h : (X ++ e :: Y).Nodup) :
    (X ++ e' :: Y).Nodup ↔ e' = e ∨ e' ∉ X ++ e :: Y := by
  rw [List.nodup_middle, List.nodup_cons] at h ⊢
  rw [and_iff_left h.2]
  constructor
  · intro hno
    by_cases he : e' = e
    · exact Or.inl he
    · refine Or.inr fun hm => ?_
      rcases List.mem_append.mp hm with hm | hm
      · exact hno (List.mem_append_left _ hm)
      · rcases List.mem_cons.mp hm with hm | hm
        · exact he hm
        · exact hno (List.mem_append_right _ hm)
  · rintro (rfl | hno) hm
    · exact h.1 hm
    · rcases List.mem_append.mp hm with hm | hm
      · exact hno (List.mem_append_left _ hm)
      · exact hno (List.mem_append_right _ (List.mem_cons_of_mem _ hm))

/-- **One operation on a bag.** -/
theorem nodup_step_iff (hs : t.Sound) (hbag : t.type = .bag) (hnd : t.entries.Nodup)
    (h : etsNext t op = some t') : t'.entries.Nodup ↔ KeepsDistinct t op := by
  obtain ⟨_, _, hc⟩ := etsNext_changes hs h
  generalize t'.entries = after at hc
  cases hc with
  | keep op hcount =>
    refine iff_of_true hnd ?_
    cases op with
    | updateCounter key inc =>
      intro old hold
      have hnone : t.entries.find? (fun e => e.key == key) = none :=
        List.find?_eq_none.mpr fun e he => by simpa using hcount key inc rfl e he
      rw [EtsTable.beamEtsLookup_entries hs, hnone] at hold
      cases hold
    | insert key value => trivial
    | lookup key => trivial
    | delete key => trivial
  | add key value X Y he hset hnew =>
    refine iff_of_true ?_ trivial
    rw [List.nodup_middle, List.nodup_cons, ← he]
    exact ⟨hnew hbag, hnd⟩
  | replace key old value X Y he hset => rcases hset with h | h <;> simp [hbag] at h
  | count key old inc X Y he hX =>
    have hfind : t.entries.find? (fun e => e.key == key) = some ⟨key, old⟩ :=
      List.find?_eq_some_iff_append.mpr ⟨by simp, X, Y, he, fun e hm => by simpa using hX e hm⟩
    have hlook : beamEtsLookup t key = some (.ok, some old) := by
      rw [EtsTable.beamEtsLookup_entries hs, hfind]
    rw [nodup_replace_iff (he ▸ hnd), ← he]
    constructor
    · intro hor old' hold
      rw [hlook] at hold
      cases hold
      exact hor.imp_left fun h => (EtsEntry.mk.inj h).2
    · intro hk
      exact (hk old hlook).imp_left fun h => by rw [h]
  | drop key old X Y he =>
    refine iff_of_true ?_ trivial
    rw [he] at hnd
    exact hnd.sublist (List.Sublist.append_left (List.sublist_cons_self _ Y) X)

end Steps

section Runs

variable {alloc : Nat → Bool} {t₀ t : EtsTable} {type : EtsType} {ops : List EtsOp}

theorem sound_of_run (hnew : beamEtsTableCreateTyped type alloc = some t₀)
    (hrun : run etsNext t₀ ops = some t) : t.type = type ∧ t.Sound := by
  obtain ⟨hty, hs, _⟩ := sound_create hnew
  refine run_invariant (fun t => t.type = type ∧ t.Sound) (fun t op t' hi h => ?_) ⟨hty, hs⟩ hrun
  obtain ⟨hty', hs', _⟩ := etsNext_changes hi.2 h
  exact ⟨hty'.trans hi.1, hs'⟩

/-- **A bag has no duplicates** in any state of a run exactly when no counter is set to a value that
another entry of its key has; it always counts its entries. -/
theorem bag_nodup_iff (hnew : beamEtsTableCreateTyped .bag alloc = some t₀) (ops : List EtsOp) :
    (∀ n t, run etsNext t₀ (ops.take n) = some t →
      t.entries.Nodup ∧ beamEtsCount t = t.entries.length) ↔
      Along etsNext KeepsDistinct t₀ ops := by
  obtain ⟨hty, hs, hempty⟩ := sound_create hnew
  apply always_iff_along fun t => t.type = .bag ∧ t.Sound ∧ t.entries.Nodup
  · exact fun t h => ⟨h.2.2, h.2.1.count⟩
  · intro t op t' h hd hstep
    obtain ⟨hty', hs', _⟩ := etsNext_changes h.2.1 hstep
    exact ⟨hty'.trans h.1, hs', (nodup_step_iff h.2.1 h.1 h.2.2 hstep).mpr hd⟩
  · intro t op h hall
    obtain ⟨t', hstep⟩ := etsNext_total h.2.1 op
    exact (nodup_step_iff h.2.1 h.1 h.2.2 hstep).mp (hall t' hstep).1
  · exact ⟨hty, hs, hempty ▸ List.nodup_nil⟩

/-- The largest of two values is counted down to the other one. -/
theorem bag_duplicates : ∃ t t', beamEtsTableCreateTyped .bag (fun _ => true) = some t ∧
    run etsNext t [.insert 1#64 (makeSmallInt 5#64), .insert 1#64 (makeSmallInt 6#64),
      .updateCounter 1#64 (-1#64)] = some t' ∧
    ¬ (t'.entries.Nodup ∧ beamEtsCount t' = t'.entries.length) :=
  ⟨_, _, rfl, rfl, fun h => absurd h.1 (by decide)⟩

theorem bag_nodup_two : ∃ t, beamEtsTableCreateTyped .bag (fun _ => true) = some t ∧
    ∀ n t', run etsNext t ([.insert 1#64 (makeSmallInt 5#64), .insert 1#64 (makeSmallInt 6#64),
      .updateCounter 1#64 1#64].take n) = some t' →
        t'.entries.Nodup ∧ beamEtsCount t' = t'.entries.length := by
  refine ⟨_, rfl, (@bag_nodup_iff (fun _ => true) _ rfl _).mpr
    ⟨trivial, fun t₁ h₁ => ⟨trivial, fun t₂ h₂ => ⟨fun old hold => Or.inr ?_, fun _ _ => trivial⟩⟩⟩⟩
  cases h₁
  cases h₂
  cases hold
  decide

/-! ### Deletion -/

/-- What a deletion owes: a key that was deleted is not found, the entries of the other keys are as
before, and the counter has lost the entries of the key. -/
def Removes (t : EtsTable) (key : Eterm) : Prop :=
  ∀ t', beamEtsDelete t key = some (t', .ok) →
    beamEtsLookup t' key = some (.errNotFound, none) ∧
      t'.entries.filter (fun e => e.key != key) = t.entries.filter (fun e => e.key != key) ∧
      beamEtsCount t' + t.entries.countP (fun e => e.key == key) = beamEtsCount t

theorem notFound_iff (hs : t.Sound) (key : Eterm) :
    beamEtsLookup t key = some (.errNotFound, none) ↔
      t.entries.countP (fun e => e.key == key) = 0 := by
  rw [EtsTable.beamEtsLookup_entries hs, List.countP_eq_zero]
  cases hf : t.entries.find? fun e => e.key == key with
  | none => exact iff_of_true rfl (List.find?_eq_none.mp hf)
  | some e =>
    refine iff_of_false (fun h => by cases h) fun h => ?_
    have hkey := List.find?_some hf
    exact h e (List.mem_of_find?_eq_some hf) hkey

theorem countP_first {key old : Eterm} {X Y : List EtsEntry} (hX : ∀ e ∈ X, e.key ≠ key) :
    (X ++ Y).countP (fun e => e.key == key) = Y.countP (fun e => e.key == key) ∧
      (X ++ ⟨key, old⟩ :: Y).countP (fun e => e.key == key)
        = Y.countP (fun e => e.key == key) + 1 := by
  have hnone : X.countP (fun e => e.key == key) = 0 :=
    List.countP_eq_zero.mpr fun e hm => by simpa using hX e hm
  rw [List.countP_append, List.countP_append, hnone, List.countP_cons_of_pos (by simp)]
  exact ⟨Nat.zero_add _, Nat.zero_add _⟩

/-- **A deletion removes the key** exactly when the key has one entry at most. -/
theorem beamEtsDelete_removes_iff (hnew : beamEtsTableCreateTyped type alloc = some t₀)
    (hrun : run etsNext t₀ ops = some t) (key : Eterm) :
    Removes t key ↔ t.entries.countP (fun e => e.key == key) ≤ 1 := by
  obtain ⟨_, hs⟩ := sound_of_run hnew hrun
  rcases EtsTable.beamEtsDelete_entries hs key with ⟨hdel, hno⟩ |
    ⟨t', X, old, Y, hdel, _, hs', he, he', hX⟩
  · have hcount : t.entries.countP (fun e => e.key == key) = 0 :=
      List.countP_eq_zero.mpr fun e hm => by simpa using hno e hm
    refine iff_of_true (fun t' ht' => ?_) (by omega)
    rw [hdel] at ht'
    cases ht'
  · obtain ⟨hleft, hcount⟩ := @countP_first key old X Y hX
    rw [← he'] at hleft
    rw [← he] at hcount
    constructor
    · intro hr
      obtain ⟨hlook, -, -⟩ := hr t' hdel
      rw [notFound_iff hs'] at hlook
      omega
    · intro hle t'' ht''
      rw [hdel] at ht''
      cases ht''
      refine ⟨(notFound_iff hs' key).mpr (by omega), ?_, ?_⟩
      · rw [he, he', List.filter_append, List.filter_append, List.filter_cons_of_neg (by simp)]
      · change t'.itemCount + _ = t.itemCount
        have hone : t.entries.countP (fun e => e.key == key) = 1 := by omega
        rw [hs'.count, hs.count, hone, he', he]
        simp only [List.length_append, List.length_cons]
        omega

/-- **A key of a set has one entry at most**, so a deletion always removes it. -/
theorem set_keys_nodup (hset : type = .set ∨ type = .orderedSet)
    (hnew : beamEtsTableCreateTyped type alloc = some t₀)
    (hrun : run etsNext t₀ ops = some t) : (t.entries.map EtsEntry.key).Nodup := by
  obtain ⟨hty, hs, hempty⟩ := sound_create hnew
  refine (run_invariant (fun t => t.KeepsOne ∧ t.Sound ∧ (t.entries.map EtsEntry.key).Nodup)
    (fun s op s' hi h => ?_)
    ⟨by rw [EtsTable.KeepsOne, hty]; exact hset, hs, by rw [hempty]; exact List.nodup_nil⟩ hrun).2.2
  obtain ⟨hone, hs, hnd⟩ := hi
  obtain ⟨hty', hs', hc⟩ := etsNext_changes hs h
  refine ⟨by rw [EtsTable.KeepsOne, hty']; exact hone, hs', ?_⟩
  generalize s'.entries = after at hc
  cases hc with
  | keep => exact hnd
  | add key value X Y he hno _ =>
    rw [List.map_append, List.map_cons, List.nodup_middle, List.nodup_cons, ← List.map_append, ← he]
    refine ⟨fun hm => ?_, hnd⟩
    obtain ⟨e, hm, hk⟩ := List.mem_map.mp hm
    exact hno hone e hm hk
  | replace key old value X Y he _ => rw [he] at hnd; simpa using hnd
  | count key old inc X Y he _ => rw [he] at hnd; simpa using hnd
  | drop key old X Y he =>
    rw [he] at hnd
    exact hnd.sublist ((List.Sublist.append_left (List.sublist_cons_self _ Y) X).map _)

/-- Of two entries of a key one is left. -/
theorem bag_not_removes : ∃ t t', beamEtsTableCreateTyped .bag (fun _ => true) = some t ∧
    run etsNext t [.insert 1#64 5#64, .insert 1#64 6#64] = some t' ∧ ¬ Removes t' 1#64 :=
  ⟨_, _, rfl, rfl, fun h => absurd (h _ rfl).1 (by decide)⟩

theorem beamEtsDelete_removes_one : ∃ t t', beamEtsTableCreateTyped .bag (fun _ => true) = some t ∧
    run etsNext t [.insert 1#64 5#64, .insert (1#64 <<< 32) 6#64] = some t' ∧ Removes t' 1#64 :=
  ⟨_, _, rfl, rfl, (@beamEtsDelete_removes_iff (fun _ => true) _ _ .bag
    [.insert 1#64 5#64, .insert (1#64 <<< 32) 6#64] rfl rfl 1#64).mpr (by decide)⟩

end Runs

end BeamModular
