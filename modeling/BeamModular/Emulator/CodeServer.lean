import BeamModular.Core.Term
import BeamModular.Lib.CString
import BeamModular.Lib.Directory
import BeamModular.Lib.Run

/-!
# The code server

`src/emulator/beam_code_server.c`: the loaded modules by their names, in a table of 128 entries.
A registration that returns `BEAM_OK` has stored the file or has found the name and dropped the
file, and the caller cannot tell which.

`Registry` keeps, beside the server, the calls and what they returned.  `found_after_register` is
what a look-up sees of them.  `ownsAccepted_iff_along` says for which sequences of calls the
server destroys the files it accepted: those that never repeat a name that is found.
-/

namespace BeamModular

variable {φ : Type}

/-- `MAX_LOADED_MODULES`. -/
abbrev maxLoadedModules : Nat := 128

/-- `module_entry_t`; the name has 64 bytes. -/
structure ModuleEntry (φ : Type) where
  name : CharField 63
  file : φ
  deriving DecidableEq, Repr

/-- The string that `strcmp` sees. -/
def ModuleEntry.key (e : ModuleEntry φ) : List Byte := e.name.string

/-- `struct beam_code_server`; `count` is the number of entries. -/
abbrev CodeServer (φ : Type) := Directory (ModuleEntry φ) maxLoadedModules

/-- `beam_code_server_create`; `alloc` is the answer to the request for the server. -/
def beamCodeServerCreate (φ : Type) (alloc : Bool) : Option (CodeServer φ) :=
  if alloc then some .empty else none

/-- `beam_code_server_destroy`: the files that are given to `beam_file_destroy`, in order. -/
def beamCodeServerDestroy (cs : CodeServer φ) : List φ := cs.entries.map ModuleEntry.file

/-- `beam_code_server_register_module`. -/
def beamCodeServerRegisterModule (cs : CodeServer φ) (modName : List Byte) (file : φ) :
    CodeServer φ × Result :=
  if h : cs.entries.length ≥ maxLoadedModules then (cs, .errNoMemory)
  else if (cs.find ModuleEntry.key (cString modName)).isSome then (cs, .ok)
  else (cs.push ⟨.ofString modName 63, file⟩ (Nat.lt_of_not_ge h), .ok)

/-- `beam_code_server_lookup_module`. -/
def beamCodeServerLookupModule (cs : CodeServer φ) (modName : List Byte) : Option φ :=
  (cs.find ModuleEntry.key (cString modName)).map ModuleEntry.file

/-- `beam_code_server_module_count`. -/
def beamCodeServerModuleCount (cs : CodeServer φ) : Nat := cs.entries.length

/-! ### The calls -/

/-- A call of `beam_code_server_register_module` that has returned. -/
structure Registration (φ : Type) where
  name : List Byte
  file : φ
  result : Result
  deriving DecidableEq, Repr

/-- A server, and the calls so far with the latest first. -/
structure Registry (φ : Type) where
  server : CodeServer φ
  log : List (Registration φ)
  deriving DecidableEq, Repr

/-- One call with a name and a file. -/
def Registry.step (s : Registry φ) (call : List Byte × φ) : Option (Registry φ) :=
  let r := beamCodeServerRegisterModule s.server call.1 call.2
  some ⟨r.1, ⟨call.1, call.2, r.2⟩ :: s.log⟩

/-- The names whose registration was accepted. -/
def Registry.names (s : Registry φ) : Finset (List Byte) :=
  ((s.log.filter fun r => r.result = .ok).map fun r => cString r.name).toFinset

/-- `beam_code_server_destroy` destroys each accepted file once and no file that was refused. -/
def Registry.OwnsAccepted [DecidableEq φ] (s : Registry φ) : Prop :=
  ∀ r ∈ s.log, (beamCodeServerDestroy s.server).count r.file = if r.result = .ok then 1 else 0

/-- The table is full, or the name is not found in it. -/
def StoresOrRefuses (s : Registry φ) (call : List Byte × φ) : Prop :=
  s.server.entries.length ≥ maxLoadedModules ∨ beamCodeServerLookupModule s.server call.1 = none

instance [DecidableEq φ] (s : Registry φ) (call : List Byte × φ) :
    Decidable (StoresOrRefuses s call) :=
  inferInstanceAs (Decidable (_ ∨ _))

/-! ### One call -/

section Register

variable {cs cs' : CodeServer φ} {name other : List Byte} {file : φ}

theorem lookup_eq_none_iff : beamCodeServerLookupModule cs name = none ↔
    cs.find ModuleEntry.key (cString name) = none := Option.map_eq_none_iff

/-- **What a registration does**: it is refused, it is ignored, or it adds an entry. -/
theorem register_cases (cs : CodeServer φ) (name : List Byte) (file : φ) :
    (maxLoadedModules ≤ cs.entries.length ∧
      beamCodeServerRegisterModule cs name file = (cs, .errNoMemory)) ∨
    (cs.entries.length < maxLoadedModules ∧ (beamCodeServerLookupModule cs name).isSome ∧
      beamCodeServerRegisterModule cs name file = (cs, .ok)) ∨
    ∃ hroom : cs.entries.length < maxLoadedModules,
      beamCodeServerLookupModule cs name = none ∧
      beamCodeServerRegisterModule cs name file =
        (cs.push ⟨.ofString name 63, file⟩ hroom, .ok) := by
  by_cases hfull : cs.entries.length ≥ maxLoadedModules
  · left
    exact ⟨hfull, dif_pos hfull⟩
  · right
    rw [beamCodeServerRegisterModule, dif_neg hfull]
    cases hf : cs.find ModuleEntry.key (cString name) with
    | some e =>
      left
      refine ⟨Nat.lt_of_not_ge hfull, ?_, if_pos rfl⟩
      rw [beamCodeServerLookupModule, hf]
      rfl
    | none =>
      right
      exact ⟨Nat.lt_of_not_ge hfull, lookup_eq_none_iff.mpr hf, if_neg (by simp)⟩

theorem key_ofString (hshort : (cString name).length ≤ 63) :
    (⟨.ofString name 63, file⟩ : ModuleEntry φ).key = cString name :=
  CharField.string_ofString_eq_iff.mpr hshort

theorem keys_push (hshort : (cString name).length ≤ 63)
    (hroom : cs.entries.length < maxLoadedModules) :
    (cs.push ⟨.ofString name 63, file⟩ hroom).entries.map ModuleEntry.key =
      cs.entries.map ModuleEntry.key ++ [cString name] := by
  rw [Directory.push, List.map_append, List.map_singleton, key_ofString hshort]

theorem lookup_register (hshort : (cString name).length ≤ 63)
    (h : beamCodeServerRegisterModule cs name file = (cs', .ok)) :
    beamCodeServerLookupModule cs' name =
      some ((beamCodeServerLookupModule cs name).getD file) := by
  obtain ⟨_, hr⟩ | ⟨_, hsome, hr⟩ | ⟨hroom, hnone, hr⟩ := register_cases cs name file
  · rw [hr] at h
    cases h
  · rw [hr] at h
    cases h
    obtain ⟨old, hold⟩ := Option.isSome_iff_exists.mp hsome
    rw [hold]
    rfl
  · rw [hr] at h
    cases h
    rw [hnone, beamCodeServerLookupModule, Directory.find_push_self
      (lookup_eq_none_iff.mp hnone) (key_ofString hshort)]
    rfl

theorem lookup_register_of_ne (hshort : (cString name).length ≤ 63)
    (h : beamCodeServerRegisterModule cs name file = (cs', .ok))
    (hne : cString other ≠ cString name) :
    beamCodeServerLookupModule cs' other = beamCodeServerLookupModule cs other := by
  obtain ⟨_, hr⟩ | ⟨_, _, hr⟩ | ⟨hroom, _, hr⟩ := register_cases cs name file
  · rw [hr] at h
    cases h
  · rw [hr] at h
    cases h
    rfl
  · rw [hr] at h
    cases h
    rw [beamCodeServerLookupModule, Directory.find_push_of_ne, beamCodeServerLookupModule]
    rw [key_ofString hshort]
    exact hne.symm

end Register

/-! ### Names -/

section Names

variable {s s' : Registry φ} {call : List Byte × φ}

/-- The names in the table are different, and they are those that were accepted. -/
structure Registry.Named (s : Registry φ) : Prop where
  nodup : (s.server.entries.map ModuleEntry.key).Nodup
  names : (s.server.entries.map ModuleEntry.key).toFinset = s.names

theorem names_refused (s : Registry φ) (r : Registration φ) (h : r.result ≠ .ok)
    (cs : CodeServer φ) : Registry.names ⟨cs, r :: s.log⟩ = s.names := by
  unfold Registry.names
  rw [List.filter_cons_of_neg (by simpa using h)]

theorem names_accepted (s : Registry φ) (r : Registration φ) (h : r.result = .ok)
    (cs : CodeServer φ) :
    Registry.names ⟨cs, r :: s.log⟩ = insert (cString r.name) s.names := by
  unfold Registry.names
  rw [List.filter_cons_of_pos (by simpa using h), List.map_cons, List.toFinset_cons]

theorem lookup_isSome_iff {cs : CodeServer φ} {name : List Byte} :
    (beamCodeServerLookupModule cs name).isSome ↔
      cString name ∈ cs.entries.map ModuleEntry.key := by
  rw [beamCodeServerLookupModule, Option.isSome_map, Directory.find_isSome_iff]

theorem named_step (h : s.Named) (hshort : (cString call.1).length ≤ 63)
    (hs : s.step call = some s') : s'.Named := by
  cases hs
  obtain ⟨_, hr⟩ | ⟨_, hsome, hr⟩ | ⟨hroom, hnone, hr⟩ :=
    register_cases s.server call.1 call.2
  · rw [hr]
    refine ⟨h.nodup, ?_⟩
    rw [names_refused s _ fun he => by cases he]
    exact h.names
  · rw [hr]
    refine ⟨h.nodup, ?_⟩
    rw [names_accepted s _ rfl, Finset.insert_eq_of_mem]
    · exact h.names
    · rw [← h.names, List.mem_toFinset]
      exact lookup_isSome_iff.mp hsome
  · rw [hr]
    have hnew : cString call.1 ∉ s.server.entries.map ModuleEntry.key := fun hm => by
      rw [← lookup_isSome_iff, hnone] at hm
      cases hm
    have hkeys := @keys_push _ s.server call.1 call.2 hshort hroom
    constructor
    · rw [hkeys, List.nodup_append]
      refine ⟨h.nodup, List.nodup_singleton _, fun k hk k' hk' he => hnew ?_⟩
      rw [← List.mem_singleton.mp hk', ← he]
      exact hk
    · rw [names_accepted s _ rfl, hkeys, List.toFinset_append, h.names, Finset.union_comm]
      rfl

theorem count_eq_card (h : s.Named) : beamCodeServerModuleCount s.server = s.names.card := by
  rw [← h.names, List.toFinset_card_of_nodup h.nodup, List.length_map]
  rfl

end Names

/-- **A registered module is found**, for every sequence of calls with any names and files: after a
registration that returned `BEAM_OK` for a name of at most 63 bytes, the look-up of the name returns
the file, or the one that it returned before; look-ups of all other names are unchanged; and while
no name has been longer, the number of modules is the number of names that were accepted. -/
theorem found_after_register {alloc : Bool} {cs : CodeServer φ}
    (hnew : beamCodeServerCreate φ alloc = some cs) (calls : List (List Byte × φ))
    {s : Registry φ} (hrun : run Registry.step ⟨cs, []⟩ calls = some s) :
    (∀ name file cs', beamCodeServerRegisterModule s.server name file = (cs', .ok) →
      (cString name).length ≤ 63 →
      beamCodeServerLookupModule cs' name =
        some ((beamCodeServerLookupModule s.server name).getD file) ∧
      ∀ other, cString other ≠ cString name →
        beamCodeServerLookupModule cs' other = beamCodeServerLookupModule s.server other) ∧
    ((∀ call ∈ calls, (cString call.1).length ≤ 63) →
      beamCodeServerModuleCount s.server = s.names.card) := by
  refine ⟨fun name file cs' h hshort => ⟨lookup_register hshort h, fun other hne =>
    lookup_register_of_ne hshort h hne⟩, fun hshort => ?_⟩
  have hstart : Registry.Named (⟨cs, []⟩ : Registry φ) := by
    unfold beamCodeServerCreate at hnew
    split at hnew
    · cases hnew
      exact ⟨List.nodup_nil, rfl⟩
    · cases hnew
  have hok : Along Registry.step (fun _ call => (cString call.1).length ≤ 63) ⟨cs, []⟩ calls :=
    Along.of_forall _ hshort
  exact count_eq_card (run_induct Registry.Named (fun _ _ _ h hc hs => named_step h hc hs) hstart
    hok hrun)

/-- A name that is registered again keeps its first file. -/
theorem register_again_keeps_file : ∃ cs s, beamCodeServerCreate Nat true = some cs ∧
    run Registry.step ⟨cs, []⟩ [([109#8], 1), ([109#8], 2)] = some s ∧
    s.log.head? = some ⟨[109#8], 2, .ok⟩ ∧
    beamCodeServerLookupModule s.server [109#8] = some 1 :=
  ⟨_, _, rfl, rfl, rfl, rfl⟩

theorem found_after_register_two : ∃ cs s cs', beamCodeServerCreate Nat true = some cs ∧
    run Registry.step ⟨cs, []⟩ [([109#8], 1)] = some s ∧
    beamCodeServerRegisterModule s.server [110#8] 2 = (cs', .ok) ∧
    beamCodeServerLookupModule cs' [110#8] = some 2 ∧
    beamCodeServerModuleCount s.server = s.names.card :=
  have h := @found_after_register Nat true _ rfl [([109#8], 1)] _ rfl
  ⟨_, _, _, rfl, rfl, rfl, (h.1 [110#8] 2 _ rfl (by decide)).1, h.2 (by decide)⟩

/-! ### Files -/

section Files

variable [DecidableEq φ] {s s' : Registry φ} {call : List Byte × φ}

/-- The files in the table have been in calls. -/
def Registry.Logged (s : Registry φ) : Prop :=
  ∀ file ∈ beamCodeServerDestroy s.server, file ∈ s.log.map Registration.file

theorem ownsAccepted_step (h : s.Logged) (hnew : call.2 ∉ s.log.map Registration.file)
    (hs : s.step call = some s') :
    s'.Logged ∧ (s'.OwnsAccepted ↔ StoresOrRefuses s call ∧ s.OwnsAccepted) := by
  cases hs
  have hzero : (beamCodeServerDestroy s.server).count call.2 = 0 :=
    List.count_eq_zero_of_not_mem fun hm => hnew (h _ hm)
  obtain ⟨hfull, hr⟩ | ⟨hroom, hsome, hr⟩ | ⟨hroom, hnone, hr⟩ :=
    register_cases s.server call.1 call.2
  · rw [hr]
    refine ⟨fun file hm => List.mem_cons_of_mem _ (h file hm), ?_⟩
    unfold Registry.OwnsAccepted
    rw [List.forall_mem_cons]
    exact and_congr (iff_of_true hzero (Or.inl hfull)) Iff.rfl
  · rw [hr]
    refine ⟨fun file hm => List.mem_cons_of_mem _ (h file hm), ?_⟩
    unfold Registry.OwnsAccepted
    rw [List.forall_mem_cons]
    refine and_congr (iff_of_false (fun he => ?_) fun hc => ?_) Iff.rfl
    · have hone : 0 = 1 := hzero.symm.trans he
      cases hone
    · rcases hc with hfull | hnone
      · omega
      · rw [hnone] at hsome
        cases hsome
  · rw [hr]
    have hfiles : beamCodeServerDestroy (s.server.push
        (⟨.ofString call.1 63, call.2⟩ : ModuleEntry φ) hroom) =
        beamCodeServerDestroy s.server ++ [call.2] := List.map_append
    refine ⟨fun file hm => ?_, ?_⟩
    · rw [hfiles, List.mem_append, List.mem_singleton] at hm
      rcases hm with hm | rfl
      · exact List.mem_cons_of_mem _ (h file hm)
      · exact List.mem_cons_self
    · unfold Registry.OwnsAccepted
      rw [List.forall_mem_cons, hfiles]
      refine and_congr (iff_of_true ?_ (Or.inr hnone)) (forall₂_congr fun r hr' => ?_)
      · rw [List.count_append, hzero, List.count_singleton_self]
        rfl
      · have hne : r.file ≠ call.2 := fun he => hnew (he ▸ List.mem_map_of_mem hr')
        rw [List.count_append, List.count_singleton, if_neg (by simpa using hne.symm), Nat.add_zero]

theorem ownsAccepted_run : ∀ {calls : List (List Byte × φ)} {s s' : Registry φ}, s.Logged →
    (calls.map Prod.snd).Nodup → (∀ call ∈ calls, call.2 ∉ s.log.map Registration.file) →
      run Registry.step s calls = some s' →
        (s'.OwnsAccepted ↔ s.OwnsAccepted ∧ Along Registry.step StoresOrRefuses s calls) := by
  intro calls
  induction calls with
  | nil => intro s s' _ _ _ hr; cases hr; exact (and_iff_left trivial).symm
  | cons call calls ih =>
    intro s s' h hnd hnew hr
    obtain ⟨s₁, hs, hr'⟩ := run_cons_eq_some hr
    rw [List.map_cons, List.nodup_cons] at hnd
    obtain ⟨h₁, howns⟩ := ownsAccepted_step h (hnew call List.mem_cons_self) hs
    have hnew₁ : ∀ c ∈ calls, c.2 ∉ s₁.log.map Registration.file := by
      intro c hc hm
      cases hs
      rcases List.mem_cons.mp hm with he | hm
      · have he : c.2 = call.2 := he
        exact hnd.1 (he ▸ List.mem_map_of_mem hc)
      · exact hnew c (List.mem_cons_of_mem call hc) hm
    rw [ih h₁ hnd.2 hnew₁ hr', howns, Along]
    constructor
    · rintro ⟨⟨hcall, ho⟩, ha⟩
      refine ⟨ho, hcall, fun s₂ hs₂ => ?_⟩
      rw [hs] at hs₂
      cases hs₂
      exact ha
    · rintro ⟨ho, hcall, ha⟩
      exact ⟨⟨hcall, ho⟩, ha s₁ hs⟩

end Files

/-- **The server owns what it accepted** exactly when no name is registered that is found: for every
sequence of calls with different files, after `beam_code_server_destroy` each accepted file has been
destroyed once and no other one, if and only if at each call the table is full or the name is not
found. -/
theorem ownsAccepted_iff_along [DecidableEq φ] {alloc : Bool} {cs : CodeServer φ}
    (hnew : beamCodeServerCreate φ alloc = some cs) (calls : List (List Byte × φ))
    (hfiles : (calls.map Prod.snd).Nodup) {s : Registry φ}
    (hrun : run Registry.step ⟨cs, []⟩ calls = some s) :
    s.OwnsAccepted ↔ Along Registry.step StoresOrRefuses ⟨cs, []⟩ calls := by
  have hempty : beamCodeServerDestroy cs = [] := by
    unfold beamCodeServerCreate at hnew
    split at hnew
    · cases hnew
      rfl
    · cases hnew
  have hlogged : Registry.Logged (⟨cs, []⟩ : Registry φ) := by
    intro file hm
    rw [hempty] at hm
    cases hm
  rw [ownsAccepted_run hlogged hfiles (fun _ _ => List.not_mem_nil) hrun]
  exact and_iff_right fun r hr => absurd hr List.not_mem_nil

/-- The second file of a name is accepted and never destroyed. -/
theorem register_again_leaks_file : ∃ cs s, beamCodeServerCreate Nat true = some cs ∧
    run Registry.step ⟨cs, []⟩ [([109#8], 1), ([109#8], 2)] = some s ∧
    s.log.head? = some ⟨[109#8], 2, .ok⟩ ∧ beamCodeServerDestroy s.server = [1] ∧
    ¬ s.OwnsAccepted :=
  ⟨_, _, rfl, rfl, rfl, rfl, fun h => absurd (h ⟨[109#8], 2, .ok⟩ List.mem_cons_self) (by decide)⟩

theorem ownsAccepted_two : ∃ cs s, beamCodeServerCreate Nat true = some cs ∧
    run Registry.step ⟨cs, []⟩ [([109#8], 1), ([110#8], 2)] = some s ∧ s.OwnsAccepted :=
  ⟨_, _, rfl, rfl,
    (@ownsAccepted_iff_along Nat _ true _ rfl [([109#8], 1), ([110#8], 2)] (by decide) _ rfl).mpr
      (by decide)⟩

end BeamModular
