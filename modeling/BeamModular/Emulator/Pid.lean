import BeamModular.Emulator.Bif

/-!
# Pids as terms

`self/0` shifts the pid by the four tag bits in 32 bits and only then widens it to a
term, so the upper four bits of a pid are lost.  The empty list is spelled with the tag
of a pid as well: it is the term that the pid 3 has.  `toNat_bifSelf0` is the term as a
number; what the predicates say of it is arithmetic from there, and `selfTerms_iff` is
the outcome for any two processes.
-/

namespace BeamModular

/-- The term encodes the pid: it gives the pid back, and it is a pid and nothing else. -/
structure EncodesPid (pid : BitVec 32) (t : Eterm) : Prop where
  shifted : t >>> (4 : Nat) = pid.setWidth 64
  isPid : beamIsPid t = true
  notNil : beamIsNil t = false
  notAtom : beamIsAtom t = false
  notSmallInt : beamIsSmallInt t = false
  notPort : beamIsPort t = false
  notList : beamIsList t = false

/-- The pid has at most 28 bits, and it is not the one whose term is the empty list. -/
def PidFits (pid : BitVec 32) : Prop := pid.toNat < 2 ^ 28 ∧ pid ≠ 3#32

theorem beamIsPid_iff {t : Eterm} : beamIsPid t = true ↔ t.toNat % 16 = 15 := by
  rw [beamIsPid, beq_iff_eq, ← toNat_and_fifteen]
  exact ⟨fun h => by rw [h]; rfl, fun h => BitVec.eq_of_toNat_eq h⟩

theorem beamIsPort_iff {t : Eterm} : beamIsPort t = true ↔ t.toNat % 16 = 7 := by
  rw [beamIsPort, beq_iff_eq, ← toNat_and_fifteen]
  exact ⟨fun h => by rw [h]; rfl, fun h => BitVec.eq_of_toNat_eq h⟩

/-- **The term of `self/0`**: the pid modulo 2^28 above the tag. -/
theorem toNat_bifSelf0 (p : Process) : (bifSelf0 p).toNat = 16 * (p.pid.toNat % 2 ^ 28) + 15 := by
  have hshift : p.pid.toNat <<< 4 % 2 ^ 32 = 2 ^ 4 * (p.pid.toNat % 2 ^ 28) := by
    rw [Nat.shiftLeft_eq]
    omega
  rw [bifSelf0, BitVec.toNat_setWidth, BitVec.toNat_or, BitVec.toNat_shiftLeft, hshift,
    BitVec.toNat_ofNat, ← Nat.two_pow_add_eq_or_of_lt (by decide)]
  omega

/-- The predicates on the term of `self/0`: only the empty list may be taken for a pid. -/
theorem bifSelf0_tags (p : Process) : beamIsPid (bifSelf0 p) = true ∧
    beamIsAtom (bifSelf0 p) = false ∧ beamIsSmallInt (bifSelf0 p) = false ∧
    beamIsPort (bifSelf0 p) = false ∧ beamIsList (bifSelf0 p) = false := by
  have hterm := toNat_bifSelf0 p
  refine ⟨beamIsPid_iff.mpr (by omega), ?_, ?_, ?_, ?_⟩ <;> rw [Bool.eq_false_iff]
  · rw [Ne, beamIsAtom_iff]; omega
  · rw [Ne, beamIsSmallInt_iff]; omega
  · rw [Ne, beamIsPort_iff]; omega
  · rw [Ne, beamIsList_iff]; omega

theorem bifSelf0_shifted_iff (p : Process) :
    bifSelf0 p >>> (4 : Nat) = p.pid.setWidth 64 ↔ p.pid.toNat < 2 ^ 28 := by
  have hterm := toNat_bifSelf0 p
  have hwide : (p.pid.setWidth 64).toNat = p.pid.toNat := by
    rw [BitVec.toNat_setWidth]
    exact Nat.mod_eq_of_lt (by have := p.pid.isLt; omega)
  rw [← BitVec.toNat_inj, BitVec.toNat_ushiftRight, hterm, hwide, Nat.shiftRight_eq_div_pow]
  omega

theorem bifSelf0_isNil_iff (p : Process) :
    beamIsNil (bifSelf0 p) = true ↔ p.pid.toNat % 2 ^ 28 = 3 := by
  rw [beamIsNil_iff, toNat_bifSelf0]
  omega

/-- **One process**: its term encodes its pid exactly if the pid fits. -/
theorem bifSelf0_encodes_iff (p : Process) : EncodesPid p.pid (bifSelf0 p) ↔ PidFits p.pid := by
  have hthree : p.pid = 3#32 ↔ p.pid.toNat = 3 := by
    rw [← BitVec.toNat_inj]
    rfl
  constructor
  · intro henc
    have hlt := (bifSelf0_shifted_iff p).mp henc.shifted
    refine ⟨hlt, fun hpid => ?_⟩
    have hnil := henc.notNil
    rw [Bool.eq_false_iff, Ne, bifSelf0_isNil_iff] at hnil
    rw [hthree] at hpid
    omega
  · rintro ⟨hlt, hne⟩
    obtain ⟨hpid, hatom, hint, hport, hlist⟩ := bifSelf0_tags p
    refine ⟨(bifSelf0_shifted_iff p).mpr hlt, hpid, ?_, hatom, hint, hport, hlist⟩
    rw [Bool.eq_false_iff, Ne, bifSelf0_isNil_iff]
    rw [Ne, hthree] at hne
    omega

/-- **When pids are terms of their own**: the terms of two processes are different unless the pids
are the same, and each encodes its pid, exactly if both pids fit. -/
theorem selfTerms_iff {m m' : Memory} {p q : Process} {arity arity' : Int} {t t' : Eterm}
    (h : beamBifDispatch 0 m p arity = some (.ok t))
    (h' : beamBifDispatch 0 m' q arity' = some (.ok t')) :
    ((t = t' → p.pid = q.pid) ∧ EncodesPid p.pid t ∧ EncodesPid q.pid t') ↔
      PidFits p.pid ∧ PidFits q.pid := by
  cases h
  cases h'
  rw [bifSelf0_encodes_iff, bifSelf0_encodes_iff]
  refine ⟨And.right, fun hfits => ⟨fun hsame => ?_, hfits⟩⟩
  have hp := toNat_bifSelf0 p
  have hq := toNat_bifSelf0 q
  have hplt := hfits.1.1
  have hqlt := hfits.2.1
  rw [hsame] at hp
  exact BitVec.eq_of_toNat_eq (by omega)

/-- A new process with another pid. -/
def processWithPid (pid : BitVec 32) : Process := { freshProcess with pid := pid }

theorem selfTerms_oneAndTwo :
    (bifSelf0 (processWithPid 1#32) = bifSelf0 (processWithPid 2#32) → 1#32 = 2#32) ∧
      EncodesPid 1#32 (bifSelf0 (processWithPid 1#32)) ∧
      EncodesPid 2#32 (bifSelf0 (processWithPid 2#32)) :=
  (@selfTerms_iff freshMemory freshMemory (processWithPid 1#32) (processWithPid 2#32) 0 0 _ _
    rfl rfl).mpr ⟨⟨by decide, by decide⟩, ⟨by decide, by decide⟩⟩

/-- **The pid 3 is the empty list**, and the pid 2^28 is the same term as the pid 0. -/
theorem pidThree_is_nil :
    beamBifDispatch 0 freshMemory (processWithPid 3#32) 0 = some (.ok etermNil) ∧
      ¬ EncodesPid 3#32 etermNil ∧
      beamBifDispatch 0 freshMemory (processWithPid 268435456#32) 0
        = beamBifDispatch 0 freshMemory (processWithPid 0#32) 0 := by
  refine ⟨rfl, fun henc => ?_, rfl⟩
  have hnil := henc.notNil
  cases hnil

end BeamModular
