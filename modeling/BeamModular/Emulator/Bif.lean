import BeamModular.Scheduler.Process

/-!
# Built-in functions

`src/emulator/beam_bif.c`: the six functions `CALL_EXT` can reach, on the X
registers of the caller.  Each returns the invalid term 0 when it is given fewer
arguments than it reads.

`bif_length_1` follows a list to its end.  A walk that is longer than there are
terms has come round, and then the source never returns: there is no result.
-/

namespace BeamModular

/-- The arguments of a built-in function: the X registers. -/
abbrev Args := Fin numXRegisters → Eterm

/-- The atom `true` or `false` as the predicates spell it. -/
def bifBool (b : Bool) : Eterm :=
  if b then 1#64 <<< 4 ||| tagImmed1Atom else 2#64 <<< 4 ||| tagImmed1Atom

/-- `bif_self_0`: the pid is shifted in 32 bits. -/
def bifSelf0 (p : Process) : Eterm := (p.pid <<< 4 ||| 15#32).setWidth 64

/-- The shape of the two functions of arithmetic. -/
def bifArith (op : Word → Word → Word) (args : Args) (arity : Int) : Eterm :=
  if arity < 2 then 0#64
  else makeSmallInt (op (etermToSmallInt (args 0)) (etermToSmallInt (args 1)))

def bifAdd2 : Args → Int → Eterm := bifArith (· + ·)

def bifSub2 : Args → Int → Eterm := bifArith (· - ·)

def bifIsAtom1 (args : Args) (arity : Int) : Eterm :=
  if arity < 1 then 0#64 else bifBool (beamIsAtom (args 0))

def bifIsTuple1 (m : Memory) (args : Args) (arity : Int) : Option Eterm :=
  if arity < 1 then some 0#64 else (beamIsTuple m (args 0)).map bifBool

/-- The loop of `bif_length_1`. -/
def listLength (m : Memory) : Nat → Eterm → Word → Option Word
  | 0, _, _ => none
  | fuel + 1, list, len =>
    if beamIsList list then
      (beamListTail m list).bind fun tail => listLength m fuel tail (len + 1#64)
    else some len

def bifLength1 (m : Memory) (args : Args) (arity : Int) : Option Eterm :=
  if arity < 1 then some 0#64
  else (listLength m (addressSpace + 1) (args 0) 0#64).map makeSmallInt

/-- `beam_bif_dispatch`. -/
def beamBifDispatch (bifIndex : Nat) (m : Memory) (p : Process) (arity : Int) :
    Option (Except Result Eterm) :=
  let args := p.frame.xRegs
  match bifIndex with
  | 0 => some (.ok (bifSelf0 p))
  | 1 => some (.ok (bifAdd2 args arity))
  | 2 => some (.ok (bifSub2 args arity))
  | 3 => some (.ok (bifIsAtom1 args arity))
  | 4 => (bifIsTuple1 m args arity).map .ok
  | 5 => (bifLength1 m args arity).map .ok
  | _ => some (.error .errNotFound)

theorem beamBifDispatch_error {bifIndex : Nat} {m : Memory} {p : Process} {arity : Int} {e : Result}
    (h : beamBifDispatch bifIndex m p arity = some (.error e)) : e.Fails := by
  unfold beamBifDispatch at h
  dsimp only at h
  split at h
  case h_7 => cases h; decide
  case h_5 => obtain ⟨v, _, hv⟩ := Option.map_eq_some_iff.mp h; cases hv
  case h_6 => obtain ⟨v, _, hv⟩ := Option.map_eq_some_iff.mp h; cases hv
  all_goals cases h

end BeamModular
