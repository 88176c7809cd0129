import BeamModular.Emulator.Delivery
import BeamModular.Scheduler.Priority

/-!
# Messages between the processes of a pool

The workers of a pool take processes out of the queue, run them and put them back, the host
enqueues others, and the processes send each other messages meanwhile.  Only a worker that runs
a process touches a mailbox, so what holds of calls in any order holds of every interleaving of
the workers and the host: `pool_messages_in_order`.  A quantum is one step here: the accesses of
two workers to one mailbox, whose quanta overlap in the source, are not interleaved.
-/

namespace BeamModular

/-- What was sent to a process, and what it looked at. -/
structure MailTraffic where
  sent : List Eterm
  seen : List Eterm
  deriving DecidableEq, Repr

namespace Pool

variable {κ : Type} [DecidableEq κ]

/-- What the step of the worker `k` is to the mailbox of `q`. -/
def traffic (code : List Instruction) (q : ProcId) (s : Pool κ) (k : κ) : MailTraffic :=
  match s.workers k with
  | .ready proc _ =>
    (beamEmuExecuteCode code proc s.world).elim ⟨[], []⟩ fun sl =>
      ⟨sentTo q sl.events, seenBy proc q sl.events⟩
  | _ => ⟨[], []⟩

end Pool

/-- A step, watched at the mailbox of `q`. -/
def PrioPool.watch {κ : Type} [DecidableEq κ] (code : List Instruction) (q : ProcId)
    (s : PrioPool κ) (act : PrioAct κ) : Option (PrioPool κ × MailTraffic) :=
  (s.step code act).map fun s' =>
    (s', match act with
      | .work k => s.pool.traffic code q k
      | _ => ⟨[], []⟩)

section Steps

variable {κ : Type} [DecidableEq κ] {code : List Instruction} {q : ProcId}

open Mailbox (Handled)

section Workers

variable {s s' : Pool κ} {k : κ}

theorem remove_procs {order : List Priority} {stolen : Bool} {other : WorkerPc}
    (h : s.remove k order stolen other = some s') : s'.world.procs = s.world.procs := by
  obtain ⟨r, _, rfl⟩ := Option.map_eq_some_iff.mp h
  rfl

theorem putBack_procs {proc : ProcId} {stolen : Bool} {res : Result}
    (h : s.putBack k proc stolen res = some s') : s'.world.procs = s.world.procs := by
  obtain ⟨r, _, rfl⟩ := Option.map_eq_some_iff.mp h
  split <;> rfl

/-- **One step of a worker**, wherever it stands. -/
theorem worker_handled (hs : s.step code k = some s') :
    Handled (∀ instr ∈ code, instr.opcode ≠ .removeMessage) (s.world.procs q).mailbox
      (s'.world.procs q).mailbox (s.traffic code q k).sent (s.traffic code q k).seen := by
  unfold Pool.step at hs
  unfold Pool.traffic
  cases hk : s.workers k with
  | idle =>
    rw [hk] at hs
    rw [remove_procs hs]
    exact .refl
  | stealing =>
    rw [hk] at hs
    rw [remove_procs hs]
    exact .refl
  | got proc stolen =>
    rw [hk] at hs
    cases hs
    exact .refl
  | ready proc stolen =>
    rw [hk] at hs
    obtain ⟨sl, hsl, rfl⟩ := Option.map_eq_some_iff.mp hs
    dsimp only
    rw [hsl]
    exact (beamEmuExecuteCode_handled hsl).imp fun hno instr hi _ => hno instr hi
  | executed proc stolen res =>
    rw [hk] at hs
    cases hs
    exact .refl
  | requeueing proc stolen res =>
    rw [hk] at hs
    rw [putBack_procs hs]
    exact .refl
  | inserted proc stolen res =>
    rw [hk] at hs
    cases hs
    exact .refl

end Workers

variable {s s' : PrioPool κ}

theorem watch_handled {act : PrioAct κ} {traffic : MailTraffic}
    (h : s.watch code q act = some (s', traffic)) :
    Handled (∀ instr ∈ code, instr.opcode ≠ .removeMessage) (s.pool.world.procs q).mailbox
      (s'.pool.world.procs q).mailbox traffic.sent traffic.seen := by
  obtain ⟨s₁, hs, he⟩ := Option.map_eq_some_iff.mp h
  cases he
  cases act with
  | work k =>
    obtain ⟨pool, hwork, rfl⟩ := Option.map_eq_some_iff.mp hs
    exact worker_handled hwork
  | enqueue proc prio =>
    obtain ⟨r, _, rfl⟩ := Option.map_eq_some_iff.mp hs
    exact .refl
  | written proc =>
    rw [PrioPool.step] at hs
    split at hs
    · cases hs
      exact .refl
    · cases hs

/-- **Messages stay in order in a pool**: however the steps of the workers and the host interleave,
a process holds a part of what it held at first and was sent since, in the order of the sends, and
has looked at nothing else.  Without a `BEAM_OP_REMOVE_MESSAGE` in the code, and with a node for
every message, it holds all of it, each once. -/
theorem pool_messages_in_order {acts : List (PrioAct κ)} {traffic : List MailTraffic}
    (h : ∃ t, (s.pool.world.procs q).mailbox.Implements t)
    (hrun : answers (PrioPool.watch code q) s acts = some (s', traffic)) :
    Mailbox.Delivers (∀ instr ∈ code, instr.opcode ≠ .removeMessage)
      (s.pool.world.procs q).mailbox (s'.pool.world.procs q).mailbox
      (traffic.flatMap MailTraffic.sent) (traffic.flatMap MailTraffic.seen) := by
  suffices hall : Handled (∀ instr ∈ code, instr.opcode ≠ .removeMessage)
      (s.pool.world.procs q).mailbox (s'.pool.world.procs q).mailbox
      (traffic.flatMap MailTraffic.sent) (traffic.flatMap MailTraffic.seen) from hall.delivers h
  clear h
  induction acts generalizing s traffic with
  | nil => cases hrun; exact .refl
  | cons act acts ih =>
    obtain ⟨⟨s₁, first⟩, hstep, hrest⟩ := Option.bind_eq_some_iff.mp hrun
    obtain ⟨⟨s₂, rest⟩, hrun', he⟩ := Option.map_eq_some_iff.mp hrest
    cases he
    rw [List.flatMap_cons, List.flatMap_cons]
    exact (watch_handled hstep).trans (ih hrun')

/-- Two workers take the two of `neighbours`, and the second runs its process first. -/
def secondFirst : List (PrioAct (Fin 2)) :=
  [.enqueue 0 .normal, .written 0, .enqueue 1 .normal, .written 1, .work 0, .work 1, .work 1,
    .work 0, .work 1, .work 0]

theorem pool_messages_in_order_secondFirst : ∃ s traffic,
    answers (PrioPool.watch sendPair 1) (.start (.create fun _ => true) neighbours) secondFirst
      = some (s, traffic) ∧
    (s.pool.world.procs 1).mailbox.bodies
      = [tagAddr 8192 tagPrimaryBoxed, tagAddr 4096 tagPrimaryBoxed] := by
  obtain ⟨⟨s, traffic⟩, hrun, hsent⟩ := Option.map_eq_some_iff.mp
    (show (answers (PrioPool.watch sendPair 1) (.start (.create fun _ => true) neighbours)
        secondFirst).map (fun r => r.2.flatMap MailTraffic.sent)
      = some [tagAddr 8192 tagPrimaryBoxed, tagAddr 4096 tagPrimaryBoxed] by decide +kernel)
  have hd := pool_messages_in_order (q := 1) ⟨_, Mailbox.implements_empty _⟩ hrun
  obtain ⟨hbodies, _⟩ := hd.kept (by decide) fun _ => rfl
  exact ⟨s, traffic, hrun, hbodies.trans hsent⟩

end Steps

end BeamModular
