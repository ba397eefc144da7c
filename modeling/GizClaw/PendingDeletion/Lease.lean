import GizClaw.PendingDeletion.Source

-- A worker that holds a claim. The processor renews the lease every now and then, while the handler
-- takes the task from phase to phase.

namespace GizClaw.PendingDeletion.Lease

open Interleaving (Program Exec)

structure Holder where
  source : KVSource
  claim : Claim

def Holder.taskKey (h : Holder) : Key :=
  kvTaskKey h.claim.task.record.deletionID

inductive Duty where
  | renew (now : Time) (leaseDuration : Int)
  | checkpoint (phase : Text) (now : Time)

def Duty.now : Duty → Time
  | renew now _ => now
  | checkpoint _ now => now

-- Next to the store stand the deadline and the phase that were last committed by the worker, and
-- the errors for which the processor has cancelled the handler.
structure State where
  base : PendingDeletion.State
  deadline : Time
  phase : Text
  cancelled : List Err

-- Others work elsewhere in the store.
inductive Act where
  | run (duty : Duty) (a : PendingDeletion.Act)
  | cancel (err : Err)
  | elsewhere (store : Store)

abbrev Reply : Act → Type
  | .run _ a => PendingDeletion.Reply a
  | .cancel _ => Unit
  | .elsewhere _ => Unit

section Effects

variable (h : Holder)

def Duty.effect (s : State) : Duty → State
  | renew now leaseDuration => { s with deadline := (now.add leaseDuration).getD s.deadline }
  | checkpoint phase _ => { s with phase := phase }

-- A mutation that goes through is logged.
def State.after (s : State) (duty : Duty) (base : PendingDeletion.State) : State :=
  if base.log = s.base.log then { s with base := base } else { duty.effect s with base := base }

-- The clock of a call shows a time before the deadline that the call finds.
def Holder.timely (duty : Duty) (s : State) : PendingDeletion.Act → Bool
  | .get k =>
    if k = h.taskKey then
      match s.base.store k with
      | some (.record (.state st)) => duty.now < st.leaseDeadline
      | _ => true
    else
      true
  | _ => true

-- What a mutation expects is what is stored.
def unaltered (s : State) : PendingDeletion.Act → Bool
  | .apply m _ => m.conditions.all fun c => s.base.store c.key = c.expected.map .record
  | _ => true

-- With `fresh` nothing comes between the reads of a call and its mutation that would matter to it.
def Does (fresh : Bool) : Exec Act Reply State
  | .run duty a, s, r, s' => ∃ base, PendingDeletion.Does a s.base r base ∧ h.timely duty s a ∧
    (fresh → unaltered s a) ∧ s' = s.after duty base
  | .cancel err, s, _, s' => s' = { s with cancelled := err :: s.cancelled }
  | .elsewhere store, s, _, s' => store h.taskKey = s.base.store h.taskKey ∧
    s' = { s with base := { s.base with store := store } }

end Effects

inductive Op where
  | duty (d : Duty)
  | elsewhere (store : Store)

section Calls

variable (P : Platform) (h : Holder)

def Duty.call : Duty → Call Unit
  | renew now leaseDuration => PendingDeletion.renew P h.source h.claim now leaseDuration
  | checkpoint phase now => do
    let _ ← PendingDeletion.checkpoint P h.source h.claim phase now
    return ()

-- The processor takes any failure of a renewal for the loss of the lease.
def Duty.settle : Duty → Except Err Unit → Program Act Reply (Except Err Unit)
  | renew .., .error err => do
    Program.perform (Act.cancel err)
    return .error err
  | _, r => return r

def Op.program : Op → Program Act Reply (Except Err Unit)
  | .duty d => do
    let r ← Program.rename (R := Reply) (Act.run d) (d.call P h).run
    d.settle r
  | .elsewhere store => do
    Program.perform (Act.elsewhere store)
    return .ok ()

end Calls

def Reachable (P : Platform) (h : Holder) (fresh : Bool) (s₀ : State) :
    Interleaving.Config Act Reply (Except Err Unit) State → Prop :=
  Interleaving.Reachable (Does h fresh) (Op.program P h) s₀

end GizClaw.PendingDeletion.Lease
