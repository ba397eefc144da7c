import GizClaw.PendingDeletion.Task

-- The keys of the deletion store, and the index members that a task has in it.

namespace GizClaw.PendingDeletion

open KV.Typed (SetMembers)

abbrev Key := List Text

-- What is stored under a key. Domain records are kept as they are.
inductive Value where
  | record (r : Record)
  | locator (deletionID : Text)
  | state (s : KVTaskState)
  | domain (b : Bytes)
  deriving DecidableEq

abbrev Store := KV.Typed.Store Key Value Text

section Keys

def root : Key :=
  [ascii "pending-deletion"]

def byIDKey (deletionID : Text) : Key :=
  root ++ [ascii "by-id", deletionID]

def byLocatorKey (P : Platform) (kind : Kind) (resourceID : Text) : Key :=
  root ++ [ascii "by-locator", kind.text, P.base64 resourceID]

def kvTaskKey (deletionID : Text) : Key :=
  root ++ [ascii "task", deletionID]

def kvTaskIndexShards : Nat :=
  16

abbrev Shard := Fin kvTaskIndexShards

instance Shard.neZero : NeZero 16 :=
  ⟨by decide⟩

def kvTaskShard (P : Platform) (id : Text) : Shard :=
  Fin.ofNat 16 (P.sum256 id).val

def decimal (n : Nat) : Text :=
  (Nat.toDigits 10 n).map fun c => Fin.ofNat 256 c.toNat

def kvDueIndexKey (kind : Kind) (shard : Shard) : Key :=
  [ascii "pending-deletion", ascii "due-index", kind.text, decimal shard.val]

def kvCreatedIndexKey (kind : Kind) (status : Status) (shard : Shard) : Key :=
  [ascii "pending-deletion", ascii "created-index", kind.text, status.text,
    decimal shard.val]

end Keys

section Members

variable (P : Platform)

def kvIndexMember (at' : Time) (task : Task) : Text :=
  P.format at' ++ slash :: task.record.deletionID ++ slash :: task.markerFingerprint

-- The time at which a task is due, which is zero for a failed one.
def dueAt (task : Task) : Time :=
  match task.status with
  | .queued | .retryWait => task.nextAttemptAt
  | .running => task.leaseDeadline
  | .failed => 0

def kvTaskIndexes : Option Task → List (SetMembers Key Text)
  | none => []
  | some task =>
    let shard := kvTaskShard P task.record.deletionID
    ⟨kvCreatedIndexKey task.record.kind task.status shard,
      [kvIndexMember P task.record.deletedAt task]⟩ ::
      if dueAt task ≠ 0 then
        [⟨kvDueIndexKey task.record.kind shard, [kvIndexMember P (dueAt task) task]⟩]
      else []

def contains (indexes : List (SetMembers Key Text)) (candidate : SetMembers Key Text) : Bool :=
  indexes.any fun item => item.key = candidate.key ∧ item.members.head? = candidate.members.head?

-- The memberships to add and those to remove.
def kvTaskIndexChanges (before after : Option Task) :
    List (SetMembers Key Text) × List (SetMembers Key Text) :=
  let old := kvTaskIndexes P before
  let next := kvTaskIndexes P after
  (next.filter (!contains old ·), old.filter (!contains next ·))

end Members

end GizClaw.PendingDeletion
