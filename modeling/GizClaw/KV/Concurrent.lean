import GizClaw.Lib.SnapshotIsolation
import GizClaw.KV.TiKV

-- The calls of the TiKV store side by side. TiKV gives its transactions snapshot isolation, and
-- `update` begins a new one after a write conflict.

namespace GizClaw.KV.TiKV

variable {o : Option Options}

inductive Op (o : Option Options) where
  | request (r : Request o)
  | compareAndMutate (guard : Key o) (expected : Bytes) (entries : List (Entry o))
    (keys : List (Key o))
  | purgeExpired (limit : Int)

-- A call in front of its transaction. A purge has scanned the index then.
inductive Pending (o : Option Options) where
  | request (r : Request o)
  | compareAndMutate (guard : Key o) (expected : Bytes) (entries : List (Entry o))
    (keys : List (Key o))
  | purge (scan : Except Err (List Bytes))

inductive Answer (o : Option Options) where
  | reply (r : Reply o)
  | purged (count : Nat)
  deriving DecidableEq

-- The first result of the callback that `update` runs, which asks it to commit.
def Answer.matched : Answer o → Bool
  | reply (.applied b) => b
  | reply (.conflict ..) => false
  | purged _ => true

def Op.prepare (now : Time) (db : DB) : Op o → Pending o
  | request r => .request r
  | compareAndMutate guard expected entries keys => .compareAndMutate guard expected entries keys
  | purgeExpired limit =>
    .purge (checkLimit limit |>.map fun _ => candidates now limit.toNat db)

section Transactions

variable (now : Time)

-- A mutation that is not valid fails in front of its transaction. Both fail without an effect.
def writeTxn : Write o → Txn Bool
  | .set key value => batchTxn now [⟨key, value, none⟩] []
  | .delete key => batchTxn now ([] : List (Entry o)) [key]
  | .batchMutate entries keys => batchTxn now entries keys
  | .applyMutation m => do
    .ofExcept (m.validate now)
    mutationTxn now m

def requestTxn : Request o → Txn (Reply o)
  | .write w => .applied <$> writeTxn now w
  | .createIfAllAbsent guards entries =>
    if guards = [] then .fail noGuard else createReply <$> createTxn now guards entries

def Pending.txn : Pending o → Txn (Answer o)
  | request r => .reply <$> requestTxn now r
  | compareAndMutate guard expected entries keys =>
    (fun b => .reply (.applied b)) <$> compareTxn now guard expected entries keys
  | purge (.error e) => .fail e
  | purge (.ok ks) => do
    purgeAllTxn o now ks
    return .purged ks.length

end Transactions

def protocol (o : Option Options) :
    Isolation.Protocol Bytes Cell Err (Answer o) (Op o) (Pending o) Time where
  prepare c now db := c.prepare now db
  prog c now := c.txn now
  accepts := Answer.matched

-- A call on its own. A purge has to do with those candidates that its transaction has found, and
-- reports all of them.
def Pending.alone (now : Time) (snapshot db : DB) : Pending o → Except Err (Answer o) × DB
  | request r => (TiKV.request now r db).map (.reply <$> ·) id
  | compareAndMutate guard expected entries keys =>
    (TiKV.compareAndMutate now guard expected entries keys db).map
      ((fun b => .reply (.applied b)) <$> ·) id
  | purge (.error e) => (.error e, db)
  | purge (.ok ks) =>
    (purgeCandidates o now (ks.filter (· ∈ snapshot)) db).map
      ((fun _ => .purged ks.length) <$> ·) id

-- The keys that a call insists on, be it their absence or their value.
def Pending.guards : Pending o → List (Key o)
  | request (.write (.applyMutation m)) => m.conditions.map (·.key)
  | request (.write _) => []
  | request (.createIfAllAbsent guards _) => guards.map (·.key)
  | compareAndMutate guard .. => [guard]
  | purge _ => []

end GizClaw.KV.TiKV
