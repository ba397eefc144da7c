import GizClaw.Lib.Transaction
import GizClaw.KV.Logical

-- The TiKV store. A key has one row under its record key, a collection one more row per member, and
-- a record with a deadline one more row in the expiry index. Each call is one transaction.

namespace GizClaw.KV.TiKV

variable {o : Option Options}

section Layout

-- `"gizclaw-kv\x00\x01"`
def tiKVNamespace : Bytes :=
  [103, 105, 122, 99, 108, 97, 119, 45, 107, 118, 0, 1]

def recordKey (encoded : Bytes) : Bytes :=
  tiKVNamespace ++ 1 :: encoded

def memberPrefix (encoded : Bytes) : Bytes :=
  tiKVNamespace ++ 2 :: Bytes.frame encoded

def expiryPrefix : Bytes :=
  tiKVNamespace ++ [3]

def expiryKey (encoded : Bytes) (deadline : Int) : Bytes :=
  expiryPrefix ++ Bytes.bigEndian 8 (uint64 deadline) ++ encoded

end Layout

-- Kind 0 is a record, 1 and 2 are collections, and 3 is the claim of a migration.
structure Value where
  kind : Nat
  deadline : Int
  payload : Payload
  deriving DecidableEq

-- The contents of a row: an encoded value, or the `[]byte{1}` of member and index rows.
inductive Cell where
  | value (v : Value)
  | mark
  deriving DecidableEq

abbrev DB := Rows Bytes Cell

abbrev Txn := Prog Bytes Cell Err

-- What is found under a record key. The first two cases are `ErrNotFound`, which comes along with
-- the value when there is one.
inductive Found where
  | absent
  | expired (v : Value)
  | live (v : Value)

-- The deadline of the value that was read, which is zero without a row.
def Found.deadline : Found → Int
  | absent => 0
  | expired v | live v => v.deadline

def decodeTiKVValue (nano : Int) : Cell → Except Err Found
  | .mark => .error (.text "kv: invalid tikv value header")
  | .value v =>
    if v.kind = 3 then .error .migrationInProgress
    else if 2 < v.kind then .error (.text "kv: invalid tikv value header")
    else if v.kind ≠ 0 ∧ (v.deadline ≠ 0 ∨ v.payload.toBytes.length ≠ 8) then
      .error (.text "kv: invalid tikv collection counter")
    else if v.deadline ≠ 0 ∧ v.deadline ≤ nano then .ok (.expired v)
    else .ok (.live v)

def found (nano : Int) : Option Cell → Except Err Found
  | none => .ok .absent
  | some raw => decodeTiKVValue nano raw

-- Errors of the store's contract pass through.
def tiKVError (operation : String) : Err → Err
  | .text _ => .text ("kv: tikv " ++ operation ++ " failed")
  | e => e

-- A single attempt of `update`, which commits only when the callback asks for it. Without other
-- transactions there is no conflict to retry on.
def update {α : Type} (matched : α → Bool) (fn : Txn α) (db : DB) : Except Err α × DB :=
  match fn.run (.start db) with
  | .error e => (.error (tiKVError "mutate" e), db)
  | .ok (a, tx) => (.ok a, if matched a then tx.commit db else db)

section Transactions

variable (now : Time)

def getTxn (encoded : Bytes) : Txn Found :=
  .get (recordKey encoded) fun raw => .ofExcept (found (unixNano now) raw)

def removeIndex (encoded : Bytes) (deadline : Int) : Txn Unit :=
  if deadline ≠ 0 then .remove (expiryKey encoded deadline) else pure ()

-- The iterator over the members of a live collection.
def removeMembers (encoded : Bytes) : Found → Txn Unit
  | .live v =>
    if v.kind ≠ 0 then
      .scan (memberPrefix encoded) (Bytes.prefixEnd (memberPrefix encoded)) (·.forM .remove)
    else
      pure ()
  | _ => pure ()

def deleteTxn (encoded : Bytes) : Txn Unit := do
  let found ← getTxn now encoded
  removeIndex encoded found.deadline
  removeMembers encoded found
  .remove (recordKey encoded)

-- Zero for an entry that does not expire.
def entryDeadline (entry : Entry o) : Except Err Int :=
  match entry.deadline with
  | none => .ok 0
  | some d =>
    if d ≤ now then .error .invalidDeadline
    else if unixNano d ≤ 0 ∨ unixNano d ≠ d then .error .invalidDeadline
    else .ok (unixNano d)

def putEntry (entry : Entry o) : Txn Unit := do
  let encoded := entry.key.encode.bytes
  let deadline ← .ofExcept (entryDeadline now entry)
  deleteTxn now encoded
  .write (recordKey encoded) (.value ⟨0, deadline, .bytes entry.value⟩)
  if deadline ≠ 0 then .write (expiryKey encoded deadline) .mark else pure ()

def entriesTxn (entries : List (Entry o)) (deletes : List (Key o)) : Txn Unit := do
  entries.forM (putEntry now)
  deletes.forM fun key => deleteTxn now key.encode.bytes

-- `byte(1 + phase/2)`
def expectedKind (phase : Phase) : Nat :=
  if phase.ordered then 2 else 1

def readCount (phase : Phase) : Found → Except Err Nat
  | .live v => if v.kind ≠ expectedKind phase then .error .wrongType else .ok v.payload.uint64
  | _ => .ok 0

-- The loop over the members of a group, with the running count.
def updateMembers (pre : Bytes) (adds : Bool) : List Bytes → Nat → Txn Nat
  | [], count => pure count
  | m :: ms, count =>
    .get (pre ++ m) fun row =>
      if adds && row.isNone then
        .set (pre ++ m) .mark (updateMembers pre adds ms (count + 1))
      else if !adds && row.isSome then
        if count = 0 then .fail (.text "kv: invalid tikv collection count")
        else .delete (pre ++ m) (updateMembers pre adds ms (count - 1))
      else
        updateMembers pre adds ms count

def storeCount (g : Group o) (previous count : Nat) : Txn Unit :=
  if 0 < g.maxMembers ∧ g.maxMembers < count ∧ previous < count then .fail .memberLimit
  else if count = 0 then .remove (recordKey g.key.encode.bytes)
  else .write (recordKey g.key.encode.bytes) (.value ⟨expectedKind g.phase, 0, .counter count⟩)

def membersTxn (g : Group o) : Txn Unit :=
  if g.members = [] then pure () else do
    let found ← getTxn now g.key.encode.bytes
    let previous ← .ofExcept (readCount g.phase found)
    let count ← updateMembers (memberPrefix g.key.encode.bytes) g.phase.adds g.members previous
    storeCount g previous count

-- A guard that holds is written again, as snapshot isolation only notices conflicts on writes.
def touchGuard (c : Condition o) : Found → Txn Bool
  | .live v =>
    match c.expected with
    | none => pure false
    | some x =>
      if v.kind ≠ 0 then .fail .wrongType
      else if v.payload.toBytes ≠ x then pure false
      else do
        .write (recordKey c.key.encode.bytes) (.value v)
        return true
  | _ =>
    match c.expected with
    | some _ => pure false
    | none => do
      deleteTxn now c.key.encode.bytes
      return true

def conditionsTxn : List (Condition o) → Txn Bool
  | [] => pure true
  | c :: cs => do
    let found ← getTxn now c.key.encode.bytes
    if ← touchGuard now c found then conditionsTxn cs else return false

-- The batch read in front of the conditions only fills the cache of the snapshot.
def mutationTxn (m : Mutation o) : Txn Bool := do
  if ← conditionsTxn now m.conditions then
    entriesTxn now m.entries m.deleteKeys
    m.groups.forM (membersTxn now)
    return true
  else
    return false

def batchTxn (entries : List (Entry o)) (keys : List (Key o)) : Txn Bool := do
  entriesTxn now entries keys
  return true

-- The first guard that exists.
def findGuard : List (Entry o) → Txn (Option (Key o × Bytes))
  | [] => pure none
  | guard :: guards => do
    match ← getTxn now guard.key.encode.bytes with
    | .live v => if v.kind ≠ 0 then .fail .wrongType else pure (some (guard.key, v.payload.toBytes))
    | _ => findGuard guards

def createTxn (guards entries : List (Entry o)) : Txn (Option (Key o × Bytes)) := do
  match ← findGuard now guards with
  | some conflict => return some conflict
  | none => do
    entriesTxn now (entries ++ guards) []
    return none

def compareTxn (guard : Key o) (expected : Bytes) (entries : List (Entry o)) (keys : List (Key o)) :
    Txn Bool := do
  match ← getTxn now guard.encode.bytes with
  | .live v =>
    if v.kind ≠ 0 then .fail .wrongType
    else if v.payload.toBytes ≠ expected then pure false
    else do
      .write (recordKey guard.encode.bytes) (.value v)
      entriesTxn now entries keys
      return true
  | _ => return false

end Transactions

section Calls

variable (now : Time)

def batchMutate (entries : List (Entry o)) (keys : List (Key o)) (db : DB) : Except Err Bool × DB :=
  update id (batchTxn now entries keys) db

def applyMutation (m : Mutation o) (db : DB) : Except Err Bool × DB :=
  match m.validate now with
  | .error e => (.error e, db)
  | .ok _ => update id (mutationTxn now m) db

def createIfAllAbsent (guards entries : List (Entry o)) (db : DB) :
    Except Err (Option (Key o × Bytes)) × DB :=
  if guards = [] then (.error noGuard, db) else
    update Option.isNone (createTxn now guards entries) db

def compareAndMutate (guard : Key o) (expected : Bytes) (entries : List (Entry o))
    (keys : List (Key o)) (db : DB) : Except Err Bool × DB :=
  update id (compareTxn now guard expected entries keys) db

def call (w : Write o) (db : DB) : Except Err Bool × DB :=
  match w with
  | .set key value => batchMutate now [⟨key, value, none⟩] [] db
  | .delete key => batchMutate now ([] : List (Entry o)) [key] db
  | .batchMutate entries keys => batchMutate now entries keys db
  | .applyMutation m => applyMutation now m db

def createReply : Option (Key o × Bytes) → Reply o
  | none => .applied true
  | some (key, value) => .conflict key value

def request (r : Request o) (db : DB) : Except Err (Reply o) × DB :=
  match r with
  | .write w => (call now w db).map (.applied <$> ·) id
  | .createIfAllAbsent guards entries =>
    (createIfAllAbsent now guards entries db).map (createReply <$> ·) id

end Calls

section Expiry

variable (o) (now : Time)

-- The scan of `PurgeExpired`, on a snapshot that is older than the transaction behind it.
def candidates (limit : Nat) (db : DB) : List Bytes :=
  let stop := Bytes.prefixEnd (expiryPrefix ++ Bytes.bigEndian 8 (uint64 (unixNano now)))
  ((Tx.start db).scan expiryPrefix stop).take limit

def indexDeadline (indexKey : Bytes) : Int :=
  int64 (Bytes.ofBigEndian ((indexKey.drop expiryPrefix.length).take 8))

def indexedKey (indexKey : Bytes) : Bytes :=
  Options.encode o (Options.decode o (indexKey.drop (expiryPrefix.length + 8)))

-- The record goes only when it still has the deadline of the index row, and that one has passed.
def purgeTxn (indexKey : Bytes) : Txn Unit :=
  if indexKey.length < expiryPrefix.length + 8 then .fail (.text "kv: invalid tikv expiry key") else
    .get indexKey fun
      | none => pure ()
      | some _ => do
        let found ← getTxn now (indexedKey o indexKey)
        if found.deadline = indexDeadline indexKey ∧ indexDeadline indexKey ≤ unixNano now then
          .remove (recordKey (indexedKey o indexKey))
        else
          pure ()
        .remove indexKey

def purgeAllTxn (indexKeys : List Bytes) : Txn Unit :=
  indexKeys.forM (purgeTxn o now)

-- The transaction of `PurgeExpired` on what its scan has found.
def purgeCandidates (indexKeys : List Bytes) (db : DB) : Except Err Nat × DB :=
  if indexKeys = [] then (.ok 0, db) else
    (update (fun _ => true) (purgeAllTxn o now indexKeys) db).map
      ((fun _ => indexKeys.length) <$> ·) id

def checkLimit (limit : Int) : Except Err Unit :=
  if limit ≤ 0 ∨ 1024 < limit then
    .error (.text "kv: tikv expiry batch limit must be between 1 and 1024")
  else
    .ok ()

def purgeExpired (limit : Int) (db : DB) : Except Err Nat × DB :=
  match checkLimit limit with
  | .error e => (.error e, db)
  | .ok _ => purgeCandidates o now (candidates now limit.toNat db) db

end Expiry

-- Reads with strong consistency. Their errors do not pass through `tiKVError`.
section Reads

variable (now : Time) (db : DB) (key : Key o)

def lookup : Except Err Found :=
  found (unixNano now) (db.lookup (recordKey key.encode.bytes))

def get : Except Err Bytes := do
  match ← lookup now db key with
  | .live v => if v.kind ≠ 0 then .error .wrongType else .ok v.payload.toBytes
  | _ => .error .notFound

def hasMember (m : Bytes) : Except Err Bool := do
  match ← lookup now db key with
  | .live v =>
    if v.kind ≠ 1 then .error .wrongType
    else .ok (db.lookup (memberPrefix key.encode.bytes ++ m)).isSome
  | _ => .ok false

-- A range without bounds and without a limit lists all members.
def members (kind : Nat) (query : OrderedRange) : Except Err (List Bytes) := do
  match ← lookup now db key with
  | .live v =>
    if v.kind ≠ kind then .error .wrongType else
      let pre := memberPrefix key.encode.bytes
      let start := query.after.elim pre fun a => pre ++ a ++ [0]
      let stop := query.before.elim (Bytes.prefixEnd pre) fun b => some (pre ++ b)
      if ¬start < stop.getD [] then .ok [] else
        let keys := (Tx.start db).scan start stop
        let keys := if 0 < query.limit then keys.take query.limit.toNat else keys
        .ok (keys.map (·.drop pre.length))
  | _ => .ok []

def listMembers : Except Err (List Bytes) :=
  members now db key 1 ⟨none, none, 0⟩

def rangeOrderedMembers (query : OrderedRange) : Except Err (List Bytes) := do
  query.validate
  members now db key 2 query

end Reads

end GizClaw.KV.TiKV
