import GizClaw.Lib.Rows
import GizClaw.KV.Logical

-- The Badger store: every logical key is one row under a record key, and every member of a
-- collection is one more row under the collection's member prefix.

namespace GizClaw.KV.Badger

variable {o : Option Options}

-- Badger's `Entry.WithTTL` keeps the Unix time of the expiry in whole units. The library's own unit
-- is a second; a unit of one nanosecond would keep every deadline as it is.
structure Ttl where
  unit : Int
  pos : 0 < unit

namespace Ttl

def seconds : Ttl where
  unit := 1000000000
  pos := by decide

def expiresAt (u : Ttl) (now : Time) (ttl : Int) : Int :=
  (now + ttl) / u.unit

def passed (u : Ttl) (expiresAt : Int) (now : Time) : Bool :=
  expiresAt ≤ now / u.unit

end Ttl

-- `time.Until`, whose result saturates at the bounds of a `time.Duration`.
def timeUntil (now d : Time) : Int :=
  max (-2 ^ 63) (min (2 ^ 63 - 1) (d - now))

structure Row where
  userMeta : Byte
  value : Payload
  expiresAt : Option Int
  deriving DecidableEq

abbrev DB := Rows Bytes Row

def collectionMeta : Byte :=
  1

def orderedCollectionMeta : Byte :=
  2

def recordKey (e : EncKey) : Bytes :=
  1 :: e.bytes

def memberPrefix (encoded : Bytes) : Bytes :=
  0 :: Bytes.frame encoded

section Transaction

variable (u : Ttl) (now : Time) (db : DB)

-- `Txn.Get`, for which an expired row is not there.
def item (k : Bytes) : Option Row :=
  (db.lookup k).filter fun row => !row.expiresAt.any (u.passed · now)

-- An iterator over the visible rows of a prefix, from a start key on.
def iterate (pre start : Bytes) : List Bytes :=
  db.scan fun k => pre <+: k ∧ ¬k < start ∧ (item u now db k).isSome

def deleteCollection (o : Option Options) (key : Bytes) : DB :=
  match item u now db key with
  | none => db
  | some row =>
    if row.userMeta ≠ collectionMeta ∧ row.userMeta ≠ orderedCollectionMeta then db else
      let pre := memberPrefix (Options.encode o (Options.decode o key.tail))
      db.eraseAll (iterate u now db pre pre)

def deleteRecord (o : Option Options) (key : Bytes) : DB :=
  (deleteCollection u now db o key).erase key

def putRecord (o : Option Options) (key : Bytes) (row : Row) : DB :=
  (deleteCollection u now db o key).insert key row

end Transaction

def entryRow (u : Ttl) (now : Time) (entry : Entry o) : Except Err Row :=
  match entry.deadline with
  | none => .ok ⟨0, .bytes entry.value, none⟩
  | some d =>
    let ttl := timeUntil now d
    if ttl ≤ 0 then .error .invalidDeadline else
      .ok ⟨0, .bytes entry.value, some (u.expiresAt now ttl)⟩

def putEntries (u : Ttl) (now : Time) (db : DB) : List (Entry o) → Except Err DB
  | [] => .ok db
  | entry :: entries => do
    let row ← entryRow u now entry
    putEntries u now (putRecord u now db o (recordKey entry.key.encode) row) entries

def deleteKeys (u : Ttl) (now : Time) (db : DB) (keys : List (Key o)) : DB :=
  keys.foldl (fun db key => deleteRecord u now db o (recordKey key.encode)) db

def set (u : Ttl) (now : Time) (db : DB) (key : Key o) (value : Bytes) : DB :=
  putRecord u now db o (recordKey key.encode) ⟨0, .bytes value, none⟩

def delete (u : Ttl) (now : Time) (db : DB) (key : Key o) : DB :=
  deleteRecord u now db o (recordKey key.encode)

def batchMutate (u : Ttl) (now : Time) (db : DB) (entries : List (Entry o)) (keys : List (Key o)) :
    Except Err (Option DB) := do
  let db ← putEntries u now db entries
  return some (deleteKeys u now db keys)

def checkConditions (u : Ttl) (now : Time) (db : DB) : List (Condition o) → Except Err Bool
  | [] => .ok true
  | c :: cs =>
    match item u now db (recordKey c.key.encode), c.expected with
    | none, some _ => .ok false
    | none, none => checkConditions u now db cs
    | some _, none => .ok false
    | some row, some x =>
      if row.userMeta ≠ 0 then .error .wrongType
      else if row.value.toBytes ≠ x then .ok false
      else checkConditions u now db cs

def memberRow : Row :=
  ⟨0, .bytes [], none⟩

-- The loop over the members of a group, with the running counter.
def updateMembers (u : Ttl) (now : Time) (pre : Bytes) (adds : Bool) :
    List Bytes → DB → Nat → DB × Nat
  | [], db, count => (db, count)
  | m :: ms, db, count =>
    if adds && (item u now db (pre ++ m)).isNone then
      updateMembers u now pre adds ms (db.insert (pre ++ m) memberRow) (count + 1)
    else if !adds && (item u now db (pre ++ m)).isSome then
      updateMembers u now pre adds ms (db.erase (pre ++ m)) (count - 1)
    else
      updateMembers u now pre adds ms db count

-- `byte(1 + phase/2)`
def expectedMeta (phase : Phase) : Byte :=
  if phase.ordered then orderedCollectionMeta else collectionMeta

def readCounter (u : Ttl) (now : Time) (db : DB) (g : Group o) : Except Err Nat :=
  match item u now db (recordKey g.key.encode) with
  | none => .ok 0
  | some row =>
    if row.userMeta ≠ expectedMeta g.phase then .error .wrongType else
      row.value.toCounter "kv: invalid collection counter"

def applyGroup (u : Ttl) (now : Time) (db : DB) (g : Group o) : Except Err DB :=
  if g.members = [] then .ok db else do
    let key := recordKey g.key.encode
    let previousCount ← readCounter u now db g
    let pre := memberPrefix g.key.encode.bytes
    let (db, count) := updateMembers u now pre g.phase.adds g.members db previousCount
    if 0 < g.maxMembers ∧ g.maxMembers < count ∧ previousCount < count then
      .error .memberLimit
    else if count = 0 then
      .ok (db.erase key)
    else
      .ok (db.insert key ⟨expectedMeta g.phase, .counter count, none⟩)

def applyGroups (u : Ttl) (now : Time) (db : DB) : List (Group o) → Except Err DB
  | [] => .ok db
  | g :: gs => do applyGroups u now (← applyGroup u now db g) gs

-- The body of the `db.Update` transaction. Badger discards its writes unless it returns some.
def applyMutation (u : Ttl) (now : Time) (db : DB) (m : Mutation o) : Except Err (Option DB) := do
  m.validate now
  if ← checkConditions u now db m.conditions then
    let db ← putEntries u now db m.entries
    let db ← applyGroups u now (deleteKeys u now db m.deleteKeys) m.groups
    return some db
  else
    return none

section Reads

variable (u : Ttl) (now : Time) (db : DB) (key : Key o)

def get : Except Err Bytes :=
  match item u now db (recordKey key.encode) with
  | none => .error .notFound
  | some row => if row.userMeta ≠ 0 then .error .wrongType else .ok row.value.toBytes

def hasMember (member : Bytes) : Except Err Bool :=
  match item u now db (recordKey key.encode) with
  | none => .ok false
  | some row =>
    if row.userMeta ≠ collectionMeta then .error .wrongType else
      .ok (item u now db (memberPrefix key.encode.bytes ++ member)).isSome

def listMembers : Except Err (List Bytes) :=
  match item u now db (recordKey key.encode) with
  | none => .ok []
  | some row =>
    if row.userMeta ≠ collectionMeta then .error .wrongType else
      let pre := memberPrefix key.encode.bytes
      .ok ((iterate u now db pre pre).map (·.drop pre.length))

-- The loop over the members from `After` on, with the number of members collected so far.
def collectRange (query : OrderedRange) : List Bytes → Nat → List Bytes
  | [], _ => []
  | m :: ms, n =>
    if query.after.any (m ≤ ·) then collectRange query ms n
    else if query.before.any (· ≤ m) then []
    else m :: (if ↑(n + 1) = query.limit then [] else collectRange query ms (n + 1))

def rangeOrderedMembers (query : OrderedRange) : Except Err (List Bytes) := do
  query.validate
  match item u now db (recordKey key.encode) with
  | none => .ok []
  | some row =>
    if row.userMeta ≠ orderedCollectionMeta then .error .wrongType else
      let pre := memberPrefix key.encode.bytes
      let keys := iterate u now db pre (pre ++ query.after.getD [])
      .ok (collectRange query (keys.map (·.drop pre.length)) 0)

end Reads

-- One call of the store, as one atomic transaction.
def call (u : Ttl) (c : Call o) (db : DB) : Except Err Bool × DB :=
  settle db <| match c.write with
  | .set key value => .ok (some (set u c.now db key value))
  | .delete key => .ok (some (delete u c.now db key))
  | .batchMutate entries keys => batchMutate u c.now db entries keys
  | .applyMutation m => applyMutation u c.now db m

end GizClaw.KV.Badger
