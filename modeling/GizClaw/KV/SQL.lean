import GizClaw.KV.Logical

-- The SQL store: one table with a row per key, and one with a row per member of a collection. The
-- tables are not linked, so every statement that replaces a key has to clear its members as well.

namespace GizClaw.KV.SQL

variable {o : Option Options}

inductive Dialect where
  | sqlite
  | postgreSQL
  deriving DecidableEq, Repr

structure Row where
  value : Bytes
  kind : Nat
  expires : Option Int
  deriving DecidableEq

structure DB where
  rows : EncKey → Option Row
  members : EncKey → Finset Bytes

def DB.empty : DB where
  rows := fun _ => none
  members := fun _ => ∅

section Statements

-- `WHERE encoded_key = ? AND (expires_at_unix_nano IS NULL OR expires_at_unix_nano > ?)`
def selectLive (nano : Int) (db : DB) (e : EncKey) : Option Row :=
  (db.rows e).filter fun row => row.expires.all (nano < ·)

def deleteRow (db : DB) (e : EncKey) : DB :=
  { db with rows := Function.update db.rows e none }

-- `expires_at_unix_nano <= ?`
def Row.expired (nano : Int) (row : Row) : Bool :=
  row.expires.any (· ≤ nano)

def deleteExpiredRow (nano : Int) (db : DB) (e : EncKey) : DB :=
  { db with rows := Function.update db.rows e ((db.rows e).filter (!·.expired nano)) }

def deleteExpiredRows (nano : Int) (db : DB) : DB :=
  { db with rows := fun e => (db.rows e).filter (!·.expired nano) }

-- `DELETE FROM members WHERE encoded_key IN (...)`
def deleteMembersOf (db : DB) (keys : List EncKey) : DB :=
  { db with members := fun e => if e ∈ keys then ∅ else db.members e }

-- `ON CONFLICT(encoded_key) DO UPDATE` a collection row.
def insertCollection (db : DB) (e : EncKey) (kind : Nat) : DB :=
  { db with rows := Function.update db.rows e (some ⟨[], kind, none⟩) }

-- The two statements on member rows also report how many rows they affected.
def insertMember (db : DB) (e : EncKey) (m : Bytes) : DB × Nat :=
  ({ db with members := Function.update db.members e (insert m (db.members e)) },
    if m ∈ db.members e then 0 else 1)

def deleteMember (db : DB) (e : EncKey) (m : Bytes) : DB × Nat :=
  ({ db with members := Function.update db.members e ((db.members e).erase m) },
    if m ∈ db.members e then 1 else 0)

-- `DELETE ... AND NOT EXISTS (SELECT 1 FROM members WHERE encoded_key = ?)`
def deleteRowWithoutMembers (db : DB) (e : EncKey) : DB :=
  if db.members e = ∅ then deleteRow db e else db

end Statements

-- An entry with its deadline as a column value.
structure SqlEntry where
  key : EncKey
  value : Bytes
  expires : Option Int

def prepareEntry (now : Time) (entry : Entry o) : Except Err SqlEntry :=
  match entry.deadline with
  | none => .ok ⟨entry.key.encode, entry.value, none⟩
  | some d =>
    if d ≤ now then .error .invalidDeadline
    -- `SQLUnixNano`: the deadline must survive the conversion.
    else if unixNano d ≠ d then .error .invalidDeadline
    else .ok ⟨entry.key.encode, entry.value, some (unixNano d)⟩

def prepare (now : Time) : List (Entry o) → Except Err (List SqlEntry)
  | [] => .ok []
  | entry :: entries => do
    let x ← prepareEntry now entry
    let xs ← prepare now entries
    return x :: xs

def upsert (db : DB) (entry : SqlEntry) : DB :=
  { db with rows := Function.update db.rows entry.key (some ⟨entry.value, 0, entry.expires⟩) }

-- `INSERT ... ON CONFLICT(encoded_key) DO NOTHING`, or nothing when no row was affected.
def claim (db : DB) (guard : SqlEntry) : Option DB :=
  match db.rows guard.key with
  | some _ => none
  | none => some (upsert db guard)

-- Sorting and compacting the keys only orders the locks that are taken on them.
def mutationKeys (entries : List (Entry o)) (keys : List (Key o)) : List EncKey :=
  entries.map (·.key.encode) ++ keys.map Key.encode

-- Each round deletes the members of up to 256 keys, so as many rounds as keys are enough.
def clearMembersRounds : Nat → DB → List EncKey → DB
  | 0, db, _ => db
  | n + 1, db, keys =>
    if keys = [] then db else
      clearMembersRounds n (deleteMembersOf db (keys.take 256)) (keys.drop 256)

def clearMembers (db : DB) (keys : List EncKey) : DB :=
  clearMembersRounds keys.length db keys

def cleanupExpired (dialect : Dialect) (nano : Int) (db : DB) (keys : List EncKey) : DB :=
  match dialect with
  | .postgreSQL => keys.foldl (deleteExpiredRow nano) db
  | .sqlite => deleteExpiredRows nano db

def batchMutate (dialect : Dialect) (now : Time) (db : DB) (entries : List (Entry o))
    (keys : List (Key o)) : Except Err (Option DB) := do
  let prepared ← prepare now entries
  let db := match dialect with
    | .postgreSQL => db
    | .sqlite => cleanupExpired dialect (unixNano now) db (mutationKeys entries keys)
  let db := clearMembers db (mutationKeys entries keys)
  return some (keys.foldl (fun db key => deleteRow db key.encode) (prepared.foldl upsert db))

section ApplyMutation

variable (nano : Int)

def checkConditions (db : DB) : List (Condition o) → Except Err Bool
  | [] => .ok true
  | c :: cs =>
    match selectLive nano db c.key.encode, c.expected with
    | none, some _ => .ok false
    | none, none => checkConditions db cs
    | some _, none => .ok false
    | some row, some x =>
      if row.kind ≠ 0 then .error .wrongType
      else if row.value ≠ x then .ok false
      else checkConditions db cs

-- The loop over the members of a group, with the number of affected rows.
def changeMembers (adds : Bool) (e : EncKey) : List Bytes → DB → Nat → DB × Nat
  | [], db, added => (db, added)
  | m :: ms, db, added =>
    let result := if adds then insertMember db e m else deleteMember db e m
    changeMembers adds e ms result.fst (added + result.snd)

-- `1 + phase/2`
def expectedKind (phase : Phase) : Nat :=
  if phase.ordered then 2 else 1

def changeGroup (db : DB) (g : Group o) : Except Err DB :=
  let e := g.key.encode
  let result := changeMembers g.phase.adds e g.members db 0
  let db := result.fst
  let added := result.snd
  if 0 < g.maxMembers ∧ 0 < added ∧ g.maxMembers < (db.members e).card then .error .memberLimit
  else .ok (if g.phase.adds then db else deleteRowWithoutMembers db e)

def applyGroup (db : DB) (g : Group o) : Except Err DB :=
  let e := g.key.encode
  if g.members = [] then .ok db else
    match selectLive nano db e with
    | some row => if row.kind ≠ expectedKind g.phase then .error .wrongType else changeGroup db g
    | none =>
      -- The key is free, but an expired row may still be there.
      let db := clearMembers db [e]
      if !g.phase.adds then .ok db else
        changeGroup (insertCollection db e (expectedKind g.phase)) g

def applyGroups (db : DB) : List (Group o) → Except Err DB
  | [] => .ok db
  | g :: gs => do applyGroups (← applyGroup nano db g) gs

end ApplyMutation

def applyMutation (now : Time) (db : DB) (m : Mutation o) : Except Err (Option DB) := do
  m.validate now
  if ← checkConditions (unixNano now) db m.conditions then
    let prepared ← prepare now m.entries
    let db := clearMembers db (mutationKeys m.entries m.deleteKeys)
    let db := prepared.foldl upsert db
    let db := m.deleteKeys.foldl (fun db key => deleteRow db key.encode) db
    return some (← applyGroups (unixNano now) db m.groups)
  else
    return none

section Reads

variable (now : Time) (db : DB) (key : Key o)

-- An expired row is removed on the way. `cleanupExpiredRead` compares again under the row's lock.
def get : Except Err Bytes × DB :=
  match db.rows key.encode with
  | none => (.error .notFound, db)
  | some row =>
    if row.expired (unixNano now) then
      (.error .notFound, deleteExpiredRow (unixNano now) db key.encode)
    else if row.kind ≠ 0 then
      (.error .wrongType, db)
    else
      (.ok row.value, db)

def hasMember (m : Bytes) : Except Err Bool :=
  match selectLive (unixNano now) db key.encode with
  | none => .ok false
  | some row => if row.kind ≠ 1 then .error .wrongType else .ok (m ∈ db.members key.encode)

-- A `LEFT JOIN` has a row without a member when no member qualifies.
def leftJoin (members : List Bytes) : List (Option Bytes) :=
  if members = [] then [none] else members.map some

-- The loop over the joined rows, all of which carry the kind of the key's row.
def scanRows (kind expected : Nat) : List (Option Bytes) → Except Err (List Bytes)
  | [] => .ok []
  | row :: rows =>
    if kind ≠ expected then .error .wrongType else do
      let members ← scanRows kind expected rows
      return row.toList ++ members

-- Without an `ORDER BY` the rows come in any order, so what is returned is the set.
def listMembers : Except Err (Finset Bytes) :=
  match selectLive (unixNano now) db key.encode with
  | none => .ok ∅
  | some row =>
    List.toFinset <$> scanRows row.kind 1 (leftJoin ((db.members key.encode).sort (· ≤ ·)))

def rangeOrderedMembers (query : OrderedRange) : Except Err (List Bytes) := do
  query.validate
  match selectLive (unixNano now) db key.encode with
  | none => .ok []
  | some row =>
    let members := ((db.members key.encode).filter query.Contains).sort (· ≤ ·)
    scanRows row.kind 2 ((leftJoin members).take query.limit.toNat)

end Reads

section CreateIfAllAbsent

-- `txGet` does not look at the deadline: expired rows are gone by then.
def findGuard (db : DB) : List (Entry o) → Option (Key o × Bytes)
  | [] => none
  | guard :: guards =>
    match db.rows guard.key.encode with
    | none => findGuard db guards
    | some row => some (guard.key, row.value)

-- Each guard is claimed once, or the first one that was taken in between is returned.
def claimGuards (claimed : List EncKey) (db : DB) : List SqlEntry → SqlEntry ⊕ DB
  | [] => .inr db
  | guard :: guards =>
    if guard.key ∈ claimed then claimGuards claimed db guards else
      match claim db guard with
      | none => .inl guard
      | some db => claimGuards (guard.key :: claimed) db guards

def createIfAllAbsent (dialect : Dialect) (now : Time) (db : DB) (guards entries : List (Entry o)) :
    Except Err ((Key o × Bytes) ⊕ DB) :=
  if guards = [] then .error noGuard else do
    let keys := mutationKeys (guards ++ entries) []
    let cleaned := cleanupExpired dialect (unixNano now) db keys
    match findGuard cleaned guards with
    | some conflict => return .inl conflict
    | none =>
      let preparedEntries ← prepare now entries
      let preparedGuards ← prepare now guards
      match claimGuards [] cleaned preparedGuards with
      | .inl guard =>
        -- The transaction is rolled back and the guard read again.
        match guards.find? (·.key.encode = guard.key) with
        | some g => do return .inl (g.key, ← (get now db g.key).fst)
        | none => .error .notFound
      | .inr claimed =>
        let db := clearMembers claimed keys
        return .inr (preparedGuards.foldl upsert (preparedEntries.foldl upsert db))

end CreateIfAllAbsent

def call (dialect : Dialect) (c : Call o) (db : DB) : Except Err Bool × DB :=
  settle db <| match c.write with
  | .set key value => batchMutate dialect c.now db [⟨key, value, none⟩] []
  | .delete key => batchMutate dialect c.now db ([] : List (Entry o)) [key]
  | .batchMutate entries keys => batchMutate dialect c.now db entries keys
  | .applyMutation m => applyMutation c.now db m

def request (dialect : Dialect) (now : Time) (r : Request o) (db : DB) :
    Except Err (Reply o) × DB :=
  match r with
  | .write w => (call dialect ⟨now, w⟩ db).map (.applied <$> ·) id
  | .createIfAllAbsent guards entries =>
    settleCreate db (createIfAllAbsent dialect now db guards entries)

-- The clean-up that a read of an expired key leaves behind.
def cleanupExpiredRead (now : Time) (db : DB) (key : Key o) : DB :=
  (get now db key).snd

end GizClaw.KV.SQL
