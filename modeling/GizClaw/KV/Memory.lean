import GizClaw.KV.Logical

-- The in-memory store. Its write operations return the new contents, or nothing when a condition
-- failed, so that a failed call cannot have changed anything.

namespace GizClaw.KV

open Function (update)

variable {o : Option Options}

-- `members = none` is the nil map of a byte record.
structure MemoryEntry where
  members : Option (Finset Bytes)
  ordered : Bool
  value : Bytes
  expiresAt : Option Time
  deriving DecidableEq

namespace MemoryEntry

def expired (entry : MemoryEntry) (now : Time) : Bool :=
  match entry.expiresAt with
  | none => false
  | some d => d ≤ now

def record (value : Bytes) (expiresAt : Option Time) : MemoryEntry :=
  ⟨none, false, value, expiresAt⟩

def collection (ordered : Bool) (members : Finset Bytes) : MemoryEntry :=
  ⟨some members, ordered, [], none⟩

end MemoryEntry

abbrev Memory := EncKey → Option MemoryEntry

namespace Memory

def empty : Memory :=
  fun _ => none

def live (data : Memory) (now : Time) (e : EncKey) : Option MemoryEntry :=
  (data e).filter (!·.expired now)

-- Reading an expired entry removes it.
def get (data : Memory) (now : Time) (key : Key o) : Except Err Bytes × Memory :=
  match data key.encode with
  | none => (.error .notFound, data)
  | some entry =>
    if entry.expired now then
      (.error .notFound, update data key.encode none)
    else if entry.members.isSome then
      (.error .wrongType, data)
    else
      (.ok entry.value, data)

def hasMember (data : Memory) (now : Time) (key : Key o) (member : Bytes) : Except Err Bool :=
  match data.live now key.encode with
  | none => .ok false
  | some entry =>
    match entry.members with
    | none => .error .wrongType
    | some s => if entry.ordered then .error .wrongType else .ok (member ∈ s)

-- Go enumerates the map in any order, so what is returned is the set.
def listMembers (data : Memory) (now : Time) (key : Key o) : Except Err (Finset Bytes) :=
  match data.live now key.encode with
  | none => .ok ∅
  | some entry =>
    match entry.members with
    | none => .error .wrongType
    | some s => if entry.ordered then .error .wrongType else .ok s

def rangeOrderedMembers (data : Memory) (now : Time) (key : Key o) (query : OrderedRange) :
    Except Err (List Bytes) := do
  query.validate
  match data.live now key.encode with
  | none => .ok []
  | some entry =>
    match entry.members with
    | none => .error .wrongType
    | some s =>
      if !entry.ordered then .error .wrongType else
        let members := (s.filter query.Contains).sort (· ≤ ·)
        .ok (members.take (min members.length query.limit.toNat))

def set (data : Memory) (key : Key o) (value : Bytes) : Memory :=
  update data key.encode (some (.record value none))

def delete (data : Memory) (key : Key o) : Memory :=
  update data key.encode none

def putAll (data : Memory) (entries : List (Entry o)) : Memory :=
  entries.foldl
    (fun data e => update data e.key.encode (some (.record e.value e.deadline))) data

def batchMutate (data : Memory) (now : Time) (entries : List (Entry o)) (keys : List (Key o)) :
    Except Err (Option Memory) := do
  checkDeadlines now entries
  return some (keys.foldl delete (data.putAll entries))

def checkConditions (data : Memory) (now : Time) : List (Condition o) → Except Err Bool
  | [] => .ok true
  | c :: cs =>
    match c.expected, data.live now c.key.encode with
    | none, some _ => .ok false
    | none, none => data.checkConditions now cs
    | some x, entry =>
      if entry.any (·.members.isSome) then .error .wrongType
      else if entry.all (·.value ≠ x) then .ok false
      else data.checkConditions now cs

-- The touched keys of a mutation. They reach the store only when the whole mutation succeeds.
structure Staging where
  staged : EncKey → Option MemoryEntry
  deletes : EncKey → Bool

namespace Staging

def empty : Staging where
  staged := fun _ => none
  deletes := fun _ => false

def entries (now : Time) (st : Staging) : List (Entry o) → Except Err Staging
  | [] => .ok st
  | e :: es =>
    if e.deadline.any (· ≤ now) then .error .invalidDeadline else
      entries now { st with
        staged := update st.staged e.key.encode (some (.record e.value e.deadline)) } es

def deleteKeys (st : Staging) (keys : List (Key o)) : Staging :=
  keys.foldl (fun st k => { st with deletes := update st.deletes k.encode true }) st

-- The entry that a group works on: a staged one as it is, or a copy of the stored one.
def entryOf (data : Memory) (now : Time) (st : Staging) (g : Group o) : Except Err MemoryEntry :=
  match st.staged g.key.encode with
  | some entry => .ok entry
  | none =>
    match data.live now g.key.encode with
    | none => .ok (.collection g.phase.ordered ∅)
    | some entry =>
      if entry.members.isNone || entry.ordered != g.phase.ordered then .error .wrongType
      else .ok entry

def group (data : Memory) (now : Time) (st : Staging) (g : Group o) : Except Err Staging :=
  if g.members = [] then .ok st else do
    let entry ← entryOf data now st g
    let previous := entry.members.getD ∅
    let members := g.update previous
    if 0 < g.maxMembers ∧ g.maxMembers < members.card ∧ previous.card < members.card then
      .error .memberLimit
    else
      .ok {
        staged := update st.staged g.key.encode (some { entry with members := members })
        deletes := update st.deletes g.key.encode (members = ∅) }

def groups (data : Memory) (now : Time) (st : Staging) : List (Group o) → Except Err Staging
  | [] => .ok st
  | g :: gs => do (← group data now st g).groups data now gs

-- `maps.Copy` followed by the deletions.
def commit (data : Memory) (st : Staging) : Memory :=
  fun e => if st.deletes e then none else (st.staged e).or (data e)

end Staging

def applyMutation (data : Memory) (now : Time) (m : Mutation o) : Except Err (Option Memory) := do
  m.validate now
  if ← data.checkConditions now m.conditions then
    let st ← Staging.entries now .empty m.entries
    let st ← (st.deleteKeys m.deleteKeys).groups data now m.groups
    return some (st.commit data)
  else
    return none

def call (c : Call o) (data : Memory) : Except Err Bool × Memory :=
  settle data <| match c.write with
  | .set key value => .ok (some (data.set key value))
  | .delete key => .ok (some (data.delete key))
  | .batchMutate entries keys => data.batchMutate c.now entries keys
  | .applyMutation m => data.applyMutation c.now m

def findGuard (data : Memory) (now : Time) : List (Entry o) → Option (Key o × Bytes)
  | [] => none
  | guard :: guards =>
    match data.live now guard.key.encode with
    | none => data.findGuard now guards
    | some entry => some (guard.key, entry.value)

def createIfAllAbsent (data : Memory) (now : Time) (guards entries : List (Entry o)) :
    Except Err ((Key o × Bytes) ⊕ Memory) :=
  if guards = [] then .error noGuard else
    match data.findGuard now guards with
    | some conflict => .ok (.inl conflict)
    | none => do
      checkDeadlines now (entries ++ guards)
      return .inr (data.putAll (entries ++ guards))

def request (now : Time) (r : Request o) (data : Memory) : Except Err (Reply o) × Memory :=
  match r with
  | .write w => (data.call ⟨now, w⟩).map (.applied <$> ·) id
  | .createIfAllAbsent guards entries =>
    settleCreate data (data.createIfAllAbsent now guards entries)

end Memory
end GizClaw.KV
