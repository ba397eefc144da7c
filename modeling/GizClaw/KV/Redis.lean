import GizClaw.KV.Logical

-- The Redis store: the commands that the mutation script calls, and the script itself. Redis keeps
-- deadlines in milliseconds, and a script that fails keeps everything it has written so far.

namespace GizClaw.KV.Redis

variable {o : Option Options}

-- The script gives every member of a sorted set the score zero.
inductive Obj where
  | string (value : Bytes) (pxat : Option Int)
  | set (members : Finset Bytes)
  | zset (members : Finset Bytes)
  deriving DecidableEq

def Obj.expired (now : Int) : Obj → Bool
  | string _ (some ms) => ms ≤ now
  | _ => false

abbrev Keyspace := EncKey → Option Obj

-- The errors that the commands below raise: `WRONGTYPE`, and `SET` with an expiry before the epoch.
inductive Fault where
  | wrongType
  | invalidExpire
  deriving DecidableEq

inductive Kind where
  | none
  | string
  | set
  | zset
  deriving DecidableEq

section Commands

variable (now : Int) (db : Keyspace) (key : EncKey)

-- No command sees an expired key.
def find : Option Obj :=
  (db key).filter (!·.expired now)

def type : Kind :=
  match find now db key with
  | none => .none
  | some (.string ..) => .string
  | some (.set _) => .set
  | some (.zset _) => .zset

def get : Except Fault (Option Bytes) :=
  match find now db key with
  | none => .ok none
  | some (.string v _) => .ok (some v)
  | some _ => .error .wrongType

-- The two collection types have the same commands under different names.
def members (ordered : Bool) : Except Fault (Finset Bytes) :=
  match find now db key with
  | none => .ok ∅
  | some (.set s) => if ordered then .error .wrongType else .ok s
  | some (.zset s) => if ordered then .ok s else .error .wrongType
  | some (.string ..) => .error .wrongType

-- A collection without members does not exist.
def collection (ordered : Bool) (s : Finset Bytes) : Option Obj :=
  if s = ∅ then none else some (if ordered then .zset s else .set s)

def card (ordered : Bool) : Except Fault Nat :=
  Finset.card <$> members now db key ordered

def contains (ordered : Bool) (m : Bytes) : Except Fault Bool :=
  (fun s => decide (m ∈ s)) <$> members now db key ordered

def scard : Except Fault Nat :=
  card now db key false

def zcard : Except Fault Nat :=
  card now db key true

def sismember (m : Bytes) : Except Fault Bool :=
  contains now db key false m

-- `ZSCORE key member ~= false`
def zscore (m : Bytes) : Except Fault Bool :=
  contains now db key true m

end Commands

section Writes

variable (now : Int) (key : EncKey)

def set (v : Bytes) (db : Keyspace) : Except Fault Keyspace :=
  .ok (Function.update db key (some (.string v none)))

def setPxat (v : Bytes) (ms : Int) (db : Keyspace) : Except Fault Keyspace :=
  if ms ≤ 0 then .error .invalidExpire else
    .ok (Function.update db key (some (.string v (some ms))))

def del (db : Keyspace) : Except Fault Keyspace :=
  .ok (Function.update db key none)

def change (ordered : Bool) (f : Finset Bytes → Finset Bytes) (db : Keyspace) :
    Except Fault Keyspace := do
  let s ← members now db key ordered
  return Function.update db key (collection ordered (f s))

def sadd (m : Bytes) : Keyspace → Except Fault Keyspace :=
  change now key false (insert m)

def srem (m : Bytes) : Keyspace → Except Fault Keyspace :=
  change now key false (·.erase m)

def zadd (m : Bytes) : Keyspace → Except Fault Keyspace :=
  change now key true (insert m)

def zrem (m : Bytes) : Keyspace → Except Fault Keyspace :=
  change now key true (·.erase m)

end Writes

-- A sequence of writing commands. Nothing is rolled back when one of them fails.
def exec : List (Keyspace → Except Fault Keyspace) → Keyspace → Except Fault Unit × Keyspace
  | [], db => (.ok (), db)
  | f :: fs, db =>
    match f db with
    | .error e => (.error e, db)
    | .ok db' => exec fs db'

inductive Op where
  | equal (expected : Bytes)
  | absent
  | put (value : Bytes) (deadline : Int)
  | delete
  | add (maximum : Int) (members : List Bytes)
  | remove (members : List Bytes)
  | zadd (maximum : Int) (members : List Bytes)
  | zremove (members : List Bytes)

-- One of the script's `KEYS` together with its slice of `ARGV`.
structure Command where
  key : EncKey
  op : Op

section CheckPass

variable (now : Int) (db : Keyspace)

-- What the first loop does with one command: it raises an error, ends the script with a result,
-- or goes on to the next command.
def checkCommand (c : Command) : Except Fault (Option Int) :=
  let kind := type now db c.key
  match c.op with
  | .equal x =>
    if kind ≠ .none ∧ kind ≠ .string then .error .wrongType else do
      let v ← get now db c.key
      return if v ≠ some x then some 0 else none
  | .absent => .ok (if kind ≠ .none then some 0 else none)
  | .put _ ms => .ok (if ms ≠ 0 ∧ ms ≤ now then some (-1) else none)
  | .zadd .. | .zremove _ => if kind ≠ .none ∧ kind ≠ .zset then .error .wrongType else .ok none
  | .add .. | .remove _ => if kind ≠ .none ∧ kind ≠ .set then .error .wrongType else .ok none
  | .delete => .ok none

def checkPass : List Command → Except Fault (Option Int)
  | [] => .ok none
  | c :: cs => do
    match ← checkCommand now db c with
    | some n => return some n
    | none => checkPass cs

end CheckPass

section ProjectPass

-- `maximum` is the first value of an addition.
def Op.maximum : Op → Option Int
  | .add maximum _ | .zadd maximum _ => some maximum
  | _ => none

def bounded (cs : List Command) (key : EncKey) : Bool :=
  cs.any fun c => c.key = key && c.op.maximum.any (0 < ·)

-- What the second loop knows about one key: its projected size, and the members it has asked for.
structure Projected where
  count : Nat
  members : Bytes → Option Bool

def Projected.known (present : Bytes → Except Fault Bool) (st : Projected) (m : Bytes) :
    Except Fault Bool :=
  match st.members m with
  | some b => .ok b
  | none => present m

def projectMember (present : Bytes → Except Fault Bool) (m : Bytes) (st : Projected) :
    Except Fault Projected := do
  let known ← st.known present m
  return ⟨if known then st.count else st.count + 1, Function.update st.members m (some true)⟩

def projectMembers (present : Bytes → Except Fault Bool) :
    List Bytes → Projected → Except Fault Projected
  | [], st => .ok st
  | m :: ms, st => do projectMembers present ms (← projectMember present m st)

def Projected.start (count : Except Fault Nat) : Option Projected → Except Fault Projected
  | some st => .ok st
  | none => (⟨·, fun _ => none⟩) <$> count

-- An addition to a bounded key, or nothing when it exceeds the limit.
def projectAdd (count : Except Fault Nat) (present : Bytes → Except Fault Bool) (maximum : Int)
    (ms : List Bytes) (st : Option Projected) : Except Fault (Option Projected) := do
  let st ← Projected.start count st
  let st' ← projectMembers present ms st
  return if 0 < maximum ∧ maximum < st'.count ∧ st.count < st'.count then none else some st'

variable (now : Int) (db : Keyspace) (bounded : EncKey → Bool)

def projectCommand (projected : EncKey → Option Projected) (c : Command) :
    Except Fault (Option (EncKey → Option Projected)) := do
  let store (st : Option Projected) := st.map fun st => Function.update projected c.key (some st)
  match c.op with
  | .add maximum ms =>
    if bounded c.key then
      return store (← projectAdd (scard now db c.key) (sismember now db c.key) maximum ms
        (projected c.key))
    else
      return some projected
  | .zadd maximum ms =>
    if bounded c.key then
      return store (← projectAdd (zcard now db c.key) (zscore now db c.key) maximum ms
        (projected c.key))
    else
      return some projected
  | _ => return some projected

-- Whether all additions stay within their limits.
def projectPass (projected : EncKey → Option Projected) : List Command → Except Fault Bool
  | [] => .ok true
  | c :: cs => do
    match ← projectCommand now db bounded projected c with
    | none => return false
    | some projected => projectPass projected cs

end ProjectPass

-- The commands of the third loop.
def Command.writes (now : Int) (c : Command) : List (Keyspace → Except Fault Keyspace) :=
  match c.op with
  | .put v ms => [if ms = 0 then set c.key v else setPxat c.key v ms]
  | .delete => [del c.key]
  | .zadd _ ms => ms.map (Redis.zadd now c.key)
  | .zremove ms => ms.map (zrem now c.key)
  | .add _ ms => ms.map (sadd now c.key)
  | .remove ms => ms.map (srem now c.key)
  | _ => []

def writePass (now : Int) (cs : List Command) (db : Keyspace) : Except Fault Unit × Keyspace :=
  exec (cs.flatMap (·.writes now)) db

-- `redisSetMutationScript`, at the millisecond `now`.
def script (now : Int) (cs : List Command) (db : Keyspace) : Except Fault Int × Keyspace :=
  match checkPass now db cs with
  | .error e => (.error e, db)
  | .ok (some n) => (.ok n, db)
  | .ok none =>
    match projectPass now db (bounded cs) (fun _ => none) cs with
    | .error e => (.error e, db)
    | .ok false => (.ok (-2), db)
    | .ok true =>
      let result := writePass now cs db
      ((fun _ => 1) <$> result.fst, result.snd)

-- `time.Time.UnixMilli`, an `int64`.
def unixMilli (d : Time) : Int :=
  int64 (d / 1000000)

def conditionCommand (c : Condition o) : Command :=
  ⟨c.key.encode, match c.expected with
    | none => .absent
    | some x => .equal x⟩

def entryCommand (entry : Entry o) : Command :=
  ⟨entry.key.encode, .put entry.value (match entry.deadline with
    | none => 0
    | some d => unixMilli d)⟩

def deleteCommand (k : Key o) : Command :=
  ⟨k.encode, .delete⟩

def groupCommand (g : Group o) : Command :=
  ⟨g.key.encode, match g.phase with
    | .addMembers => .add g.maxMembers g.members
    | .removeMembers => .remove g.members
    | .addOrderedMembers => .zadd g.maxMembers g.members
    | .removeOrderedMembers => .zremove g.members⟩

-- Groups without members are not sent.
def sentGroups (m : Mutation o) : List (Group o) :=
  m.groups.filter (·.members ≠ [])

def operations (m : Mutation o) : List Command :=
  m.conditions.map conditionCommand ++ m.entries.map entryCommand ++
  m.deleteKeys.map deleteCommand ++
  (sentGroups m).map groupCommand

-- What `ApplyMutation` makes of the script's result.
def reply : Except Fault Int → Except Err Bool
  | .error .wrongType => .error .wrongType
  | .error _ => .error (.text "kv: redis collection failed")
  | .ok (-2) => .error .memberLimit
  | .ok (-1) => .error .invalidDeadline
  | .ok 0 => .ok false
  | .ok 1 => .ok true
  | .ok _ => .error (.text "kv: invalid collection mutation result")

def applyMutation (now : Time) (m : Mutation o) (db : Keyspace) : Except Err Bool × Keyspace :=
  match m.validate now with
  | .error e => (.error e, db)
  | .ok _ =>
    if (operations m).isEmpty then (.ok true, db) else
      let result := script (now / 1000000) (operations m) db
      (reply result.fst, result.snd)

end GizClaw.KV.Redis
