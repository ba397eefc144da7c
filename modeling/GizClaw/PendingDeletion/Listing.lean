import GizClaw.Lib.Paging
import GizClaw.PendingDeletion.Source

-- Due tasks and active tasks, page by page. The stores do not change in the meantime.

namespace GizClaw.PendingDeletion

open Interleaving (evalOk)
open KV (OrderedRange)

section Index

variable (P : Platform)

def isLowerHex (b : Byte) : Bool :=
  (48 ≤ b ∧ b ≤ 57) ∨ (97 ≤ b ∧ b ≤ 102)

def parseKVIndexMember (member : Text) : Except Err (Time × Text × Text) :=
  match member.splitOn slash with
  | [text, id, fingerprint] =>
    if id = [] then .error (.invalid "invalid task index member") else
      match P.parse text with
      | none => .error (.invalid "invalid task index time")
      | some at' =>
        if P.format at' ≠ text then .error (.invalid "invalid task index time")
        else if ¬(fingerprint.length = 64 ∧ fingerprint.all isLowerHex) then
          .error (.invalid "invalid task index fingerprint")
        else .ok (at', id, fingerprint)
  | _ => .error (.invalid "invalid task index member")

def readKVTaskIndexes (σ : Store) (keys : List Key) (query : OrderedRange) :
    Except Err (List Text) := do
  let parts ← keys.mapM fun key => (σ.rangeOrderedMembers key query).mapError Err.kv
  .ok (Paging.compact (parts.flatten.insertionSort (· ≤ ·)))

end Index

section Source

variable (P : Platform) (s : KVSource) (σ : Store)

def shards : List Shard :=
  List.finRange kvTaskIndexShards

def dueQuery (now : Time) (limit : Int) (cursor : Option Text) : OrderedRange where
  after := cursor
  before := some (P.format now ++ [255])
  limit := limit + 1

def dueKeys : List Key :=
  s.ownedKinds.flatMap fun kind => shards.map (kvDueIndexKey kind)

def reference (member : Text) : Except Err Reference := do
  let (_, id, fingerprint) ← parseKVIndexMember P member
  .ok ⟨s.name, id, fingerprint⟩

-- The empty cursor is `none`.
def checkDueCursor : Option Text → Except Err Unit
  | none => .ok ()
  | some cursor => do
    let _ ← parseKVIndexMember P cursor
    .ok ()

def scanIndexedDue (now : Time) (limit : Int) (cursor : Option Text) :
    Except Err (List Reference × Option Text) := do
  validateTaskSource s
  if limit ≤ 0 then .error (.invalid "scan limit must be positive") else do
    checkDueCursor P cursor
    let members ← readKVTaskIndexes σ (dueKeys s) (dueQuery P now limit cursor)
    let page := members.take limit.toNat
    let refs ← page.mapM (reference P s)
    .ok (refs, if limit < members.length then page.getLast? else none)

structure SourceListOptions where
  kinds : List Kind
  statuses : List Status
  startTime : Option Time
  endTime : Option Time
  afterCreatedAt : Option Time
  afterSource : Text
  afterDeletionID : Text
  limit : Int

-- Members of the cursor's time are after the bound, before it, or told apart by their IDs.
def cursorBound (options : SourceListOptions) (createdAt : Time) : Text :=
  P.format createdAt ++
    if s.name < options.afterSource then [255]
    else if s.name = options.afterSource then slash :: options.afterDeletionID ++ [slash, 255]
    else []

def listAfter (options : SourceListOptions) : Option Text :=
  match options.startTime.map P.format, options.afterCreatedAt.map (cursorBound P s options) with
  | start, none => start
  | none, some after => some after
  | some start, some after => if start < after then some after else some start

def listQuery (options : SourceListOptions) : OrderedRange where
  after := listAfter P s options
  before := options.endTime.map P.format
  limit := options.limit + 1

def allStatuses : List Status :=
  [.queued, .running, .retryWait, .failed]

def createdKeys (options : SourceListOptions) : List Key :=
  (s.ownedKinds.filter fun kind => options.kinds = [] ∨ kind ∈ options.kinds).flatMap fun kind =>
    (allStatuses.filter fun status => options.statuses = [] ∨ status ∈ options.statuses).flatMap
      fun status => shards.map (kvCreatedIndexKey kind status)

def taskMatches (task : Task) (options : SourceListOptions) : Bool :=
  (options.kinds = [] ∨ task.record.kind ∈ options.kinds) ∧
  (options.statuses = [] ∨ task.status ∈ options.statuses) ∧
  (∀ t ∈ options.startTime, ¬task.record.deletedAt < t) ∧
  (∀ t ∈ options.endTime, task.record.deletedAt < t) ∧
  ∀ t ∈ options.afterCreatedAt, t < task.record.deletedAt ∨ (task.record.deletedAt = t ∧
    if task.source ≠ options.afterSource then options.afterSource < task.source
    else options.afterDeletionID < task.record.deletionID)

-- The replies of a store that nobody writes to.
def reading : (a : Act) → Reply a
  | .get k => σ.get k
  | .apply .. => .error (.text "read only")
  | .newToken => .error (.text "read only")

-- The tasks of the members until there are enough of them.
def collectTasks (options : SourceListOptions) : Nat → List Text → Except Err (List Task)
  | 0, _ => .ok []
  | _, [] => .ok []
  | room + 1, m :: ms => do
    let (_, id, fingerprint) ← parseKVIndexMember P m
    match evalOk (reading σ) (loadTask P s id) with
    | .error .notFound => collectTasks options (room + 1) ms
    | .error err => .error err
    | .ok (task, _) =>
      if task.markerFingerprint ≠ fingerprint ∨ ¬taskMatches task options then
        collectTasks options (room + 1) ms
      else do
        let tasks ← collectTasks options room ms
        .ok (task :: tasks)

def listIndexedTasks (options : SourceListOptions) : Except Err (List Task) := do
  validateTaskSource s
  if options.limit ≤ 0 then .error (.invalid "list limit must be positive") else do
    let members ← readKVTaskIndexes σ (createdKeys s options) (listQuery P s options)
    collectTasks P s σ options options.limit.toNat members

end Source

section Admin

variable (P : Platform)

structure ListCursor where
  source : Text
  kind : Option Kind
  status : Option Status
  start : Option Time
  stop : Option Time
  createdAt : Time
  lastSource : Text
  deletionID : Text

structure ListRequest where
  source : Text
  kind : Option Kind
  status : Option Status
  startTime : Option Time
  endTime : Option Time
  limit : Int
  cursor : Option ListCursor

-- What `Register` has accepted.
structure Registry where
  entries : List (KVSource × Store)
  valid : ∀ e ∈ entries, isName e.fst.name ∧ e.fst.ownedKinds ≠ [] ∧ e.fst.ownedKinds.Nodup
  nodup : (entries.map (·.fst.name)).Nodup

def Registry.sources (r : Registry) : List (KVSource × Store) :=
  r.entries.insertionSort fun a b => a.fst.name ≤ b.fst.name

def Registry.source (r : Registry) (name : Text) : Option (KVSource × Store) :=
  r.entries.find? (·.fst.name = name)

def requireSource (r : Registry) (name : Text) : Except Err (KVSource × Store) :=
  if P.trimSpace name = [] ∨ name ≠ P.trimSpace name then .error (.invalid "source is required")
  else
    match r.source name with
    | none => .error (.invalid "unknown source")
    | some e => .ok e

def selectedSources (r : Registry) (name : Text) : Except Err (List (KVSource × Store)) :=
  if name = [] then .ok r.sources else do
    let e ← requireSource P r name
    .ok [e]

def taskLess (a b : Task) : Bool :=
  if a.record.deletedAt ≠ b.record.deletedAt then a.record.deletedAt < b.record.deletedAt
  else if a.source ≠ b.source then a.source < b.source
  else a.record.deletionID < b.record.deletionID

def validDeletionID (value : Text) : Bool :=
  value ≠ [] ∧ value = P.trimSpace value ∧ parseUUID value

def decodeListCursor (request : ListRequest) : Except Err (Option ListCursor) :=
  match request.cursor with
  | none => .ok none
  | some cursor =>
    if cursor.source ≠ request.source ∨ cursor.kind ≠ request.kind ∨
      cursor.status ≠ request.status ∨
        cursor.start ≠ request.startTime ∨ cursor.stop ≠ request.endTime then
      .error (.invalid "cursor filters do not match")
    else if ¬isName cursor.lastSource ∨ ¬validDeletionID P cursor.deletionID then
      .error (.invalid "incomplete cursor")
    else .ok (some cursor)

def encodeListCursor (request : ListRequest) (task : Task) : ListCursor where
  source := request.source
  kind := request.kind
  status := request.status
  start := request.startTime
  stop := request.endTime
  createdAt := task.record.deletedAt
  lastSource := task.source
  deletionID := task.record.deletionID

def listOptions (request : ListRequest) (limit : Int) (cursor : Option ListCursor) :
    SourceListOptions where
  kinds := request.kind.toList
  statuses := request.status.toList
  startTime := request.startTime
  endTime := request.endTime
  afterCreatedAt := cursor.map (·.createdAt)
  afterSource := (cursor.map (·.lastSource)).getD []
  afterDeletionID := (cursor.map (·.deletionID)).getD []
  limit := limit + 1

def listTasks (options : SourceListOptions) (e : KVSource × Store) : Except Err (List Task) := do
  let tasks ← listIndexedTasks P e.fst e.snd options
  tasks.forM (validateTask P)
  .ok tasks

def defaultListLimit : Int :=
  100

def maxListLimit : Int :=
  500

-- Active tasks in (created_at, source, deletion_id) order.
def list (r : Registry) (request : ListRequest) : Except Err (List Task × Option ListCursor) := do
  let limit := if request.limit = 0 then defaultListLimit else request.limit
  if limit < 1 ∨ maxListLimit < limit then .error (.invalid "invalid limit")
  else if ∃ t ∈ request.startTime, ∃ t' ∈ request.endTime, ¬t < t' then
    .error (.invalid "end time must be after start time")
  else do
    let cursor ← decodeListCursor P request
    let sources ← selectedSources P r request.source
    let parts ← sources.mapM (listTasks P (listOptions request limit cursor))
    let all := parts.flatten.insertionSort fun a b => ¬taskLess b a
    let page := all.take limit.toNat
    .ok (page, if limit < all.length then page.getLast?.map (encodeListCursor request) else none)

end Admin

end GizClaw.PendingDeletion
