import GizClaw.Lib.Interleaving
import GizClaw.PendingDeletion.Index

-- The task source over a key-value store. A call is a program of reads that end in one mutation,
-- and workers and operators may run any number of calls at the same time.

namespace GizClaw.PendingDeletion

open Interleaving
open KV.Typed (SetMembers Mutation)

abbrev Condition := KV.Typed.Condition Key Value
abbrev Entry := KV.Typed.Entry Key Value
abbrev Members := SetMembers Key Text

-- What a mutation was for. `deletionID` and `token` are those that the caller named.
inductive Event where
  | created (deletionID : Text)
  | claimed (deletionID token : Text)
  | renewed (deletionID token : Text)
  | checkpointed (deletionID token : Text)
  | deferred (deletionID token : Text)
  | failed (deletionID token : Text)
  | requeued (deletionID : Text)
  | finalized (deletionID token : Text)
  deriving DecidableEq

-- The log of committed mutations, latest first, is not there in the program.
structure State where
  store : Store
  log : List Event

def State.init : State where
  store := fun _ => none
  log := []

inductive Act where
  | get (key : Key)
  | apply (mutation : Mutation Key Value Text) (event : Event)
  | newToken

abbrev Reply : Act → Type
  | .get _ => Except KV.Err Value
  | .apply .. => Except KV.Err Bool
  | .newToken => Except Err Text

-- Every operation may fail with an error of the backend, which leaves open whether a mutation has
-- been committed.
inductive Does : (a : Act) → State → Reply a → State → Prop
  | get (s : State) (k : Key) : Does (.get k) s (s.store.get k) s
  | getFailed (s : State) (k : Key) (message : String) :
    Does (.get k) s (.error (.text message)) s
  | applied {s : State} {m : Mutation Key Value Text} {e : Event} {σ : Store}
    (h : s.store.applyMutation m = .ok (some σ)) :
    Does (.apply m e) s (.ok true) ⟨σ, e :: s.log⟩
  | unmatched {s : State} {m : Mutation Key Value Text} {e : Event}
    (h : s.store.applyMutation m = .ok none) : Does (.apply m e) s (.ok false) s
  | rejected {s : State} {m : Mutation Key Value Text} {e : Event} {err : KV.Err}
    (h : s.store.applyMutation m = .error err) : Does (.apply m e) s (.error err) s
  | applyFailed (s : State) (m : Mutation Key Value Text) (e : Event) (message : String) :
    Does (.apply m e) s (.error (.text message)) s
  | replyLost {s : State} {m : Mutation Key Value Text} {e : Event} {σ : Store} (message : String)
    (h : s.store.applyMutation m = .ok (some σ)) :
    Does (.apply m e) s (.error (.text message)) ⟨σ, e :: s.log⟩
  | newToken (s : State) (token : Text) : Does .newToken s (.ok token) s
  | noToken (s : State) (message : String) : Does .newToken s (.error (.text message)) s

-- What happens when nothing fails.
inductive Choice where
  | reply
  | token (t : Text)

def perform : Choice → (a : Act) → State → Option (Reply a × State)
  | .reply, .get k, s => some (s.store.get k, s)
  | .reply, .apply m e, s =>
    match s.store.applyMutation m with
    | .ok (some σ) => some (.ok true, ⟨σ, e :: s.log⟩)
    | .ok none => some (.ok false, s)
    | .error err => some (.error err, s)
  | .token t, .newToken, s => some (.ok t, s)
  | _, _, _ => none

theorem does_of_perform (ch : Choice) (a : Act) (s : State) (r : Reply a) (s' : State)
    (h : perform ch a s = some (r, s')) : Does a s r s' := by
  unfold perform at h
  split at h
  case h_1 => cases h; exact .get _ _
  case h_2 =>
    split at h
    case h_1 hm => cases h; exact .applied hm
    case h_2 hm => cases h; exact .unmatched hm
    case h_3 hm => cases h; exact .rejected hm
  case h_3 => cases h; exact .newToken _ _
  case h_4 => contradiction

abbrev Call := ExceptT Err (Program Act Reply)

-- Nothing under the key is not an error.
def load (k : Key) : Call (Option Value) :=
  .mk <| .act (.get k) fun
    | .ok v => .pure (.ok (some v))
    | .error .notFound => .pure (.ok none)
    | .error err => .pure (.error (.kv err))

def apply (m : Mutation Key Value Text) (event : Event) : Call Bool :=
  .mk <| .act (.apply m event) fun
    | .ok b => .pure (.ok b)
    | .error err => .pure (.error (.kv err))

def newKVLeaseToken : Call Text :=
  .mk <| .act .newToken .pure

structure KVSource where
  name : Text
  ownedKinds : List Kind

section Records

def getStoredRecord (deletionID : Text) : Call (Option Record) := do
  match ← load (byIDKey deletionID) with
  | none => return none
  | some (.record r) =>
    if r.deletionID ≠ deletionID then
      throw (.text "pending deletion: record key contains another deletion id")
    else
      return some r
  | some _ => throw (.text "pending deletion: decode")

variable (P : Platform)

def get (deletionID : Text) : Call (Option Record) := do
  match ← getStoredRecord deletionID with
  | none => return none
  | some r => do
    r.validate P
    return some r

def validateLocatorRecord (r : Record) (kind : Kind) (resourceID : Text) : Except Err Unit :=
  if r.kind = kind ∧ r.resourceID = resourceID then .ok ()
  else .error (.text "pending deletion: locator references another record")

-- The record that a stored locator leads to.
def followLocator (kind : Kind) (resourceID : Text) : Value → Call Record
  | .locator id =>
    if id = [] then throw (.text "pending deletion: empty KV locator record") else do
      match ← get P id with
      | none => throw (.kv .notFound)
      | some existing => do
        validateLocatorRecord existing kind resourceID
        return existing
  | _ => throw (.kv .notFound)

def getByLocator (kind : Kind) (resourceID : Text) : Call (Option Record) := do
  match ← load (byLocatorKey P kind resourceID) with
  | none => return none
  | some v => some <$> followLocator P kind resourceID v

-- The queued task of a new record.
def firstTask (r : Record) (fingerprint : Text) : Task where
  source := []
  record := r
  markerFingerprint := fingerprint
  status := .queued
  phase := ascii "validate"
  failureCount := 0
  nextAttemptAt := r.deletedAt
  leaseToken := []
  leaseDeadline := 0
  lastErrorCode := []
  lastErrorMessage := []
  updatedAt := r.deletedAt

def createMutation (r : Record) (task : Task) : Mutation Key Value Text where
  conditions := [⟨byLocatorKey P r.kind r.resourceID, none⟩, ⟨byIDKey r.deletionID, none⟩,
    ⟨kvTaskKey r.deletionID, none⟩]
  entries := [⟨byIDKey r.deletionID, .record r⟩,
    ⟨byLocatorKey P r.kind r.resourceID, .locator r.deletionID⟩,
    ⟨kvTaskKey r.deletionID, .state (encodeKVTaskState task)⟩]
  addOrderedMembers := (kvTaskIndexChanges P none (some task)).fst

def createOrGet (r : Record) : Call (Record × Bool) := do
  let fingerprint ← fingerprint P r
  if ← apply (createMutation P r (firstTask r fingerprint)) (.created r.deletionID) then
    return (r, true)
  else
    match ← load (byLocatorKey P r.kind r.resourceID) with
    | none => throw .conflict
    | some v => return (← followLocator P r.kind r.resourceID v, false)

end Records

section Tasks

variable (P : Platform) (s : KVSource)

def validateTaskSource : Except Err Unit :=
  if ¬isName s.name ∨ s.ownedKinds = [] then
    .error (.text "pending deletion: invalid KV task source")
  else .ok ()

def loadTask (deletionID : Text) : Call (Task × KVTaskState) := do
  match ← getStoredRecord deletionID with
  | none => throw .notFound
  | some record =>
    if record.kind ∉ s.ownedKinds then throw .notFound else
      match ← load (kvTaskKey deletionID) with
      | some (.state raw) => return (← decodeTask P s.name record raw, raw)
      | some _ => throw (.text "pending deletion: decode KV task")
      | none => do
        match ← getStoredRecord deletionID with
        | none => throw .notFound
        | some _ => throw (.invalid "persisted KV task state is missing")

def writeMutation (previous task : Task) (expected : KVTaskState) : Mutation Key Value Text where
  conditions := [⟨kvTaskKey task.record.deletionID, some (.state expected)⟩]
  entries := [⟨kvTaskKey task.record.deletionID, .state (encodeKVTaskState task)⟩]
  addOrderedMembers := (kvTaskIndexChanges P (some previous) (some task)).fst
  removeOrderedMembers := (kvTaskIndexChanges P (some previous) (some task)).snd

def writeTask (task : Task) (expected : KVTaskState) (event : Event) : Call Bool := do
  let previous ← decodeTask P s.name task.record expected
  validateStoredTask P task
  apply (writeMutation P previous task expected) event

def claim (ref : Reference) (now : Time) (leaseDuration : Int) : Call (Option Claim) := do
  if leaseDuration ≤ 0 then throw (.invalid "lease duration must be positive") else do
    validateTaskSource s
    if ref.source ≠ s.name then
      throw (.text "pending deletion: KV reference source mismatch")
    else do
      let (task, raw) ← loadTask P s ref.deletionID
      if task.markerFingerprint ≠ ref.markerFingerprint ∨ ¬taskDue task now then return none else do
        let token ← newKVLeaseToken
        match now.add leaseDuration with
        | none => throw (.text "time out of range")
        | some deadline => do
          let task := { task with
            status := .running, leaseToken := token, leaseDeadline := deadline, updatedAt := now }
          if ← writeTask P s task raw (.claimed ref.deletionID token) then return some ⟨task⟩
          else return none

-- The lease that the caller names is the current one.
def holdsLease (c : Claim) (task : Task) (now : Time) : Bool :=
  task.markerFingerprint = c.task.markerFingerprint ∧ task.status = .running ∧
  task.leaseToken = c.task.leaseToken ∧ now < task.leaseDeadline

def transition (c : Claim) (now : Time) (event : Text → Text → Event) (mutate : Task → Task) :
    Call Unit := do
  let (task, raw) ← loadTask P s c.task.record.deletionID
  if ¬holdsLease c task now then throw .conflict else do
    let task := { mutate task with updatedAt := now }
    if ← writeTask P s task raw (event c.task.record.deletionID c.task.leaseToken) then return ()
    else throw .conflict

def renew (c : Claim) (now : Time) (leaseDuration : Int) : Call Unit :=
  if leaseDuration ≤ 0 then throw (.invalid "lease duration must be positive") else
    match now.add leaseDuration with
    | none => throw (.text "time out of range")
    | some deadline => transition P s c now .renewed fun task =>
      { task with leaseDeadline := deadline }

def checkpoint (c : Claim) (phase : Text) (now : Time) : Call Claim := do
  validatePhase phase
  transition P s c now .checkpointed fun task => { task with phase := phase }
  return ⟨{ c.task with phase := phase, updatedAt := now }⟩

-- The lease is given up, and the task waits or has failed.
def Task.release (task : Task) (status : Status) (code message : Text)
    (nextAttempt : Time) : Task :=
  { task with
    status := status
    nextAttemptAt := nextAttempt
    leaseToken := []
    leaseDeadline := 0
    lastErrorCode := code
    lastErrorMessage := message }

def defer (c : Claim) (code message : Text) (nextAttempt now : Time) : Call Unit :=
  transition P s c now .deferred fun task => task.release .retryWait code message nextAttempt

def fail (c : Claim) (code message : Text) (terminal : Bool) (nextAttempt now : Time)
    (maxAttempts : Int) : Call Unit :=
  transition P s c now .failed fun task =>
    let task := { task with failureCount := task.failureCount + 1 }
    let status := if terminal ∨ maxAttempts ≤ task.failureCount then .failed else .retryWait
    task.release status code message nextAttempt

def requeueFailed (task : Task) (raw : KVTaskState) (now : Time) : Call Task := do
  let task := { task.release .queued [] [] now with failureCount := 0, updatedAt := now }
  if ← writeTask P s task raw (.requeued task.record.deletionID) then return task
  else throw .conflict

def retry (deletionID : Text) (now : Time) : Call Task := do
  let (task, raw) ← loadTask P s deletionID
  if task.status ≠ .failed then throw .conflict else requeueFailed P s task raw now

def sameFailedObservation (current observed : Task) : Bool :=
  current.status = .failed ∧ observed.status = .failed ∧ current.source = observed.source ∧
  current.record.deletionID = observed.record.deletionID ∧
  current.markerFingerprint = observed.markerFingerprint ∧ current.phase = observed.phase ∧
  current.failureCount = observed.failureCount ∧ current.updatedAt = observed.updatedAt ∧
  current.lastErrorCode = observed.lastErrorCode ∧
  current.lastErrorMessage = observed.lastErrorMessage ∧
  current.nextAttemptAt = observed.nextAttemptAt ∧ current.leaseToken = observed.leaseToken ∧
  current.leaseDeadline = observed.leaseDeadline

def retryFailed (observed : Task) (now : Time) : Call Task := do
  validateTask P observed
  if observed.source ≠ s.name then throw .conflict else do
    let (current, raw) ← loadTask P s observed.record.deletionID
    if ¬sameFailedObservation current observed then throw .conflict
    else requeueFailed P s current raw now

end Tasks

section Finalize

variable (P : Platform) (s : KVSource)

def validateFinalizeDomainKey (key : Key) : Except Err Unit :=
  if key = [] then .error (.text "pending deletion: empty KV finalization key")
  else if [] ∈ key then .error (.text "pending deletion: empty KV finalization key segment")
  else if key.take root.length = root then
    .error (.text "pending deletion: domain finalization key enters the pending-deletion namespace")
  else .ok ()

def appendKey (keys : List Key) (key : Key) : Except Err (List Key) :=
  if key ∈ keys then .error (.text "pending deletion: duplicate KV finalization key")
  else .ok (keys ++ [key])

def commonKeys (r : Record) : List Key :=
  [byIDKey r.deletionID, byLocatorKey P r.kind r.resourceID, kvTaskKey r.deletionID]

def kvFinalizeDeleteKeys (r : Record) (domainKeys : List Key) : Except Err (List Key) := do
  let keys ← domainKeys.foldlM (fun keys key => do
    validateFinalizeDomainKey key
    appendKey keys key) []
  (commonKeys P r).foldlM appendKey keys

def checkConditionKeys : List Condition → Except Err Unit
  | [] => .ok ()
  | condition :: conditions => do
    validateFinalizeDomainKey condition.key
    checkConditionKeys conditions

-- Entries must be new domain keys.
def checkEntries : List Key → List Entry → Except Err (List Key)
  | seen, [] => .ok seen
  | seen, entry :: entries => do
    validateFinalizeDomainKey entry.key
    checkEntries (← appendKey seen entry.key) entries

def checkMembers (seen : List Key) : List Members → Except Err Unit
  | [] => .ok ()
  | group :: groups => do
    validateFinalizeDomainKey group.key
    if group.key ∈ seen then .error (.text "pending deletion: overlapping collection key")
    else checkMembers seen groups

def finalizeMutation (task : Task) (raw : KVTaskState) (deletionID : Text)
    (conditions : List Condition) (entries : List Entry) (keys : List Key)
    (removeMembers : List Members) : Mutation Key Value Text where
  conditions := conditions ++ [⟨kvTaskKey deletionID, some (.state raw)⟩]
  entries := entries
  deleteKeys := keys
  removeMembers := removeMembers
  removeOrderedMembers := (kvTaskIndexChanges P (some task) none).snd

-- The marker is still the one that the claim is about.
def checkLocator (c : Claim) : Option Record → Except Err Unit
  | none => .error .conflict
  | some r =>
    if r.deletionID ≠ c.task.record.deletionID then .error .conflict
    else if storedFingerprint P r ≠ c.task.markerFingerprint then .error .conflict
    else .ok ()

-- Neither a missing task nor a locator without its record is an error of its own.
def orConflict {α : Type} (missing : Err) (x : Call α) : Call α :=
  tryCatch x fun err => if err = missing then throw .conflict else throw err

def finalizeGuarded (c : Claim) (now : Time) (conditions : List Condition) (entries : List Entry)
    (deleteKeys : List Key) (removeMembers : List Members) : Call Unit := do
  checkConditionKeys conditions
  validateTaskSource s
  validateTask P c.task
  if c.task.source ≠ s.name ∨ c.task.record.kind ∉ s.ownedKinds then throw .conflict else do
    let (task, raw) ← orConflict .notFound (loadTask P s c.task.record.deletionID)
    if ¬holdsLease c task now then throw .conflict else do
      let located ← orConflict (.kv .notFound)
        (getByLocator P c.task.record.kind c.task.record.resourceID)
      checkLocator P c located
      let keys ← kvFinalizeDeleteKeys P c.task.record deleteKeys
      let seen ← checkEntries keys entries
      checkMembers seen removeMembers
      let id := c.task.record.deletionID
      if ← apply (finalizeMutation P task raw id conditions entries keys removeMembers)
          (.finalized id c.task.leaseToken) then
        return ()
      else
        throw .conflict

end Finalize

-- The calls of workers, producers and operators.
inductive Op where
  | createOrGet (r : Record)
  | claim (s : KVSource) (ref : Reference) (now : Time) (leaseDuration : Int)
  | renew (s : KVSource) (c : Claim) (now : Time) (leaseDuration : Int)
  | checkpoint (s : KVSource) (c : Claim) (phase : Text) (now : Time)
  | defer (s : KVSource) (c : Claim) (code message : Text) (nextAttempt now : Time)
  | fail (s : KVSource) (c : Claim) (code message : Text) (terminal : Bool) (nextAttempt now : Time)
    (maxAttempts : Int)
  | retry (s : KVSource) (deletionID : Text) (now : Time)
  | retryFailed (s : KVSource) (observed : Task) (now : Time)
  | finalizeGuarded (s : KVSource) (c : Claim) (now : Time) (conditions : List Condition)
    (entries : List Entry) (deleteKeys : List Key) (removeMembers : List Members)

inductive Answer where
  | record (r : Record) (created : Bool)
  | claim (c : Option Claim)
  | task (t : Task)
  | done

def Op.call (P : Platform) : Op → Call Answer
  | createOrGet r => do
    let (r, created) ← PendingDeletion.createOrGet P r
    return .record r created
  | claim s ref now lease => .claim <$> PendingDeletion.claim P
    s ref now lease
  | renew s c now lease => do
    PendingDeletion.renew P s c now lease
    return .done
  | checkpoint s c phase now => do
    return .claim (some (← PendingDeletion.checkpoint P s c phase now))
  | defer s c code message next now => do
    PendingDeletion.defer P s c code message next now
    return .done
  | fail s c code message terminal next now max => do
    PendingDeletion.fail P s c code message terminal next now max
    return .done
  | retry s id now => .task <$> PendingDeletion.retry P s id now
  | retryFailed s observed now => .task <$> PendingDeletion.retryFailed P
    s observed now
  | finalizeGuarded s c now conds entries deletes removes => do
    PendingDeletion.finalizeGuarded P s c now conds entries deletes removes
    return .done

-- A system of any number of calls on one store.
abbrev Reachable (P : Platform) (ops : Set Op) :
    Config Act Reply (Except Err Answer) State → Prop :=
  Interleaving.Reachable Does (fun op : ops => (op.val.call P).run) .init

end GizClaw.PendingDeletion
