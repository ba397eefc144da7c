import GizClaw.KV.Typed

-- Durable deletion tasks: the marker of a deletion, the mutable state of its task, and the checks
-- that both of them pass before they are used.

namespace GizClaw.PendingDeletion

-- A Go string.
abbrev Text := Bytes

def ascii (s : String) : Text :=
  s.toList.map fun c => Fin.ofNat 256 c.toNat

-- The instants from year 1 to year 9999, in nanoseconds. All layouts can write these, and the first
-- one is the zero `time.Time`.
def timeLimit : Nat :=
  315537897600 * 10 ^ 9

abbrev Time := Fin timeLimit

instance : NeZero timeLimit :=
  ⟨by decide⟩

def Time.add (t : Time) (d : Int) : Option Time :=
  if h : 0 ≤ t.val + d ∧ t.val + d < timeLimit then some ⟨(t.val + d).toNat, by omega⟩ else none

inductive Err where
  | notFound
  | conflict
  | invalid (message : String)
  | kv (e : KV.Err)
  | text (message : String)
  deriving DecidableEq

inductive Kind where
  | peer
  | workspace
  | friendGroup
  deriving DecidableEq

def Kind.text : Kind → Text
  | peer => ascii "peer"
  | workspace => ascii "workspace"
  | friendGroup => ascii "friend_group"

inductive Reason where
  | adminDelete
  | peerDelete
  | resourceDelete
  | friendRelationshipDelete
  | friendGroupDelete
  deriving DecidableEq

inductive Status where
  | queued
  | running
  | retryWait
  | failed
  deriving DecidableEq

def Status.text : Status → Text
  | queued => ascii "queued"
  | running => ascii "running"
  | retryWait => ascii "retry_wait"
  | failed => ascii "failed"

-- The immutable marker. The descriptor is compact JSON.
structure Record where
  deletionID : Text
  kind : Kind
  resourceID : Text
  reason : Reason
  deletedAt : Time
  ownerPublicKey : Option Text
  descriptorVersion : Int
  descriptor : Text
  deriving DecidableEq

structure Task where
  source : Text
  record : Record
  markerFingerprint : Text
  status : Status
  phase : Text
  failureCount : Int
  nextAttemptAt : Time
  leaseToken : Text
  leaseDeadline : Time
  lastErrorCode : Text
  lastErrorMessage : Text
  updatedAt : Time
  deriving DecidableEq

-- The stored part of a task.
structure KVTaskState where
  markerFingerprint : Text
  status : Status
  phase : Text
  failureCount : Int
  nextAttemptAt : Time
  leaseToken : Text
  leaseDeadline : Time
  lastErrorCode : Text
  lastErrorMessage : Text
  updatedAt : Time
  deriving DecidableEq

structure Reference where
  source : Text
  deletionID : Text
  markerFingerprint : Text
  deriving DecidableEq

def slash : Byte :=
  47

def isHexDigit (b : Byte) : Bool :=
  (48 ≤ b ∧ b ≤ 57) ∨ (97 ≤ b ∧ b ≤ 102) ∨ (65 ≤ b ∧ b ≤ 70)

-- Hex digits with dashes in four places. What follows the first 36 bytes is not looked at.
def isDashed (s : Text) : Bool :=
  ∀ i : Fin 36, s[i.val]?.any fun b =>
    if i.val ∈ [8, 13, 18, 23] then b = 45 else isHexDigit b

-- What Go's libraries do: texts of instants that sort like the instants, SHA-256 digests in hex,
-- identifiers and encodings.
structure Platform where
  format : Time → Text
  format_length : ∀ t, (format t).length = 30
  format_lt : ∀ s t, format s < format t ↔ s < t
  format_slash : ∀ t, slash ∉ format t
  parse : Text → Option Time
  parse_format : ∀ t, parse (format t) = some t
  trimSpace : Text → Text
  trimSpace_eq : ∀ t, (∀ b ∈ t, 33 ≤ b ∧ b ≤ 126) → trimSpace t = t
  runeCount : Text → Nat
  validJSON : Text → Bool
  base64 : Text → Text
  base64_inj : Function.Injective base64
  newSHA1 : Kind → Text → Text
  newSHA1_form : ∀ kind id, (newSHA1 kind id).length = 36 ∧ isDashed (newSHA1 kind id)
  sum256 : Text → Byte
  fingerprint : Record → Text
  quarantine : Record → Text
  hex : ∀ r, (fingerprint r).length = 64 ∧
    ∀ b ∈ fingerprint r, (48 ≤ b ∧ b ≤ 57) ∨ (97 ≤ b ∧ b ≤ 102)

def toLower (b : Byte) : Byte :=
  if 65 ≤ b ∧ b ≤ 90 then b + 32 else b

-- The forms that `uuid.Parse` accepts. It takes any two bytes for the braces.
def parseUUID (s : Text) : Bool :=
  if s.length = 36 then isDashed s
  else if s.length = 45 then (s.take 9).map toLower = ascii "urn:uuid:" ∧ isDashed (s.drop 9)
  else if s.length = 38 then isDashed (s.drop 1)
  else if s.length = 32 then s.all isHexDigit
  else false

-- `^[a-z][a-z0-9_]{0,63}$`
def isName : Text → Bool
  | [] => false
  | b :: bs => (97 ≤ b ∧ b ≤ 122) ∧ bs.length ≤ 63 ∧
      bs.all fun b => (97 ≤ b ∧ b ≤ 122) ∨ (48 ≤ b ∧ b ≤ 57) ∨ b = 95

section Validation

variable (P : Platform)

def validateResourceID (value : Text) : Except Err Unit :=
  if value = [] then .error (.text "id is required")
  else if P.trimSpace value ≠ value then
    .error (.text "id must not contain surrounding whitespace")
  else if 1024 < P.runeCount value ∨ 4096 < value.length then
    .error (.text "id exceeds the 1024-character limit")
  else if value = ascii "." ∨ value = ascii ".." then
    .error (.text "id must not be a URI dot segment")
  else .ok ()

def validateOwner : Option Text → Except Err Unit
  | none => .ok ()
  | some owner =>
    if P.trimSpace owner = [] then .error (.text "pending deletion: empty owner public key")
    else if P.trimSpace owner ≠ owner then
      .error (.text "pending deletion: non-canonical owner public key")
    else .ok ()

def Record.validate (r : Record) : Except Err Unit := do
  validateResourceID P r.resourceID
  validateOwner P r.ownerPublicKey
  if r.deletionID ≠ P.newSHA1 r.kind r.resourceID ∧ ¬parseUUID r.deletionID then
    .error (.text "pending deletion: invalid deletion id")
  else if r.deletedAt = 0 then .error (.text "pending deletion: empty deleted_at")
  else if r.descriptorVersion ≠ 1 then
    .error (.text "pending deletion: unsupported descriptor version")
  else if r.descriptor = [] ∨ ¬P.validJSON r.descriptor then
    .error (.text "pending deletion: invalid descriptor JSON")
  else .ok ()

def fingerprint (r : Record) : Except Err Text := do
  r.validate P
  return P.fingerprint r

-- A record that cannot be used is still told apart from others.
def storedFingerprint (r : Record) : Text :=
  match fingerprint P r with
  | .ok f => f
  | .error _ => P.quarantine r

def validatePhase (phase : Text) : Except Err Unit :=
  if isName phase then .ok () else .error (.invalid "invalid phase")

def validateTaskState (task : Task) : Except Err Unit := do
  validatePhase task.phase
  if task.failureCount < 0 then .error (.invalid "negative failure count")
  else if task.updatedAt = 0 then .error (.invalid "empty updated time")
  else if 64 < task.lastErrorCode.length ∨ 256 < task.lastErrorMessage.length then
    .error (.invalid "failure metadata exceeds bounds")
  else if task.status = .running ∧
      (task.leaseToken = [] ∨ 128 < task.leaseToken.length ∨ task.leaseDeadline = 0) then
    .error (.invalid "invalid running lease")
  else if task.status ≠ .running ∧ (task.leaseToken ≠ [] ∨ task.leaseDeadline ≠ 0) then
    .error (.invalid "inactive task has a lease")
  else if (task.status = .queued ∨ task.status = .retryWait) ∧ task.nextAttemptAt = 0 then
    .error (.invalid "due task has no next attempt time")
  else .ok ()

def validateSource (source : Text) : Except Err Unit :=
  if P.trimSpace source = [] ∨ source ≠ P.trimSpace source then .error (.invalid "invalid source")
  else .ok ()

def validateTask (task : Task) : Except Err Unit := do
  validateSource P task.source
  if fingerprint P task.record ≠ .ok task.markerFingerprint then
    .error (.invalid "marker fingerprint mismatch")
  else validateTaskState task

def validateStoredTask (task : Task) : Except Err Unit := do
  validateSource P task.source
  if storedFingerprint P task.record ≠ task.markerFingerprint then
    .error (.invalid "stored marker fingerprint mismatch")
  else validateTaskState task

end Validation

def taskDue (task : Task) (now : Time) : Bool :=
  match task.status with
  | .queued | .retryWait => task.nextAttemptAt ≤ now
  | .running => task.leaseDeadline ≤ now
  | .failed => false

-- A claim is the task as it was left by `Claim`.
structure Claim where
  task : Task
  deriving DecidableEq

def encodeKVTaskState (task : Task) : KVTaskState where
  markerFingerprint := task.markerFingerprint
  status := task.status
  phase := task.phase
  failureCount := task.failureCount
  nextAttemptAt := task.nextAttemptAt
  leaseToken := task.leaseToken
  leaseDeadline := task.leaseDeadline
  lastErrorCode := task.lastErrorCode
  lastErrorMessage := task.lastErrorMessage
  updatedAt := task.updatedAt

-- The task that a marker and a stored state make.
def KVTaskState.task (source : Text) (record : Record) (state : KVTaskState) : Task where
  source := source
  record := record
  markerFingerprint := state.markerFingerprint
  status := state.status
  phase := state.phase
  failureCount := state.failureCount
  nextAttemptAt := state.nextAttemptAt
  leaseToken := state.leaseToken
  leaseDeadline := state.leaseDeadline
  lastErrorCode := state.lastErrorCode
  lastErrorMessage := state.lastErrorMessage
  updatedAt := state.updatedAt

def decodeTask (P : Platform) (source : Text) (record : Record) (raw : KVTaskState) :
    Except Err Task := do
  validateStoredTask P (raw.task source record)
  return raw.task source record

end GizClaw.PendingDeletion
