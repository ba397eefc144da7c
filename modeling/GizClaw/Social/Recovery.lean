import GizClaw.Social.Service

-- Recovery repairs the index of outstanding work before it attempts the work. The index may have
-- been corrupted in any way, and other workers publish and complete work in the meantime.

namespace GizClaw.Social.Recovery

open Interleaving (Program Exec)
open PendingDeletion (Text ascii)
open KV.Typed (Mutation SetMembers)

-- One kind of work. The segment of a record is the escaped identity.
inductive Key where
  | directory
  | bucket (name : Text)
  | record (segment : Text)
  deriving DecidableEq

def index : RecoveryIndex Key where
  directory := .directory
  bucket := .bucket

def hexDigit (n : Nat) : Byte :=
  Fin.ofNat 256 (if n < 10 then 48 + n else 87 + n)

def fromHexChar (c : Byte) : Option Nat :=
  if 48 ≤ c ∧ c ≤ 57 then some (c - 48)
  else if 97 ≤ c ∧ c ≤ 102 then some (c - 87)
  else if 65 ≤ c ∧ c ≤ 70 then some (c - 55)
  else none

-- `%02x`, which is also how a single byte is encoded.
def bucketName (number : Nat) : Text :=
  [hexDigit (number / 16), hexDigit (number % 16)]

def bucketNames : List Text :=
  (List.range 256).map bucketName

def decodeString : Text → Option (List Nat)
  | [] => some []
  | [_] => none
  | a :: b :: t => do
    let high ← fromHexChar a
    let low ← fromHexChar b
    return (16 * high + low) :: (← decodeString t)

def canonicalRecoveryBucket (bucket : Text) : Bool :=
  match decodeString bucket with
  | some [number] => bucketName number = bucket
  | _ => false

-- Some keys are rejected by the store's encoder, but none that the services make themselves.
structure Platform extends Social.Platform where
  bucket_canonical : ∀ id, canonicalRecoveryBucket (bucket id)
  encodable : Key → Bool
  encodable_directory : encodable .directory
  encodable_bucket : ∀ name, canonicalRecoveryBucket name → encodable (.bucket name)

abbrev Store := KV.Typed.Store Key Bytes Text

-- The identities that were attempted, latest first.
structure State where
  store : Store
  attempted : List Text

inductive Act where
  | listMembers (key : Key)
  | get (key : Key)
  | apply (mutation : Mutation Key Bytes Text)
  | attempt (id : Text)

abbrev Reply : Act → Type
  | .listMembers _ => Except KV.Err (List Text)
  | .get _ => Except KV.Err Bytes
  | .apply _ => Except KV.Err Bool
  | .attempt _ => Except KV.Err Unit

section Workers

variable (P : Platform)

def recordKey (id : Text) : Key :=
  .record (escapeStoreSegment P.toPlatform id)

def publishMutation (id : Text) (value : Bytes) (conditions : List (KV.Typed.Condition Key Bytes)) :
    Mutation Key Bytes Text where
  conditions := conditions
  entries := [⟨recordKey P id, value⟩]
  addMembers := index.add P.toPlatform id

def completeMutation (id : Text) (conditions : List (KV.Typed.Condition Key Bytes)) :
    Mutation Key Bytes Text where
  conditions := conditions
  deleteKeys := [recordKey P id]
  removeMembers := index.remove P.toPlatform id

-- The mutations of the workers. Identities are trimmed before they are used.
inductive Work : Mutation Key Bytes Text → Prop where
  | publish {id : Text} (value : Bytes) (conditions : List (KV.Typed.Condition Key Bytes))
    (h : P.trimSpace id = id) : Work (publishMutation P id value conditions)
  | complete {id : Text} (conditions : List (KV.Typed.Condition Key Bytes))
    (h : P.trimSpace id = id) : Work (completeMutation P id conditions)

def encodes (m : Mutation Key Bytes Text) : Prop :=
  ∀ k ∈ m.records ++ m.groups.map (·.key), P.encodable k

-- What an attempt may leave behind.
inductive Works (σ : Store) : Store → Prop where
  | refl : Works σ σ
  | work {σ₁ σ₂ : Store} {m : Mutation Key Bytes Text} (h : Works σ σ₁) (hw : Work P m)
    (he : encodes P m)
    (hm : σ₁.applyMutation m = .ok (some σ₂)) : Works σ σ₂

-- Members are listed in any order. A call may fail, and when it fails it may have had its effect
-- all the same. A key that the encoder rejects makes it panic, which is recovered as a failure.
inductive Does : (a : Act) → State → Reply a → State → Prop where
  | listMembers {s : State} {k : Key} {members : Finset Text} {l : List Text}
    (he : P.encodable k) (h : s.store.listMembers k = .ok members) (hnodup : l.Nodup)
      (hl : ∀ m, m ∈ l ↔ m ∈ members) :
    Does (.listMembers k) s (.ok l) s
  | notListed {s : State} {k : Key} {err : KV.Err} (he : P.encodable k)
    (h : s.store.listMembers k = .error err) :
    Does (.listMembers k) s (.error err) s
  | listFailed {s : State} {k : Key} (message : String) :
    Does (.listMembers k) s (.error (.text message)) s
  | get {s : State} {k : Key} (he : P.encodable k) : Does (.get k) s (s.store.get k) s
  | getFailed {s : State} {k : Key} (message : String) : Does (.get k) s (.error (.text message)) s
  | applied {s : State} {m : Mutation Key Bytes Text} {σ : Store} (he : encodes P m)
    (h : s.store.applyMutation m = .ok (some σ)) :
      Does (.apply m) s (.ok true) { s with store := σ }
  | unmatched {s : State} {m : Mutation Key Bytes Text} (he : encodes P m)
    (h : s.store.applyMutation m = .ok none) : Does (.apply m) s (.ok false) s
  | rejected {s : State} {m : Mutation Key Bytes Text} {err : KV.Err} (he : encodes P m)
    (h : s.store.applyMutation m = .error err) : Does (.apply m) s (.error err) s
  | applyFailed {s : State} {m : Mutation Key Bytes Text} (message : String) :
    Does (.apply m) s (.error (.text message)) s
  | replyLost {s : State} {m : Mutation Key Bytes Text} {σ : Store} (message : String)
    (he : encodes P m) (h : s.store.applyMutation m = .ok (some σ)) :
      Does (.apply m) s (.error (.text message)) { s with store := σ }
  | attempt {s : State} {id : Text} {σ : Store} (r : Except KV.Err Unit) (h : Works P s.store σ) :
    Does (.attempt id) s r ⟨σ, id :: s.attempted⟩

-- A store call fails, other than by what it finds in the store.
def Fails : (a : Act) → Reply a → Prop
  | .listMembers k, r => P.encodable k ∧ ∃ message, r = .error (.text message)
  | .get k, r => P.encodable k ∧ ∃ message, r = .error (.text message)
  | .apply _, r => ∃ err, r = .error err
  | .attempt _, _ => False

def calm : Exec Act Reply State :=
  fun a s r s' => Does P a s r s' ∧ ¬Fails P a r

end Workers

abbrev Call := Program Act Reply

def act (a : Act) : Call (Reply a) :=
  .perform a

section Repairs

def directoryMutation (bucket : Text) : Mutation Key Bytes Text where
  addMembers := [⟨.directory, [bucket]⟩]

-- A bucket that still has members keeps its place in the directory.
def detachMutation (bucket : Text) : Mutation Key Bytes Text where
  conditions := [⟨.bucket bucket, none⟩]
  removeMembers := [⟨.directory, [bucket]⟩]

def resetMutation (value : Bytes) : Mutation Key Bytes Text where
  conditions := [⟨.directory, some value⟩]
  deleteKeys := [.directory]

def memberMutation (bucket member : Text) (conditions : List (KV.Typed.Condition Key Bytes))
    (additions : List (SetMembers Key Text)) : Mutation Key Bytes Text where
  conditions := conditions
  addMembers := additions
  removeMembers := [⟨.bucket bucket, [member]⟩]

def relist : Call (Except KV.Err Unit) := do
  match ← act (.listMembers .directory) with
  | .ok _ => return .ok ()
  | .error err => return .error err

def repairDirectoryType : Call (Except KV.Err Unit) := do
  match ← act (.get .directory) with
  | .error .notFound => relist
  | .error .wrongType => relist
  | .error err => return .error err
  | .ok value =>
    match ← act (.apply (resetMutation value)) with
    | .ok true => return .ok ()
    | .ok false => relist
    | .error .wrongType => relist
    | .error err => return .error err

variable (P : Platform)

-- The reply tells whether the member is ready for an attempt.
def repairMember (bucket member : Text) : Call (Except KV.Err Bool) := do
  let id := P.trimSpace member
  if id = [] then
    match ← act (.apply (memberMutation bucket member [] [])) with
    | .error err => return .error err
    | .ok _ => return .ok false
  else
    match ← act (.get (recordKey P id)) with
    | .error .notFound =>
      match ← act (.apply (memberMutation bucket member [⟨recordKey P id, none⟩] [])) with
      | .error err => return .error err
      | .ok _ => return .ok false
    | .error err => return .error err
    | .ok value =>
      if member = id ∧ P.bucket id = bucket then
        return .ok true
      else
        match ← act (.apply (memberMutation bucket member [⟨recordKey P id, some value⟩]
          (index.add P.toPlatform id))) with
        | .error err => return .error err
        | .ok _ => return .ok false

-- Errors are gathered, and do not stop the pass.
def visitMembers (bucket : Text) (ready : Text → Call (List KV.Err)) :
    List Text → Call (List KV.Err)
  | [] => return []
  | member :: members => do
    let errs ← match ← repairMember P bucket member with
      | .error err => pure [err]
      | .ok true => ready member
      | .ok false => pure []
    let more ← visitMembers bucket ready members
    return errs ++ more

-- Canonical buckets that are missing in the directory are added to it.
def enlist (bucket : Text) (canonical : Bool) (known ids : List Text) : Call (List KV.Err) := do
  if canonical && !ids.isEmpty && !known.contains bucket then
    match ← act (.apply (directoryMutation bucket)) with
    | .error err => return [err]
    | .ok _ => return []
  else
    return []

def repairBucket (bucket : Text) (canonical : Bool) (known : List Text)
    (ready : Text → Call (List KV.Err)) :
    Call (List KV.Err) := do
  match ← act (.listMembers (.bucket bucket)) with
  | .error err => return [err]
  | .ok ids => do
    let errs ← enlist bucket canonical known ids
    let more ← visitMembers P bucket ready (ids.insertionSort (· ≤ ·))
    return errs ++ more

def repairInvalidBucket (bucket : Text) : Call (List KV.Err) := do
  match ← repairBucket P bucket false [] (fun _ => pure []) with
  | err :: _ => return [err]
  | [] =>
    match ← act (.apply (detachMutation bucket)) with
    | .error err => return [err]
    | .ok _ => return []

-- The canonical buckets of the directory are left for later. Of the others at most `room` are
-- visited.
def repairInvalid : Nat → List Text → Call (List KV.Err × List Text)
  | _, [] => return ([], [])
  | room, bucket :: buckets =>
    if canonicalRecoveryBucket bucket then do
      let (errs, known) ← repairInvalid room buckets
      return (errs, bucket :: known)
    else
      match room with
      | 0 => return ([.text "social: excessive invalid recovery buckets"], [])
      | room + 1 => do
        let errs ← repairInvalidBucket P bucket
        let (more, known) ← repairInvalid room buckets
        return (errs ++ more, known)

def attempt (id : Text) : Call (List KV.Err) := do
  match ← act (.attempt id) with
  | .error err => return [err]
  | .ok _ => return []

def repairBuckets (known : List Text) : List Text → Call (List KV.Err)
  | [] => return []
  | bucket :: buckets => do
    let errs ← repairBucket P bucket true known attempt
    let more ← repairBuckets known buckets
    return errs ++ more

def maxInvalidBuckets : Nat :=
  256

def repairListed (buckets : List Text) : Call (List KV.Err) := do
  let (errs, known) ← repairInvalid P maxInvalidBuckets buckets
  let more ← repairBuckets P known bucketNames
  return errs ++ more

-- The result has every failure of the pass.
def reconcile : Call (List KV.Err) := do
  match ← act (.listMembers .directory) with
  | .error .wrongType => do
    let errs ← match ← repairDirectoryType with
      | .error err => pure [err]
      | .ok _ => pure []
    let more ← repairListed P []
    return errs ++ more
  | .error err => return [err]
  | .ok buckets => repairListed P buckets

-- Other workers publish and complete records in the meantime.
inductive Op where
  | reconcile
  | work (m : Subtype (Work P))

def program : Op P → Call (List KV.Err)
  | .reconcile => reconcile P
  | .work m => do
    match ← act (.apply m) with
    | .error err => return [err]
    | .ok _ => return []

end Repairs

end GizClaw.Social.Recovery
