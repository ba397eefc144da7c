import GizClaw.Social.Service

-- The records of friend relations, the keys that they are under, and the checks that they pass
-- before they are used.

namespace GizClaw.Friend

open PendingDeletion (Text ascii Time slash)
open KV.Typed (SetMembers)
open Social

-- Work that recovery may have to finish.
inductive Work where
  | creation
  | retirement
  deriving DecidableEq

-- The arguments are segments of the key that are escaped already.
inductive Key where
  | friend (owner id : Text)
  | friendCollection (owner : Text)
  | friendPage (owner : Text)
  | peerFriendRevision (owner : Text)
  | adminFriendBuckets
  | adminFriendBucket (bucket : Text)
  | creationIntent (relationID : Text)
  | creationDecision (relationID incarnationID : Text)
  | retirementIntent (relationID : Text)
  | retirementReceipt (relationID : Text)
  | workspaceBinding (relationID : Text)
  | workspaceLocatorID (id : Text)
  | workspaceLocatorName (name : Text)
  | recoveryDirectory (work : Work)
  | recoveryBucket (work : Work) (bucket : Text)
  deriving DecidableEq

def Work.root : Work → Text
  | creation => ascii "friend-creation-intents"
  | retirement => ascii "friend-retirement-intents"

def Key.path : Key → List Text
  | friend owner id => [ascii "friends", owner, id]
  | friendCollection owner => [ascii "friend-collections", owner]
  | friendPage owner => [ascii "friend-pages", owner]
  | peerFriendRevision owner => [ascii "friend-peer-revisions", owner]
  | adminFriendBuckets => [ascii "admin-friend-index", ascii "buckets"]
  | adminFriendBucket bucket => [ascii "admin-friend-index", ascii "members", bucket]
  | creationIntent r => [ascii "friend-creation-intents", r]
  | creationDecision r i => [ascii "friend-creation-decisions", r, i]
  | retirementIntent r => [ascii "friend-retirement-intents", r]
  | retirementReceipt r => [ascii "friend-retirement-receipts", r]
  | workspaceBinding r => [ascii "friend-workspace-bindings", r]
  | workspaceLocatorID id => [ascii "workspace-locators", ascii "by-id", id]
  | workspaceLocatorName name => [ascii "workspace-locators", ascii "by-name", name]
  | recoveryDirectory work => [ascii "social-recovery-index", work.root, ascii "buckets"]
  | recoveryBucket work bucket =>
    [ascii "social-recovery-index", work.root, ascii "members", bucket]

-- One owner's view of a relation.
structure FriendRecord where
  relationID : Text
  peerPublicKey : Text
  workspaceName : Text
  createdAt : Time
  updatedAt : Time
  deriving DecidableEq

-- What peers get to see of it.
structure FriendObject where
  peerPublicKey : Text
  workspaceName : Text
  createdAt : Option Time
  updatedAt : Option Time
  deriving DecidableEq

structure RetirementIntent where
  relationID : Text
  firstPeer : Text
  secondPeer : Text
  workspaceID : Text
  workspaceName : Text
  relationship : FriendRecord
  deletedAt : Time
  cancelCreation : Bool
  deriving DecidableEq

-- Every identity of one incarnation of a relation.
structure CreationIntent where
  relationID : Text
  firstPeer : Text
  secondPeer : Text
  workspaceOwner : Text
  incarnationID : Text
  workspace : Text
  sfuURL : Text
  roomToken : Text
  createdAt : Time
  deriving DecidableEq

inductive DecisionState where
  | committed
  | cancelled
  deriving DecidableEq

structure CreationDecision where
  relationID : Text
  incarnationID : Text
  workspace : Text
  state : DecisionState
  deriving DecidableEq

structure RetirementReceipt where
  relationID : Text
  firstPeer : Text
  secondPeer : Text
  workspaceID : Text
  workspaceName : Text
  deletedAt : Time
  cancelCreation : Bool
  deriving DecidableEq

structure WorkspaceBinding where
  relationID : Text
  workspaceID : Text
  workspaceName : Text
  workspaceOwner : Text
  sfu : SFUBinding
  deriving DecidableEq

inductive Value where
  | friend (r : FriendRecord)
  | creationIntent (i : CreationIntent)
  | creationDecision (d : CreationDecision)
  | retirementIntent (i : RetirementIntent)
  | retirementReceipt (r : RetirementReceipt)
  | workspaceBinding (b : WorkspaceBinding)
  | workspaceLocator (l : WorkspaceBindingLocator)
  | revision (uuid : Text)
  deriving DecidableEq

namespace Value

def friend? : Value → Option FriendRecord
  | friend r => some r
  | _ => none

def creationIntent? : Value → Option CreationIntent
  | creationIntent i => some i
  | _ => none

def creationDecision? : Value → Option CreationDecision
  | creationDecision d => some d
  | _ => none

def retirementIntent? : Value → Option RetirementIntent
  | retirementIntent i => some i
  | _ => none

def retirementReceipt? : Value → Option RetirementReceipt
  | retirementReceipt r => some r
  | _ => none

def workspaceBinding? : Value → Option WorkspaceBinding
  | workspaceBinding b => some b
  | _ => none

end Value

section Keys

variable (P : Platform)

def friendKey (owner id : Text) : Key :=
  .friend (escapeStoreSegment P (P.trimSpace owner)) (escapeStoreSegment P id)

def friendCollectionKey (owner : Text) : Key :=
  .friendCollection (escapeStoreSegment P (P.trimSpace owner))

def friendPageKey (owner : Text) : Key :=
  .friendPage (escapeStoreSegment P (P.trimSpace owner))

def peerFriendRevisionKey (owner : Text) : Key :=
  .peerFriendRevision (escapeStoreSegment P (P.trimSpace owner))

def creationIntentKey (relationID : Text) : Key :=
  .creationIntent (escapeStoreSegment P relationID)

def creationDecisionKey (relationID incarnationID : Text) : Key :=
  .creationDecision (escapeStoreSegment P relationID) (escapeStoreSegment P incarnationID)

def retirementIntentKey (relationID : Text) : Key :=
  .retirementIntent (escapeStoreSegment P relationID)

def retirementReceiptKey (relationID : Text) : Key :=
  .retirementReceipt (escapeStoreSegment P relationID)

def workspaceBindingKey (relationID : Text) : Key :=
  .workspaceBinding (escapeStoreSegment P relationID)

def workspaceLocatorIDKey (id : Text) : Key :=
  .workspaceLocatorID (escapeStoreSegment P id)

def workspaceLocatorNameKey (name : Text) : Key :=
  .workspaceLocatorName (escapeStoreSegment P name)

def Work.index (work : Work) : RecoveryIndex Key where
  directory := .recoveryDirectory work
  bucket := .recoveryBucket work

def Work.recordKey : Work → Text → Key
  | creation, id => creationIntentKey P id
  | retirement, id => retirementIntentKey P id

def friendPageMembership (owner id : Text) : SetMembers Key Text :=
  ⟨friendPageKey P owner, [escapeStoreSegment P id]⟩

-- The position of a row in the order of all rows.
def adminFriendCursor : Key → Text
  | .friend owner id => owner ++ slash :: id
  | _ => []

def adminFriendMembership (owner relationID : Text) : SetMembers Key Text :=
  let member := adminFriendCursor (friendKey P owner relationID)
  ⟨.adminFriendBucket (P.bucket member), [member]⟩

def adminFriendDirectoryMembership (owner relationID : Text) : SetMembers Key Text :=
  ⟨.adminFriendBuckets, [P.bucket (adminFriendCursor (friendKey P owner relationID))]⟩

def workspaceLocatorEntries (l : WorkspaceBindingLocator) : List (KV.Typed.Entry Key Value) :=
  [⟨workspaceLocatorIDKey P l.workspaceID, .workspaceLocator l⟩,
    ⟨workspaceLocatorNameKey P l.workspaceName, .workspaceLocator l⟩]

end Keys

section Checks

variable (P : Platform)

def FriendRecord.validate (r : FriendRecord) : Except Err Unit :=
  if isTrimmed P r.relationID ∧ isTrimmed P r.peerPublicKey ∧ isTrimmed P r.workspaceName ∧
      r.createdAt ≠ 0 ∧ r.updatedAt ≠ 0 then .ok ()
  else .error (.text "social: persisted Friend relationship is invalid")

def FriendRecord.peerObject (r : FriendRecord) : FriendObject where
  peerPublicKey := r.peerPublicKey
  workspaceName := r.workspaceName
  createdAt := some r.createdAt
  updatedAt := some r.updatedAt

def validateCreationIntent (i : CreationIntent) (r workspaceOwner : Text) :
    Except Err CreationIntent :=
  if i.secondPeer < i.firstPeer then
    .error (.text "social: Friend creation intent peers are not canonical")
  else if i.relationID = P.trimSpace i.relationID ∧ i.relationID = r ∧
      isTrimmed P i.firstPeer ∧ isTrimmed P i.secondPeer ∧
      relationID P i.firstPeer i.secondPeer = r ∧
      i.workspaceOwner = P.trimSpace i.workspaceOwner ∧
      i.workspaceOwner = P.trimSpace workspaceOwner ∧
      (i.workspaceOwner = i.firstPeer ∨ i.workspaceOwner = i.secondPeer) ∧
      isTrimmed P i.incarnationID ∧ isTrimmed P i.sfuURL ∧ isTrimmed P i.roomToken ∧
      i.workspace = P.trimSpace i.workspace ∧
      i.workspace = directWorkspaceIncarnationName P r i.incarnationID ∧ i.createdAt ≠ 0 then .ok i
  else .error (.text "social: invalid Friend creation intent")

def validateCreationDecision (d : CreationDecision) (i : CreationIntent) : Except Err Unit :=
  if d.relationID = i.relationID ∧ d.incarnationID = i.incarnationID ∧
      d.workspace = i.workspace then .ok ()
  else .error (.text "social: invalid Friend creation decision")

-- What intents and receipts of retirements have to satisfy alike.
def validRetirement (r : Text) (i : RetirementReceipt) : Bool :=
  i.relationID = P.trimSpace i.relationID ∧ i.relationID = r ∧
  isTrimmed P i.firstPeer ∧ isTrimmed P i.secondPeer ∧ i.firstPeer ≤ i.secondPeer ∧
  relationID P i.firstPeer i.secondPeer = r ∧ (i.cancelCreation ∨ isTrimmed P i.workspaceID) ∧
  isTrimmed P i.workspaceName ∧ i.deletedAt ≠ 0

def RetirementIntent.receipt (i : RetirementIntent) : RetirementReceipt where
  relationID := i.relationID
  firstPeer := i.firstPeer
  secondPeer := i.secondPeer
  workspaceID := i.workspaceID
  workspaceName := i.workspaceName
  deletedAt := i.deletedAt
  cancelCreation := i.cancelCreation

def validateRetirementIntent (i : RetirementIntent) (r : Text) : Except Err RetirementIntent :=
  if validRetirement P r i.receipt then .ok i
  else .error (.text "social: invalid Friend retirement intent")

def validateRetirementReceipt (i : RetirementReceipt) (r : Text) : Except Err Unit :=
  if validRetirement P r i then .ok ()
  else .error (.text "social: invalid Friend retirement receipt")

def validateWorkspaceBinding (b : WorkspaceBinding) (r : Text) : Except Err Unit :=
  if b.relationID = r ∧ isTrimmed P b.workspaceID ∧ isTrimmed P b.workspaceName ∧
      isTrimmed P b.workspaceOwner ∧ b.sfu.generation ≠ 0 then b.sfu.validate P |>.mapError .text
  else .error (.text "social: invalid Friend Workspace binding")

-- The other peer of a retirement.
def otherPeer (owner firstPeer secondPeer : Text) : Text :=
  if owner = firstPeer then secondPeer else firstPeer

def friendObjectForRetirement (owner : Text) (i : RetirementIntent) : FriendObject :=
  { i.relationship.peerObject with
    peerPublicKey := otherPeer owner i.firstPeer i.secondPeer
    workspaceName := i.workspaceName }

def friendObjectForReceipt (owner : Text) (i : RetirementReceipt) : FriendObject where
  peerPublicKey := otherPeer owner i.firstPeer i.secondPeer
  workspaceName := i.workspaceName
  createdAt := none
  updatedAt := none

end Checks

end GizClaw.Friend
