import GizClaw.Friend.Records

-- The friend service. A relation is created in several steps: an intent that fixes all identities,
-- a Workspace, and one mutation that decides the incarnation and publishes it. Deletions and
-- recovery on other Servers may come in between.

namespace GizClaw.Friend

open Interleaving
open PendingDeletion (Text Time)
open KV.Typed (SetMembers)
open Social hiding Call

abbrev Call := Social.Call Key Value
abbrev Condition := KV.Typed.Condition Key Value
abbrev Mutation := KV.Typed.Mutation Key Value Text

structure Server where
  sfuURL : Text

variable (P : Platform)

section Reads

def readCreationIntent (r : Text) : Call (Option CreationIntent) :=
  readJSONValue Value.creationIntent? (creationIntentKey P r)

def readCreationDecision (i : CreationIntent) : Call (Option CreationDecision) :=
  readJSONValue Value.creationDecision? (creationDecisionKey P i.relationID i.incarnationID)

def readRetirementIntent (r : Text) : Call (Option RetirementIntent) :=
  readJSONValue Value.retirementIntent? (retirementIntentKey P r)

def readRetirementReceipt (r : Text) : Call (Option RetirementReceipt) :=
  readJSONValue Value.retirementReceipt? (retirementReceiptKey P r)

def readWorkspaceBinding (r : Text) : Call WorkspaceBinding := do
  match ← readJSONValue Value.workspaceBinding? (workspaceBindingKey P r) with
  | none => throw (.kv .notFound)
  | some b => do
    validateWorkspaceBinding P b r
    return b

def getFriendRelationByID (owner r : Text) : Call (Option FriendObject) := do
  match ← readJSONValue Value.friend? (friendKey P owner r) with
  | none => return none
  | some record => do
    record.validate P
    if record.relationID ≠ r then
      throw (.text "social: persisted Friend relationship ID does not match its key")
    else return some record.peerObject

-- Both rows are there and fit together, or none of them is.
def checkRelationship (r fromPeer toPeer : Text) (fromItem toItem : FriendRecord) :
    Except Err FriendObject := do
  fromItem.validate P
  toItem.validate P
  let fromWorkspace := P.trimSpace fromItem.workspaceName
  let toWorkspace := P.trimSpace toItem.workspaceName
  if fromItem.relationID ≠ r ∨ toItem.relationID ≠ r ∨ P.trimSpace fromItem.peerPublicKey ≠ toPeer ∨
      P.trimSpace toItem.peerPublicKey ≠ fromPeer ∨ fromWorkspace ≠ toWorkspace then
    .error (.text "social: reciprocal Friend relationship is inconsistent")
  else if fromWorkspace = [] then
    .error (.text "social: reciprocal Friend relationship has no Workspace name")
  else .ok fromItem.peerObject

def readActiveRelationship (fromPeer toPeer : Text) : Call (Option FriendObject) := do
  let r := relationID P fromPeer toPeer
  let fromItem ← readJSONValue Value.friend? (friendKey P fromPeer r)
  let toItem ← readJSONValue Value.friend? (friendKey P toPeer r)
  match fromItem, toItem with
  | none, none => return none
  | some fromItem, some toItem =>
    return some (← checkRelationship P r fromPeer toPeer fromItem toItem)
  | _, _ =>
    throw (.text "social: reciprocal Friend relationship is incomplete")

-- The revision of a peer is read before its friends are counted.
def readPeerFriendCapacity : List Text → Call (List Condition)
  | [] => return []
  | peer :: peers => do
    let revision ← load (peerFriendRevisionKey P peer)
    let friends ← listMembers (friendCollectionKey P peer)
    if peerFriendLimit ≤ friends.card then throw .peerFriendLimit else
      return ⟨peerFriendRevisionKey P peer, revision⟩ :: (← readPeerFriendCapacity peers)

def peerFriendRevisionsChanged : List Condition → Call Bool
  | [] => return false
  | condition :: conditions => do
    let current ← load condition.key
    if current ≠ condition.expected then return true else peerFriendRevisionsChanged conditions

end Reads

section Retirement

def deleteIntentMutation (i : CreationIntent) (current : CreationIntent) : Mutation where
  conditions := [⟨creationIntentKey P i.relationID, some (.creationIntent current)⟩]
  deleteKeys := [creationIntentKey P i.relationID]
  removeMembers := Work.creation.index.remove P i.relationID

-- An intent of another incarnation is left alone.
def deleteCreationIntent (i : CreationIntent) : Call Unit := do
  match ← readCreationIntent P i.relationID with
  | none => return ()
  | some current => do
    let current ← validateCreationIntent P current i.relationID current.workspaceOwner
    if current.incarnationID ≠ i.incarnationID ∨ current.workspace ≠ i.workspace then return ()
    else discard (apply (deleteIntentMutation P i current))

def completeMutation (i stored : RetirementIntent) : Mutation where
  conditions := [⟨retirementIntentKey P i.relationID, some (.retirementIntent stored)⟩]
  entries := [⟨retirementReceiptKey P i.relationID, .retirementReceipt i.receipt⟩]
  deleteKeys := [retirementIntentKey P i.relationID]
  removeMembers := Work.retirement.index.remove P i.relationID

-- The intent goes only if it is still the same one.
def replaceWithReceipt (i : RetirementIntent) : Call Unit := do
  match ← readRetirementIntent P i.relationID with
  | none => return ()
  | some stored => do
    let current ← validateRetirementIntent P stored i.relationID
    if current.workspaceID ≠ i.workspaceID ∨ current.workspaceName ≠ i.workspaceName ∨
        current.deletedAt ≠ i.deletedAt ∨ current.cancelCreation ≠ i.cancelCreation then return ()
    else discard (apply (completeMutation P i stored))

-- The Workspace goes first.
def completeFriendRetirement (i : RetirementIntent) : Call Unit := do
  let _ ← validateRetirementIntent P i i.relationID
  if i.cancelCreation then deleteSystemWorkspace i.workspaceName
  else retireSystemWorkspaceByID i.workspaceID
  replaceWithReceipt P i

def retireMutation (owner other : Text) (i : RetirementIntent) : Mutation where
  entries := [⟨retirementIntentKey P i.relationID, .retirementIntent i⟩]
  addMembers := Work.retirement.index.add P i.relationID
  deleteKeys := [friendKey P owner i.relationID, friendKey P other i.relationID,
    workspaceBindingKey P i.relationID]
  removeMembers := [⟨friendCollectionKey P owner, [i.relationID]⟩,
    ⟨friendCollectionKey P other, [i.relationID]⟩]
  removeOrderedMembers := [adminFriendMembership P owner i.relationID,
    adminFriendMembership P other i.relationID, friendPageMembership P owner i.relationID,
    friendPageMembership P other i.relationID]

def retireActiveFriend (owner r : Text) (item : FriendObject) : Call FriendObject := do
  let other := P.trimSpace item.peerPublicKey
  let workspaceName := P.trimSpace item.workspaceName
  if workspaceName = [] then
    throw (.text "social: active Friend relationship has no Workspace name")
  else do
    let binding ← readWorkspaceBinding P r
    if binding.workspaceName ≠ workspaceName then
      throw (.text "social: Friend Workspace binding is inconsistent")
    else do
      let deletedAt ← now
      let intent : RetirementIntent := {
        relationID := r
        firstPeer := min owner other
        secondPeer := max owner other
        workspaceID := binding.workspaceID
        workspaceName := workspaceName
        relationship := {
          relationID := r
          peerPublicKey := other
          workspaceName := workspaceName
          createdAt := item.createdAt.getD 0
          updatedAt := item.updatedAt.getD 0 }
        deletedAt := deletedAt
        cancelCreation := false }
      let _ ← apply (retireMutation P owner other intent)
      completeFriendRetirement P intent
      return item

-- The intent to undo a creation that has not been decided. It has no relationship yet.
def cancelIntent (creation : CreationIntent) (deletedAt : Time) : RetirementIntent where
  relationID := creation.relationID
  firstPeer := creation.firstPeer
  secondPeer := creation.secondPeer
  workspaceID := []
  workspaceName := creation.workspace
  relationship := ⟨[], [], [], 0, 0⟩
  deletedAt := deletedAt
  cancelCreation := true

def CreationIntent.decision (i : CreationIntent) (state : DecisionState) : CreationDecision where
  relationID := i.relationID
  incarnationID := i.incarnationID
  workspace := i.workspace
  state := state

def cancelMutation (creation : CreationIntent) (i : RetirementIntent) : Mutation where
  conditions := [⟨creationDecisionKey P creation.relationID creation.incarnationID, none⟩]
  entries := [⟨creationDecisionKey P creation.relationID creation.incarnationID,
      .creationDecision (creation.decision .cancelled)⟩,
    ⟨retirementIntentKey P i.relationID, .retirementIntent i⟩]
  addMembers := Work.retirement.index.add P i.relationID

-- What is left to do when the incarnation has been cancelled already.
def resumeCancellation (owner r : Text) (creation : CreationIntent) (intent : RetirementIntent) :
    Call FriendObject := do
  match ← readRetirementIntent P r with
  | none => do
    deleteCreationIntent P creation
    return friendObjectForRetirement owner intent
  | some persisted => do
    let persisted ← validateRetirementIntent P persisted r
    if persisted.cancelCreation ∧ persisted.workspaceName = creation.workspace then do
      deleteCreationIntent P creation
      completeFriendRetirement P persisted
      return friendObjectForRetirement owner persisted
    else do
      deleteCreationIntent P creation
      return friendObjectForRetirement owner intent

def cancelFriendCreation (owner r : Text) (creation : CreationIntent) : Call FriendObject := do
  let creation ← validateCreationIntent P creation r creation.workspaceOwner
  if owner ≠ creation.firstPeer ∧ owner ≠ creation.secondPeer then throw (.kv .notFound) else do
    let other := otherPeer owner creation.firstPeer creation.secondPeer
    match ← readActiveRelationship P owner other with
    | some item => retireActiveFriend P owner r item
    | none => do
      let deletedAt ← now
      let intent := cancelIntent creation deletedAt
      if ← apply (cancelMutation P creation intent) then do
        deleteCreationIntent P creation
        completeFriendRetirement P intent
        return friendObjectForRetirement owner intent
      else do
        match ← readCreationDecision P creation with
        | none => throw (.kv .notFound)
        | some decision => do
          validateCreationDecision decision creation
          match decision.state with
          | .committed => do
            match ← readActiveRelationship P owner other with
            | none => throw (.text
                "social: committed Friend creation is missing reciprocal rows")
            | some item => retireActiveFriend P owner r item
          | .cancelled => resumeCancellation P owner r creation intent

def relationPeer (owner r : Text) : Option Text :=
  match (P.trimSpace r).splitOn colon with
  | [first, second] =>
    if first = P.trimSpace owner then some second
    else if second = P.trimSpace owner then some first
    else none
  | _ => none

def completedFriendDeletion (owner r : Text) : Call FriendObject := do
  if (relationPeer P owner r).getD [] = [] then throw (.kv .notFound) else do
    match ← readRetirementReceipt P r with
    | none => throw (.kv .notFound)
    | some receipt => do
      validateRetirementReceipt P receipt r
      if owner ≠ receipt.firstPeer ∧ owner ≠ receipt.secondPeer then throw (.kv .notFound)
      else return friendObjectForReceipt owner receipt

-- The peers whose locks are taken.
def deletionPeers (owner r : Text) : Call (List Text) := do
  match ← getFriendRelationByID P owner r with
  | some current => return [owner, current.peerPublicKey]
  | none => do
    match ← readCreationIntent P r with
    | some creation => return [owner, creation.firstPeer, creation.secondPeer]
    | none => do
      match ← readRetirementIntent P r with
      | some retirement => return [owner, retirement.firstPeer, retirement.secondPeer]
      | none => return [owner]

def deleteFriendByRelationID (peerRetirement : Bool) (owner r : Text) : Call FriendObject := do
  let _ ← deletionPeers P owner r
  match ← getFriendRelationByID P owner r with
  | some item => do
    if ¬peerRetirement then do
      peerAvailability owner
      peerAvailability item.peerPublicKey
    retireActiveFriend P owner r item
  | none => do
    match ← readCreationIntent P r with
    | some creation => cancelFriendCreation P owner r creation
    | none => do
      match ← readRetirementIntent P r with
      | none => completedFriendDeletion P owner r
      | some intent => do
        let intent ← validateRetirementIntent P intent r
        if owner ≠ intent.firstPeer ∧ owner ≠ intent.secondPeer then throw (.kv .notFound) else do
          completeFriendRetirement P intent
          return friendObjectForRetirement owner intent

end Retirement

section Creation

def createIntentMutation (i : CreationIntent) : Mutation where
  conditions := [⟨creationIntentKey P i.relationID, none⟩]
  entries := [⟨creationIntentKey P i.relationID, .creationIntent i⟩]
  addMembers := Work.creation.index.add P i.relationID

def getOrCreateCreationIntent (s : Server) (fromPeer toPeer workspaceOwner : Text) :
    Call CreationIntent := do
  let r := relationID P fromPeer toPeer
  match ← readCreationIntent P r with
  | some intent => validateCreationIntent P intent r workspaceOwner
  | none =>
    let sfuURL := P.trimSpace s.sfuURL
    if sfuURL = [] then throw (.text "social: SFU is not configured") else do
      let incarnationID := P.trimSpace (← newID r (directWorkspaceIncarnationName P r))
      if incarnationID = [] then
        throw (.text "social: friend Workspace incarnation is empty")
      else do
        let roomToken ← newRoomToken
        let createdAt ← now
        let intent : CreationIntent := {
          relationID := r
          firstPeer := min fromPeer toPeer
          secondPeer := max fromPeer toPeer
          workspaceOwner := P.trimSpace workspaceOwner
          incarnationID := incarnationID
          workspace := directWorkspaceIncarnationName P r incarnationID
          sfuURL := sfuURL
          roomToken := roomToken
          createdAt := createdAt }
        let intent ← validateCreationIntent P intent r workspaceOwner
        if ← apply (createIntentMutation P intent) then return intent else do
          match ← readCreationIntent P r with
          | none => throw (.kv .notFound)
          | some existing => validateCreationIntent P existing r workspaceOwner

def ensureCreationWorkspace (i : CreationIntent) : Call Workspace := do
  let workspace ← createSystemWorkspace ⟨i.workspace, i.workspace⟩
  if P.trimSpace workspace.id = [] ∨ workspace.name ≠ i.workspace then
    throw (.text "social: created Friend Workspace has invalid identity")
  else return workspace

def friendRow (r peer : Text) (i : CreationIntent) (updatedAt : Time) : FriendRecord where
  relationID := r
  peerPublicKey := peer
  workspaceName := i.workspace
  createdAt := i.createdAt
  updatedAt := updatedAt

def newBinding (r : Text) (i : CreationIntent) (workspace : Workspace) : WorkspaceBinding where
  relationID := r
  workspaceID := workspace.id
  workspaceName := workspace.name
  workspaceOwner := i.workspaceOwner
  sfu := ⟨i.sfuURL, i.roomToken, 1⟩

def WorkspaceBinding.locator (b : WorkspaceBinding) : WorkspaceBindingLocator where
  resourceID := b.relationID
  workspaceID := b.workspaceID
  workspaceName := b.workspaceName

def commitMutation (fromPeer toPeer : Text) (i : CreationIntent) (workspace : Workspace)
    (capacity : List Condition) (updatedAt : Time) (revisions : List Text) : Mutation :=
  let r := relationID P fromPeer toPeer
  let binding := newBinding r i workspace
  { conditions := ⟨creationDecisionKey P r i.incarnationID, none⟩ :: capacity
    entries := [⟨friendKey P fromPeer r, .friend (friendRow r toPeer i updatedAt)⟩,
        ⟨friendKey P toPeer r, .friend (friendRow r fromPeer i updatedAt)⟩,
        ⟨workspaceBindingKey P r, .workspaceBinding binding⟩] ++
      workspaceLocatorEntries P binding.locator ++
      ⟨creationDecisionKey P r i.incarnationID, .creationDecision (i.decision .committed)⟩ ::
      capacity.zipWith (fun c revision => ⟨c.key, .revision revision⟩) revisions
    addMembers :=
      [⟨friendCollectionKey P fromPeer, [r]⟩, ⟨friendCollectionKey P toPeer, [r]⟩,
      adminFriendDirectoryMembership P fromPeer r, adminFriendDirectoryMembership P toPeer r]
    addOrderedMembers := [adminFriendMembership P fromPeer r, adminFriendMembership P toPeer r,
      friendPageMembership P fromPeer r, friendPageMembership P toPeer r] }

-- Another Server has decided the incarnation, or the friends of a peer have changed.
def resolveCommit (fromPeer toPeer : Text) (i : CreationIntent) (workspace : Workspace)
    (capacity : List Condition) : Call FriendObject := do
  let r := relationID P fromPeer toPeer
  match ← readCreationDecision P i with
  | none =>
    if ← peerFriendRevisionsChanged capacity then throw .friendCapacityChanged
    else throw (.kv .notFound)
  | some decision => do
    validateCreationDecision decision i
    match decision.state with
    | .cancelled => do
      deleteSystemWorkspace i.workspace
      deleteCreationIntent P i
      throw .friendCreationCancelled
    | .committed => do
      let binding ← readWorkspaceBinding P r
      if binding.workspaceID ≠ workspace.id ∨ binding.workspaceName ≠ i.workspace ∨
          binding.sfu.roomToken ≠ i.roomToken then
        throw (.text "social: committed Friend creation has inconsistent Workspace binding")
      else do
        match ← readActiveRelationship P fromPeer toPeer with
        | none => do
          deleteCreationIntent P i
          throw .friendCreationCancelled
        | some existing =>
          if existing.workspaceName ≠ i.workspace then
            throw (.text "social: committed Friend creation is missing reciprocal rows")
          else do
            deleteCreationIntent P i
            return existing

-- A creation that no longer fits is cancelled, so that recovery does not retry it.
def cancelFull (fromPeer r : Text) (i : CreationIntent) (err : Err) : Call (List Condition) :=
  if err.is .peerFriendLimit then do
    tryCatch (discard (cancelFriendCreation P fromPeer r i)) fun cancelErr =>
      throw (.join err cancelErr)
    throw err
  else throw err

def commitFriendCreation (fromPeer toPeer : Text) (i : CreationIntent) (workspace : Workspace) :
    Call FriendObject := do
  let r := relationID P fromPeer toPeer
  let capacity ← tryCatch (readPeerFriendCapacity P [fromPeer, toPeer]) (cancelFull P fromPeer r i)
  let updatedAt ← now
  (((newBinding r i workspace).locator.validate P).mapError .text : Except Err Unit)
  if ← applyDrawn capacity.length (commitMutation P fromPeer toPeer i workspace capacity updatedAt)
  then do
    deleteCreationIntent P i
    return (friendRow r toPeer i updatedAt).peerObject
  else resolveCommit P fromPeer toPeer i workspace capacity

def reconcileCreationDecision (i : CreationIntent) : Call (Option DecisionState) := do
  match ← readCreationDecision P i with
  | none => return none
  | some decision => do
    validateCreationDecision decision i
    match decision.state with
    | .cancelled => do
      deleteSystemWorkspace i.workspace
      deleteCreationIntent P i
      return some .cancelled
    | .committed => do
      let active ← readActiveRelationship P i.firstPeer i.secondPeer
      if active.any (·.workspaceName ≠ i.workspace) then
        throw (.text "social: active Friend relationship conflicts with creation decision")
      else do
        deleteCreationIntent P i
        return some .committed

-- The Server may stop after any number of rounds.
def createFriend (s : Server) (fromPeer toPeer workspaceOwner : Text) : Nat → Call FriendObject
  | 0 => throw .stopped
  | rounds + 1 => do
    match ← readActiveRelationship P fromPeer toPeer with
    | some existing => return existing
    | none => do
      peerAvailability fromPeer
      peerAvailability toPeer
      let _ ← readPeerFriendCapacity P [fromPeer, toPeer]
      let intent ← getOrCreateCreationIntent P s fromPeer toPeer workspaceOwner
      match ← reconcileCreationDecision P intent with
      | some .cancelled => throw .friendCreationCancelled
      | some .committed => createFriend s fromPeer toPeer workspaceOwner rounds
      | none => do
        let workspace ← ensureCreationWorkspace P intent
        tryCatch (commitFriendCreation P fromPeer toPeer intent workspace) fun err =>
          if err.is .friendCapacityChanged then createFriend s fromPeer toPeer workspaceOwner rounds
          else throw err

end Creation

section Recovery

-- One attempt to complete a creation that has stopped.
def reconcileCreationIntent (r : Text) : Call Unit := do
  match ← readCreationIntent P r with
  | none => return ()
  | some listed =>
    if listed.relationID ≠ r then throw (.text "social: recovery intent identity mismatch") else do
      match ← readCreationIntent P r with
      | none => return ()
      | some current => do
        let current ← validateCreationIntent P current r current.workspaceOwner
        match ← reconcileCreationDecision P current with
        | some _ => return ()
        | none => do
          match ← readActiveRelationship P current.firstPeer current.secondPeer with
          | some existing =>
            if existing.workspaceName ≠ current.workspace then
              throw (.text "social: active Friend relationship conflicts with creation intent")
            else deleteCreationIntent P current
          | none => do
            let workspace ← ensureCreationWorkspace P current
            tryCatch (discard (commitFriendCreation P current.firstPeer current.secondPeer current
                workspace)) fun err =>
              if err.is .friendCreationCancelled ∨ err.is .peerFriendLimit ∨
                  err.is .friendCapacityChanged then return ()
              else throw err

def reconcileRetirementIntent (r : Text) : Call Unit := do
  match ← readRetirementIntent P r with
  | none => return ()
  | some intent =>
    if intent.relationID ≠ r then throw (.text "social: recovery intent identity mismatch") else do
      match ← readRetirementIntent P r with
      | none => return ()
      | some current => do
        let current ← validateRetirementIntent P current r
        completeFriendRetirement P current

def repairMutation (work : Work) (bucket member : Text) (conditions : List Condition)
    (additions : List (SetMembers Key Text)) : Mutation where
  conditions := conditions
  addMembers := additions
  removeMembers := [⟨work.index.bucket bucket, [member]⟩]

-- Recovery repairs its index as it goes. A member without a record is taken out, and one that is in
-- the wrong place is moved.
def repairMember (work : Work) (bucket member : Text) : Call Unit := do
  let id := P.trimSpace member
  if id = [] then discard (apply (repairMutation work bucket member [] [])) else do
    match ← load (work.recordKey P id) with
    | none =>
      discard (apply (repairMutation work bucket member [⟨work.recordKey P id, none⟩] []))
    | some value =>
      if member = id ∧ P.bucket id = bucket then return ()
      else discard (apply (repairMutation work bucket member [⟨work.recordKey P id, some value⟩]
        (work.index.add P id)))

end Recovery

section Operations

-- The friend that a retiring peer had.
structure PeerRetirementFriend where
  relationID : Text
  firstPeer : Text
  secondPeer : Text
  workspaceID : Text
  workspaceName : Text
  deriving DecidableEq

def retirePeerFriend (owner : Text) (snapshot : PeerRetirementFriend) : Call Unit := do
  if owner = [] ∨ owner ≠ P.trimSpace owner then
    throw (.text "social: retiring Peer public key must be canonical")
  else if owner ≠ snapshot.firstPeer ∧ owner ≠ snapshot.secondPeer then
    throw (.text "social: retiring Peer does not belong to Friend snapshot")
  else if snapshot.relationID ≠ relationID P snapshot.firstPeer snapshot.secondPeer ∨
      snapshot.workspaceID = [] ∨ snapshot.workspaceName = [] then
    throw (.text "social: invalid Friend Peer retirement snapshot")
  else do
    match ← getFriendRelationByID P owner snapshot.relationID with
    | some active =>
      if active.peerPublicKey ≠ otherPeer owner snapshot.firstPeer snapshot.secondPeer ∨
          active.workspaceName ≠ snapshot.workspaceName then
        throw (.text "social: Friend no longer matches Peer retirement snapshot")
      else do
        let binding ← readWorkspaceBinding P snapshot.relationID
        if binding.workspaceID ≠ snapshot.workspaceID ∨
            binding.workspaceName ≠ snapshot.workspaceName then
          throw (.text "social: Friend Workspace no longer matches Peer retirement snapshot")
        else discard (deleteFriendByRelationID P true owner snapshot.relationID)
    | none => do
      match ← readRetirementReceipt P snapshot.relationID with
      | none => throw (.kv .notFound)
      | some receipt =>
        if receipt.firstPeer ≠ snapshot.firstPeer ∨ receipt.secondPeer ≠ snapshot.secondPeer ∨
            receipt.workspaceID ≠ snapshot.workspaceID ∨
            receipt.workspaceName ≠ snapshot.workspaceName then
          throw (.text "social: completed Friend retirement does not match snapshot")
        else return ()

-- `toPeer` is the peer that the invite token belongs to.
def addFriend (s : Server) (owner toPeer : Text) (rounds : Nat) : Call FriendObject := do
  let owner := P.trimSpace owner
  if owner = [] then throw (.text "social: peer public key is required")
  else if ¬isTrimmed P toPeer then throw (.text "social: persisted Friend invite token is invalid")
  else if owner = toPeer then throw .inviteTokenSelfOwned
  else do
    match ← readActiveRelationship P owner toPeer with
    | some existing => return existing
    | none => createFriend P s owner toPeer toPeer rounds

def adminCreateFriend (s : Server) (owner peerPublicKey : Text) (rounds : Nat) :
    Call FriendObject :=
  let owner := P.trimSpace owner
  let peerPublicKey := P.trimSpace peerPublicKey
  if owner = [] ∨ peerPublicKey = [] then throw (.text "social: friend peers are required")
  else if owner = peerPublicKey then throw (.text "social: cannot friend self")
  else createFriend P s owner peerPublicKey owner rounds

def adminCreateFriendResource (s : Server) (id owner peerPublicKey : Text) (rounds : Nat) :
    Call FriendObject := do
  let owner := P.trimSpace owner
  let peerPublicKey := P.trimSpace peerPublicKey
  if id ≠ relationID P owner peerPublicKey then
    throw (.text "social: friend id must match the deterministic relation id")
  else if owner = [] ∨ peerPublicKey = [] ∨ owner = peerPublicKey then
    throw (.text "social: friend peers must be distinct and non-empty")
  else do
    match ← readActiveRelationship P owner peerPublicKey with
    | some _ => throw .resourceAlreadyExists
    | none => createFriend P s owner peerPublicKey owner rounds

def deleteFriend (owner name : Text) : Call FriendObject :=
  let owner := P.trimSpace owner
  if ¬isTrimmed P name then
    throw (.text "social: Friend name is required without surrounding whitespace")
  else deleteFriendByRelationID P false owner (relationID P owner name)

-- The identity is checked for its form only.
def adminDeleteFriend (owner id : Text) : Call FriendObject :=
  if ¬isTrimmed P id then throw (.text "social: friend id")
  else deleteFriendByRelationID P false (P.trimSpace owner) id

inductive Op where
  | addFriend (s : Server) (owner toPeer : Text) (rounds : Nat)
  | adminCreateFriend (s : Server) (owner peerPublicKey : Text) (rounds : Nat)
  | adminCreateFriendResource (s : Server) (id owner peerPublicKey : Text) (rounds : Nat)
  | deleteFriend (owner name : Text)
  | adminDeleteFriend (owner id : Text)
  | retirePeerFriend (owner : Text) (snapshot : PeerRetirementFriend)
  | reconcileCreationIntent (r : Text)
  | reconcileRetirementIntent (r : Text)
  | repairMember (work : Work) (bucket member : Text)

def Op.call : Op → Call (Option FriendObject)
  | addFriend s owner peer rounds =>
    some <$> Friend.addFriend P s owner peer rounds
  | adminCreateFriend s owner peer rounds =>
    some <$> Friend.adminCreateFriend P s owner peer rounds
  | adminCreateFriendResource s id owner peer rounds =>
    some <$> Friend.adminCreateFriendResource P s id owner peer rounds
  | deleteFriend owner name => some <$> Friend.deleteFriend P owner name
  | adminDeleteFriend owner id => some <$> Friend.adminDeleteFriend P owner id
  | retirePeerFriend owner snapshot =>
    (fun _ => none) <$> Friend.retirePeerFriend P owner snapshot
  | reconcileCreationIntent r =>
    (fun _ => none) <$> Friend.reconcileCreationIntent P r
  | reconcileRetirementIntent r =>
    (fun _ => none) <$> Friend.reconcileRetirementIntent P r
  | repairMember work bucket member =>
    (fun _ => none) <$> Friend.repairMember P work bucket member

abbrev State := Social.State Key Value

-- A system of any number of calls on any Servers.
abbrev System := Config (Act Key Value) Reply (Except Err (Option FriendObject)) State

abbrev Step : System → System → Prop :=
  Interleaving.Step (Does P) (fun op : Op => (op.call P).run)

abbrev Reachable : System → Prop :=
  Interleaving.Reachable (Does P) (fun op : Op => (op.call P).run) .init

end Operations

end GizClaw.Friend
