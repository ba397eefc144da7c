import GizClaw.PendingDeletion.Task

-- What the social services share: names made from peers and identities, the segments of keys, and
-- the index that recovery starts from.

namespace GizClaw.Social

open PendingDeletion (Text ascii slash)
open KV.Typed (SetMembers)

def colon : Byte :=
  58

def isAlphanumeric (b : Byte) : Bool :=
  (48 ≤ b ∧ b ≤ 57) ∨ (65 ≤ b ∧ b ≤ 90) ∨ (97 ≤ b ∧ b ≤ 122)

-- What Go's libraries do: URL escapes, the first 20 hex digits and the first byte of SHA-256
-- digests, and the canonical Base58 texts of public keys.
structure Platform where
  trimSpace : Text → Text
  trimSpace_eq : ∀ t, (∀ b ∈ t, 33 ≤ b ∧ b ≤ 126) → trimSpace t = t
  trimSpace_idem : ∀ t, trimSpace (trimSpace t) = trimSpace t
  trimSpace_colon : ∀ a b, trimSpace a = a → trimSpace b = b →
    trimSpace (a ++ colon :: b) = a ++ colon :: b
  queryEscape : Text → Text
  queryEscape_inj : Function.Injective queryEscape
  queryEscape_slash : ∀ t, slash ∉ queryEscape t
  shortHash : Text → Text
  bucket : Text → Text
  isPublicKey : Text → Bool
  isPublicKey_form : ∀ t, isPublicKey t → t ≠ [] ∧ ∀ b ∈ t, isAlphanumeric b

variable (P : Platform)

def escapeStoreSegment (value : Text) : Text :=
  P.queryEscape (P.trimSpace value)

-- Peers in either order have the same relation.
def relationID (a b : Text) : Text :=
  let a := P.trimSpace a
  let b := P.trimSpace b
  if a ≤ b then a ++ colon :: b else b ++ colon :: a

def directWorkspaceIncarnationName (relationID incarnationID : Text) : Text :=
  ascii "social-direct-" ++
    P.shortHash (P.trimSpace relationID ++ 0 :: P.trimSpace incarnationID)

def groupWorkspaceName (friendGroupID : Text) : Text :=
  ascii "social-group-" ++ P.shortHash (P.trimSpace friendGroupID)

def friendGroupMemberLimit : Nat :=
  10

def peerFriendGroupLimit : Nat :=
  10

def peerFriendLimit : Nat :=
  10

structure SFUBinding where
  url : Text
  roomToken : Text
  generation : Nat
  deriving DecidableEq

def SFUBinding.validate (b : SFUBinding) : Except String Unit :=
  if P.trimSpace b.url = [] then .error "social: SFU binding url is required"
  else if P.trimSpace b.roomToken = [] then .error "social: SFU binding room_token is required"
  else if b.generation = 0 then .error "social: SFU binding generation is required"
  else .ok ()

-- The Social resource that a Workspace was made for.
structure WorkspaceBindingLocator where
  resourceID : Text
  workspaceID : Text
  workspaceName : Text
  deriving DecidableEq

-- A text that is there and has no spaces around it.
def isTrimmed (t : Text) : Bool :=
  t ≠ [] ∧ t = P.trimSpace t

def WorkspaceBindingLocator.validate (l : WorkspaceBindingLocator) : Except String Unit :=
  if isTrimmed P l.resourceID ∧ isTrimmed P l.workspaceID ∧ isTrimmed P l.workspaceName then .ok ()
  else .error "social: invalid workspace binding locator"

-- Outstanding work is spread over sets by a hash of its identity. The directory of these sets keeps
-- those that became empty.
structure RecoveryIndex (κ : Type) where
  directory : κ
  bucket : Text → κ

namespace RecoveryIndex

variable {κ : Type} (index : RecoveryIndex κ) (id : Text)

def add : List (SetMembers κ Text) :=
  [⟨index.directory, [P.bucket id]⟩, ⟨index.bucket (P.bucket id), [id]⟩]

def remove : List (SetMembers κ Text) :=
  [⟨index.bucket (P.bucket id), [id]⟩]

end RecoveryIndex

end GizClaw.Social
