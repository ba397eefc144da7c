import GizClaw.Encoding.Base58
import GizClaw.Encoding.Standard

-- The labels under which the channels of tunneled sessions are opened.

namespace GizClaw.Tunnel

open PendingDeletion (Text ascii slash)
open Standard

-- What Go does with texts beyond ASCII.
structure Strings where
  trimSpace : Text → Text
  trimSpace_eq : ∀ t, (∀ b ∈ t, 33 ≤ b ∧ b ≤ 126) → trimSpace t = t
  toLower : Text → Text
  toLower_ascii : ∀ t, (∀ b ∈ t, b < 128) → toLower t = t.map PendingDeletion.toLower

section Key

inductive KeyError where
  | emptyKey
  | invalidKeyText
  deriving DecidableEq

abbrev PublicKey := List.Vector Byte 32

def PublicKey.zero : PublicKey :=
  .replicate 32 0

def PublicKey.string (k : PublicKey) : Text :=
  Base58.encodeToString k.toList

variable (S : Strings)

def decodeKeyText (text : Text) : Except KeyError PublicKey :=
  let value := S.trimSpace text
  if value = [] then
    .error .emptyKey
  else
    match Base58.decodeString value with
    | .error _ => .error .invalidKeyText
    | .ok decoded => if h : decoded.length = 32 then .ok ⟨decoded, h⟩ else .error .invalidKeyText

end Key

inductive Error where
  | invalidFrame
  | frameTooLarge
  deriving DecidableEq

def labelPrefix : Text :=
  ascii "giznet/v2/tunnel/"

def maxLabelSize : Nat :=
  512

def maxRemoteAddrSize : Nat :=
  256

abbrev SessionID := List.Vector Byte 16

def SessionID.zero : SessionID :=
  .replicate 16 0

def SessionID.string (id : SessionID) : Text :=
  hexEncode id.toList

structure SessionDeclaration where
  sessionID : SessionID
  clientPublicKey : PublicKey
  remoteAddr : Text

inductive LabelKind where
  | control
  | packet
  | service
  deriving DecidableEq

instance neZero_uint64 : NeZero (2 ^ 64) :=
  ⟨by decide⟩

structure ParsedLabel where
  kind : LabelKind
  session : SessionID
  client : PublicKey := .zero
  remote : Text := []
  service : Fin (2 ^ 64) := 0
  channelID : Fin (2 ^ 64) := 0
  deriving DecidableEq

section Format

def encodeRemoteAddr (remoteAddr : Text) : Text :=
  if remoteAddr = [] then ascii "-" else base64Encode remoteAddr

def controlLabel (declaration : SessionDeclaration) : Except Error Text :=
  if declaration.sessionID = .zero ∨ declaration.clientPublicKey = .zero ∨
      maxRemoteAddrSize < declaration.remoteAddr.length then
    .error .invalidFrame
  else
    let label := labelPrefix ++ declaration.sessionID.string ++ ascii "/control/" ++
      declaration.clientPublicKey.string ++ ascii "/" ++ encodeRemoteAddr declaration.remoteAddr
    if maxLabelSize < label.length then .error .frameTooLarge else .ok label

def packetLabel (id : SessionID) : Except Error Text :=
  if id = .zero then .error .invalidFrame else .ok (labelPrefix ++ id.string ++ ascii "/packet")

def serviceLabel (id : SessionID) (service channelID : Fin (2 ^ 64)) : Except Error Text :=
  if id = .zero ∨ channelID = 0 then
    .error .invalidFrame
  else
    .ok (labelPrefix ++ id.string ++ ascii "/service/" ++ formatUint service ++ ascii "/" ++
      formatUint channelID)

end Format

section Parse

variable (S : Strings)

def parseSessionID (value : Text) : Except Error SessionID :=
  if value.length ≠ 32 ∨ S.toLower value ≠ value then
    .error .invalidFrame
  else
    match hexDecode value with
    | none => .error .invalidFrame
    | some raw =>
      if h : raw.length = 16 then
        let id : SessionID := ⟨raw, h⟩
        if id = .zero then .error .invalidFrame else .ok id
      else
        .error .invalidFrame

def parseCanonicalUint (value : Text) (allowZero : Bool) : Except Error (Fin (2 ^ 64)) :=
  if value = [] ∨ 20 < value.length ∨ (1 < value.length ∧ value.head? = some 48) then
    .error .invalidFrame
  else
    match parseUint value with
    | none => .error .invalidFrame
    | some parsed =>
      if (!allowZero ∧ parsed = 0) ∨ formatUint parsed ≠ value then
        .error .invalidFrame
      else
        .ok (Fin.ofNat (2 ^ 64) parsed)

def decodeRemoteAddr (value : Text) : Except Error Text :=
  if value = ascii "-" then
    .ok []
  else if value = [] ∨ base64EncodedLen maxRemoteAddrSize < value.length then
    .error .invalidFrame
  else
    match base64Decode value with
    | none => .error .invalidFrame
    | some raw =>
      if maxRemoteAddrSize < raw.length ∨ base64Encode raw ≠ value then
        .error .invalidFrame
      else
        .ok raw

def parseClient (text : Text) : Except Error PublicKey :=
  match decodeKeyText S text with
  | .error _ => .error .invalidFrame
  | .ok client =>
    if client = .zero ∨ client.string ≠ text then .error .invalidFrame else .ok client

def parseParts : List Text → Except Error ParsedLabel
  | session :: kind :: parts => do
    let id ← parseSessionID S session
    if kind = ascii "control" then
      match parts with
      | [client, remote] =>
        let client ← parseClient S client
        let remote ← decodeRemoteAddr remote
        return { kind := .control, session := id, client, remote }
      | _ => throw .invalidFrame
    else if kind = ascii "packet" then
      match parts with
      | [] => return { kind := .packet, session := id }
      | _ => throw .invalidFrame
    else if kind = ascii "service" then
      match parts with
      | [service, channelID] =>
        let service ← parseCanonicalUint service true
        let channelID ← parseCanonicalUint channelID false
        return { kind := .service, session := id, service, channelID }
      | _ => throw .invalidFrame
    else
      throw .invalidFrame
  | _ => .error .invalidFrame

def parseLabel (label : Text) : Except Error ParsedLabel :=
  if label.length = 0 ∨ maxLabelSize < label.length ∨ ¬labelPrefix <+: label then
    .error .invalidFrame
  else
    parseParts S ((label.drop labelPrefix.length).splitOn slash)

end Parse

-- The formatter that the kind of a label calls for, at its fields.
def ParsedLabel.format (p : ParsedLabel) : Except Error Text :=
  match p.kind with
  | .control => controlLabel ⟨p.session, p.client, p.remote⟩
  | .packet => packetLabel p.session
  | .service => serviceLabel p.session p.service p.channelID

end GizClaw.Tunnel
