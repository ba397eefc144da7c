import GizClaw.Lib.Interleaving
import GizClaw.PendingDeletion.Task

-- Long-lived API keys that are bound to their owners. Any number of Servers share one store, and
-- the locks that they take on owners are their own.

namespace GizClaw.APIKey

open Interleaving
open PendingDeletion (Text Time ascii)
open KV.Typed (Mutation Effect)

def peerAPIKeyLimit : Nat :=
  10

def secretPrefix : Text :=
  ascii "gizclaw_sk_v1_"

def namePrefix : Text :=
  ascii "key_"

def maxDisplayNameSize : Nat :=
  80

inductive Err where
  | kv (e : KV.Err)
  | text (message : String)
  | invalidAPIKey
  | invalidOwner
  | invalidDisplayName
  | invalidName
  | ownerRetired
  | peerAPIKeyLimit
  | forbidden
  | notFound
  deriving DecidableEq

structure Key where
  name : Text
  displayName : Text
  shownPrefix : Text
  apiKey : Text
  manageAPIKeys : Bool
  createdAt : Time
  owner : Text
  deriving DecidableEq

inductive StoreKey where
  | record (name : Text)
  | secret (secret : Text)
  | owner (owner : Text)
  | retired (owner : Text)
  deriving DecidableEq

inductive Value where
  | key (item : Key)
  | name (name : Text)
  | retired
  deriving DecidableEq

-- What Go's libraries do: spaces around texts, UTF-8, and the canonical texts of public keys.
structure Platform where
  trimSpace : Text → Text
  validString : Text → Bool
  isPublicKey : Text → Bool

section Texts

def isURLSafe (b : Byte) : Bool :=
  (48 ≤ b ∧ b ≤ 57) ∨ (65 ≤ b ∧ b ≤ 90) ∨ (97 ≤ b ∧ b ≤ 122) ∨ b = 45 ∨ b = 95

-- Of the texts with the length that encodes a given number of bytes, those over the alphabet decode
-- to that many bytes. Line breaks, which the decoder skips, would make them fewer.
def isRawURLEncoding (length : Nat) (t : Text) : Bool :=
  t.length = length ∧ t.all isURLSafe

def validSecret (secret : Text) : Bool :=
  secret.length = secretPrefix.length + 43 ∧ secretPrefix <+: secret ∧
    isRawURLEncoding 43 (secret.drop secretPrefix.length)

def validName (name : Text) : Bool :=
  name.length = namePrefix.length + 22 ∧ namePrefix <+: name ∧
    isRawURLEncoding 22 (name.drop namePrefix.length)

variable (P : Platform)

def validateOwner (owner : Text) : Except Err Unit :=
  if P.isPublicKey owner then .ok () else .error .invalidOwner

def normalizeDisplayName (value : Text) : Except Err Text :=
  let value := P.trimSpace value
  if value = [] ∨ !P.validString value ∨ maxDisplayNameSize < value.length then
    .error .invalidDisplayName
  else
    .ok value

end Texts

abbrev Store := KV.Typed.Store StoreKey Value Text

-- The names and secrets that were generated, and the owners for which mutations went through, are
-- not kept anywhere in the program.
structure State where
  store : Store
  names : Finset Text
  secrets : Finset Text
  log : List Text

def State.init : State where
  store := fun _ => none
  names := ∅
  secrets := ∅
  log := []

-- A mutation is requested for an owner. That of a new key gets the name and the secret in the step
-- that writes them, as nobody else sees them before.
inductive Act where
  | get (key : StoreKey)
  | listMembers (key : StoreKey)
  | set (key : StoreKey) (value : Value)
  | apply (owner : Text) (mutation : Mutation StoreKey Value Text)
  | create (owner : Text) (item : Text → Text → Key)
  | now

abbrev Reply : Act → Type
  | .get _ => Except KV.Err Value
  | .listMembers _ => Except KV.Err (List Text)
  | .set .. => Except KV.Err Unit
  | .apply .. => Except KV.Err Bool
  | .create .. => Except KV.Err (Bool × Key)
  | .now => Time

def createMutation (item : Key) : Mutation StoreKey Value Text where
  conditions :=
    [⟨.record item.name, none⟩, ⟨.secret item.apiKey, none⟩, ⟨.retired item.owner, none⟩]
  entries := [⟨.record item.name, .key item⟩, ⟨.secret item.apiKey, .name item.name⟩]
  addMembers := [⟨.owner item.owner, [item.name]⟩]

namespace State

def set (s : State) (key : StoreKey) (value : Value) : State :=
  { s with store := Function.update s.store key (some (.record value)) }

def apply (s : State) (owner : Text) (m : Mutation StoreKey Value Text) :
    Except KV.Err Bool × State :=
  match s.store.applyMutation m with
  | .ok (some σ) => (.ok true, { s with store := σ, log := s.log ++ [owner] })
  | .ok none => (.ok false, s)
  | .error err => (.error err, s)

def draw (s : State) (name secret : Text) : State :=
  { s with names := insert name s.names, secrets := insert secret s.secrets }

def create (s : State) (item : Key) : Except KV.Err (Bool × Key) × State :=
  let s' := s.draw item.name item.apiKey
  match s.store.applyLimited (createMutation item) [(.owner item.owner, peerAPIKeyLimit)] with
  | .ok (some σ) => (.ok (true, item), { s' with store := σ, log := s.log ++ [item.owner] })
  | .ok none => (.ok (false, item), s')
  | .error err => (.error err, s')

end State

-- Random texts, of which none has been generated before.
structure Fresh (s : State) (item : Text → Text → Key) (name secret : Text) : Prop where
  name_form : isRawURLEncoding 22 name
  secret_form : isRawURLEncoding 43 secret
  name_new : (item name secret).name ∉ s.names
  secret_new : (item name secret).apiKey ∉ s.secrets

instance (s : State) (item : Text → Text → Key) (name secret : Text) :
    Decidable (Fresh s item name secret) :=
  decidable_of_iff (isRawURLEncoding 22 name ∧ isRawURLEncoding 43 secret ∧
      (item name secret).name ∉ s.names ∧ (item name secret).apiKey ∉ s.secrets)
    ⟨fun ⟨h₁, h₂, h₃, h₄⟩ => ⟨h₁, h₂, h₃, h₄⟩, fun ⟨h₁, h₂, h₃, h₄⟩ => ⟨h₁, h₂, h₃, h₄⟩⟩

-- Members come in any order.
def Lists (σ : Store) (k : StoreKey) : Except KV.Err (List Text) → Prop
  | .ok names => σ.listMembers k = .ok names.toFinset
  | .error err => σ.listMembers k = .error err

instance (σ : Store) (k : StoreKey) (r : Except KV.Err (List Text)) : Decidable (Lists σ k r) :=
  match r with
  | .ok names => inferInstanceAs (Decidable (σ.listMembers k = .ok names.toFinset))
  | .error err => inferInstanceAs (Decidable (σ.listMembers k = .error err))

def Does : Exec Act Reply State
  | .get k, s, r, s' => Effect s s (s.store.get k) r s'
  | .listMembers k, s, r, s' => ∃ names, Lists s.store k names ∧ Effect s s names r s'
  | .set k v, s, r, s' => Effect s (s.set k v) (.ok ()) r s'
  | .apply owner m, s, r, s' => Effect s (s.apply owner m).snd (s.apply owner m).fst r s'
  | .create _ item, s, r, s' => ∃ name secret, Fresh s item name secret ∧
      Effect s (s.create (item name secret)).snd (s.create (item name secret)).fst r s'
  | .now, s, _, s' => s' = s

-- What happens when nothing fails. A choice settles what is drawn and how members are listed.
structure Choice where
  name : Text := []
  secret : Text := []
  members : Except KV.Err (List Text) := .ok []
  time : Time := 0

def perform (ch : Choice) : (a : Act) → State → Option (Reply a × State)
  | .get k, s => some (s.store.get k, s)
  | .listMembers k, s => if Lists s.store k ch.members then some (ch.members, s) else none
  | .set k v, s => some (.ok (), s.set k v)
  | .apply owner m, s => some (s.apply owner m)
  | .create _ item, s =>
    if Fresh s item ch.name ch.secret then some (s.create (item ch.name ch.secret)) else none
  | .now, s => some (ch.time, s)

theorem does_of_perform (ch : Choice) (a : Act) (s : State) (r : Reply a) (s' : State)
    (h : perform ch a s = some (r, s')) : Does a s r s' := by
  cases a
  case get k | set k v => cases h; exact .done
  case now => cases h; rfl
  case apply =>
    simp only [perform, Option.some.injEq] at h
    simp only [Does, h]
    exact .done
  case listMembers =>
    simp only [perform, Option.ite_none_right_eq_some, Option.some.injEq, Prod.mk.injEq] at h
    obtain ⟨hl, rfl, rfl⟩ := h
    exact ⟨ch.members, hl, .done⟩
  case create =>
    simp only [perform, Option.ite_none_right_eq_some, Option.some.injEq] at h
    refine ⟨ch.name, ch.secret, h.left, ?_⟩
    rw [h.right]
    exact .done

section Calls

abbrev Call := ExceptT Err (Program Act Reply)

-- Nothing under the key is not an error.
def read (k : StoreKey) : Call (Option Value) :=
  .mk <| .act (.get k) fun
    | .ok v => .pure (.ok (some v))
    | .error .notFound => .pure (.ok none)
    | .error err => .pure (.error (.kv err))

def listMembers (k : StoreKey) : Call (List Text) :=
  .mk <| .act (.listMembers k) fun r => .pure (r.mapError .kv)

def set (k : StoreKey) (v : Value) : Call Unit :=
  .mk <| .act (.set k v) fun r => .pure (r.mapError .kv)

def apply (owner : Text) (m : Mutation StoreKey Value Text) : Call Bool :=
  .mk <| .act (.apply owner m) fun r => .pure (r.mapError .kv)

def now : Call Time :=
  .mk <| .act .now fun t => .pure (.ok t)

def applyCreate (owner : Text) (item : Text → Text → Key) : Call (Bool × Key) :=
  .mk <| .act (.create owner item) fun
    | .ok created => .pure (.ok created)
    | .error .memberLimit => .pure (.error .peerAPIKeyLimit)
    | .error err => .pure (.error (.kv err))

-- The checks of a record against the name that it was found under.
def decodeKey (name : Text) : Value → Except Err Key
  | .key item =>
    if item.name ≠ name ∨ item.owner = [] ∨ !validSecret item.apiKey then
      .error (.text "api key: malformed record")
    else
      .ok item
  | _ => .error (.text "api key: malformed record")

def load (name : Text) : Call Key := do
  match ← read (.record name) with
  | none => throw .notFound
  | some v => decodeKey name v

def rejectRetired (owner : Text) : Call Unit := do
  match ← read (.retired owner) with
  | none => return ()
  | some _ => throw .ownerRetired

def newKey (owner displayName : Text) (manageAPIKeys : Bool) (createdAt : Time)
    (nameRandom secretRandom : Text) : Key where
  name := namePrefix ++ nameRandom
  displayName := displayName
  shownPrefix := secretPrefix ++ secretRandom.take 8 ++ [226, 128, 166]
  apiKey := secretPrefix ++ secretRandom
  manageAPIKeys := manageAPIKeys
  createdAt := createdAt
  owner := owner

def createRounds (owner displayName : Text) (manageAPIKeys : Bool) : Nat → Call Key
  | 0 => throw (.text "api key: random identifier collision limit reached")
  | rounds + 1 => do
    let createdAt ← now
    let (created, item) ← applyCreate owner (newKey owner displayName manageAPIKeys createdAt)
    if created then
      return item
    else
      rejectRetired owner
      createRounds owner displayName manageAPIKeys rounds

def decodeName : Value → Except Err Text
  | .name name => .ok name
  | _ => .error .invalidAPIKey

-- Whoever does not find the record has no valid credential.
def authenticate (secret : Text) : Call Key := do
  if validSecret secret then
    match ← read (.secret secret) with
    | none => throw .invalidAPIKey
    | some v =>
      let name ← decodeName v
      match ← read (.record name) with
      | none => throw .invalidAPIKey
      | some v =>
        let item ← decodeKey name v
        if item.apiKey = secret then return item else throw .invalidAPIKey
  else
    throw .invalidAPIKey

def revokeMutation (owner name : Text) (item : Key) : Mutation StoreKey Value Text where
  deleteKeys := [.record name, .secret item.apiKey]
  removeMembers := [⟨.owner owner, [name]⟩]

def revoke (owner name : Text) : Call Unit := do
  let item ← load name
  if item.owner = owner then
    discard <| apply owner (revokeMutation owner name item)
  else
    throw .notFound

variable (P : Platform)

def create (owner displayName : Text) (manageAPIKeys : Bool) : Call Key := do
  validateOwner P owner
  let displayName ← normalizeDisplayName P displayName
  rejectRetired owner
  createRounds owner displayName manageAPIKeys 8

def revokeSelf (principal : Key) : Call Unit :=
  revoke principal.owner principal.name

def revokeAs (principal : Key) (name : Text) : Call Unit :=
  if principal.manageAPIKeys then revoke principal.owner name else throw .forbidden

def validateName (name : Text) : Except Err Unit :=
  if validName name then .ok () else .error .invalidName

def revokeOwner (owner name : Text) : Call Unit := do
  validateOwner P owner
  validateName name
  revoke owner name

-- The listed keys that are still there.
def loadAll (owner : Text) : List Text → Call (List Key)
  | [] => return []
  | name :: names => do
    match ← read (.record name) with
    | none => loadAll owner names
    | some v =>
      let item ← decodeKey name v
      if item.owner = owner then
        (item :: ·) <$> loadAll owner names
      else
        throw (.text "api key: cross-owned index member")

def cleanupMutation (owner : Text) (names : List Text) (items : List Key) :
    Mutation StoreKey Value Text where
  deleteKeys := items.flatMap fun item => [.record item.name, .secret item.apiKey]
  removeMembers := [⟨.owner owner, names⟩]

def cleanupPeer (owner : Text) : Call Unit := do
  validateOwner P owner
  -- No creator on any Server gets through from here on.
  set (.retired owner) .retired
  let names ← listMembers (.owner owner)
  let items ← loadAll owner names
  discard <| apply owner (cleanupMutation owner names items)

end Calls

inductive Op where
  | create (owner displayName : Text) (manageAPIKeys : Bool)
  | authenticate (secret : Text)
  | revokeSelf (principal : Key)
  | revoke (principal : Key) (name : Text)
  | revokeOwner (owner name : Text)
  | cleanupPeer (owner : Text)

inductive Result where
  | created (item : Key)
  | principal (item : Key)
  | done

def Op.call (P : Platform) : Op → Call Result
  | .create owner displayName manageAPIKeys => .created <$> APIKey.create P owner
    displayName manageAPIKeys
  | .authenticate secret => .principal <$> APIKey.authenticate secret
  | .revokeSelf principal => (fun _ => .done) <$> APIKey.revokeSelf principal
  | .revoke principal name => (fun _ => .done) <$> APIKey.revokeAs principal name
  | .revokeOwner owner name => (fun _ => .done) <$> APIKey.revokeOwner P owner name
  | .cleanupPeer owner => (fun _ => .done) <$> APIKey.cleanupPeer P owner

-- The key that a call revokes, and for whom.
def Op.target : Op → Option (Text × Text)
  | .revokeSelf principal => some (principal.owner, principal.name)
  | .revoke principal name => some (principal.owner, name)
  | .revokeOwner owner name => some (owner, name)
  | _ => none

end GizClaw.APIKey
