import GizClaw.KV.Timed
import GizClaw.Social.Service

-- Invitations and the index of their tokens, within one domain: those of friends, or those of
-- groups. Both records of an invitation have the same deadline.

namespace GizClaw.Social.InviteToken

open Interleaving (Program Exec)
open PendingDeletion (Text ascii)
open KV.Typed (Effect)
open KV.Timed (Store Mutation)

abbrev Key := List Text

-- Digests of tokens are told apart.
structure Platform extends Social.Platform where
  digest : Text → Text
  digest_inj : Function.Injective digest

-- `content` is the rest of the record.
structure Invitation where
  token : Text
  expiresAt : Option KV.Time
  content : Bytes
  deriving DecidableEq

inductive Value where
  | invitation (i : Invitation)
  | locator (key : Key)
  deriving DecidableEq

structure State where
  now : KV.Time
  store : Store Key Value

def State.init (now : KV.Time) : State where
  now := now
  store := fun _ => none

def State.live (s : State) (k : Key) : Option Value :=
  s.store.live s.now k

inductive Act where
  | get (key : Key)
  | apply (mutation : Mutation Key Value)
  | wait (duration : Nat)

abbrev Reply : Act → Type
  | .get _ => Except KV.Err Value
  | .apply _ => Except KV.Err Bool
  | .wait _ => Unit

def State.apply (s : State) (m : Mutation Key Value) : Except KV.Err Bool × State :=
  match s.store.applyMutation s.now m with
  | .ok (some σ) => (.ok true, { s with store := σ })
  | .ok none => (.ok false, s)
  | .error err => (.error err, s)

def Does : Exec Act Reply State
  | .get k, s, r, s' => Effect s s (s.store.get s.now k) r s'
  | .apply m, s, r, s' => Effect s (s.apply m).snd (s.apply m).fst r s'
  | .wait duration, s, _, s' => s' = { s with now := s.now + duration }

abbrev Call := ExceptT Err (Program Act Reply)

-- Nothing under the key is not an error.
def load (k : Key) : Call (Option Value) :=
  .mk <| .act (.get k) fun
    | .ok v => .pure (.ok (some v))
    | .error .notFound => .pure (.ok none)
    | .error err => .pure (.error (.kv err))

def apply (m : Mutation Key Value) : Call Bool :=
  .mk <| .act (.apply m) fun
    | .ok b => .pure (.ok b)
    | .error err => .pure (.error (.kv err))

section Calls

variable (P : Platform)

def inviteTokenIndexKey (root : Key) (token : Text) : Key :=
  root ++ [ascii "by-token", P.digest token]

def decodeToken : Value → Except Err Text
  | .invitation i => .ok i.token
  | .locator _ => .error (.text "json: cannot unmarshal array into Go value")

-- The token of the record that is there, if any.
def previousToken : Option Value → Except Err Text
  | some v => decodeToken v
  | none => .ok []

def writeMutation (key : Key) (value : Invitation) (old indexed : Option Value) (previous : Text) :
    Mutation Key Value where
  conditions := [⟨key, old⟩, ⟨inviteTokenIndexKey P key.dropLast value.token, indexed⟩]
  entries := [⟨key, .invitation value, value.expiresAt⟩,
    ⟨inviteTokenIndexKey P key.dropLast value.token, .locator key, value.expiresAt⟩]
  deleteKeys := if previous ≠ [] ∧ previous ≠ value.token then
    [inviteTokenIndexKey P key.dropLast previous] else []

def writeLoop (key : Key) (value : Invitation) : Nat → Call Unit
  | 0 => throw (.text "social: invite token changed concurrently")
  | tries + 1 => do
    let old ← load key
    let previous ← previousToken old
    let indexed ← load (inviteTokenIndexKey P key.dropLast value.token)
    if indexed.any (· ≠ .locator key) then
      throw (.text "social: invite token already belongs to another resource")
    else if ← apply (writeMutation P key value old indexed previous) then
      return ()
    else
      writeLoop key value tries

def writeInviteToken (key : Key) (value : Invitation) : Call Unit :=
  if P.trimSpace value.token = [] ∨ key.length < 2 then throw (.text "social: invalid invite token")
  else writeLoop P key value 16

def deleteMutation (key : Key) (data : Value) (token : Text) : Mutation Key Value where
  conditions := [⟨key, some data⟩]
  deleteKeys := key :: if token ≠ [] then [inviteTokenIndexKey P key.dropLast token] else []

def deleteLoop (key : Key) : Nat → Call Unit
  | 0 => throw (.text "social: invite token changed concurrently")
  | tries + 1 => do
    match ← load key with
    | none => return ()
    | some data => do
      let token ← decodeToken data
      if ← apply (deleteMutation P key data token) then return () else deleteLoop key tries

def deleteInviteToken (key : Key) : Call Unit :=
  deleteLoop P key 16

def decodeLocator : Value → Except Err Key
  | .locator key => .ok key
  | .invitation _ => .error (.text "json: cannot unmarshal object into Go value of type kv.Key")

def readInviteToken (root : Key) (token : Text) : Call Invitation := do
  match ← load (inviteTokenIndexKey P root token) with
  | none => throw (.kv .notFound)
  | some data => do
    let key ← decodeLocator data
    if key.length ≠ root.length + 1 then throw (.text "social: invalid invite token locator")
    else if key.take root.length ≠ root then
      throw (.text "social: invite token locator domain mismatch")
    else
      match ← load key with
      | none => throw (.kv .notFound)
      | some (.locator _) => throw (.text "json: cannot unmarshal array into Go value")
      | some (.invitation i) => if i.token ≠ token then throw (.kv .notFound) else return i

end Calls

inductive Op where
  | write (key : Key) (value : Invitation)
  | delete (key : Key)
  | read (token : Text)
  | wait (duration : Nat)

def Domain (root key : Key) : Prop :=
  ∃ segment, key = root ++ [segment]

def Op.key : Op → Option Key
  | write key _ => some key
  | delete key => some key
  | read _ => none
  | wait _ => none

def Op.call (P : Platform) (root : Key) : Op → Call (Option Invitation)
  | write key value => do
    writeInviteToken P key value
    return none
  | delete key => do
    deleteInviteToken P key
    return none
  | read token => some <$> readInviteToken P root token
  | wait duration => .mk <| .act (.wait duration) fun _ => .pure (.ok none)

-- Any number of calls on the resources of one domain.
abbrev Ops (root : Key) := { op : Op // ∀ key ∈ op.key, Domain root key }

def program (P : Platform) (root : Key) (op : Ops root) :
    Program Act Reply (Except Err (Option Invitation)) :=
  (op.val.call P root).run

abbrev Config := Interleaving.Config Act Reply (Except Err (Option Invitation)) State

def Reachable (P : Platform) (root : Key) (now : KV.Time) : Config → Prop :=
  Interleaving.Reachable Does (program P root) (.init now)

end GizClaw.Social.InviteToken
