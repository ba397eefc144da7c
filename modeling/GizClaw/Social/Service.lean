import GizClaw.Lib.Interleaving
import GizClaw.Social.Util

-- What the social services act on: one key-value store, the Workspaces, and the peers. A call is a
-- program of such actions. Any number of Servers run calls at the same time, and as their locks are
-- their own, nothing else orders the actions of different calls.

namespace GizClaw.Social

open Interleaving
open PendingDeletion (Text Time)
open KV.Typed (Mutation Effect)

inductive Err where
  | kv (e : KV.Err)
  | text (message : String)
  | join (e e' : Err)
  -- The Server stops before a loop is done.
  | stopped
  | resourceAlreadyExists
  | inviteTokenSelfOwned
  | peerFriendLimit
  | friendCreationCancelled
  | friendCapacityChanged
  deriving DecidableEq

def Err.is : Err → Err → Bool
  | join e e', target => e.is target || e'.is target
  | e, target => e = target

structure Workspace where
  id : Text
  name : Text
  deriving DecidableEq

-- `workspaces` holds the identities of those that were created and neither deleted nor handed over
-- to be retired. What each name was made for and which revisions were handed out is not kept
-- anywhere in the program.
structure State (κ ν : Type) where
  store : KV.Typed.Store κ ν Text
  workspaces : Text → Option Text
  names : Text → Option (Text × Text)
  revisions : Finset Text

def State.init {κ ν : Type} : State κ ν where
  store := fun _ => none
  workspaces := fun _ => none
  names := fun _ => none
  revisions := ∅

-- A mutation gets the revisions that it writes in the step that writes them, as nobody else sees
-- them before.
inductive Act (κ ν : Type) where
  | get (key : κ)
  | listMembers (key : κ)
  | apply (draws : Nat) (mutation : List Text → Mutation κ ν Text)
  | now
  | newID (scope : Text) (name : Text → Text)
  | newRoomToken
  | peerAvailability (peer : Text)
  | createSystemWorkspace (workspace : Workspace)
  | deleteSystemWorkspace (name : Text)
  | retireSystemWorkspaceByID (id : Text)

variable {κ ν : Type}

abbrev Reply : Act κ ν → Type
  | .get _ => Except KV.Err ν
  | .listMembers _ => Except KV.Err (Finset Text)
  | .apply .. => Except KV.Err Bool
  | .now => Time
  | .newID .. => Text
  | .newRoomToken => Except KV.Err Text
  | .peerAvailability _ => Except KV.Err Unit
  | .createSystemWorkspace _ => Except KV.Err Workspace
  | .deleteSystemWorkspace _ => Except KV.Err Unit
  | .retireSystemWorkspaceByID _ => Except KV.Err Unit

namespace State

def setWorkspaces (s : State κ ν) (workspaces : Text → Option Text) : State κ ν :=
  { s with workspaces := workspaces }

-- A Workspace that is there already is taken as it is.
def create (s : State κ ν) (w : Workspace) : Workspace × State κ ν :=
  match s.workspaces w.name with
  | some id => (⟨id, w.name⟩, s)
  | none => (w, s.setWorkspaces (Function.update s.workspaces w.name (some w.id)))

-- A new identity is one whose name was not used before.
def mint (s : State κ ν) (scope name id : Text) : State κ ν :=
  { s with names := Function.update s.names name (some (scope, id)) }

def delete (s : State κ ν) (name : Text) : Except KV.Err Unit × State κ ν :=
  match s.workspaces name with
  | some _ => (.ok (), s.setWorkspaces (Function.update s.workspaces name none))
  | none => (.error .notFound, s)

def retire (s : State κ ν) (id : Text) : State κ ν :=
  s.setWorkspaces fun name => if s.workspaces name = some id then none else s.workspaces name

variable [DecidableEq κ] [DecidableEq ν]

def apply (s : State κ ν) (m : Mutation κ ν Text) (revisions : List Text) :
    Except KV.Err Bool × State κ ν :=
  match s.store.applyMutation m with
  | .ok (some σ) => (.ok true, { s with store := σ, revisions := s.revisions ∪ revisions.toFinset })
  | .ok none => (.ok false, s)
  | .error err => (.error err, s)

-- Revisions that were never handed out before.
def Fresh (s : State κ ν) (draws : Nat) (revisions : List Text) : Prop :=
  revisions.length = draws ∧ revisions.Nodup ∧ ∀ r ∈ revisions, r ∉ s.revisions

instance (s : State κ ν) (draws : Nat) (revisions : List Text) :
    Decidable (s.Fresh draws revisions) :=
  inferInstanceAs (Decidable (_ ∧ _ ∧ _))

end State

variable [DecidableEq κ] [DecidableEq ν]

-- Only canonical public keys belong to available peers, and identities do not repeat.
def Does (P : Platform) : Exec (Act κ ν) Reply (State κ ν)
  | .get k, s, r, s' => Effect s s (s.store.get k) r s'
  | .listMembers k, s, r, s' => Effect s s (s.store.listMembers k) r s'
  | .apply draws m, s, r, s' => ∃ revisions, s.Fresh draws revisions ∧
      Effect s (s.apply (m revisions) revisions).snd (s.apply (m revisions) revisions).fst r s'
  | .now, s, _, s' => s' = s
  | .newID scope name, s, r, s' =>
      s.names (name r) = none ∧ s' = s.mint scope (name r) r
  | .newRoomToken, s, _, s' => s' = s
  | .peerAvailability peer, s, r, s' => (r = .ok () → P.isPublicKey peer) ∧ s' = s
  | .createSystemWorkspace w, s, r, s' => Effect s (s.create w).snd (.ok (s.create w).fst) r s'
  | .deleteSystemWorkspace name, s, r, s' => Effect s (s.delete name).snd (s.delete name).fst r s'
  | .retireSystemWorkspaceByID id, s, r, s' => Effect s (s.retire id) (.ok ()) r s'

-- What happens when nothing fails. A choice settles what is drawn.
structure Choice where
  revisions : List Text := []
  time : Time := 0
  text : Text := []

def perform (P : Platform) (ch : Choice) :
    (a : Act κ ν) → State κ ν → Option (Reply a × State κ ν)
  | .get k, s => some (s.store.get k, s)
  | .listMembers k, s => some (s.store.listMembers k, s)
  | .apply draws m, s =>
    if s.Fresh draws ch.revisions then some (s.apply (m ch.revisions) ch.revisions) else none
  | .now, s => some (ch.time, s)
  | .newID scope name, s =>
    if s.names (name ch.text) =
      none then some (ch.text, s.mint scope (name ch.text) ch.text) else none
  | .newRoomToken, s => some (.ok ch.text, s)
  | .peerAvailability peer, s => if P.isPublicKey peer then some (.ok (), s) else none
  | .createSystemWorkspace w, s => some (.ok (s.create w).fst, (s.create w).snd)
  | .deleteSystemWorkspace name, s => some (s.delete name)
  | .retireSystemWorkspaceByID id, s => some (.ok (), s.retire id)

theorem does_of_perform (P : Platform) (ch : Choice) (a : Act κ ν) (s : State κ ν) (r : Reply a)
    (s' : State κ ν) (h : perform P ch a s = some (r, s')) : Does P a s r s' := by
  cases a
  case get k | listMembers k | createSystemWorkspace w | retireSystemWorkspaceByID id =>
    cases h; exact .done
  case now | newRoomToken => cases h; rfl
  case deleteSystemWorkspace =>
    simp only [perform, Option.some.injEq] at h
    simp only [Does, h]
    exact .done
  case apply =>
    simp only [perform, Option.ite_none_right_eq_some, Option.some.injEq] at h
    refine ⟨ch.revisions, h.left, ?_⟩
    rw [h.right]
    exact .done
  case newID =>
    simp only [perform, Option.ite_none_right_eq_some, Option.some.injEq, Prod.mk.injEq] at h
    obtain ⟨hn, rfl, rfl⟩ := h
    exact ⟨hn, rfl⟩
  case peerAvailability =>
    simp only [perform, Option.ite_none_right_eq_some, Option.some.injEq, Prod.mk.injEq] at h
    obtain ⟨hp, rfl, rfl⟩ := h
    exact ⟨fun _ => hp, rfl⟩

section Calls

abbrev Call (κ ν : Type) := ExceptT Err (Program (Act κ ν) Reply)

-- Nothing under the key is not an error.
def load (k : κ) : Call κ ν (Option ν) :=
  .mk <| .act (.get k) fun
    | .ok v => .pure (.ok (some v))
    | .error .notFound => .pure (.ok none)
    | .error err => .pure (.error (.kv err))

def listMembers (k : κ) : Call κ ν (Finset Text) :=
  .mk <| .act (.listMembers k) fun r => .pure (r.mapError .kv)

def apply (m : Mutation κ ν Text) : Call κ ν Bool :=
  .mk <| .act (.apply 0 fun _ => m) fun r => .pure (r.mapError .kv)

def applyDrawn (draws : Nat) (m : List Text → Mutation κ ν Text) : Call κ ν Bool :=
  .mk <| .act (.apply draws m) fun r => .pure (r.mapError .kv)

def now : Call κ ν Time :=
  .mk <| .act .now fun t => .pure (.ok t)

def newID (scope : Text) (name : Text → Text) : Call κ ν Text :=
  .mk <| .act (.newID scope name) fun id => .pure (.ok id)

def newRoomToken : Call κ ν Text :=
  .mk <| .act .newRoomToken fun r => .pure (r.mapError .kv)

def peerAvailability (peer : Text) : Call κ ν Unit :=
  .mk <| .act (.peerAvailability peer) fun r => .pure (r.mapError .kv)

def createSystemWorkspace (w : Workspace) : Call κ ν Workspace :=
  .mk <| .act (.createSystemWorkspace w) fun r => .pure (r.mapError .kv)

-- A Workspace that is not there needs no deletion.
def deleteSystemWorkspace (name : Text) : Call κ ν Unit :=
  .mk <| .act (.deleteSystemWorkspace name) fun
    | .ok _ => .pure (.ok ())
    | .error .notFound => .pure (.ok ())
    | .error err => .pure (.error (.kv err))

def retireSystemWorkspaceByID (id : Text) : Call κ ν Unit :=
  .mk <| .act (.retireSystemWorkspaceByID id) fun r => .pure (r.mapError .kv)

-- The record under a key, unless there is none or it is of another kind.
def readJSONValue {α : Type} (decode : ν → Option α) (k : κ) : Call κ ν (Option α) := do
  match ← load k with
  | none => return none
  | some v =>
    match decode v with
    | some a => return some a
    | none => throw (.text "json: cannot unmarshal")

end Calls

end GizClaw.Social
