import GizClaw.KV.Typed
import GizClaw.Lib.Interleaving

-- The commits of presence transitions. A Server puts the transitions of several peers into one
-- mutation, and when it is turned down finds out by reading which of them to leave out.

namespace GizClaw.Presence

open Interleaving (Program)
open KV.Typed (Condition Entry Mutation)

-- A peer's public key.
abbrev Peer := Bytes

inductive Key where
  | generation (server : Peer)
  | lease (server : Peer)
  | peer (peer : Peer)
  | owner (peer : Peer)
  deriving DecidableEq

abbrev Store := KV.Typed.Store Key Bytes Bytes

structure Service where
  server : Peer
  generation : Bytes

-- A transition. The owner is written where the connection claims the peer.
structure Request where
  peer : Peer
  expected : Option Bytes
  value : Bytes
  claim : Option Bytes
  deriving DecidableEq

structure TransitionResult where
  matched : Bool
  err : Option KV.Err
  deriving DecidableEq

namespace Request

def owner (q : Request) : Condition Key Bytes :=
  ⟨.owner q.peer, q.expected⟩

def entries (q : Request) : List (Entry Key Bytes) :=
  ⟨.peer q.peer, q.value⟩ :: q.claim.toList.map (⟨.owner q.peer, ·⟩)

end Request

inductive Act where
  | ctxErr
  | apply (mutation : Mutation Key Bytes Bytes)
  | batchGet (key : Key)
  | report (peer : Peer) (result : TransitionResult)

abbrev Reply : Act → Type
  | .ctxErr => Option KV.Err
  | .apply _ => Except KV.Err Bool
  | .batchGet _ => Except KV.Err Bytes
  | .report .. => Unit

abbrev Call := Program Act Reply

def act (a : Act) : Call (Reply a) :=
  .perform a

variable (S : Service)

def Service.guard : Condition Key Bytes :=
  ⟨.generation S.server, some S.generation⟩

def transitionMutation (q : Request) : Mutation Key Bytes Bytes where
  conditions := [S.guard, q.owner]
  entries := q.entries

def batchMutation (batch : List Request) : Mutation Key Bytes Bytes where
  conditions := S.guard :: batch.map (·.owner)
  entries := batch.flatMap (·.entries)

def completeTransitions (matched : Bool) (err : Option KV.Err) : List Request → Call Unit
  | [] => return
  | q :: batch => do
    let _ ← act (.report q.peer ⟨matched, err⟩)
    completeTransitions matched err batch

-- The reads have no common moment.
def batchGet : List Key → Call (List (Except KV.Err Bytes))
  | [] => return []
  | k :: keys => do
    let value ← act (.batchGet k)
    let values ← batchGet keys
    return value :: values

-- The requests to try again.
def selectActive : List (Request × Except KV.Err Bytes) → Call (List Request)
  | [] => return []
  | (q, value) :: qvs =>
    match value with
    | .error .notFound =>
      if q.expected = none then do
        let active ← selectActive qvs
        return q :: active
      else do
        let _ ← act (.report q.peer ⟨false, none⟩)
        selectActive qvs
    | .error err => do
      let _ ← act (.report q.peer ⟨false, some err⟩)
      selectActive qvs
    | .ok v =>
      if q.expected = some v then do
        let active ← selectActive qvs
        return q :: active
      else do
        let _ ← act (.report q.peer ⟨false, none⟩)
        selectActive qvs

-- What happens to a batch that is turned down. The reply has the requests to try again.
def inspect (batch : List Request) : Call (List Request) := do
  let values ← batchGet (S.guard.key :: batch.map (·.owner.key))
  match values with
  | [] => return []
  | generation :: values =>
    match generation with
    | .error .notFound => do
      completeTransitions false none batch
      return []
    | .error err => do
      completeTransitions false (some err) batch
      return []
    | .ok v =>
      if v = S.generation then
        selectActive (batch.zip values)
      else do
        completeTransitions false none batch
        return []

-- The loop need not end while others change what it reads. `none` means that it is still running.
def commitTransitions : Nat → List Request → Call (Option Unit)
  | _, [] => return some ()
  | 0, _ => return none
  | fuel + 1, batch => do
    match ← act .ctxErr with
    | some err => do
      completeTransitions false (some err) batch
      return some ()
    | none =>
      match ← act (.apply (batchMutation S batch)) with
      | .error err => do
        completeTransitions false (some err) batch
        return some ()
      | .ok matched =>
        if matched || batch.length = 1 then do
          completeTransitions matched none batch
          return some ()
        else do
          let active ← inspect S batch
          commitTransitions fuel active

structure Commit where
  mutation : Mutation Key Bytes Bytes
  before : Store
  after : Store

-- What has happened in a call: the results that were sent, the mutations that took place and the
-- states of the store that it met.
structure State where
  results : List (Peer × TransitionResult) := []
  commits : List Commit := []
  seen : List Store := []

-- `BatchGet` finds nothing where there is a collection.
def readRecord (σ : Store) (k : Key) : Except KV.Err Bytes :=
  match σ k with
  | some (.record v) => .ok v
  | _ => .error .notFound

-- Each action meets a store that others may have changed in any way. An action may fail, and when
-- it fails it may have had its effect all the same.
inductive Does : (a : Act) → State → Reply a → State → Prop where
  | ctxErr {s : State} (err : Option KV.Err) : Does .ctxErr s err s
  | applied {s : State} {m : Mutation Key Bytes Bytes} {σ σ' : Store}
    (h : σ.applyMutation m = .ok (some σ')) :
    Does (.apply m) s (.ok true) { s with commits := ⟨m, σ, σ'⟩ :: s.commits, seen := σ :: s.seen }
  | unmatched {s : State} {m : Mutation Key Bytes Bytes} {σ : Store}
    (h : σ.applyMutation m = .ok none) :
    Does (.apply m) s (.ok false) { s with seen := σ :: s.seen }
  | applyFailed {s : State} {m : Mutation Key Bytes Bytes} (err : KV.Err) :
    Does (.apply m) s (.error err) s
  | replyLost {s : State} {m : Mutation Key Bytes Bytes} {σ σ' : Store} (err : KV.Err)
    (h : σ.applyMutation m = .ok (some σ')) :
    Does (.apply m) s (.error err)
      { s with commits := ⟨m, σ, σ'⟩ :: s.commits, seen := σ :: s.seen }
  | batchGet {s : State} {k : Key} {σ : Store} :
    Does (.batchGet k) s (readRecord σ k) { s with seen := σ :: s.seen }
  | getFailed {s : State} {k : Key} {err : KV.Err} (h : err ≠ .notFound) :
    Does (.batchGet k) s (.error err) s
  | report {s : State} {peer : Peer} {result : TransitionResult} :
    Does (.report peer result) s () { s with results := (peer, result) :: s.results }

end GizClaw.Presence
