import GizClaw.KV.Typed
import GizClaw.Lib.Interleaving
import GizClaw.PendingDeletion.Task

-- Incremental synchronisation of what a peer can see. Any number of Servers keep the checkpoints of
-- an owner in one store, where every record has a deadline.

namespace GizClaw.PeerSync

open Interleaving
open PendingDeletion (Text ascii)
open KV.Typed (Effect)

abbrev PublicKey := BitVec 256

-- Twenty-four hours in nanoseconds, as all times are since 1970.
def retention : Int :=
  24 * 60 * 60 * 1000000000

def maxCheckpoints : Nat :=
  64

def maxTimestamp : Int :=
  2 ^ 53 - 1

def unixMilli (t : Int) : Int :=
  t / 1000000

inductive Err where
  | invalidTimestamp
  | text (message : String)
  | kv (e : KV.Err)
  deriving DecidableEq

section Maps

variable {β γ : Type}

-- Maps from texts, as Go has them.
abbrev Dict (β : Type) := AList fun _ : Text => β

def Dict.map (f : β → γ) (d : Dict β) : Dict γ where
  entries := d.entries.map fun e => ⟨e.fst, f e.snd⟩
  nodupKeys := by
    have hkeys : (d.entries.map fun e => (⟨e.fst, f e.snd⟩ : Σ _ : Text, γ)).keys =
        d.entries.keys :=
      List.map_map
    unfold List.NodupKeys
    rw [hkeys]
    exact d.nodupKeys

def Dict.filter (keep : Text → β → Bool) (d : Dict β) : Dict β where
  entries := d.entries.filter fun e => keep e.fst e.snd
  nodupKeys := d.nodupKeys.sublist List.filter_sublist

end Maps

-- The state that a peer can see, by resource paths.
abbrev Snapshot := Dict Bytes

structure Checkpoint where
  version : Nat
  hashes : Dict Text

structure Head where
  version : Nat
  timestamps : List Int
  deriving DecidableEq

structure Result where
  reset : Bool
  upserts : Snapshot
  deletes : List Text
  timestamp : Int

-- What Go's libraries do: SHA-256 in hexadecimal digits, without collisions, and the check of JSON.
structure Platform where
  hash : Bytes → Text
  valid : Bytes → Bool
  hash_injective : Function.Injective hash
  hash_ne_empty : ∀ value, hash value ≠ []

section Comparison

variable (P : Platform)

def Checkpoint.of (current : Snapshot) : Checkpoint where
  version := 1
  hashes := current.map P.hash

-- A resource without a hash reads as the empty text.
def upserts (previous : Dict Text) (current : Snapshot) : Snapshot :=
  current.filter fun key value => (previous.lookup key).getD [] ≠ P.hash value

def deletes (previous : Dict Text) (current : Snapshot) : List Text :=
  (previous.keys.filter (· ∉ current)).insertionSort (· ≤ ·)

def validSnapshot (current : Snapshot) : Bool :=
  current.entries.all fun e => e.fst ≠ [] && P.valid e.snd

def compare (previous : Option Checkpoint) (current : Snapshot) (timestamp : Int) : Result where
  reset := previous.isNone
  upserts := upserts P ((previous.map Checkpoint.hashes).getD ∅) current
  deletes := deletes ((previous.map Checkpoint.hashes).getD ∅) current
  timestamp := timestamp

end Comparison

section Retention

def validHead (h : Head) : Bool :=
  h.version = 1 ∧ h.timestamps ≠ [] ∧ h.timestamps.length ≤ maxCheckpoints

-- The timestamps so far, in order, push that of the clock beyond all of them.
def bump (before : Option Int) (timestamp : Int) : List Int → Except Err Int
  | [] => .ok timestamp
  | previous :: rest =>
    if previous ≤ 0 ∨ maxTimestamp ≤ previous ∨ before.any (previous ≤ ·) then
      .error (.text "peersync: invalid stored timestamp")
    else
      bump (some previous) (if timestamp ≤ previous then previous + 1 else timestamp) rest

def nextTimestamp (timestamps : List Int) (now : Int) : Except Err Int := do
  let timestamp ← bump none (unixMilli now) timestamps
  if timestamp ≤ 0 ∨ maxTimestamp < timestamp then
    throw (.text "peersync: clock is out of range")
  return timestamp

def expired (now previous : Int) : Bool :=
  previous < unixMilli (now - retention)

-- How many of the oldest have to go for a new one to fit in.
def overflow (timestamps : List Int) : Nat :=
  timestamps.length - (maxCheckpoints - 1)

def kept (timestamps : List Int) (now : Int) : List Int :=
  (timestamps.drop (overflow timestamps)).filter (!expired now ·)

def deleted (timestamps : List Int) (now : Int) : List Int :=
  timestamps.take (overflow timestamps) ++
    (timestamps.drop (overflow timestamps)).filter (expired now ·)

end Retention

-- The mutation that adds a checkpoint. `now` is the reading of the clock that its deadlines are
-- from, and the snapshot is known to the call only.
structure Save where
  expected : Option Head
  head : Head
  timestamp : Int
  payload : Checkpoint
  deleted : List Int
  now : Int
  snapshot : Snapshot

def Save.deadline (m : Save) : Int :=
  m.now + retention

-- All that a call does between its reading of the clock and its mutation.
def plan (P : Platform) (expected : Option Head) (now : Int) (current : Snapshot) :
    Except Err Save := do
  let timestamps := (expected.map Head.timestamps).getD []
  let timestamp ← nextTimestamp timestamps now
  return {
    expected := expected
    head := ⟨1, kept timestamps now ++ [timestamp]⟩
    timestamp := timestamp
    payload := .of P current
    deleted := deleted timestamps now
    now := now
    snapshot := current
  }

-- The records of an owner, with their deadlines.
structure Records where
  head : Option (Head × Int)
  checkpoints : Int → Option (Checkpoint × Int)

-- A client that clears its state when it is told to, applies what it gets, and keeps the timestamp.
-- It may give up on a call and make another one. `passed` is the snapshot of the last call that
-- completed.
structure Client where
  view : Text → Option Bytes
  timestamp : Int
  turn : Nat
  passed : Option Snapshot

-- A mutation that went through.
structure Issue where
  timestamp : Int
  snapshot : Snapshot
  deadline : Int

structure State where
  now : Int
  records : PublicKey → Records
  issued : PublicKey → List Issue
  clients : Nat → Client

def State.init : State where
  now := 0
  records := fun _ => ⟨none, fun _ => none⟩
  issued := fun _ => []
  clients := fun _ => ⟨fun _ => none, 0, 0, none⟩

-- Whether the timestamp that a checkpoint is looked up for is the one that the client has kept.
inductive Act where
  | clock
  | getCheckpoint (owner : PublicKey) (timestamp : Int) (own : Bool)
  | getHead (owner : PublicKey)
  | save (owner : PublicKey) (mutation : Save)
  | begin (client : Nat)
  | finish (client : Nat) (turn : Nat) (result : Result) (current : Snapshot)

abbrev Reply : Act → Type
  | .clock => Int
  | .getCheckpoint .. => Except KV.Err Checkpoint
  | .getHead _ => Except KV.Err Head
  | .save .. => Except KV.Err Bool
  | .begin _ => Nat × Int
  | .finish .. => Unit

-- A record is there until its deadline.
def live {α : Type} (now : Int) : Option (α × Int) → Option α
  | some (v, deadline) => if now < deadline then some v else none
  | none => none

def get {α : Type} (now : Int) (row : Option (α × Int)) : Except KV.Err α :=
  match live now row with
  | some v => .ok v
  | none => .error .notFound

def Records.save (records : Records) (m : Save) : Records where
  head := some (m.head, m.deadline)
  checkpoints := fun timestamp =>
    if timestamp ∈ m.deleted then none
    else if timestamp = m.timestamp then some (m.payload, m.deadline)
    else records.checkpoints timestamp

def Result.apply (r : Result) (view : Text → Option Bytes) (key : Text) : Option Bytes :=
  match r.upserts.lookup key with
  | some value => some value
  | none => if key ∈ r.deletes then none else if r.reset then none else view key

namespace State

def committed (s : State) (owner : PublicKey) (m : Save) : State :=
  { s with
    records := Function.update s.records owner ((s.records owner).save m)
    issued := Function.update s.issued owner
      (s.issued owner ++ [⟨m.timestamp, m.snapshot, m.deadline⟩]) }

def save (s : State) (owner : PublicKey) (m : Save) : Except KV.Err Bool × State :=
  if m.deadline ≤ s.now then
    (.error .invalidDeadline, s)
  else if live s.now (s.records owner).head = m.expected then
    (.ok true, s.committed owner m)
  else
    (.ok false, s)

def begin (s : State) (client : Nat) : State :=
  let before := s.clients client
  { s with clients := Function.update s.clients client { before with turn := before.turn + 1 } }

-- The result of a call that the client has given up on is lost.
def finish (s : State) (client turn : Nat) (result : Result) (current : Snapshot) : State :=
  let before := s.clients client
  let after : Client := ⟨result.apply before.view, result.timestamp, turn + 1, some current⟩
  if before.turn = turn then { s with clients := Function.update s.clients client after } else s

end State

-- The timestamps that are issued stay less than the retention period ahead of the clock.
def Save.Near (m : Save) : Prop :=
  m.timestamp < unixMilli m.deadline

instance (m : Save) : Decidable m.Near :=
  inferInstanceAs (Decidable (_ < _))

def DoesAt : Exec Act Reply State
  | .clock, s, r, s' => r = s.now ∧ s' = s
  | .getCheckpoint owner timestamp _, s, r, s' =>
      Effect s s (get s.now ((s.records owner).checkpoints timestamp)) r s'
  | .getHead owner, s, r, s' =>
    Effect s s (get s.now (s.records owner).head) r s'
  | .save owner m, s, r, s' =>
      m.Near ∧ Effect s (s.save owner m).snd (s.save owner m).fst r s'
  | .begin client, s, r, s' =>
      r = ((s.clients client).turn + 1, (s.clients client).timestamp) ∧ s' = s.begin client
  | .finish client turn result current, s, _, s' => s' = s.finish client turn result current

-- Time passes before an action, and never goes back.
def Does : Exec Act Reply State :=
  fun a s r s' => ∃ now, s.now ≤ now ∧ DoesAt a { s with now := now } r s'

def performAt : (a : Act) → State → Option (Reply a × State)
  | .clock, s => some (s.now, s)
  | .getCheckpoint owner timestamp _, s =>
      some (get s.now ((s.records owner).checkpoints timestamp), s)
  | .getHead owner, s => some (get s.now (s.records owner).head, s)
  | .save owner m, s => if m.Near then some (s.save owner m) else none
  | .begin client, s =>
      some (((s.clients client).turn + 1, (s.clients client).timestamp), s.begin client)
  | .finish client turn result current, s => some ((), s.finish client turn result current)

-- What happens at a given time when nothing fails.
def perform (now : Int) (a : Act) (s : State) : Option (Reply a × State) :=
  if s.now ≤ now then performAt a { s with now := now } else none

theorem does_of_perform (now : Int) (a : Act) (s : State) (r : Reply a) (s' : State)
    (h : perform now a s = some (r, s')) : Does a s r s' := by
  simp only [perform, Option.ite_none_right_eq_some] at h
  obtain ⟨hle, h⟩ := h
  refine ⟨now, hle, ?_⟩
  cases a
  case clock | begin => cases h; exact ⟨rfl, rfl⟩
  case getCheckpoint | getHead => cases h; exact .done
  case finish => cases h; rfl
  case save =>
    simp only [performAt, Option.ite_none_right_eq_some, Option.some.injEq] at h
    refine ⟨h.left, ?_⟩
    rw [h.right]
    exact .done

section Calls

abbrev Call := ExceptT Err (Program Act Reply)

def clock : Call Int :=
  .mk <| .act .clock fun t => .pure (.ok t)

def getCheckpoint (owner : PublicKey) (timestamp : Int) (own : Bool) : Call (Option Checkpoint) :=
  .mk <| .act (.getCheckpoint owner timestamp own) fun
    | .ok v => .pure (.ok (some v))
    | .error .notFound => .pure (.ok none)
    | .error err => .pure (.error (.kv err))

def getHead (owner : PublicKey) : Call (Option Head) :=
  .mk <| .act (.getHead owner) fun
    | .ok v => .pure (.ok (some v))
    | .error .notFound => .pure (.ok none)
    | .error err => .pure (.error (.kv err))

def save (owner : PublicKey) (m : Save) : Call Bool :=
  .mk <| .act (.save owner m) fun r => .pure (r.mapError .kv)

def begin (client : Nat) : Call (Nat × Int) :=
  .mk <| .act (.begin client) fun r => .pure (.ok r)

def finish (client turn : Nat) (result : Result) (current : Snapshot) : Call Unit :=
  .mk <| .act (.finish client turn result current) fun r => .pure (.ok r)

def loadCheckpoint (owner : PublicKey) (timestamp : Int) (own : Bool) :
    Call (Option Checkpoint) := do
  if timestamp = 0 then
    return none
  else
    let now ← clock
    if timestamp < unixMilli (now - retention) then
      return none
    else
      match ← getCheckpoint owner timestamp own with
      | none => return none
      | some value =>
        if value.version ≠ 1 then
          throw (.text "peersync: invalid stored checkpoint")
        else
          return some value

variable (P : Platform)

def saveRounds (owner : PublicKey) (current : Snapshot) : Nat → Call Int
  | 0 => throw (.text "peersync: checkpoint contention; retry synchronization")
  | rounds + 1 => do
    let expected ← getHead owner
    if expected.all validHead then
      let now ← clock
      let m ← (plan P expected now current : Except Err Save)
      if ← save owner m then
        return m.timestamp
      else
        saveRounds owner current rounds
    else
      throw (.text "peersync: invalid stored head")

def saveCheckpoint (owner : PublicKey) (current : Snapshot) : Call Int :=
  saveRounds P owner current 32

def sync (owner : PublicKey) (timestamp : Int) (own : Bool) (current : Snapshot) : Call Result := do
  if timestamp < 0 ∨ maxTimestamp < timestamp then
    throw .invalidTimestamp
  else if owner = 0 then
    throw (.text "peersync: owner or store is not configured")
  else
    let previous ← loadCheckpoint owner timestamp own
    if validSnapshot P current then
      let timestamp ← saveCheckpoint P owner current
      return compare P previous current timestamp
    else
      throw (.text "peersync: invalid snapshot")

end Calls

-- A client asks with the timestamp that it has kept, or with another number.
structure Op where
  client : Nat
  number : Option Int
  current : Snapshot

def Op.call (P : Platform) (owners : Nat → PublicKey) (op : Op) : Call Unit := do
  let (turn, timestamp) ← begin op.client
  let result ← sync P (owners op.client) (op.number.getD timestamp) op.number.isNone op.current
  finish op.client turn result op.current

end GizClaw.PeerSync
