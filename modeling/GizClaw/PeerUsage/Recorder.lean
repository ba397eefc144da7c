import GizClaw.Lib.Interleaving
import GizClaw.Lib.Tally
import GizClaw.PendingDeletion.Task

-- Hourly model consumption: recorders that add up reports in memory, and the table that they write
-- their sums to. Any number of recorders share one table. Clocks may say anything at any time, and
-- a write may fail with or without having committed.

namespace GizClaw.PeerUsage

open Interleaving
open PendingDeletion (Text ascii)

abbrev PublicKey := BitVec 256

-- Nanoseconds since the Unix epoch.
abbrev Time := Int

def hour : Time :=
  3600 * 10 ^ 9

def day : Time :=
  24 * hour

def retention : Time :=
  90 * day

def truncateHour (t : Time) : Time :=
  t - t % hour

def cutoff (now : Time) : Time :=
  truncateHour now - retention

def maxInt64 : Nat :=
  2 ^ 63 - 1

def sqlUnixNano (t : Time) : Bool :=
  -2 ^ 63 ≤ t ∧ t ≤ maxInt64

inductive Err where
  | text (message : String)
  | cancelled
  deriving DecidableEq

structure UsageRecord where
  input : Int
  cachedInput : Int
  output : Int

structure BucketKey where
  peer : PublicKey
  model : Text
  hour : Time
  deriving DecidableEq

structure Bucket where
  key : BucketKey
  writer : Text
  quantity : Nat
  acknowledged : Nat
  deriving DecidableEq

structure Snapshot where
  key : BucketKey
  writerID : Text
  quantity : Nat
  deriving DecidableEq

def Bucket.snapshot (b : Bucket) : Snapshot :=
  ⟨b.key, b.writer, b.quantity⟩

structure Recorder where
  buckets : List Bucket := []
  sequence : Nat := 0
  closed : Bool := false
  gate : Bool := false

def dash : Byte :=
  45

def decimal (n : Nat) : Text :=
  if n = 0 then [48] else (Nat.digits 10 n).reverse.map fun d => Fin.ofNat 256 (48 + d)

-- A writer is one epoch of a recorder, so it never comes back.
def writerID (identity : Text) (sequence : Nat) : Text :=
  identity ++ dash :: decimal sequence

section Memory

variable (identity : Text)

-- The counter under a key, and the recorder that holds it.
def Recorder.bucket (r : Recorder) (key : BucketKey) : Recorder × Bucket :=
  match r.buckets.find? (·.key = key) with
  | some b => (r, b)
  | none =>
    let b := ⟨key, writerID identity (r.sequence + 1), 0, 0⟩
    ({ r with sequence := r.sequence + 1, buckets := r.buckets ++ [b] }, b)

-- An accepted report goes to the writer of its bucket.
def Recorder.record (r : Recorder) (key : BucketKey) (total : Nat) : Except Err Text × Recorder :=
  if r.closed then
    (.error (.text "peerusage: recorder is closed"), r)
  else
    let (r, b) := r.bucket identity key
    if maxInt64 < b.quantity + total then
      (.error (.text "peerusage: hourly quantity overflow"), r)
    else
      (.ok b.writer, { r with buckets := r.buckets.map fun c =>
        if c.key = key then { c with quantity := c.quantity + total } else c })

-- Hours that are no longer retained are dropped, and the others are written unless they have been.
def Recorder.snapshot (r : Recorder) (cutoff : Time) : List Snapshot × Recorder :=
  let kept := r.buckets.filter fun b => ¬b.key.hour < cutoff
  ((kept.filter fun b => b.quantity ≠ b.acknowledged).map Bucket.snapshot,
    { r with buckets := kept })

-- A snapshot counts only for the writer that it was taken from.
def Bucket.acknowledge (b : Bucket) (item : Snapshot) : Bucket :=
  if b.key = item.key ∧ b.writer = item.writerID then
    { b with acknowledged := max b.acknowledged item.quantity }
  else
    b

-- Past hours with nothing left to write are dropped.
def Recorder.acknowledge (r : Recorder) (items : List Snapshot) (hour : Time) : Recorder :=
  { r with buckets := (r.buckets.map fun b => items.foldl Bucket.acknowledge b).filter fun b =>
      ¬(b.key.hour < hour ∧ b.quantity = b.acknowledged) }

end Memory

structure RowKey where
  key : BucketKey
  writer : Text
  deriving DecidableEq

-- The primary key of a row is its bucket and its writer.
abbrev Table := List (RowKey × Nat)

inductive Dialect where
  | sqlite
  | postgreSQL
  deriving DecidableEq

-- SQLite deletes hours, and PostgreSQL drops whole days.
def Dialect.expired (d : Dialect) (cutoff hour : Time) : Bool :=
  match d with
  | sqlite => hour < cutoff
  | postgreSQL => hour - hour % day + day ≤ cutoff

namespace Table

variable (dialect : Dialect) (table : Table)

def maintain (cutoff : Time) : Table :=
  table.filter fun row => !dialect.expired cutoff row.fst.key.hour

def put (item : Snapshot) : Table :=
  Tally.raise table ⟨item.key, item.writerID⟩ item.quantity

def write (cutoff : Time) (items : List Snapshot) : Table :=
  items.foldl put (table.maintain dialect cutoff)

-- What is stored for one peer, model and hour.
def sum (key : BucketKey) : Nat :=
  tally (fun row => row.fst.key) Prod.snd table key

structure HourlyUsage where
  key : BucketKey
  quantity : Nat
  deriving DecidableEq

-- An empty model selects all models. The order is by hour and then by model.
def query (now : Time) (peer : PublicKey) (modelID : Text) (start stop : Time) :
    Except Err (List HourlyUsage) :=
  if peer = 0 ∨ ¬start < stop then
    .error (.text "peerusage: invalid hourly query")
  else
    let start := max start (cutoff now)
    let keys := (table.map fun row => row.fst.key).filter fun key =>
      key.peer = peer ∧ start ≤ key.hour ∧ key.hour < stop ∧ (modelID = [] ∨ key.model = modelID)
    let groups := keys.dedup.insertionSort fun a b =>
      a.hour < b.hour ∨ a.hour = b.hour ∧ a.model ≤ b.model
    .ok (groups.map fun key => ⟨key, table.sum key⟩)

end Table

-- A report that was accepted.
structure Report where
  recorder : Nat
  key : BucketKey
  writer : Text
  quantity : Nat
  deriving DecidableEq

-- The reports that were accepted, the cutoffs that were applied, and how many reports there were
-- when the last successful `Flush` of a recorder began are not kept anywhere in the program.
structure State where
  recorders : Nat → Recorder
  table : Table
  reports : List Report
  cutoffs : List Time
  flushed : Nat → Nat

namespace State

def init : State where
  recorders := fun _ => {}
  table := []
  reports := []
  cutoffs := []
  flushed := fun _ => 0

def setRecorder (s : State) (i : Nat) (r : Recorder) : State :=
  { s with recorders := Function.update s.recorders i r }

def record (s : State) (identity : Text) (i : Nat) (key : BucketKey) (total : Nat) :
    Except Err Unit × State :=
  let (result, r) := (s.recorders i).record identity key total
  match result with
  | .error e => (.error e, s.setRecorder i r)
  | .ok writer =>
    (.ok (), { s.setRecorder i r with reports := s.reports ++ [⟨i, key, writer, total⟩] })

def snapshot (s : State) (i : Nat) (cutoff : Time) : List Snapshot × State :=
  let (items, r) := (s.recorders i).snapshot cutoff
  (items, { s.setRecorder i r with cutoffs := cutoff :: s.cutoffs })

def write (s : State) (dialect : Dialect) (cutoff : Time) (items : List Snapshot) : State :=
  { s with table := s.table.write dialect cutoff items, cutoffs := cutoff :: s.cutoffs }

def maintain (s : State) (dialect : Dialect) (cutoff : Time) : State :=
  { s with table := s.table.maintain dialect cutoff, cutoffs := cutoff :: s.cutoffs }

def acknowledge (s : State) (i : Nat) (items : List Snapshot) (hour : Time) : State :=
  s.setRecorder i ((s.recorders i).acknowledge items hour)

def close (s : State) (i : Nat) : State :=
  s.setRecorder i { s.recorders i with closed := true }

def setGate (s : State) (i : Nat) (gate : Bool) : State :=
  s.setRecorder i { s.recorders i with gate := gate }

-- A successful `Flush` leaves behind when it began.
def leave (s : State) (i : Nat) : Option Nat → State
  | none => s.setGate i false
  | some start => { s.setGate i false with flushed := Function.update s.flushed i start }

end State

-- What happens at once: a reading of a clock, a section under the mutex of a recorder, a turn at
-- its gate, or a transaction.
inductive Act where
  | now
  | record (recorder : Nat) (key : BucketKey) (total : Nat)
  | close (recorder : Nat)
  | enter (recorder : Nat)
  | snapshot (recorder : Nat) (cutoff : Time)
  | write (cutoff : Time) (items : List Snapshot)
  | maintain (cutoff : Time)
  | acknowledge (recorder : Nat) (items : List Snapshot) (hour : Time)
  | leave (recorder : Nat) (start : Option Nat)

abbrev Reply : Act → Type
  | .now => Time
  | .record .. => Except Err Unit
  | .close _ => Unit
  | .enter _ => Option Nat
  | .snapshot .. => List Snapshot
  | .write .. => Except Err Unit
  | .maintain _ => Except Err Unit
  | .acknowledge .. => Unit
  | .leave .. => Unit

-- A transaction may fail, and when it fails it may have committed all the same.
inductive Commits (s s' : State) : Except Err Unit → State → Prop
  | done : Commits s s' (.ok ()) s'
  | failed (message : String) : Commits s s' (.error (.text message)) s
  | replyLost (message : String) : Commits s s' (.error (.text message)) s'

-- Whoever waits for the gate may be cancelled.
inductive Enters (s : State) (i : Nat) : Option Nat → State → Prop
  | cancelled : Enters s i none s
  | entered (h : (s.recorders i).gate = false) :
    Enters s i (some s.reports.length) (s.setGate i true)

def Does (identities : Nat → Text) (dialect : Dialect) : Exec Act Reply State
  | .now, s, _, s' => s' = s
  | .record i key total, s, r, s' => (r, s') = s.record (identities i) i key total
  | .close i, s, _, s' => s' = s.close i
  | .enter i, s, r, s' => Enters s i r s'
  | .snapshot i cutoff, s, r, s' => (r, s') = s.snapshot i cutoff
  | .write cutoff items, s, r, s' => Commits s (s.write dialect cutoff items) r s'
  | .maintain cutoff, s, r, s' => Commits s (s.maintain dialect cutoff) r s'
  | .acknowledge i items hour, s, _, s' => s' = s.acknowledge i items hour
  | .leave i start, s, _, s' => s' = s.leave i start

-- What happens when nothing fails. The time is what the clock says.
def perform (identities : Nat → Text) (dialect : Dialect) (time : Time) :
    (a : Act) → State → Option (Reply a × State)
  | .now, s => some (time, s)
  | .record i key total, s => some (s.record (identities i) i key total)
  | .close i, s => some ((), s.close i)
  | .enter i, s =>
    if (s.recorders i).gate = false then some (some s.reports.length, s.setGate i true) else none
  | .snapshot i cutoff, s => some (s.snapshot i cutoff)
  | .write cutoff items, s => some (.ok (), s.write dialect cutoff items)
  | .maintain cutoff, s => some (.ok (), s.maintain dialect cutoff)
  | .acknowledge i items hour, s => some ((), s.acknowledge i items hour)
  | .leave i start, s => some ((), s.leave i start)

theorem does_of_perform (identities : Nat → Text) (dialect : Dialect) (time : Time) (a : Act)
    (s : State) (r : Reply a) (s' : State) (h : perform identities dialect time a s =
    some (r, s')) : Does identities dialect a s r s' := by
  cases a
  case now | close i | acknowledge i items hour | leave i start => cases h; rfl
  case record i key total | snapshot i cutoff => exact (Option.some.inj h).symm
  case write cutoff items | maintain cutoff => cases h; exact .done
  case enter =>
    simp only [perform, Option.ite_none_right_eq_some, Option.some.injEq, Prod.mk.injEq] at h
    obtain ⟨hg, rfl, rfl⟩ := h
    exact .entered hg

section Calls

abbrev Call := ExceptT Err (Program Act Reply)

def act (a : Act) : Call (Reply a) :=
  .mk <| .act a fun r => .pure (.ok r)

-- The counts of a report added up, unless one of them is negative or the sum too large.
def totalOf : List Int → Int → Option Int
  | [], total => some total
  | count :: counts, total =>
    if count < 0 ∨ maxInt64 - total < count then none else totalOf counts (total + count)

def checkReport (peer : PublicKey) (modelID : Text) (record : UsageRecord) : Except Err Nat :=
  if peer = 0 ∨ modelID = [] ∨ 256 < modelID.length then
    .error (.text "peerusage: invalid recorder identity")
  else
    match totalOf [record.input, record.cachedInput, record.output] 0 with
    | none => .error (.text "peerusage: invalid or overflowing provider quantity")
    | some total => .ok total.toNat

def record (i : Nat) (peer : PublicKey) (modelID : Text) (record : UsageRecord) : Call Unit := do
  let total ← checkReport peer modelID record
  if total = 0 then
    return ()
  else
    let now ← act .now
    act (.record i ⟨peer, modelID, truncateHour now⟩ total) >>= fun r => liftM r

variable (trimSpace : Text → Text)

-- The checks of a snapshot against two readings of the clock.
def Snapshot.check (item : Snapshot) (now now' : Time) : Except Err Unit :=
  if item.key.peer = 0 ∨ trimSpace item.key.model = [] ∨ 256 < item.key.model.length ∨
      trimSpace item.writerID = [] ∨ 128 < item.writerID.length then
    .error (.text "peerusage: invalid hourly snapshot")
  else if item.key.hour ≠ truncateHour item.key.hour then
    .error (.text "peerusage: snapshot hour must be an exact UTC hour")
  else if item.key.hour < cutoff now then
    .error (.text "peerusage: snapshot is outside retention")
  else if truncateHour now' < item.key.hour then
    .error (.text "peerusage: snapshot hour is in the future")
  else if !sqlUnixNano item.key.hour then
    .error (.text "time is outside signed nanosecond range")
  else
    .ok ()

def checkAll : List Snapshot → Call Unit
  | [] => return ()
  | item :: items => do
    let now ← act .now
    let now' ← act .now
    item.check trimSpace now now'
    checkAll items

def checkCutoff (now : Time) : Except Err Time :=
  if sqlUnixNano (cutoff now) then
    .ok (cutoff now)
  else
    .error (.text "time is outside signed nanosecond range")

def write (items : List Snapshot) : Call Unit := do
  if items = [] then
    return ()
  else
    checkAll trimSpace items
    let now ← act .now
    let cutoff ← checkCutoff now
    act (.write cutoff items) >>= fun r => liftM r

def maintain : Call Unit := do
  let now ← act .now
  let cutoff ← checkCutoff now
  act (.maintain cutoff) >>= fun r => liftM r

-- What a recorder does while it holds its gate.
def drain (i : Nat) : Call Unit := do
  let now ← act .now
  let items ← act (.snapshot i (cutoff now))
  if items = [] then
    return ()
  else
    write trimSpace items
    let now ← act .now
    act (.acknowledge i items (truncateHour now))

def flush (i : Nat) : Call Unit := do
  match ← act (.enter i) with
  | none => throw .cancelled
  | some start =>
    try
      drain trimSpace i
    catch e =>
      act (.leave i none)
      throw e
    act (.leave i (some start))

def close (i : Nat) : Call Unit := do
  act (.close i)
  flush trimSpace i

end Calls

inductive Op where
  | record (recorder : Nat) (peer : PublicKey) (modelID : Text) (record : UsageRecord)
  | flush (recorder : Nat)
  | close (recorder : Nat)
  | maintain

def program (trimSpace : Text → Text) : Op → Program Act Reply (Except Err Unit)
  | .record i peer modelID r => (record i peer modelID r).run
  | .flush i => (flush trimSpace i).run
  | .close i => (close trimSpace i).run
  | .maintain => maintain.run

end GizClaw.PeerUsage
