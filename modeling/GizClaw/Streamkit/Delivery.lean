import GizClaw.Streamkit.Output

-- Producers and consumers of one output, and what becomes of the chunks.

namespace GizClaw.Streamkit.Delivery

open Interleaving (Program Exec)

-- Chunks go by their addresses. Next to the output stands what was pushed successfully or too much,
-- what was pulled or discarded, which observers are running, and which callbacks have run.
structure State where
  output : Output Nat
  accepted : List Nat
  rejected : List Nat
  pulled : List Nat
  discarded : List Nat
  observing : List Nat
  observed : List Nat
  abandoned : List Nat

def State.init : State where
  output := .new
  accepted := []
  rejected := []
  pulled := []
  discarded := []
  observing := []
  observed := []
  abandoned := []

inductive Op where
  | pushTracked (chunk bytes : Nat)
  | next
  | discard
  | close
  | fail (cause : Option OutputError)
  | closeWithError (err : OutputError)
  | observeOutput (chunk : Nat)
  | abandonOutputObservation (chunk : Nat)
  | abandonDeferredObservations

inductive Act where
  | push (chunk bytes : Nat)
  | next
  | snapshot
  | select (chunk : Nat)
  | remove (ids : List Nat)
  | close
  | fail (cause : Option OutputError)
  | closeWithError (err : OutputError)
  | claim (chunk : Nat)
  | release (chunk : Nat)
  | abandonDeferred
  | observe (chunk : Nat)
  | finishObservation (chunk : Nat)
  | abandon (chunk : Nat)

abbrev Reply : Act → Type
  | .push .. => List Nat
  | .next => Output.Pulled Nat
  | .snapshot => List (Entry Nat)
  | .select _ => Bool
  | .remove _ => List Nat
  | .closeWithError _ => List Nat
  | .claim _ => Option Bool
  | .release _ => Bool
  | .abandonDeferred => List Nat
  | _ => Unit

section Effects

variable (cfg : OutputConfig)

-- Chunks that are still queued when the output is aborted are discarded.
def State.aborts (s : State) : List Nat :=
  if s.output.closed then [] else s.output.queue.map Entry.chunk

-- Every entry has its own chunk and both callbacks.
def State.push (s : State) (chunk bytes : Nat) : List Nat × State :=
  let (result, abandoned, o) := s.output.pushTracked cfg chunk bytes true true
  (abandoned, match result with
    | .ok _ => { s with output := o, accepted := s.accepted ++ [chunk] }
    | .error _ =>
      if s.output.closed then { s with output := o }
      else { s with
        output := o
        rejected := s.rejected ++ [chunk]
        discarded := s.discarded ++ s.aborts })

def State.pull (s : State) : Output.Pulled Nat × Output Nat → State
  | (.error _, o) => { s with output := o }
  | (.chunk chunk observing, o) => { s with
    output := o
    pulled := s.pulled ++ [chunk]
    observing := if observing then s.observing ++ [chunk] else s.observing }

def State.remove (s : State) (ids : List Nat) : List Nat × State :=
  let (removed, o) := s.output.remove cfg ids
  ((removed.filter (·.abandon)).map Entry.chunk,
    { s with output := o, discarded := s.discarded ++ removed.map Entry.chunk })

def State.closeWithError (s : State) (err : OutputError) : List Nat × State :=
  let (abandoned, o) := s.output.closeWithError cfg err
  (abandoned, { s with output := o, discarded := s.discarded ++ s.aborts })

def State.claim (s : State) (chunk : Nat) : Option Bool × State :=
  let (observe, o) := s.output.observeOutput cfg chunk
  (observe, { s with
    output := o
    observing := if observe.isSome then s.observing ++ [chunk] else s.observing })

def perform (selects : Bool) : (a : Act) → State → Option (Reply a × State)
  | .push chunk bytes, s =>
    if chunk ∈ s.accepted ++ s.rejected then none else some (s.push cfg chunk bytes)
  | .next, s => (s.output.next cfg).map fun r => (r.fst, s.pull r)
  | .snapshot, s => some (s.output.queue, s)
  | .select _, s => some (selects, s)
  | .remove ids, s => some (s.remove cfg ids)
  | .close, s => some ((), { s with output := s.output.close cfg })
  | .fail cause, s => some ((), { s with output := s.output.fail cfg cause })
  | .closeWithError err, s => some (s.closeWithError cfg err)
  | .claim chunk, s => some (s.claim cfg chunk)
  | .release chunk, s =>
    let (abandon, o) := s.output.abandonOutputObservation cfg chunk
    some (abandon, { s with output := o })
  | .abandonDeferred, s =>
    let (abandoned, o) := s.output.abandonDeferredObservations cfg
    some (abandoned, { s with output := o })
  | .observe chunk, s => some ((), { s with observed := s.observed ++ [chunk] })
  | .finishObservation chunk, s => some ((), { s with
    output := s.output.finishObservation cfg
    observing := s.observing.erase chunk })
  | .abandon chunk, s => some ((), { s with abandoned := s.abandoned ++ [chunk] })

end Effects

abbrev Call := Program Act Reply

def act (a : Act) : Call (Reply a) :=
  .perform a

section Calls

def runAbandonments : List Nat → Call Unit
  | [] => return ()
  | chunk :: chunks => do
    act (.abandon chunk)
    runAbandonments chunks

def pushTracked (chunk bytes : Nat) : Call Unit := do
  runAbandonments (← act (.push chunk bytes))

def next : Call Unit := do
  match ← act .next with
  | .error _ => return ()
  | .chunk chunk observing =>
    if observing then
      act (.observe chunk)
      act (.finishObservation chunk)

-- The predicate may answer as it likes.
def selectIDs : List (Entry Nat) → Call (List Nat)
  | [] => return []
  | entry :: entries => do
    let selected ← act (.select entry.chunk)
    let ids ← selectIDs entries
    return if selected then entry.id :: ids else ids

def discard : Call Unit := do
  let snapshot ← act .snapshot
  let ids ← selectIDs snapshot
  runAbandonments (← act (.remove ids))

def closeWithError (err : OutputError) : Call Unit := do
  runAbandonments (← act (.closeWithError err))

def observeOutput (chunk : Nat) : Call Unit := do
  match ← act (.claim chunk) with
  | none => return ()
  | some observe =>
    if observe then
      act (.observe chunk)
    act (.finishObservation chunk)

def abandonOutputObservation (chunk : Nat) : Call Unit := do
  if ← act (.release chunk) then
    act (.abandon chunk)

def abandonDeferredObservations : Call Unit := do
  runAbandonments (← act .abandonDeferred)

end Calls

def Op.call : Op → Call Unit
  | .pushTracked chunk bytes => Delivery.pushTracked chunk bytes
  | .next => Delivery.next
  | .discard => Delivery.discard
  | .close => act .close
  | .fail cause => act (.fail cause)
  | .closeWithError err => Delivery.closeWithError err
  | .observeOutput chunk => Delivery.observeOutput chunk
  | .abandonOutputObservation chunk => Delivery.abandonOutputObservation chunk
  | .abandonDeferredObservations => Delivery.abandonDeferredObservations

def Does (cfg : OutputConfig) : Exec Act Reply State :=
  fun a s r s' => ∃ selects, perform cfg selects a s = some (r, s')

def system (cfg : OutputConfig) : Threads.System Act Reply State Op Unit where
  exec := Does cfg
  forks := fun _ _ => []
  program := Op.call
  external := fun _ => true
  init := .init

end GizClaw.Streamkit.Delivery
