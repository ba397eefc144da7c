import GizClaw.Lib.Monitor
import GizClaw.Streamkit.Output

-- The calls on an output, and the condition variable that all of them share.

namespace GizClaw.Streamkit.Waits

open Monitor

inductive Result (α : Type) where
  | pulled (result : Except OutputError α)
  | pushed (result : Except OutputError Unit)
  | discarded (chunks : List α)
  | void

-- What is left of `discard` once its predicate has answered for all entries is `remove`, and what
-- is left of `next` and `observeOutput` once their observer has returned is `finish`.
inductive Op (α : Type) where
  | next
  | finish (result : Result α)
  | waitForObservers
  | pushTracked (chunk : α) (bytes : Nat) (observe abandon : Bool)
  | discard (predicate : Entry α → Bool)
  | remove (ids : List Nat)
  | close
  | fail (cause : Option OutputError)
  | closeWithError (err : OutputError)
  | observeOutput (chunk : α)
  | abandonOutputObservation (chunk : α)
  | abandonDeferredObservations

variable {α : Type}

section Notices

def abandonNotice (o : Output α) : Notice :=
  if o.deferredObservers = 0 then .silent else .all

def closeNotice (o : Output α) : Notice :=
  if !o.closed && o.closeErr.isNone then .all else .silent

def closeWithErrorNotice (o : Output α) : Notice :=
  if o.closeErr.isSome then .silent else if o.closed then abandonNotice o else .all

variable (cfg : OutputConfig)

def pushNotice (o : Output α) (bytes : Nat) : Notice :=
  if o.closeErr.isSome || o.closed then .silent
  else if 0 < cfg.maxBytes ∧ cfg.maxBytes < o.queuedBytes + bytes then closeWithErrorNotice o
  else .one

end Notices

variable [DecidableEq α] (cfg : OutputConfig)

-- Callbacks that are not followed by a section are left out.
def step (o : Output α) : Op α → Output α × Notice × Outcome (Op α) (Result α)
  | .next =>
    match o.next cfg with
    | none => (o, .silent, .wait .next)
    | some (.error err, o) => (o, .silent, .done (.pulled (.error err)))
    | some (.chunk chunk observing, o) =>
      let result := .pulled (.ok chunk)
      (o, .silent, if observing then .yield (.finish result) else .done result)
  | .finish result => (o.finishObservation cfg, .all, .done result)
  | .waitForObservers =>
    (o, .silent, if o.observers ≠ 0 then .wait .waitForObservers else .done .void)
  | .pushTracked chunk bytes observe abandon =>
    let (result, _, o') := o.pushTracked cfg chunk bytes observe abandon
    (o', pushNotice cfg o bytes, .done (.pushed result))
  | .discard predicate => (o, .silent, .yield (.remove ((o.queue.filter predicate).map Entry.id)))
  | .remove ids =>
    let (removed, o') := o.remove cfg ids
    (o', .silent, .done (.discarded (removed.map Entry.chunk)))
  | .close => (o.close cfg, closeNotice o, .done .void)
  | .fail cause => (o.fail cfg cause, closeNotice o, .done .void)
  | .closeWithError err => ((o.closeWithError cfg err).snd, closeWithErrorNotice o, .done .void)
  | .observeOutput chunk =>
    let (observe, o') := o.observeOutput cfg chunk
    (o', .silent, if observe.isSome then .yield (.finish .void) else .done .void)
  | .abandonOutputObservation chunk =>
    ((o.abandonOutputObservation cfg chunk).snd,
      if cfg.deferred && o.deferred.any (·.chunk = chunk) then .all else .silent, .done .void)
  | .abandonDeferredObservations =>
    ((o.abandonDeferredObservations cfg).snd, abandonNotice o, .done .void)

def body : Body (Output α) (Op α) (Result α) :=
  fun _ op o => step cfg o op

end GizClaw.Streamkit.Waits
