import GizClaw.Lib.Threads

-- The output of an invocation: a queue of chunks that producers push and consumers pull. Each
-- function of `Output` is one critical section. Callbacks run outside of them.

namespace GizClaw.Streamkit

-- Whether there is an observer for all chunks, and whether observation is deferred.
structure OutputConfig where
  maxBytes : Int
  observe : Bool
  deferred : Bool

inductive OutputError where
  | eof
  | closedPipe
  | outputLimit (queued next : Nat) (max : Int)
  | cause (n : Nat)
  deriving DecidableEq

-- Whether an entry has an observer and somebody to tell that it is not delivered.
structure Entry (α : Type) where
  id : Nat
  chunk : α
  bytes : Nat
  observe : Bool
  abandon : Bool
  deriving DecidableEq

structure DeferredObservation (α : Type) where
  chunk : α
  observe : Bool
  abandon : Bool
  deriving DecidableEq

structure Output (α : Type) where
  queue : List (Entry α)
  queuedBytes : Nat
  nextEntryID : Nat
  closed : Bool
  closeErr : Option OutputError
  failErr : Option OutputError
  done : Bool
  settled : Bool
  observationAborted : Bool
  deferred : List (DeferredObservation α)
  observers : Nat
  deferredObservers : Nat

variable {α : Type}

namespace Output

def new : Output α where
  queue := []
  queuedBytes := 0
  nextEntryID := 0
  closed := false
  closeErr := none
  failErr := none
  done := false
  settled := false
  observationAborted := false
  deferred := []
  observers := 0
  deferredObservers := 0

variable (cfg : OutputConfig)

def signalSettled (o : Output α) : Output α :=
  if !o.closed || o.observers ≠ 0 then
    o
  else if !o.observationAborted &&
      (cfg.observe && !o.queue.isEmpty || o.queue.any fun e => e.observe || e.abandon) then
    o
  else
    { o with settled := true }

def signalDone (o : Output α) : Output α :=
  signalSettled cfg { o with done := true }

inductive Pulled (α : Type) where
  | error (err : OutputError)
  | chunk (chunk : α) (observing : Bool)

-- The delivery of an entry is observed, now or later.
def track (o : Output α) (entry : Entry α) : Output α :=
  if cfg.deferred then
    { o with
      observers := o.observers + 1
      deferredObservers := o.deferredObservers + 1
      deferred := o.deferred ++ [⟨entry.chunk, true, entry.abandon⟩] }
  else
    { o with observers := o.observers + 1 }

-- Nothing happens while there is nothing to pull.
def next (o : Output α) : Option (Pulled α × Output α) :=
  if o.queue.isEmpty && !o.closed && o.closeErr.isNone then
    none
  else
    match o.closeErr with
    | some err => some (.error err, o)
    | none =>
      match o.queue with
      | [] => some (.error (o.failErr.getD .eof), o)
      | entry :: queue =>
        let tracked := (entry.observe || cfg.observe) && !o.observationAborted
        let o := { o with queue := queue, queuedBytes := o.queuedBytes - entry.bytes }
        some (.chunk entry.chunk (tracked && !cfg.deferred),
          signalSettled cfg (if tracked then o.track cfg entry else o))

def finishObservation (o : Output α) : Output α :=
  signalSettled cfg { o with observers := o.observers - 1 }

-- Returned are the chunks whose `abandon` is to be called.
def abandonDeferredObservations (o : Output α) : List α × Output α :=
  if o.deferredObservers = 0 then
    ([], o)
  else
    ((o.deferred.filter (·.abandon)).map (·.chunk), signalSettled cfg { o with
      observers := o.observers - o.deferredObservers
      deferredObservers := 0
      deferred := [] })

def cancelObservations (o : Output α) : List α × Output α :=
  let (abandoned, o) := abandonDeferredObservations cfg { o with observationAborted := true }
  (abandoned ++ (o.queue.filter (·.abandon)).map (·.chunk), signalSettled cfg { o with
    queue := o.queue.map fun entry => { entry with observe := false, abandon := false } })

def closeWithError (o : Output α) (err : OutputError) : List α × Output α :=
  if o.closeErr.isSome then
    ([], o)
  else if o.closed then
    o.cancelObservations cfg
  else
    let (abandoned, o') := abandonDeferredObservations cfg { o with
      closeErr := some err
      closed := true
      observationAborted := true
      queue := []
      queuedBytes := 0 }
    ((o.queue.filter (·.abandon)).map (·.chunk) ++ abandoned, o'.signalDone cfg)

def pushTracked (o : Output α) (chunk : α) (bytes : Nat) (observe abandon : Bool) :
    Except OutputError Unit × List α × Output α :=
  match o.closeErr with
  | some err => (.error err, [], o)
  | none =>
    if o.closed then
      (.error .closedPipe, [], o)
    else if 0 < cfg.maxBytes ∧ cfg.maxBytes < o.queuedBytes + bytes then
      let err := .outputLimit o.queuedBytes bytes cfg.maxBytes
      let (abandoned, o) := o.closeWithError cfg err
      (.error err, abandoned ++ (if abandon then [chunk] else []), o)
    else
      (.ok (), [], { o with
        nextEntryID := o.nextEntryID + 1
        queue := o.queue ++ [⟨o.nextEntryID + 1, chunk, bytes, observe, abandon⟩]
        queuedBytes := o.queuedBytes + bytes })

-- Returned are the entries that were removed.
def remove (o : Output α) (ids : List Nat) : List (Entry α) × Output α :=
  let removed := o.queue.filter (·.id ∈ ids)
  (removed, signalSettled cfg { o with
    queue := o.queue.filter (·.id ∉ ids)
    queuedBytes := o.queuedBytes - (removed.map Entry.bytes).sum })

def fail (o : Output α) (cause : Option OutputError) : Output α :=
  if !o.closed && o.closeErr.isNone then
    signalDone cfg { o with closed := true, failErr := cause }
  else
    o

def close (o : Output α) : Output α :=
  if !o.closed && o.closeErr.isNone then
    signalDone cfg { o with closed := true }
  else
    o

variable [DecidableEq α]

-- Whether there is an observation of this chunk to go on with, and whether it has an observer.
def observeOutput (o : Output α) (chunk : α) : Option Bool × Output α :=
  match o.deferred.find? (·.chunk = chunk) with
  | some observation =>
    if cfg.deferred then
      (some observation.observe, { o with
        deferred := o.deferred.eraseP (·.chunk = chunk)
        deferredObservers := o.deferredObservers - 1 })
    else
      (none, o)
  | none => (none, o)

-- Whether `abandon` is to be called.
def abandonOutputObservation (o : Output α) (chunk : α) : Bool × Output α :=
  match o.deferred.find? (·.chunk = chunk) with
  | some observation =>
    if cfg.deferred then
      (observation.abandon, signalSettled cfg { o with
        deferred := o.deferred.eraseP (·.chunk = chunk)
        deferredObservers := o.deferredObservers - 1
        observers := o.observers - 1 })
    else
      (false, o)
  | none => (false, o)

end Output

end GizClaw.Streamkit
