import GizClaw.Lib.Threads

-- The admission of clients to an Edge gateway: signaling requests, expiry timers, the accept loop,
-- the sessions and the shutdown. Each action is one atomic operation or one critical section.

namespace GizClaw.Gateway

open Interleaving (Program Exec)

abbrev PublicKey := BitVec 256

def clientBurstSCTPLimit : Nat :=
  64

def sessionMaxAttempts : Nat :=
  2

-- Without a route resolver, the pools are tried in order.
structure Config where
  maxPendingHandshakes : Nat
  maxSessions : Nat
  routed : Bool
  pools : Nat

inductive Phase where
  | waiting
  | promoted
  | released
  deriving DecidableEq

inductive Slot where
  | pending
  | active
  | free
  deriving DecidableEq

-- `releaseUpstream` names the acquisition that it gives back. The slot that the admission holds,
-- whether its removal from the queue is over, and how often it was promoted and has given back its
-- slot are not kept anywhere in the program.
structure Admission where
  phase : Phase
  armed : Bool
  clientKey : PublicKey
  releaseUpstream : Option Nat
  burstSCTP : Bool
  slot : Slot
  removed : Bool
  promotions : Nat
  returns : Nat
  deriving DecidableEq

def Admission.new (clientKey : PublicKey) (burstSCTP : Bool) : Admission where
  phase := .waiting
  armed := false
  clientKey := clientKey
  releaseUpstream := none
  burstSCTP := burstSCTP
  slot := .pending
  removed := false
  promotions := 0
  returns := 0

-- The accept loop handles one client at a time, until it stops.
inductive Loop where
  | idle
  | busy
  | stopped
  deriving DecidableEq

inductive Lifecycle where
  | running
  | closing
  | closed
  deriving DecidableEq

-- Admissions go by their index. The queue has those of all client keys, in the order in which they
-- were added. `acquired` and `released` count the upstreams and log their releases, and `drained`
-- tells that the queue was emptied for good.
structure State where
  cancelled : Bool
  pending : Nat
  active : Nat
  burstSCTP : Nat
  admissions : List Admission
  queue : List Nat
  acquired : Nat
  released : List Nat
  loop : Loop
  sessions : Nat
  lifecycle : Lifecycle
  drained : Bool

def State.init : State where
  cancelled := false
  pending := 0
  active := 0
  burstSCTP := 0
  admissions := []
  queue := []
  acquired := 0
  released := []
  loop := .idle
  sessions := 0
  lifecycle := .running
  drained := false

-- What the route to a peer's Server turns out to be.
inductive Route where
  | here
  | elsewhere
  | unconfigured
  | failed
  deriving DecidableEq

inductive Attempt where
  | opened
  | retry
  | failed
  deriving DecidableEq

inductive Wake where
  | notified
  | cancelled
  | timeout
  deriving DecidableEq

inductive Act where
  | reserve (clientKey : PublicKey)
  | acquire
  | resolve
  | release (upstream : Nat)
  | setUpstream (a : Nat) (upstream : Nat)
  | takeUpstream (a : Nat)
  | signal
  | arm (a : Nat)
  | fire (a : Nat)
  | stopTimer (a : Nat)
  | ready (a : Nat)
  | enqueue (a : Nat)
  | remove (a : Nat)
  | claim (clientKey : PublicKey)
  | wake
  | compareAndSwap (a : Nat) (old new : Phase)
  | unpend (a : Nat)
  | activate (a : Nat)
  | deactivate (a : Nat)
  | accept
  | acceptNext
  | acceptDone
  | contextErr
  | startSession (a : Nat)
  | openSession
  | sessionDone
  | closeOnce
  | cancel
  | awaitAcceptDone
  | drain
  | awaitSessions
  | closed
  | never

abbrev Reply : Act → Type
  | .reserve _ => Option Nat
  | .acquire => Option Nat
  | .resolve => Route
  | .takeUpstream _ => Option Nat
  | .signal => Bool
  | .fire _ => Bool
  | .ready _ => Bool
  | .enqueue _ => Bool
  | .claim _ => Option Nat
  | .wake => Wake
  | .compareAndSwap .. => Bool
  | .accept => Bool
  | .contextErr => Bool
  | .openSession => Attempt
  | .closeOnce => Bool
  | .drain => List Nat
  | _ => Unit

section Effects

variable (cfg : Config)

-- Neither limit is reached.
def State.hasCapacity (s : State) : Bool :=
  !s.cancelled && s.pending < cfg.maxPendingHandshakes && s.pending + s.active < cfg.maxSessions

def State.reserve (s : State) (clientKey : PublicKey) : State :=
  let burst := s.burstSCTP < clientBurstSCTPLimit
  { s with
    pending := s.pending + 1
    burstSCTP := if burst then s.burstSCTP + 1 else s.burstSCTP
    admissions := s.admissions ++ [.new clientKey burst] }

def State.update (s : State) (a : Nat) (f : Admission → Admission) : State :=
  { s with admissions := s.admissions.modify a f }

def State.phase (s : State) (a : Nat) : Option Phase :=
  s.admissions[a]?.map Admission.phase

def Admission.swap (new : Phase) (x : Admission) : Admission :=
  { x with
    phase := new
    promotions := if new = .promoted then x.promotions + 1 else x.promotions }

def State.compareAndSwap (s : State) (a : Nat) (old new : Phase) : Bool × State :=
  if s.phase a = some old then (true, s.update a (.swap new)) else (false, s)

-- The slot is given back, with the receive credit that came with it.
def Admission.giveBack (x : Admission) : Admission :=
  { x with slot := .free, burstSCTP := false, returns := x.returns + 1 }

def State.releaseBurst (s : State) (a : Nat) : Nat :=
  if s.admissions[a]?.any Admission.burstSCTP then s.burstSCTP - 1 else s.burstSCTP

def State.unpend (s : State) (a : Nat) : State :=
  { s.update a .giveBack with pending := s.pending - 1, burstSCTP := s.releaseBurst a }

def State.activate (s : State) (a : Nat) : State :=
  { s.update a fun x => { x with slot := .active } with
    pending := s.pending - 1
    active := s.active + 1 }

def State.deactivate (s : State) (a : Nat) : State :=
  { s.update a .giveBack with active := s.active - 1, burstSCTP := s.releaseBurst a }

def State.takeUpstream (s : State) (a : Nat) : Option Nat × State :=
  (s.admissions[a]?.bind Admission.releaseUpstream,
    s.update a fun x => { x with releaseUpstream := none })

-- A timer fires once.
def State.fire (s : State) (a : Nat) : Bool × State :=
  if s.admissions[a]?.any Admission.armed then
    (true, s.update a fun x => { x with armed := false })
  else
    (false, s)

def State.canEnqueue (s : State) (a : Nat) : Bool :=
  s.phase a = some .waiting && !s.cancelled

def State.enqueue (s : State) (a : Nat) : Bool × State :=
  if s.canEnqueue a then (true, { s with queue := s.queue ++ [a] }) else (false, s)

def State.remove (s : State) (a : Nat) : State :=
  { s.update a fun x => { x with removed := true } with queue := s.queue.erase a }

-- The first admission of the client key.
def State.claim (s : State) (clientKey : PublicKey) : Option Nat × State :=
  match s.queue.find? fun a => s.admissions[a]?.any (·.clientKey = clientKey) with
  | some a => (some a, { s with queue := s.queue.erase a })
  | none => (none, s)

-- What a choice has to settle.
structure Choice where
  able : Bool := true
  route : Route := .here
  attempt : Attempt := .opened
  wake : Wake := .notified
  order : List Nat := []

-- What an action does to the state when the choice is possible in it.
def perform (ch : Choice) : (a : Act) → State → Option (Reply a × State)
  | .reserve clientKey, s =>
    if s.hasCapacity cfg ∧ ch.able then
      some (some s.admissions.length, s.reserve clientKey)
    else
      some (none, s)
  | .acquire, s =>
    if ch.able then some
      (some s.acquired, { s with acquired := s.acquired + 1 }) else some (none, s)
  | .resolve, s => some (ch.route, s)
  | .release upstream, s => some ((), { s with released := s.released ++ [upstream] })
  | .setUpstream a upstream, s =>
    some ((), s.update a fun x => { x with releaseUpstream := some upstream })
  | .takeUpstream a, s => some (s.takeUpstream a)
  | .signal, s => some (ch.able, s)
  | .arm a, s => some ((), s.update a fun x => { x with armed := true })
  | .fire a, s => if ch.able then some (s.fire a) else some (false, s)
  | .stopTimer a, s => some ((), s.update a fun x => { x with armed := false })
  | .ready a, s => some (s.canEnqueue a, s)
  | .enqueue a, s => some (s.enqueue a)
  | .remove a, s => some ((), s.remove a)
  | .claim clientKey, s => some (s.claim clientKey)
  | .wake, s => if ch.wake = .cancelled ∧ !s.cancelled then none else some (ch.wake, s)
  | .compareAndSwap a old new, s => some (s.compareAndSwap a old new)
  | .unpend a, s => some ((), s.unpend a)
  | .activate a, s => some ((), s.activate a)
  | .deactivate a, s => some ((), s.deactivate a)
  | .accept, s => if s.loop = .idle then some (ch.able, { s with loop := .busy }) else none
  | .acceptNext, s => some ((), { s with loop := .idle })
  | .acceptDone, s => some ((), { s with loop := .stopped })
  | .contextErr, s => some (s.cancelled, s)
  | .startSession _, s => some ((), { s with sessions := s.sessions + 1 })
  | .openSession, s => some (ch.attempt, s)
  | .sessionDone, s => some ((), { s with sessions := s.sessions - 1 })
  | .closeOnce, s =>
    match s.lifecycle with
    | .running => some (true, { s with lifecycle := .closing })
    | .closing => none
    | .closed => some (false, s)
  | .cancel, s => some ((), { s with cancelled := true })
  | .awaitAcceptDone, s => if s.loop = .stopped then some ((), s) else none
  -- A map is gone through in any order.
  | .drain, s =>
    if ch.order.Perm s.queue then some (ch.order, { s with queue := [], drained := true }) else none
  | .awaitSessions, s => if s.sessions = 0 then some ((), s) else none
  | .closed, s => some ((), { s with lifecycle := .closed })
  | .never, _ => none

end Effects

abbrev Call := Program Act Reply

def act (a : Act) : Call (Reply a) :=
  .perform a

section Calls

def releasePool (a : Nat) : Call Unit := do
  match ← act (.takeUpstream a) with
  | some upstream => act (.release upstream)
  | none => return ()

def releasePending (a : Nat) : Call Unit := do
  if ← act (.compareAndSwap a .waiting .released) then
    act (.unpend a)
    releasePool a
    act (.remove a)

def promote (a : Nat) : Call Bool := do
  if ← act (.compareAndSwap a .waiting .promoted) then
    act (.stopTimer a)
    act (.activate a)
    return true
  else
    return false

def releaseActive (a : Nat) : Call Unit := do
  if ← act (.compareAndSwap a .promoted .released) then
    act (.deactivate a)
    releasePool a

def enqueueAdmission (a : Nat) : Call Bool := do
  if ← act (.ready a) then
    act (.enqueue a)
  else
    return false

-- The pools are tried in order, and the Server of the first that answers tells where the peer
-- belongs.
def acquireInOrder : Nat → Call (Option Nat)
  | 0 => return none
  | pools + 1 => do
    match ← act .acquire with
    | none => acquireInOrder pools
    | some upstream =>
      match ← act .resolve with
      | .here => return some upstream
      | .failed =>
        act (.release upstream)
        acquireInOrder pools
      | .unconfigured =>
        act (.release upstream)
        return none
      | .elsewhere =>
        act (.release upstream)
        act .acquire

def acquireRouted : Call (Option Nat) := do
  match ← act .resolve with
  | .here => act .acquire
  | .elsewhere => act .acquire
  | .unconfigured => return none
  | .failed => return none

variable (cfg : Config)

def acquirePeerUpstream : Call (Option Nat) :=
  if cfg.routed then acquireRouted else acquireInOrder cfg.pools

def serveSignaling (clientKey : PublicKey) : Call Unit := do
  if clientKey = 0 then
    return ()
  else
    match ← act (.reserve clientKey) with
    | none => return ()
    | some a =>
      match ← acquirePeerUpstream cfg with
      | none => releasePending a
      | some upstream =>
        act (.setUpstream a upstream)
        if ← act .signal then
          act (.arm a)
          if ← enqueueAdmission a then
            return ()
          else
            releasePending a
        else
          releasePending a

-- The callback of the timer. It does not run once the timer is stopped.
def expire (a : Nat) : Call Unit := do
  if ← act (.fire a) then
    releasePending a

-- It goes round until it has promoted an admission or stops waiting for one, for any number of
-- rounds.
def claimAdmission (clientKey : PublicKey) : Nat → Call (Option Nat)
  | 0 => do
    act .never
    return none
  | rounds + 1 => do
    match ← act (.claim clientKey) with
    | some a =>
      if ← promote a then
        return some a
      else
        claimAdmission clientKey rounds
    | none =>
      match ← act .wake with
      | .notified => claimAdmission clientKey rounds
      | .cancelled => return none
      | .timeout => return none

-- The accept loop with one client, or with the error that ends it.
def acceptOne (clientKey : PublicKey) (rounds : Nat) : Call Unit := do
  if ← act .accept then
    match ← claimAdmission clientKey rounds with
    | some a =>
      act (.startSession a)
      act .acceptNext
    | none =>
      if ← act .contextErr then
        act .acceptDone
      else
        act .acceptNext
  else
    act .acceptDone

def handleClient (a : Nat) : Nat → Call Unit
  | 0 => return ()
  | attempts + 1 => do
    match ← act .openSession with
    | .opened => return ()
    | .failed => return ()
    | .retry =>
      if attempts = 0 then
        return ()
      else
        releasePool a
        match ← acquirePeerUpstream cfg with
        | none => return ()
        | some upstream =>
          act (.setUpstream a upstream)
          handleClient a attempts

def session (a : Nat) : Call Unit := do
  handleClient cfg a sessionMaxAttempts
  releaseActive a
  act .sessionDone

def releaseAll : List Nat → Call Unit
  | [] => return ()
  | a :: admissions => do
    releasePending a
    releaseAll admissions

def close : Call Unit := do
  if ← act .closeOnce then
    act .cancel
    act .awaitAcceptDone
    let admissions ← act .drain
    releaseAll admissions
    act .awaitSessions
    act .closed

end Calls

inductive Op where
  | request (clientKey : PublicKey)
  | timer (a : Nat)
  | accept (clientKey : PublicKey) (rounds : Nat)
  | session (a : Nat)
  | close
  deriving DecidableEq

def Op.call (cfg : Config) : Op → Call Unit
  | .request clientKey => serveSignaling cfg clientKey
  | .timer a => expire a
  | .accept clientKey rounds => acceptOne clientKey rounds
  | .session a => Gateway.session cfg a
  | .close => Gateway.close

def forks : (a : Act) → Reply a → List Op
  | .startSession a, _ => [.session a]
  | _, _ => []

def Does (cfg : Config) : Exec Act Reply State :=
  fun a s r s' => ∃ ch, perform cfg ch a s = some (r, s')

def system (cfg : Config) : Threads.System Act Reply State Op Unit where
  exec := Does cfg
  forks := forks
  program := Op.call cfg
  external := fun
    | .session _ => false
    | _ => true
  init := .init

end GizClaw.Gateway
