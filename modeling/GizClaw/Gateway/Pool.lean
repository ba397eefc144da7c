import GizClaw.Lib.Threads

-- The upstreams of an Edge gateway to one Server. Each action is one critical section of the pool,
-- or something that happens outside of it.

namespace GizClaw.UpstreamPool

open Interleaving (Program Exec)

def warmUpstreams : Nat :=
  4

structure Config where
  maxUpstreams : Nat
  sessionsPerUpstream : Nat
  channelsPerUpstream : Nat

def Config.warmTarget (cfg : Config) : Nat :=
  min cfg.maxUpstreams warmUpstreams

inductive Status where
  | selectable
  | draining
  | failed
  deriving DecidableEq

-- Whether the thread that has dialed an upstream still has it, whether it is to be closed, and how
-- often it was closed are not kept anywhere in the program.
structure Upstream where
  status : Status
  active : Nat
  dialing : Bool
  due : Bool
  closes : Nat
  deriving DecidableEq

def Upstream.new : Upstream where
  status := .selectable
  active := 0
  dialing := true
  due := false
  closes := 0

-- An upstream that `acquire` has returned, its status at that moment, and its release.
structure Acquisition where
  upstream : Nat
  status : Status
  once : Bool
  released : Bool
  deriving DecidableEq

-- Upstreams, acquisitions and the channels that growth is waited for with go by their numbers.
structure State where
  cancelled : Bool
  closed : Bool
  upstreams : List Upstream
  entries : List Nat
  growthDone : Option Nat
  channels : Nat
  closings : List Nat
  acquisitions : List Acquisition

def State.init : State where
  cancelled := false
  closed := false
  upstreams := []
  entries := []
  growthDone := none
  channels := 0
  closings := []
  acquisitions := []

inductive Op where
  | acquire
  | release (k : Nat)
  | drain (k : Nat)
  | fail (u : Nat)
  | replenish (g : Nat)
  | close
  | closer (u : Nat)
  | cancel
  deriving DecidableEq

inductive Selection where
  | unavailable
  | selected (growth : Option Nat)
  | overCapacity
  | wait (g : Nat)
  | grow (g : Nat)
  deriving DecidableEq

inductive Insertion where
  | failed
  | rejected (u : Nat)
  | inserted
  deriving DecidableEq

inductive Warming where
  | stopped (rejected : Option Nat)
  | finished
  | more (g : Nat)
  | retry
  deriving DecidableEq

inductive Act where
  | select
  | awaitGrowth (g : Nat)
  | dial
  | insertAcquired (g : Nat) (dialed : Option Nat)
  | checkGrowth (g : Nat)
  | insertWarm (g : Nat) (dialed : Option Nat)
  | once (k : Nat)
  | release (k : Nat)
  | markDraining (k : Nat)
  | markFailed (u : Nat)
  | closeUpstream (u : Nat)
  | closePool
  | cancel
  | spawn (op : Op)

-- Where an upstream leaves, it comes with whether it is to be closed and with growth that was
-- reserved.
abbrev Reply : Act → Type
  | .select => Selection
  | .awaitGrowth _ => Bool
  | .dial => Option Nat
  | .insertAcquired .. => Insertion
  | .checkGrowth _ => Bool
  | .insertWarm .. => Warming
  | .once _ => Bool
  | .release _ => Option Nat × Option Nat
  | .markDraining _ => Option Nat × Option Nat
  | .markFailed _ => Option Nat × Option Nat
  | .closePool => List Nat
  | _ => Unit

section Effects

variable (cfg : Config)

def State.update (s : State) (u : Nat) (f : Upstream → Upstream) : State :=
  { s with upstreams := s.upstreams.modify u f }

def State.has (s : State) (u : Nat) (p : Upstream → Bool) : Bool :=
  s.upstreams[u]?.any p

def State.selectableCount (s : State) : Nat :=
  s.entries.countP fun u => s.has u (·.status = .selectable)

def State.unavailable (s : State) : Bool :=
  s.closed || s.cancelled

def State.grow (s : State) : State :=
  { s with growthDone := some s.channels, channels := s.channels + 1 }

def State.finishGrowth (s : State) (g : Nat) : State :=
  { s with growthDone := none, closings := s.closings ++ [g] }

def State.hasWarmRoom (s : State) : Bool :=
  s.selectableCount < cfg.warmTarget && s.entries.length < cfg.maxUpstreams

def State.reserveWarmGrowth (s : State) : Option Nat × State :=
  if s.unavailable || !s.hasWarmRoom cfg || s.growthDone.isSome then (none, s)
  else (some s.channels, s.grow)

-- Three channels are set aside for each session that has not opened its own yet.
def hasChannelCapacity (limit active channels : Nat) : Bool :=
  limit < 3 || max (active * 3) channels ≤ limit - 3

def State.eligible (s : State) (channels : Nat → Nat) (u : Nat) : Bool :=
  s.has u fun x => x.status = .selectable && x.active < cfg.sessionsPerUpstream &&
    hasChannelCapacity cfg.channelsPerUpstream x.active (channels u)

def State.active (s : State) (u : Nat) : Nat :=
  (s.upstreams[u]?.map Upstream.active).getD 0

-- The first of those with the fewest sessions.
def State.pick (s : State) (channels : Nat → Nat) : List Nat → Option Nat → Option Nat
  | [], selected => selected
  | u :: us, selected =>
    if s.eligible cfg channels u && selected.all (s.active u < s.active ·) then
      s.pick channels us (some u)
    else
      s.pick channels us selected

def State.take (s : State) (u : Nat) : State :=
  { s.update u fun x => { x with active := x.active + 1 } with
    acquisitions := s.acquisitions ++
      [⟨u, (s.upstreams[u]?.map Upstream.status).getD .failed, false, false⟩] }

def State.select (s : State) (channels : Nat → Nat) : Selection × State :=
  if s.unavailable then
    (.unavailable, s)
  else
    match s.pick cfg channels s.entries none with
    | some u =>
      let (growth, s') := (s.take u).reserveWarmGrowth cfg
      (.selected growth, s')
    | none =>
      if cfg.maxUpstreams ≤ s.entries.length then
        (.overCapacity, s)
      else
        match s.growthDone with
        | some g => (.wait g, s)
        | none => (.grow s.channels, s.grow)

def State.insert (s : State) (u : Nat) : State :=
  { s.update u fun x => { x with dialing := false } with entries := s.entries ++ [u] }

def State.reject (s : State) (u : Nat) : State :=
  s.update u fun x => { x with dialing := false, due := true }

def State.insertAcquired (s : State) (g : Nat) (dialed : Option Nat) : Insertion × State :=
  let s := if s.growthDone = some g then s.finishGrowth g else s
  match dialed with
  | none => (.failed, s)
  | some u => if s.unavailable then (.rejected u, s.reject u) else (.inserted, s.insert u)

def State.checkGrowth (s : State) (g : Nat) : Bool × State :=
  if s.growthDone = some g then
    if s.unavailable then (false, s.finishGrowth g) else (true, s)
  else
    (false, s)

def State.rejectAny (s : State) : Option Nat → State
  | some u => s.reject u
  | none => s

def State.insertWarm (s : State) (g : Nat) (dialed : Option Nat) : Warming × State :=
  if s.growthDone ≠ some g then
    (.stopped dialed, s.rejectAny dialed)
  else if s.unavailable then
    (.stopped dialed, (s.finishGrowth g).rejectAny dialed)
  else
    match dialed with
    | none => (.retry, s)
    | some u =>
      if !s.hasWarmRoom cfg then
        (.stopped dialed, (s.finishGrowth g).reject u)
      else
        let s := (s.insert u).finishGrowth g
        if s.hasWarmRoom cfg then (.more s.channels, s.grow) else (.finished, s)

-- An upstream that is not to be selected any more leaves with its last session.
def State.leave (s : State) (u : Nat) (leaves : Bool) : (Option Nat × Option Nat) × State :=
  let s := if leaves then
    { s.update u fun x => { x with due := true } with entries := s.entries.erase u }
  else
    s
  let (growth, s) := s.reserveWarmGrowth cfg
  ((if leaves then some u else none, growth), s)

def State.release (s : State) (k : Nat) : (Option Nat × Option Nat) × State :=
  match s.acquisitions[k]? with
  | none => ((none, none), s)
  | some acquisition =>
    let u := acquisition.upstream
    let s := { s.update u fun x => { x with active := x.active - 1 } with
      acquisitions := s.acquisitions.modify k fun x => { x with released := true } }
    s.leave cfg u (s.has u fun x => x.status ≠ .selectable && x.active = 0)

-- Only those who have acquired an upstream find that it drains.
def State.markDraining (s : State) (k : Nat) : (Option Nat × Option Nat) × State :=
  match s.acquisitions[k]? with
  | none => ((none, none), s)
  | some acquisition =>
    let u := acquisition.upstream
    if s.has u (·.status = .selectable) then
      let s := s.update u fun x => { x with status := .draining }
      s.leave cfg u (s.has u (·.active = 0))
    else
      ((none, none), s)

def State.markFailed (s : State) (u : Nat) : (Option Nat × Option Nat) × State :=
  if s.has u (·.status ≠ .failed) then
    (s.update u fun x => { x with status := .failed }).leave cfg u true
  else
    ((none, none), s)

def State.closePool (s : State) : List Nat × State :=
  if s.closed then
    ([], s)
  else
    let upstreams := s.upstreams.zipIdx.map fun (x, u) =>
      if u ∈ s.entries then { x with due := true } else x
    let s' := { s with closed := true, upstreams := upstreams, entries := [] }
    (s.entries, match s.growthDone with
      | some g => s'.finishGrowth g
      | none => s')

structure Choice where
  able : Bool := true
  channels : Nat → Nat := fun _ => 0

def perform (ch : Choice) : (a : Act) → State → Option (Reply a × State)
  | .select, s => some (s.select cfg ch.channels)
  | .awaitGrowth g, s => if ch.able ∧ g ∉ s.closings then none else some (ch.able, s)
  | .dial, s =>
    if ch.able then
      some (some s.upstreams.length, { s with upstreams := s.upstreams ++ [.new] })
    else
      some (none, s)
  | .insertAcquired g dialed, s => some (s.insertAcquired g dialed)
  | .checkGrowth g, s => some (s.checkGrowth g)
  | .insertWarm g dialed, s => some (s.insertWarm cfg g dialed)
  | .once k, s =>
    match s.acquisitions[k]? with
    | some acquisition =>
      if acquisition.once then some (false, s) else some (true,
        { s with acquisitions := s.acquisitions.modify k fun x => { x with once := true } })
    | none => none
  | .release k, s => some (s.release cfg k)
  | .markDraining k, s => some (s.markDraining cfg k)
  | .markFailed u, s => some (s.markFailed cfg u)
  | .closeUpstream u, s =>
    some ((), s.update u fun x => { x with closes := if x.closes = 0 then 1 else x.closes })
  | .closePool, s => some s.closePool
  | .cancel, s => some ((), { s with cancelled := true })
  | .spawn _, s => some ((), s)

end Effects

abbrev Call := Program Act Reply

def act (a : Act) : Call (Reply a) :=
  .perform a

section Calls

def closeAny : Option Nat → Call Unit
  | some u => act (.closeUpstream u)
  | none => return ()

def startReplenishing : Option Nat → Call Unit
  | some g => act (.spawn (.replenish g))
  | none => return ()

-- Another round of a loop is another thread that goes on in its place.
def acquire : Call Unit := do
  match ← act .select with
  | .unavailable => return ()
  | .selected growth => startReplenishing growth
  | .overCapacity => return ()
  | .wait g =>
    if ← act (.awaitGrowth g) then
      act (.spawn .acquire)
  | .grow g =>
    let dialed ← act .dial
    match ← act (.insertAcquired g dialed) with
    | .failed => return ()
    | .rejected u => act (.closeUpstream u)
    | .inserted => act (.spawn .acquire)

def release (k : Nat) : Call Unit := do
  if ← act (.once k) then
    let (left, growth) ← act (.release k)
    closeAny left
    startReplenishing growth

def markDraining (k : Nat) : Call Unit := do
  let (left, growth) ← act (.markDraining k)
  closeAny left
  startReplenishing growth

def markFailed (u : Nat) : Call Unit := do
  let (left, growth) ← act (.markFailed u)
  closeAny left
  startReplenishing growth

def replenishWarm (g : Nat) : Call Unit := do
  if ← act (.checkGrowth g) then
    let dialed ← act .dial
    match ← act (.insertWarm g dialed) with
    | .stopped rejected => closeAny rejected
    | .finished => return ()
    | .more g => act (.spawn (.replenish g))
    | .retry => act (.spawn (.replenish g))

end Calls

def Op.call : Op → Call Unit
  | .acquire => UpstreamPool.acquire
  | .release k => UpstreamPool.release k
  | .drain k => UpstreamPool.markDraining k
  | .fail u => UpstreamPool.markFailed u
  | .replenish g => replenishWarm g
  | .close => do discard <| act .closePool
  | .closer u => act (.closeUpstream u)
  | .cancel => act .cancel

def forks : (a : Act) → Reply a → List Op
  | .spawn op, _ => [op]
  | .closePool, entries => entries.map .closer
  | _, _ => []

def Does (cfg : Config) : Exec Act Reply State :=
  fun a s r s' => ∃ ch, perform cfg ch a s = some (r, s')

-- The upstream that an action adds to the list.
def inserts (cfg : Config) (s : State) : Act → Option Nat
  | .insertAcquired _ dialed => if s.unavailable then none else dialed
  | .insertWarm g dialed =>
    if s.growthDone ≠ some g ∨ s.unavailable ∨ !s.hasWarmRoom cfg then none else dialed
  | _ => none

-- No upstream has failed before it is added.
def Timely (cfg : Config) (s : State) (a : Act) : Prop :=
  ∀ u ∈ inserts cfg s a, s.has u (·.status = .selectable)

instance (cfg : Config) (s : State) (a : Act) : Decidable (Timely cfg s a) :=
  inferInstanceAs (Decidable (∀ u ∈ inserts cfg s a, s.has u (·.status = .selectable)))

def DoesTimely (cfg : Config) : Exec Act Reply State :=
  fun a s r s' => Does cfg a s r s' ∧ Timely cfg s a

def external : Op → Bool
  | .replenish _ => false
  | .closer _ => false
  | _ => true

def system (cfg : Config) : Threads.System Act Reply State Op Unit where
  exec := Does cfg
  forks := forks
  program := Op.call
  external := external
  init := .init

def timelySystem (cfg : Config) : Threads.System Act Reply State Op Unit where
  exec := DoesTimely cfg
  forks := forks
  program := Op.call
  external := external
  init := .init

end GizClaw.UpstreamPool
