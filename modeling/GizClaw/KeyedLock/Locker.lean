import GizClaw.Lib.Tally

-- Locks for keys. The entry of a key is made when somebody wants its lock and dropped when nobody
-- holds it or waits for it.

namespace GizClaw.KeyedLock

-- Whether the channel has its one token in it, and how many callers refer to the entry.
structure Entry where
  token : Bool := false
  refs : Int := 0

-- Callers keep the addresses of entries. No address is used twice.
structure Locker (K : Type) where
  entries : K → Option Nat := fun _ => none
  heap : Nat → Entry := fun _ => {}
  made : Nat := 0

variable {K : Type} [DecidableEq K]

namespace Locker

variable (l : Locker K)

def modify (item : Nat) (f : Entry → Entry) : Locker K :=
  { l with heap := Function.update l.heap item (f (l.heap item)) }

def setToken (item : Nat) (token : Bool) : Locker K :=
  l.modify item ({ · with token })

def lookup (key : K) : Nat × Locker K :=
  match l.entries key with
  | some item => (item, l)
  | none => (l.made, {
    entries := Function.update l.entries key (some l.made)
    heap := Function.update l.heap l.made {}
    made := l.made + 1 })

-- What `Acquire` does before it waits.
def takeReference (key : K) : Nat × Locker K :=
  let (item, l) := l.lookup key
  (item, l.modify item fun e => { e with refs := e.refs + 1 })

def releaseReference (key : K) (item : Nat) : Locker K :=
  let l := l.modify item fun e => { e with refs := e.refs - 1 }
  if (l.heap item).refs = 0 ∧ l.entries key = some item then
    { l with entries := Function.update l.entries key none }
  else
    l

end Locker

-- How far a caller is: in `Acquire` up to `failed` or `holding`, then in the function that
-- `Acquire` returns.
inductive Phase where
  | calling
  | waiting (item : Nat)
  -- It has sent the token, and looks at its context once more.
  | granted (item : Nat)
  | revoked (item : Nat)
  | leaving (item : Nat)
  | failed
  | holding (item : Nat)
  | unlocking (item : Nat)
  | unlocked

namespace Phase

-- The entry that the caller has a reference to.
def item : Phase → Option Nat
  | calling | failed | unlocked => none
  | waiting item | granted item | revoked item | leaving item | holding item | unlocking item =>
    some item

-- The entry whose token the caller has sent and not received again.
def owned : Phase → Option Nat
  | granted item | revoked item | holding item => some item
  | _ => none

end Phase

structure Caller (K : Type) where
  key : K
  cancelled : Bool := false
  phase : Phase := .calling

namespace Caller

-- It has the token, so nobody else gets the lock.
def Owns (c : Caller K) : Prop :=
  c.phase.owned.isSome

-- It waits until `Acquire` returns, and holds the lock until it is done with unlocking.
def HoldsOrWaits (c : Caller K) : Prop :=
  c.phase.item.isSome

instance (c : Caller K) : Decidable c.HoldsOrWaits :=
  inferInstanceAs (Decidable (_ = true))

end Caller

-- A caller goes on, its `select` sees that the context is done, or the returned function is called.
inductive Move where
  | go
  | done
  | unlock

def Caller.move (l : Locker K) (c : Caller K) : Move → Option (Locker K × Phase)
  | .go =>
    match c.phase with
    | .calling =>
      let (item, l) := l.takeReference c.key
      some (l, .waiting item)
    | .waiting item =>
      if (l.heap item).token then none else some (l.setToken item true, .granted item)
    | .granted item => some (l, if c.cancelled then .revoked item else .holding item)
    | .revoked item =>
      if (l.heap item).token then some (l.setToken item false, .leaving item) else none
    | .leaving item => some (l.releaseReference c.key item, .failed)
    | .unlocking item => some (l.releaseReference c.key item, .unlocked)
    | .failed | .holding _ | .unlocked => none
  | .done =>
    match c.phase with
    | .waiting item => if c.cancelled then some (l, .leaving item) else none
    | _ => none
  | .unlock =>
    match c.phase with
    | .holding item =>
      if (l.heap item).token then some (l.setToken item false, .unlocking item) else none
    -- Only the first call does anything.
    | .unlocking item => some (l, .unlocking item)
    | .unlocked => some (l, .unlocked)
    | _ => none

structure System (K : Type) where
  locker : Locker K := {}
  callers : List (Caller K) := []

inductive Event (K : Type) where
  | acquire (key : K)
  | cancel (i : Nat)
  | move (i : Nat) (move : Move)

namespace System

def setPhase (s : System K) (i : Nat) (l : Locker K) (phase : Phase) : System K :=
  ⟨l, s.callers.modify i ({ · with phase })⟩

-- What cannot happen now does not change anything.
def step (s : System K) : Event K → System K
  | .acquire key => { s with callers := s.callers ++ [{ key }] }
  | .cancel i => { s with callers := s.callers.modify i ({ · with cancelled := true }) }
  | .move i move =>
    match s.callers[i]? with
    | none => s
    | some c =>
      match c.move s.locker move with
      | none => s
      | some (l, phase) => s.setPhase i l phase

def run (events : List (Event K)) : System K :=
  events.foldl step {}

-- How many callers hold the lock of a key or wait for it.
def users (s : System K) (k : K) : Nat :=
  s.callers.countP fun c => c.key = k ∧ c.HoldsOrWaits

end System

end GizClaw.KeyedLock
