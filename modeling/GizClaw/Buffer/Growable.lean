import GizClaw.Buffer.Storage

-- `Buffer` grows as needed. Its elements have ids, by which they are removed after a predicate has
-- looked at them without the lock.

namespace GizClaw.Buffer

open Monitor

structure Growable (T : Type) where
  buf : List T := []
  ids : List Nat := []
  nextID : Nat := 0
  closeWrite : Bool := false
  closeErr : Option Error := none

namespace Growable

-- A removal has two sections. The second one knows the ids of the elements that are to go.
inductive Call (T : Type) where
  | plain (op : Op T)
  | removeIf (predicate : Option (T → Bool))
  | removing (removeIDs : List Nat)

-- A negative count of elements to discard is out of the bounds of the slice.
inductive Result (T : Type) where
  | plain (r : Buffer.Result T)
  | removed (n : Nat)
  | panicked
  deriving DecidableEq

variable {T : Type} [Inhabited T] (s : Growable T)

def writeFault : Option Error :=
  match s.closeErr with
  | some cause => some (.writeToClosed cause)
  | none => if s.closeWrite then some (.writeToClosed .closedPipe) else none

def append (p : List T) : Growable T :=
  { s with
    buf := s.buf ++ p
    ids := s.ids ++ (List.range p.length).map (s.nextID + 1 + ·)
    nextID := s.nextID + p.length }

def drop (n : Nat) : Growable T :=
  { s with buf := s.buf.drop n, ids := s.ids.drop n }

-- The loop over the indices of the elements. What stays is moved to the front of the same slices,
-- behind the `kept` elements that stayed before.
def compactLoop (removeIDs : List Nat) (buf : List T) (ids : List Nat) (kept removed : Nat) :
    List Nat → List T × List Nat × Nat × Nat
  | [] => (buf, ids, kept, removed)
  | i :: is =>
    if ids.getD i 0 ∈ removeIDs then
      compactLoop removeIDs buf ids kept (removed + 1) is
    else
      compactLoop removeIDs (buf.set kept (buf.getD i default)) (ids.set kept (ids.getD i 0))
        (kept + 1) removed is

def compact (removeIDs : List Nat) : Growable T × Nat :=
  let (buf, ids, kept, removed) :=
    compactLoop removeIDs s.buf s.ids 0 0 (List.range s.buf.length)
  ({ s with buf := buf.take kept, ids := ids.take kept }, removed)

-- The ids of the elements for which the predicate holds.
def select (predicate : T → Bool) (values : List T) (ids : List Nat) : List Nat :=
  ((values.zip ids).filter fun (value, _) => predicate value).map Prod.snd

def plainStep : Op T → Growable T × Notice × Outcome (Call T) (Result T)
  | .write p _ =>
    match s.writeFault with
    | some err => (s, .silent, .done (.plain (.write 0 (some err))))
    | none => (s.append p, .one, .done (.plain (.write p.length none)))
  | .discard n =>
    match s.closeErr with
    | some cause => (s, .silent, .done (.plain (.err (some (.skipFromClosed cause)))))
    | none =>
      if s.buf.length < n then
        ({ s with buf := [], ids := [] }, .silent, .done (.plain (.err none)))
      else if n < 0 then (s, .silent, .done .panicked)
      else (s.drop n.toNat, .silent, .done (.plain (.err none)))
  | .read k =>
    match s.closeErr with
    | some cause => (s, .silent, .done (.plain (.read (.error (.readFromClosed cause)))))
    | none =>
      if s.buf = [] then
        if s.closeWrite then (s, .silent, .done (.plain (.read (.error .eof))))
        else (s, .silent, .wait (.plain (.read k)))
      else
        let p := s.buf.take k
        (s.drop p.length, .silent, .done (.plain (.read (.ok p))))
  | .next =>
    match s.closeErr with
    | some cause => (s, .silent, .done (.plain (.next (.error (.readFromClosed cause)))))
    | none =>
      match s.buf with
      | [] =>
        if s.closeWrite then (s, .silent, .done (.plain (.next (.error .iteratorDone))))
        else (s, .silent, .wait (.plain .next))
      | t :: _ => (s.drop 1, .silent, .done (.plain (.next (.ok t))))
  | .add t =>
    match s.writeFault with
    | some err => (s, .silent, .done (.plain (.err (some err))))
    | none => (s.append [t], .one, .done (.plain (.err none)))
  | .reset => ({ s with buf := [], ids := [] }, .silent, .done (.plain .reset))
  | .len => (s, .silent, .done (.plain (.len s.buf.length)))
  | .bytes => (s, .silent, .done (.plain (.bytes s.buf)))
  | .closeWrite =>
    if s.closeWrite then (s, .silent, .done (.plain (.err none)))
    else ({ s with closeWrite := true }, .all, .done (.plain (.err none)))
  | .closeWithError err =>
    match s.closeErr with
    | some _ => (s, .silent, .done (.plain (.err none)))
    | none =>
      let s' : Growable T :=
        { s with buf := [], ids := [], closeErr := some (err.getD .closedPipe), closeWrite := true }
      (s', if s.closeWrite then .silent else .all, .done (.plain (.err none)))

def step : Call T → Growable T × Notice × Outcome (Call T) (Result T)
  | .plain op => s.plainStep op
  | .removeIf none => (s, .silent, .done (.removed 0))
  | .removeIf (some pred) => (s, .silent, .yield (.removing (select pred s.buf s.ids)))
  | .removing removeIDs =>
    let (s', removed) := s.compact removeIDs
    (s', .silent, .done (.removed removed))

def body : Body (Growable T) (Call T) (Result T) :=
  fun _ call s => s.step call

end Growable

end GizClaw.Buffer
