import GizClaw.Buffer.Growable

-- What `Buffer` is for: a list of elements that keep their identity. A removal drops the elements
-- that it has seen and that its predicate is about, and no other.

namespace GizClaw.Buffer

open Monitor

variable {T : Type}

-- Elements are numbered in the order in which they are put.
structure Elements (T : Type) where
  elems : List (Nat × T) := []
  count : Nat := 0
  closeWrite : Bool := false
  closeErr : Option Error := none

namespace Elements

-- A removal remembers which elements it has seen.
inductive Call (T : Type) where
  | plain (op : Op T)
  | removeIf (predicate : Option (T → Bool))
  | removing (seen : List Nat) (predicate : T → Bool)

variable (a : Elements T)

def writeFault : Option Error :=
  match a.closeErr with
  | some cause => some (.writeToClosed cause)
  | none => if a.closeWrite then some (.writeToClosed .closedPipe) else none

def append (p : List T) : Elements T :=
  { a with
    elems := a.elems ++ ((List.range p.length).map (a.count + 1 + ·)).zip p
    count := a.count + p.length }

def plainStep : Op T → Elements T × Notice × Outcome (Call T) (Growable.Result T)
  | .write p _ =>
    match a.writeFault with
    | some err => (a, .silent, .done (.plain (.write 0 (some err))))
    | none => (a.append p, .one, .done (.plain (.write p.length none)))
  | .discard n =>
    match a.closeErr with
    | some cause => (a, .silent, .done (.plain (.err (some (.skipFromClosed cause)))))
    | none =>
      if n < 0 then (a, .silent, .done .panicked)
      else ({ a with elems := a.elems.drop n.toNat }, .silent, .done (.plain (.err none)))
  | .read k =>
    match a.closeErr with
    | some cause => (a, .silent, .done (.plain (.read (.error (.readFromClosed cause)))))
    | none =>
      if a.elems = [] then
        if a.closeWrite then (a, .silent, .done (.plain (.read (.error .eof))))
        else (a, .silent, .wait (.plain (.read k)))
      else
        ({ a with elems := a.elems.drop k }, .silent,
          .done (.plain (.read (.ok ((a.elems.take k).map Prod.snd)))))
  | .next =>
    match a.closeErr with
    | some cause => (a, .silent, .done (.plain (.next (.error (.readFromClosed cause)))))
    | none =>
      match a.elems with
      | [] =>
        if a.closeWrite then (a, .silent, .done (.plain (.next (.error .iteratorDone))))
        else (a, .silent, .wait (.plain .next))
      | (_, t) :: l => ({ a with elems := l }, .silent, .done (.plain (.next (.ok t))))
  | .add t =>
    match a.writeFault with
    | some err => (a, .silent, .done (.plain (.err (some err))))
    | none => (a.append [t], .one, .done (.plain (.err none)))
  | .reset => ({ a with elems := [] }, .silent, .done (.plain .reset))
  | .len => (a, .silent, .done (.plain (.len a.elems.length)))
  | .bytes => (a, .silent, .done (.plain (.bytes (a.elems.map Prod.snd))))
  | .closeWrite =>
    if a.closeWrite then (a, .silent, .done (.plain (.err none)))
    else ({ a with closeWrite := true }, .all, .done (.plain (.err none)))
  | .closeWithError err =>
    match a.closeErr with
    | some _ => (a, .silent, .done (.plain (.err none)))
    | none =>
      let a' : Elements T :=
        { a with elems := [], closeErr := some (err.getD .closedPipe), closeWrite := true }
      (a', if a.closeWrite then .silent else .all, .done (.plain (.err none)))

-- What is removed was there when the removal looked, has the property, and is still there.
def removes (seen : List Nat) (predicate : T → Bool) (e : Nat × T) : Bool :=
  e.fst ∈ seen ∧ predicate e.snd

def step : Call T → Elements T × Notice × Outcome (Call T) (Growable.Result T)
  | .plain op => a.plainStep op
  | .removeIf none => (a, .silent, .done (.removed 0))
  | .removeIf (some pred) => (a, .silent, .yield (.removing (a.elems.map Prod.fst) pred))
  | .removing seen pred =>
    ({ a with elems := a.elems.filter fun e => !removes seen pred e }, .silent,
      .done (.removed (a.elems.countP (removes seen pred))))

def body : Body (Elements T) (Call T) (Growable.Result T) :=
  fun _ call a => a.step call

end Elements

end GizClaw.Buffer
