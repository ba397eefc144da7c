import GizClaw.Buffer.Storage

-- `BlockBuffer` makes writers wait when there is no room, and readers when there is nothing to
-- read. Both wait for the same condition variable.

namespace GizClaw.Buffer.Block

open Monitor

variable {T : Type} [Inhabited T]

def block (buf : List T) : Fixed T where
  storage := { buf }

-- The section of a call, from where it has the lock to where it waits or returns. After a section
-- that writes, either nothing is left to write or there is no room.
def step (s : Fixed T) : Op T → Fixed T × Notice × Outcome (Op T) (Result T)
  | .discard n =>
    match s.closeErr with
    | some cause => (s, .silent, .done (.err (some (.skipFromClosed cause))))
    | none => ({ s with storage := s.storage.discard n }, .silent, .done (.err none))
  | .read k =>
    match s.closeErr with
    | some cause => (s, .silent, .done (.read (.error (.readFromClosed cause))))
    | none =>
      if s.isEmpty then
        if s.closeWrite then (s, .silent, .done (.read (.error .eof)))
        else (s, .silent, .wait (.read k))
      else
        let (p, storage) := s.storage.read k
        ({ s with storage }, .one, .done (.read (.ok p)))
  | .next =>
    match s.closeErr with
    | some cause => (s, .silent, .done (.next (.error (.readFromClosed cause))))
    | none =>
      if s.isEmpty then
        if s.closeWrite then (s, .silent, .done (.next (.error .iteratorDone)))
        else (s, .silent, .wait .next)
      else
        let (t, storage) := s.storage.next
        ({ s with storage }, .one, .done (.next (.ok t)))
  | .write p wn =>
    match s.writeFault with
    | some err => (s, .silent, .done (.write wn (some err)))
    | none =>
      if p = [] then
        (s, .silent, .done (.write wn none))
      else if s.isFull then
        (s, .silent, .wait (.write p wn))
      else
        let (storage, n) := s.storage.append p
        let rest := p.drop n
        ({ s with storage }, .one,
          if rest = [] then .done (.write (wn + n) none) else .wait (.write rest (wn + n)))
  | .add t =>
    match s.writeFault with
    | some err => (s, .silent, .done (.err (some err)))
    | none =>
      if s.isFull then (s, .silent, .wait (.add t))
      else ({ s with storage := s.storage.add t }, .one, .done (.err none))
  | .reset => ({ s with storage := s.storage.reset }, .silent, .done .reset)
  | .len => (s, .silent, .done (.len s.storage.len))
  | .bytes => (s, .silent, .done (.bytes s.storage.bytes))
  | .closeWrite =>
    if s.closeWrite then (s, .silent, .done (.err none))
    else ({ s with closeWrite := true }, .all, .done (.err none))
  | .closeWithError err =>
    match s.closeErr with
    | some _ => (s, .silent, .done (.err none))
    | none =>
      let s' := { s with closeErr := some (err.getD .closedPipe), closeWrite := true }
      (s', .all, .done (.err none))

end GizClaw.Buffer.Block
