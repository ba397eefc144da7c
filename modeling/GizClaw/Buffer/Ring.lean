import GizClaw.Buffer.Storage

-- `RingBuffer` keeps what was put last when there is no room. Readers wait for a notice in a
-- channel.

namespace GizClaw.Buffer

open Monitor

variable {T : Type} [Inhabited T]

-- What does not fit overwrites the oldest elements. Of more than the storage can hold, the end is
-- written, in two pieces that are rotated so that the head moves by less than one round.
def Storage.overwrite (s : Storage T) (p : List T) : Storage T × Nat :=
  let bufsz := s.buf.length
  let avail := bufsz - s.len
  let (s, wn) := if 0 < avail then s.append p else (s, 0)
  let leftn := p.length - wn
  if leftn = 0 then
    (s, wn)
  else
    let cn := leftn % bufsz
    let (cbuf, bbuf) :=
      if leftn ≤ bufsz then
        (p.drop (p.length - leftn), [])
      else
        (p.drop (p.length - cn), (p.drop (p.length - bufsz)).take (bufsz - cn))
    ({ buf := Circular.overwrite s.buf (s.index s.head) cbuf bbuf
       head := s.head + cbuf.length
       tail := s.tail + cbuf.length }, p.length)

def Storage.addLast (s : Storage T) (t : T) : Storage T :=
  let s := s.add t
  if s.buf.length < s.len then { s with head := s.head + 1 } else s

namespace Ring

def ringN (size : Nat) : Fixed T where
  storage := { buf := List.replicate size default }

-- The section of a call, from where it has the lock to where it gives it back. A call that goes on
-- after a notice looks at the state as a new call does.
def step (s : Fixed T) : Op T → Fixed T × Notice × Outcome (Op T) (Result T)
  | .discard n =>
    match s.closeErr with
    | some cause => (s, .silent, .done (.err (some (.skipFromClosed cause))))
    | none => ({ s with storage := s.storage.discard n }, .silent, .done (.err none))
  | .read k =>
    match s.closeErr with
    | some cause => (s, .silent, .done (.read (.error (.readFromClosed cause))))
    | none =>
      if s.isEmpty then
        if s.closeWrite then (s, .silent, .done (.read (.error .eof)))
        else (s, .silent, .wait (.read k))
      else
        let (p, storage) := s.storage.read k
        ({ s with storage }, .silent, .done (.read (.ok p)))
  | .next =>
    match s.closeErr with
    | some cause => (s, .silent, .done (.next (.error (.readFromClosed cause))))
    | none =>
      if s.isEmpty then
        if s.closeWrite then (s, .silent, .done (.next (.error .iteratorDone)))
        else (s, .silent, .wait .next)
      else
        let (t, storage) := s.storage.next
        ({ s with storage }, .silent, .done (.next (.ok t)))
  | .write p _ =>
    match s.writeFault with
    | some err => (s, .silent, .done (.write 0 (some err)))
    | none =>
      let (storage, n) := s.storage.overwrite p
      ({ s with storage }, .silent, .done (.write n none))
  | .add t =>
    match s.writeFault with
    | some err => (s, .silent, .done (.err (some err)))
    | none => ({ s with storage := s.storage.addLast t }, .one, .done (.err none))
  | .reset => ({ s with storage := s.storage.reset }, .silent, .done .reset)
  | .len => (s, .silent, .done (.len s.storage.len))
  | .bytes => (s, .silent, .done (.bytes s.storage.bytes))
  | .closeWrite =>
    if s.closeWrite then (s, .silent, .done (.err none))
    else ({ s with closeWrite := true }, .all, .done (.err none))
  | .closeWithError err =>
    match s.closeErr with
    | some _ => (s, .silent, .done (.err none))
    | none =>
      let s' := { s with closeErr := some (err.getD .closedPipe), closeWrite := true }
      (s', if s.closeWrite then .silent else .all, .done (.err none))

end Ring

end GizClaw.Buffer
