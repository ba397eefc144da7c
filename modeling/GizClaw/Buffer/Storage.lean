import GizClaw.Lib.Circular
import GizClaw.Lib.Monitor

-- What the buffers of package `buffer` have in common: their calls and errors, and the circular
-- storage of the ones with a fixed size.

namespace GizClaw.Buffer

-- Errors that wrap another one name the operation that found the buffer closed.
inductive Error where
  | closedPipe
  | eof
  | iteratorDone
  | custom (text : String)
  | skipFromClosed (cause : Error)
  | readFromClosed (cause : Error)
  | writeToClosed (cause : Error)
  deriving DecidableEq

-- The calls of all buffers. A write that goes on knows how much it has written.
inductive Op (T : Type) where
  | write (p : List T) (wn : Nat)
  | add (t : T)
  | read (k : Nat)
  | next
  | discard (n : Int)
  | reset
  | len
  | bytes
  | closeWrite
  | closeWithError (err : Option Error)
  deriving DecidableEq

-- A read shows what it put into its destination, and fails without an element.
inductive Result (T : Type) where
  | write (n : Nat) (err : Option Error)
  | read (r : Except Error (List T))
  | next (r : Except Error T)
  | err (err : Option Error)
  | reset
  | len (n : Int)
  | bytes (p : List T)
  deriving DecidableEq

-- The cells, and how many elements were taken and put since the last reset.
structure Storage (T : Type) where
  buf : List T
  head : Int := 0
  tail : Int := 0

namespace Storage

variable {T : Type} [Inhabited T] (s : Storage T)

def len : Int :=
  s.tail - s.head

-- Go's remainder. It is negative for a negative counter, which no cell has for its index.
def index (i : Int) : Nat :=
  (i.tmod s.buf.length).toNat

def discard (n : Int) : Storage T :=
  if s.len < n then { s with head := s.tail } else { s with head := s.head + n }

-- At most `k` elements, at least one of which is there.
def read (k : Nat) : List T × Storage T :=
  let p := Circular.read s.buf (s.index s.head) s.len.toNat k
  (p, { s with head := s.head + p.length })

def next : T × Storage T :=
  (s.buf.getD (s.index s.head) default, { s with head := s.head + 1 })

-- As much of `p` as there is room for.
def append (p : List T) : Storage T × Nat :=
  let avail := s.buf.length - s.len
  let (buf, n) := Circular.fill s.buf (s.index s.tail) avail.toNat p
  ({ s with buf, tail := s.tail + n }, n)

def add (t : T) : Storage T :=
  { s with buf := s.buf.set (s.index s.tail) t, tail := s.tail + 1 }

def reset : Storage T :=
  { s with head := 0, tail := 0 }

def bytes : List T :=
  Circular.between s.buf (s.index s.head) (s.index s.tail)

end Storage

-- `BlockBuffer` and `RingBuffer`.
structure Fixed (T : Type) where
  storage : Storage T
  closeWrite : Bool := false
  closeErr : Option Error := none

namespace Fixed

variable {T : Type} (s : Fixed T)

def isEmpty : Bool :=
  s.storage.head = s.storage.tail

def isFull : Bool :=
  s.storage.len = s.storage.buf.length

-- Why nothing can be written any more.
def writeFault : Option Error :=
  match s.closeErr with
  | some cause => some (.writeToClosed cause)
  | none => if s.closeWrite then some (.writeToClosed .closedPipe) else none

end Fixed

end GizClaw.Buffer
