import GizClaw.Lib.Bytes

-- The store contract that all key-value backends share: keys and their encoding, entries,
-- conditions, mutations and the checks that every backend runs before it touches its data.

namespace GizClaw.KV

-- Absolute time, in nanoseconds since the Unix epoch. `Option Time` is a deadline, where `none`
-- is the zero `time.Time` ("does not expire").
abbrev Time := Int

-- Go's conversions to `int64` and `uint64` wrap around.
def int64 (i : Int) : Int :=
  i.bmod (2 ^ 64)

def uint64 (i : Int) : Nat :=
  (i % 2 ^ 64).toNat

def unixNano (t : Time) : Int :=
  int64 t

inductive Err where
  | notFound
  | invalidDeadline
  | wrongType
  | memberLimit
  | migrationInProgress
  | migrationConflict
  | migrationUnsupported
  | text (message : String)
  deriving DecidableEq, Repr

structure Options where
  separator : Byte

def defaultSeparator : Byte :=
  58

namespace Options

def sep : Option Options → Byte
  | some o => if o.separator ≠ 0 then o.separator else defaultSeparator
  | none => defaultSeparator

def encode (o : Option Options) (segments : List Bytes) : Bytes :=
  [sep o].intercalate segments

def decode (o : Option Options) (b : Bytes) : List Bytes :=
  b.splitOn (sep o)

theorem encode_decode (o : Option Options) (b : Bytes) : encode o (decode o b) = b :=
  List.intercalate_splitOn (sep o)

end Options

-- An encoded key. Its length is a Go `int`.
structure EncKey where
  bytes : Bytes
  fits : bytes.length < 2 ^ 63
  deriving DecidableEq

theorem EncKey.ext {e₁ e₂ : EncKey} (h : e₁.bytes = e₂.bytes) : e₁ = e₂ := by
  cases e₁; cases e₂; simp_all

theorem EncKey.lt_two_pow_64 (e : EncKey) : e.bytes.length < 2 ^ 64 :=
  e.fits.trans (by decide)

-- A key that `encode` accepts: it panics on a segment that contains the separator.
structure Key (o : Option Options) where
  segments : List Bytes
  clean : ∀ s ∈ segments, Options.sep o ∉ s
  fits : (Options.encode o segments).length < 2 ^ 63
  deriving DecidableEq

variable {o : Option Options}

def Key.encode (k : Key o) : EncKey where
  bytes := Options.encode o k.segments
  fits := k.fits

def Key.decode (o : Option Options) (e : EncKey) : Key o where
  segments := Options.decode o e.bytes
  clean := fun _ h => Bytes.not_mem_of_mem_splitOn h
  fits := by rw [Options.encode_decode]; exact e.fits

@[simp]
theorem Key.encode_decode (o : Option Options) (e : EncKey) : (Key.decode o e).encode = e :=
  EncKey.ext (Options.encode_decode o e.bytes)

structure Entry (o : Option Options) where
  key : Key o
  value : Bytes
  deadline : Option Time

structure SetMembers (o : Option Options) where
  key : Key o
  members : List Bytes
  maxMembers : Int

-- `expected = none` requires absence.
structure Condition (o : Option Options) where
  key : Key o
  expected : Option Bytes

structure Mutation (o : Option Options) where
  conditions : List (Condition o)
  entries : List (Entry o)
  deleteKeys : List (Key o)
  addMembers : List (SetMembers o)
  removeMembers : List (SetMembers o)
  addOrderedMembers : List (SetMembers o)
  removeOrderedMembers : List (SetMembers o)

-- The four group lists of a mutation, in the order in which every backend visits them.
inductive Phase where
  | addMembers
  | removeMembers
  | addOrderedMembers
  | removeOrderedMembers
  deriving DecidableEq, Repr

namespace Phase

-- `phase%2 == 0`
def adds : Phase → Bool
  | addMembers | addOrderedMembers => true
  | removeMembers | removeOrderedMembers => false

-- `phase >= 2`
def ordered : Phase → Bool
  | addMembers | removeMembers => false
  | addOrderedMembers | removeOrderedMembers => true

end Phase

-- A group together with the phase it is visited in.
structure Group (o : Option Options) extends SetMembers o where
  phase : Phase

namespace Mutation

def groups (m : Mutation o) : List (Group o) :=
  m.addMembers.map (⟨·, .addMembers⟩) ++
  m.removeMembers.map (⟨·, .removeMembers⟩) ++
  m.addOrderedMembers.map (⟨·, .addOrderedMembers⟩) ++
  m.removeOrderedMembers.map (⟨·, .removeOrderedMembers⟩)

-- The keys that a mutation uses as records.
def records (m : Mutation o) : List EncKey :=
  m.conditions.map (·.key.encode) ++ m.entries.map (·.key.encode) ++ m.deleteKeys.map Key.encode

end Mutation

def checkDeadlines (now : Time) : List (Entry o) → Except Err Unit
  | [] => .ok ()
  | e :: es =>
    match e.deadline with
    | some d => if d ≤ now then .error .invalidDeadline else checkDeadlines now es
    | none => checkDeadlines now es

def validateGroups (records : List EncKey) (kinds : EncKey → Option Bool) :
    List (Group o) → Except Err Unit
  | [] => .ok ()
  | g :: gs =>
    if g.maxMembers < 0 ∨ g.phase.adds = false ∧ g.maxMembers ≠ 0 then
      .error (.text "kv: member limit requires an addition and a non-negative maximum")
    else if kinds g.key.encode = some !g.phase.ordered then
      .error .wrongType
    else if g.key.encode ∈ records then
      .error (.text "kv: record and collection keys overlap")
    else
      validateGroups records (Function.update kinds g.key.encode (some g.phase.ordered)) gs

def Mutation.validate (now : Time) (m : Mutation o) : Except Err Unit := do
  checkDeadlines now m.entries
  validateGroups m.records (fun _ => none) m.groups

structure OrderedRange where
  after : Option Bytes
  before : Option Bytes
  limit : Int

def OrderedRange.validate (q : OrderedRange) : Except Err Unit :=
  if q.limit ≤ 0 then .error (.text "kv: ordered range limit must be positive") else .ok ()

-- The write operations that every backend implements.
inductive Write (o : Option Options) where
  | set (key : Key o) (value : Bytes)
  | delete (key : Key o)
  | batchMutate (entries : List (Entry o)) (keys : List (Key o))
  | applyMutation (mutation : Mutation o)

-- One call together with the clock that it reads.
structure Call (o : Option Options) where
  now : Time
  write : Write o

-- The value of a physical row. The 8 byte counter of a collection is kept as the number that it
-- encodes.
inductive Payload where
  | bytes (b : Bytes)
  | counter (n : Nat)
  deriving DecidableEq

namespace Payload

def toBytes : Payload → Bytes
  | bytes b => b
  | counter n => Bytes.bigEndian 8 n

def toCounter (message : String) : Payload → Except Err Nat
  | bytes _ => .error (.text message)
  | counter n => .ok n

-- `binary.BigEndian.Uint64`
def uint64 : Payload → Nat
  | bytes b => Bytes.ofBigEndian (b.take 8)
  | counter n => n

end Payload

-- The reply of a write and the contents after it. Only an applied write changes the contents.
def settle {σ : Type} (s : σ) : Except Err (Option σ) → Except Err Bool × σ
  | .error e => (.error e, s)
  | .ok none => (.ok false, s)
  | .ok (some s') => (.ok true, s')

-- The calls that change a store, with the conditional create that most backends offer as well.
inductive Request (o : Option Options) where
  | write (w : Write o)
  | createIfAllAbsent (guards entries : List (Entry o))

def noGuard : Err :=
  .text "kv: create-if-all-absent requires at least one guard"

-- A conflict names the first guard that exists and its current value.
inductive Reply (o : Option Options) where
  | applied (b : Bool)
  | conflict (key : Key o) (existing : Bytes)
  deriving DecidableEq

def settleCreate {σ : Type} (s : σ) :
    Except Err ((Key o × Bytes) ⊕ σ) → Except Err (Reply o) × σ
  | .error e => (.error e, s)
  | .ok (.inl (key, value)) => (.ok (.conflict key value), s)
  | .ok (.inr s') => (.ok (.applied true), s')

end GizClaw.KV
