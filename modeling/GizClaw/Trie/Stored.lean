import GizClaw.Trie.Trie

-- What a trie is for: values that are stored by patterns.

namespace GizClaw.Trie

open PendingDeletion (Text ascii slash)
open Wildcard

def segment (text : Text) : Segment Text :=
  if text = ascii "+" then .any else if text = ascii "#" then .all else .literal text

def text : Segment Text → Text
  | .literal text => text
  | .any => ascii "+"
  | .all => ascii "#"

def pattern (path : Text) : List (Segment Text) :=
  (segments path).map segment

-- The pattern as an absolute path. That of the empty path has no segments, and an empty route.
def route : List (Segment Text) → Text
  | [] => []
  | p => slash :: [slash].intercalate (p.map text)

structure Entry (T : Type) where
  isSet : Bool
  value : T

abbrev Stored (T : Type) := List (Segment Text) → Entry T

variable {T E : Type} [Inhabited T]

def Stored.empty : Stored T :=
  fun _ => ⟨false, default⟩

def Stored.set (a : Stored T) (p : List (Segment Text)) (fn : SetFunc T E) :
    Stored T × Option (Error E) :=
  if Valid p then
    match fn (a p).value (a p).isSet with
    | (value, some err) => (Function.update a p { a p with value }, some (.setFunc err))
    | (value, none) => (Function.update a p ⟨true, value⟩, none)
  else
    (a, some .invalidPattern)

-- A call of `Set`.
structure SetCall (T E : Type) where
  path : Text
  fn : SetFunc T E

def run (calls : List (SetCall T E)) : Trie T :=
  calls.foldl (fun t call => (t.set call.path call.fn).fst) new

def stored (calls : List (SetCall T E)) : Stored T :=
  calls.foldl (fun a call => (a.set (pattern call.path) call.fn).fst) Stored.empty

-- The function leaves the value as it is when it fails.
def SetFunc.Safe (fn : SetFunc T E) : Prop :=
  ∀ value existed, (fn value existed).snd ≠ none → (fn value existed).fst = value

end GizClaw.Trie
