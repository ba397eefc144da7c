import GizClaw.Lib.Wildcard
import GizClaw.PendingDeletion.Task

-- Values by path patterns with wildcards for one segment (`+`) and for all that is left (`#`).

namespace GizClaw

namespace Trie

open PendingDeletion (Text ascii slash)

-- What repeated cuts at a slash leave: a slash at the end begins no segment, and only the empty
-- path has none.
def segments : Text → List Text
  | [] => []
  | c :: cs =>
    if c = slash then
      [] :: segments cs
    else
      match segments cs with
      | [] => [[c]]
      | s :: rest => (c :: s) :: rest

inductive Error (E : Type) where
  | invalidPattern
  | setFunc (err : E)
  deriving DecidableEq

-- A function that is given the value and whether it was set. It may change the value and fail.
abbrev SetFunc (T E : Type) := T → Bool → T × Option E

end Trie

structure Trie (T : Type) where
  children : PendingDeletion.Text → Option (Trie T)
  matchAny : Option (Trie T)
  matchAll : Option (Trie T)
  isSet : Bool
  value : T

namespace Trie

open PendingDeletion (Text ascii slash)

variable {T E : Type} [Inhabited T]

def new : Trie T where
  children := fun _ => none
  matchAny := none
  matchAll := none
  isSet := false
  value := default

def setFunc (t : Trie T) (fn : SetFunc T E) : Trie T × Option (Error E) :=
  match fn t.value t.isSet with
  | (value, some err) => ({ t with value }, some (.setFunc err))
  | (value, none) => ({ t with value, isSet := true }, none)

-- `Set` below the segments that were cut off.
def setAt (fn : SetFunc T E) (t : Trie T) : List Text → Trie T × Option (Error E)
  | [] => t.setFunc fn
  | first :: subseq =>
    match t.children first with
    | some ch =>
      let (ch, err) := setAt fn ch subseq
      ({ t with children := Function.update t.children first (some ch) }, err)
    | none =>
      if first = ascii "+" then
        let (ch, err) := setAt fn (t.matchAny.getD new) subseq
        ({ t with matchAny := some ch }, err)
      else if first = ascii "#" then
        if subseq ≠ [] then
          (t, some .invalidPattern)
        else
          let (ch, err) := (t.matchAll.getD new).setFunc fn
          ({ t with matchAll := some ch }, err)
      else
        let (ch, err) := setAt fn new subseq
        ({ t with children := Function.update t.children first (some ch) }, err)

def set (t : Trie T) (path : Text) (fn : SetFunc T E) : Trie T × Option (Error E) :=
  t.setAt fn (segments path)

def setValue (t : Trie T) (path : Text) (value : T) : Trie T × Option (Error Empty) :=
  t.set path fun _ _ => (value, none)

-- A result that is returned by the caller, too.
def found (r : Text × Option T × Bool) : Option (Text × Option T × Bool) :=
  if r.snd.snd then some r else none

-- `match` of the empty path.
def matchEnd (t : Trie T) (matched : Text) : Text × Option T × Bool :=
  (matched, some t.value, t.isSet)

def matchAt (t : Trie T) (matched : Text) : List Text → Text × Option T × Bool
  | [] => t.matchEnd matched
  | first :: subseq =>
    let literal := (t.children first).bind fun ch =>
      found (ch.matchAt (matched ++ [slash] ++ first) subseq)
    let any := t.matchAny.bind fun ch => found (ch.matchAt (matched ++ ascii "/+") subseq)
    let all := t.matchAll.bind fun ch => found (ch.matchEnd (matched ++ ascii "/#"))
    (literal.or (any.or all)).getD ([], none, false)

-- `Match`: the route, the value and whether there is one.
def matchPath (t : Trie T) (path : Text) : Text × Option T × Bool :=
  t.matchAt [] (segments path)

end Trie

end GizClaw
