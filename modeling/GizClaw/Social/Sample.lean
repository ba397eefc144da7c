import GizClaw.PendingDeletion.Sample
import GizClaw.Social.Service

-- Simple functions in place of Go's libraries, to run the social services with.

namespace GizClaw.Social.Sample

open PendingDeletion (Text ascii)
open PendingDeletion.Sample (nibbles unnibble_nibbles slash_notMem_nibbles)

def platform : Platform where
  trimSpace := id
  trimSpace_eq := fun _ _ => rfl
  trimSpace_idem := fun _ => rfl
  trimSpace_colon := fun _ _ _ _ => rfl
  queryEscape := nibbles
  queryEscape_inj := Function.LeftInverse.injective unnibble_nibbles
  queryEscape_slash := slash_notMem_nibbles
  shortHash := id
  bucket := fun _ => []
  isPublicKey := fun t => t ≠ [] ∧ t.all isAlphanumeric
  isPublicKey_form := fun t h => by simpa using h

-- What is drawn where a program asks for it.
def choice : Choice where
  time := 1
  text := ascii "x"

end GizClaw.Social.Sample
