import GizClaw.Lib.Digits
import GizClaw.PendingDeletion.Task

-- The text codecs of Go's standard library: hexadecimal digits, unpadded URL-safe base64 and
-- decimal numbers of 64 bits. Decoders report that they fail and not where.

namespace GizClaw.Standard

open PendingDeletion (Text ascii)
open Fin (ofNat)

section Hex

def hexDigit (d : Fin 16) : Byte :=
  (ascii "0123456789abcdef").getD d 0

-- Both cases are read.
def hexValue (c : Byte) : Option (Fin 16) :=
  if 48 ≤ c ∧ c ≤ 57 then some (ofNat 16 (c.val - 48))
  else if 97 ≤ c ∧ c ≤ 102 then some (ofNat 16 (c.val - 87))
  else if 65 ≤ c ∧ c ≤ 70 then some (ofNat 16 (c.val - 55))
  else none

def hexEncode (src : Bytes) : Text :=
  src.flatMap fun b => [hexDigit (ofNat 16 (b.val / 16)), hexDigit (ofNat 16 b.val)]

def hexDecode : Text → Option Bytes
  | [] => some []
  | [_] => none
  | p :: q :: s => do
    let a ← hexValue p
    let b ← hexValue q
    let rest ← hexDecode s
    return ofNat 256 (a.val * 16 + b.val) :: rest

end Hex

section Base64

def urlLetter (d : Fin 64) : Byte :=
  (ascii "ABCDEFGHIJKLMNOPQRSTUVWXYZabcdefghijklmnopqrstuvwxyz0123456789-_").getD d 0

def decodeMap (c : Byte) : Option (Fin 64) :=
  (List.finRange 64).find? (urlLetter · = c)

-- Three bytes are four digits of six bits. The bits that the last bytes leave over are zero.
def sextets : Bytes → List (Fin 64)
  | [] => []
  | [a] => [ofNat 64 (a.val / 4), ofNat 64 (a.val % 4 * 16)]
  | [a, b] =>
    [ofNat 64 (a.val / 4), ofNat 64 (a.val % 4 * 16 + b.val / 16),
      ofNat 64 (b.val % 16 * 4)]
  | a :: b :: c :: s =>
    ofNat 64 (a.val / 4) :: ofNat 64 (a.val % 4 * 16 + b.val / 16) ::
      ofNat 64 (b.val % 16 * 4 + c.val / 64) :: ofNat 64 c.val :: sextets s

-- The bits that are left over are dropped, whatever they are.
def octets : List (Fin 64) → Option Bytes
  | [] => some []
  | [_] => none
  | [a, b] => some [ofNat 256 (a.val * 4 + b.val / 16)]
  | [a, b, c] =>
    some [ofNat 256 (a.val * 4 + b.val / 16), ofNat 256 (b.val % 16 * 16 + c.val / 4)]
  | a :: b :: c :: d :: s => do
    let rest ← octets s
    return ofNat 256 (a.val * 4 + b.val / 16) ::
      ofNat 256 (b.val % 16 * 16 + c.val / 4) ::
      ofNat 256 (c.val % 4 * 64 + d.val) :: rest

def base64Encode (src : Bytes) : Text :=
  (sextets src).map urlLetter

-- Line breaks are skipped wherever they are.
def base64Decode (s : Text) : Option Bytes := do
  let digits ← (s.filter fun c => c ≠ 10 ∧ c ≠ 13).mapM decodeMap
  octets digits

def base64EncodedLen (n : Nat) : Nat :=
  (n * 8 + 5) / 6

end Base64

section Decimal

def decimalDigit (d : Fin 10) : Byte :=
  ofNat 256 (48 + d.val)

def formatUint (n : Nat) : Text :=
  if n = 0 then [48] else (Digits.minimal 10 n).map decimalDigit

-- The least number that overflows when a digit is put behind it.
def cutoff : Nat :=
  (2 ^ 64 - 1) / 10 + 1

def parseLoop (n : Nat) : Text → Option Nat
  | [] => some n
  | c :: cs =>
    if c < 48 ∨ 57 < c then none
    else if cutoff ≤ n then none
    else
      let n₁ := n * 10 + (c.val - 48)
      if 2 ^ 64 ≤ n₁ then none else parseLoop n₁ cs

def parseUint (s : Text) : Option Nat :=
  if s = [] then none else parseLoop 0 s

end Decimal

end GizClaw.Standard
