import GizClaw.Lib.Digits
import GizClaw.PendingDeletion.Task

-- Base58 text with the Bitcoin alphabet: the number that the bytes stand for, in base 58, behind
-- one letter for every zero byte in front.

namespace GizClaw.Base58

open PendingDeletion (Text ascii)

inductive Error where
  | invalidEncoding
  | invalidByte (byte : Byte) (offset : Nat)
  deriving DecidableEq

def btcAlphabet : Text :=
  ascii "123456789ABCDEFGHJKLMNPQRSTUVWXYZabcdefghijkmnopqrstuvwxyz"

def multibasePrefix : Byte :=
  122

def letter (digit : Fin 58) : Byte :=
  btcAlphabet.getD digit 0

-- The table that is built from the alphabet has -1 for the bytes that are not in it.
def decodeTable (c : Byte) : Option (Fin 58) :=
  (List.finRange 58).find? (letter · = c)

def encodeToString (data : Bytes) : Text :=
  if data = [] then
    []
  else
    let leadingZeros := Digits.leadingZeros data
    -- The remainders of repeated division by 58 come out with the last digit first.
    let encoded := (Nat.digits 58 (Digits.value data)).map fun mod => letter (Fin.ofNat 58 mod)
    List.replicate leadingZeros (letter 0) ++ encoded.reverse

-- The loop over the text from offset `i`, with what came before it read into `acc`.
def decodeLoop (i acc : Nat) : Text → Except Error Nat
  | [] => .ok acc
  | c :: cs =>
    match decodeTable c with
    | none => .error (.invalidByte c i)
    | some digit => decodeLoop (i + 1) (acc * 58 + digit) cs

def decodeString (value : Text) : Except Error Bytes :=
  if value = [] then
    .ok []
  else do
    let leadingZeros := (value.takeWhile (· = letter 0)).length
    let acc ← decodeLoop 0 0 value
    return List.replicate leadingZeros 0 ++ Digits.minimal 256 acc

def encodeMultibaseToString (data : Bytes) : Text :=
  multibasePrefix :: encodeToString data

def decodeMultibaseString : Text → Except Error Bytes
  | [] => .error .invalidEncoding
  | c :: cs => if c ≠ multibasePrefix then .error .invalidEncoding else decodeString cs

end GizClaw.Base58
