import GizClaw.Lib.Bytes

-- The quiet lead-in of the audio of a route: it is held back until the first audible sample, and
-- all but a short preroll of it is dropped.

namespace GizClaw.AgentHost

inductive Format where
  | l16Mono16K
  | l16Mono24K
  | l16Mono48K
  | l16Stereo16K
  | l16Stereo24K
  | l16Stereo48K
  deriving DecidableEq

-- In nanoseconds. None of the durations here is negative.
abbrev Duration := Nat

def second : Duration :=
  1000000000

def millisecond : Duration :=
  1000000

namespace Format

def sampleRate : Format → Nat
  | l16Mono16K | l16Stereo16K => 16000
  | l16Mono24K | l16Stereo24K => 24000
  | l16Mono48K | l16Stereo48K => 48000

def channels : Format → Nat
  | l16Mono16K | l16Mono24K | l16Mono48K => 1
  | l16Stereo16K | l16Stereo24K | l16Stereo48K => 2

def depth (_ : Format) : Nat :=
  16

variable (f : Format)

def samples (bytes : Nat) : Nat :=
  bytes * 8 / f.channels / f.depth

def samplesInDuration (d : Duration) : Nat :=
  d * f.sampleRate / second

def bytesInDuration (d : Duration) : Nat :=
  f.samplesInDuration d * f.channels * f.depth / 8

def duration (bytes : Nat) : Duration :=
  second * f.samples bytes / f.sampleRate

def frameBytes : Nat :=
  f.channels * 2

end Format

-- Only the data of decoded chunks can be looked at.
inductive Chunk where
  | data (format : Format) (data : Bytes)
  | other (n : Nat)
  deriving DecidableEq

def audioLeadAudibleLevel : Int :=
  256

def audioLeadPreroll : Duration :=
  60 * millisecond

def audioLeadMaxTrim : Duration :=
  2 * second

-- Two bytes in little-endian order, as an `int16`.
def sample (lo hi : Byte) : Int :=
  Int.bmod (lo.val + 256 * hi.val) (2 ^ 16)

def audible (lo hi : Byte) : Bool :=
  audioLeadAudibleLevel ≤ sample lo hi || sample lo hi ≤ -audioLeadAudibleLevel

-- The loop from `offset` on, over what is behind it.
def audibleFrom (frameBytes offset : Nat) : Bytes → Option Nat
  | lo :: hi :: data =>
    if audible lo hi then some (offset - offset % frameBytes)
    else audibleFrom frameBytes (offset + 2) data
  | _ => none

def audibleFrameOffset (data : Bytes) (frameBytes : Nat) : Option Nat :=
  audibleFrom frameBytes 0 data

structure AudioLeadTrimmer where
  done : Bool := false
  format : Format := .l16Mono16K
  held : Bytes := []
  dropped : Duration := 0
  deriving DecidableEq

namespace AudioLeadTrimmer

variable (t : AudioLeadTrimmer)

def keepPreroll : AudioLeadTrimmer :=
  let frameBytes := t.format.frameBytes
  let keep := t.format.bytesInDuration audioLeadPreroll
  let keep := keep - keep % frameBytes
  let budget := t.format.bytesInDuration (audioLeadMaxTrim - t.dropped)
  let budget := budget - budget % frameBytes
  let excess := min (t.held.length - keep) budget
  if 0 < excess then
    { t with dropped := t.dropped + t.format.duration excess, held := t.held.drop excess }
  else
    t

def release : List Chunk × AudioLeadTrimmer :=
  if t.held = [] then ([], t) else ([.data t.format t.held], { t with held := [] })

-- The part of `trim` for chunks of the format of what is held.
def trimData (format : Format) (data : Bytes) : List Chunk × AudioLeadTrimmer :=
  match audibleFrameOffset data format.frameBytes with
  | none =>
    let t := { t with format := format, held := t.held ++ data }.keepPreroll
    if audioLeadMaxTrim ≤ t.dropped then { t with done := true }.release else ([], t)
  | some onset =>
    let t :=
      { t with done := true, format := format, held := t.held ++ data.take onset }.keepPreroll
    ([.data format (t.held ++ data.drop onset)], { t with held := [] })

def trim (chunk : Chunk) : List Chunk × AudioLeadTrimmer :=
  if t.done then
    ([chunk], t)
  else
    match chunk with
    | .other _ =>
      let (out, t) := { t with done := true }.release
      (out ++ [chunk], t)
    | .data format data =>
      if t.held ≠ [] ∧ format ≠ t.format then
        let (out, t) := { t with done := true }.release
        (out ++ [chunk], t)
      else
        t.trimData format data

end AudioLeadTrimmer

end GizClaw.AgentHost
