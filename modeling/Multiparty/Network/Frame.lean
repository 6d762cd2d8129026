import Multiparty.Bytes
import Multiparty.Error

/-!
# Framing payloads on a byte stream

A frame is the length of its body in four bytes, most significant first, followed by the body. The
body is the length of the payload as a number of variable width, followed by the payload. A body is
at most eight mebibytes long.

## Main definitions

* `Frame.body`, `Frame.encode`: the frame of a payload.
* `Frame.payload?`: the payload of a body.
* `Frame.next`: the first payload of a stream.
* `Frame.readAll`: all payloads of a stream.
-/

namespace Multiparty.Frame

/-- The longest body of a frame, in bytes. -/
def maxBody : Nat := 8 * 1024 * 1024

/-- A number of variable width: one byte up to 250, else a marker and two, four or eight bytes,
least significant first. -/
def varint (n : Nat) : Bytes :=
  if n ≤ 250 then [UInt8.ofNat n]
  else if n < UInt16.size then 251 :: Bytes.ofNatLE 2 n
  else if n < UInt32.size then 252 :: Bytes.ofNatLE 4 n
  else 253 :: Bytes.ofNatLE 8 n

/-- The number at the front of a byte string and the rest. -/
def readVarint : Bytes → Option (Nat × Bytes)
  | [] => none
  | marker :: rest =>
    if marker ≤ 250 then some (marker.toNat, rest)
    else if marker = 251 then wide 2 rest
    else if marker = 252 then wide 4 rest
    else if marker = 253 then wide 8 rest
    else none
where
  /-- A number of `width` bytes. -/
  wide (width : Nat) (b : Bytes) : Option (Nat × Bytes) :=
    if width ≤ b.length then some (Bytes.toNatLE (b.take width), b.drop width) else none

/-- The body of the frame of a payload. -/
def body (payload : Bytes) : Bytes := varint payload.length ++ payload

/-- Whether the body of a payload is not too long. -/
def fits (payload : Bytes) : Bool := (body payload).length ≤ maxBody

/-- The length of a body in four bytes, most significant first. -/
def header (n : Nat) : Bytes := (Bytes.ofNatLE 4 n).reverse

/-- The frame of a payload, if its body is not too long. -/
def encode? (payload : Bytes) : Option Bytes :=
  if fits payload then some (header (body payload).length ++ body payload) else none

/-- The payload of a body, which must be as long as it says. -/
def payload? (b : Bytes) : Option Bytes :=
  match readVarint b with
  | some (n, rest) => if rest.length = n then some rest else none
  | none => none

/-- What stands at the front of a stream. -/
inductive Next where
  /-- A payload, and the rest of the stream. -/
  | payload (payload rest : Bytes)
  /-- A frame that is not complete yet. -/
  | incomplete
  /-- A frame that no payload has. -/
  | corrupt

/-- The first frame of a stream. -/
def next (stream : Bytes) : Next :=
  if stream.length < 4 then .incomplete
  else
    let n := Bytes.toNatLE (stream.take 4).reverse
    if maxBody < n then .corrupt
    else
      let rest := stream.drop 4
      if rest.length < n then .incomplete
      else
        match payload? (rest.take n) with
        | some payload => .payload payload (rest.drop n)
        | none => .corrupt

/-- How reading a stream ends. -/
inductive Ending where
  /-- The stream is broken, or has ended. -/
  | failed
  /-- More of the stream is awaited. -/
  | awaiting
  deriving DecidableEq

/-- All payloads of a stream up to the first that is missing or broken. Each frame takes at least
four bytes, so the length of the stream bounds their number. -/
def readAll (stream : Bytes) (closed : Bool) : List Bytes × Ending :=
  go stream.length stream
where
  /-- The payloads of at most `fuel` frames. -/
  go : Nat → Bytes → List Bytes × Ending
    | fuel, stream =>
      match next stream with
      | .corrupt => ([], .failed)
      | .incomplete => ([], if closed then .failed else .awaiting)
      | .payload payload rest =>
        match fuel with
        | 0 => ([payload], .failed)
        | fuel + 1 =>
          let (payloads, ending) := go fuel rest
          (payload :: payloads, ending)

end Multiparty.Frame
