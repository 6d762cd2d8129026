import Multiparty.Error
import Multiparty.Ring.Basic

/-!
# Lists of ring elements as payloads

A payload is the concatenation of the fixed-width encodings of its elements.

## Main definitions

* `encodeValues`: the payload of a list of elements.
* `decodeValues`: the elements of a payload, whose number may be prescribed.
-/

namespace Multiparty

variable {R : Type} [CodedRing R]

/-- The concatenated encodings of a list of elements. -/
def encodeValues (values : List R) : Bytes := values.flatMap CodedRing.toBytes

/-- The elements encoded by a list of pieces, refused as soon as one piece is not canonical. -/
def decodePieces (pieces : List Bytes) : Except ProtocolError (List R) :=
  pieces.mapM fun piece =>
    match CodedRing.ofBytes? piece with
    | some value => .ok value
    | none => .error (.invalidShareSet .noncanonical)

/-- The elements of a payload. A payload that is no whole number of elements is refused first,
then one whose number of elements is not the expected one, then one with a noncanonical
element. -/
def decodeValues (payload : Bytes) (expected : Option Nat) : Except ProtocolError (List R) :=
  let width := CodedRing.width R
  if payload.length % width ≠ 0 then
    .error (.invalidShareSet (.ragged payload.length width))
  else
    let count := payload.length / width
    match expected with
    | some n =>
      if count ≠ n then .error (.invalidShareSet (.count n count))
      else decodePieces (Bytes.chunks width count payload)
    | none => decodePieces (Bytes.chunks width count payload)

end Multiparty
