import Multiparty.Error
import Multiparty.Preprocessing.Bundle

/-!
# Serving preprocessed material

A `Supply` is what one party has left of its bundle. Material is served from the end of each list,
so a supply keeps the lists as stacks, the item served next on top.

## Main definitions

* `Supply.ofBundle`: the full supply of a bundle.
* `Supply.triple`, `Supply.bit`, `Supply.inputMask`: requests for one item each; the answer comes
  with the supply that is left.
-/

namespace Multiparty

/-- The material that one party has left, each list with the next item first. -/
structure Supply (S R K : Type) where
  parties : Nat
  party : Nat
  key : K
  triples : List (Triple S)
  bits : List S
  /-- Mask shares left for the inputs of each party. -/
  inputMasks : List (List S)
  /-- Plain values left of the masks for the own inputs. -/
  plainMasks : List R
  deriving DecidableEq

namespace Supply

variable {S R K : Type}

/-- All material of a bundle, the last item of each list on top. -/
def ofBundle (b : Bundle S R K) : Supply S R K :=
  { parties := b.parties
    party := b.party
    key := b.key
    triples := b.triples.reverse
    bits := b.bits.reverse
    inputMasks := b.inputMasks.map List.reverse
    plainMasks := b.plainMasks.reverse }

/-- Number of triples left. -/
def remainingTriples (s : Supply S R K) : Nat := s.triples.length

/-- The next triple. -/
def triple (s : Supply S R K) : Except ProtocolError (Triple S) × Supply S R K :=
  match s.triples with
  | t :: rest => (.ok t, { s with triples := rest })
  | [] => (.error (.insufficient .triple), s)

/-- The next shared bit. -/
def bit (s : Supply S R K) : Except ProtocolError S × Supply S R K :=
  match s.bits with
  | b :: rest => (.ok b, { s with bits := rest })
  | [] => (.error (.insufficient .bit), s)

/-- The next mask for the inputs of `owner`, with its plain value if `owner` is the party itself.
The share is taken first; if no plain value is left for it, the share is gone all the same. -/
def inputMask (owner : Nat) (s : Supply S R K) :
    Except ProtocolError (S × Option R) × Supply S R K :=
  match s.inputMasks[owner]? with
  | none => (.error (.invalidParameters (.noInputMasks owner)), s)
  | some [] => (.error (.insufficient .inputMask), s)
  | some (mask :: rest) =>
    let s := { s with inputMasks := s.inputMasks.set owner rest }
    if owner = s.party then
      match s.plainMasks with
      | plain :: plains => (.ok (mask, some plain), { s with plainMasks := plains })
      | [] => (.error (.insufficient .inputMask), s)
    else (.ok (mask, none), s)

end Supply

end Multiparty
