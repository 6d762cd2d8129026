import Multiparty.Error
import Multiparty.Ring.Basic

/-!
# Polynomials at the points of the parties

Party `i` of a threshold sharing holds the value of a polynomial at the point `i + 1`. The
constant term is recovered from the values at `1, ..., n` with the coefficients of Lagrange.

## Main definitions

* `evaluate`: the value of a polynomial given by its coefficients.
* `reconstructionCoefficients`: the coefficients that recover the constant term.
-/

namespace Multiparty

variable {F : Type} [CodedField F]

/-- The field element at which party `i` holds its evaluation. -/
def partyPoint (i : Nat) : F := CodedRing.ofWord (UInt64.ofNat (i + 1))

/-- The value at `x` of the polynomial with the given coefficients, constant term first. -/
def evaluate (coefficients : List F) (x : F) : F :=
  coefficients.foldr (fun c acc => acc * x + c) 0

/-- The coefficient of the value of party `i` among `n` parties: the product over all others `j`
of their point divided by the difference of their point and that of `i`. -/
def reconstructionCoefficient (n i : Nat) : Except ProtocolError F :=
  let others := (List.range n).filter (· ≠ i)
  let numerator := others.foldl (fun acc j => acc * partyPoint j) (1 : F)
  let denominator :=
    others.foldl (fun acc j => acc * (partyPoint j - partyPoint i)) (1 : F)
  match CodedField.inv? denominator with
  | some inverse => .ok (numerator * inverse)
  | none => .error (.invalidParameters (.pointsCollide n))

/-- The coefficients that recover the constant term of a polynomial of degree below `n` from its
values at the points of the first `n` parties. -/
def reconstructionCoefficients (n : Nat) : Except ProtocolError (List F) :=
  (List.range n).mapM (reconstructionCoefficient n)

end Multiparty
