import Multiparty.Random.WordSource

/-!
# Rings with a fixed-width encoding

The clear values of a sharing lie in a finite commutative ring whose elements are written with a
fixed number of bytes. The class `CodedRing` collects what the protocols use of such a ring, and
`CodedField` adds division. Both are plain operations; the laws are stated and proved apart from
them.

## Main definitions

* `CodedRing`, `CodedField`: the operations of a clear domain.
* `CodedRing.toNat`, `CodedRing.ofNat?`: an element as the number that its bytes write.
* `CodedRing.sum`, `CodedRing.weightedSum`: sums and linear combinations.
* `power`: powers by repeated squaring.
-/

namespace Multiparty

-- The powers in this file are those of the core library, whatever else is imported.
attribute [local instance (high)] instPowNat

/-- How an element is written in a text file: as the list of its bytes, or as one number. -/
inductive TextForm where
  | octets
  | number
  deriving DecidableEq

/-- A finite ring of clear values with a fixed-width encoding. -/
class CodedRing (R : Type) extends Zero R, One R, Add R, Sub R, Mul R, Neg R where
  /-- Equality of elements is decidable. -/
  decEq : DecidableEq R
  /-- Number of bytes of an encoded element. -/
  width : Nat
  /-- The image of a 64-bit word; distinct small words give distinct elements. -/
  ofWord : UInt64 → R
  /-- The encoding of an element, `width` bytes long. -/
  toBytes : R → Bytes
  /-- The element encoded by exactly `width` bytes; noncanonical encodings are refused. -/
  ofBytes? : Bytes → Option R
  /-- A uniformly random element. -/
  draw : {G : Type} → [WordSource G] → G → R × G
  /-- How elements are written in text files. -/
  textForm : TextForm

/-- A ring of clear values with division. -/
class CodedField (F : Type) extends CodedRing F where
  /-- The multiplicative inverse, absent for zero. -/
  inv? : F → Option F

instance {R : Type} [CodedRing R] : DecidableEq R := CodedRing.decEq

namespace CodedRing

variable {R : Type} [CodedRing R]

/-- Whether an element is zero. -/
def isZero (x : R) : Bool := decide (x = 0)

/-- The number that the encoding of an element writes. -/
def toNat (x : R) : Nat := Bytes.toNatLE (toBytes x)

/-- The element whose encoding writes the number `n`, if there is one. -/
def ofNat? (n : Nat) : Option R :=
  if n < 256 ^ width R then ofBytes? (Bytes.ofNatLE (width R) n) else none

/-- The sum of a list of elements, from the left. -/
def sum (xs : List R) : R := xs.foldl (· + ·) 0

/-- The sum of the products of two lists, as long as the shorter one. -/
def weightedSum (weights values : List R) : R :=
  (weights.zip values).foldl (fun acc p => acc + p.1 * p.2) 0

end CodedRing

/-- The power of `x` with exponent `n` times `acc`, by repeated squaring. -/
def powerTimes {M : Type} [Mul M] (acc x : M) (n : Nat) : M :=
  if n = 0 then acc
  else powerTimes (if n % 2 = 1 then acc * x else acc) (x * x) (n / 2)
termination_by n

/-- The `n`-th power of `x`, by repeated squaring. -/
def power {M : Type} [One M] [Mul M] (x : M) (n : Nat) : M := powerTimes 1 x n

end Multiparty
