import Multiparty.Ring.Basic

/-!
# The binary field with `2 ^ 64` elements

Elements are polynomials of degree below 64 over the field with two elements, modulo
`x ^ 64 + x ^ 4 + x ^ 3 + x + 1`. Bit `i` of the word of an element is the coefficient of `x ^ i`.
Addition and subtraction are both the exclusive or. A product is formed without carries on twice
the width and then reduced from its highest bit down.

## Main definitions

* `Binary64`: an element.
* `Binary64.Wide`: a polynomial of degree below 128, with its number `Binary64.Wide.toNat`.
* `Binary64.carryless`: the product of two polynomials of degree below 64.
* `Binary64.reduceFrom`: the reduction of a product, highest bit first.
-/

namespace Multiparty

-- The powers in this file are those of the core library, whatever else is imported.
attribute [local instance (high)] instPowNat

/-- An element of the field with `2 ^ 64` elements. -/
structure Binary64 where
  /-- The coefficients of the polynomial, packed into a word. -/
  word : UInt64
  deriving DecidableEq

namespace Binary64

/-- A polynomial of degree below 128: bit `i` of `low` is the coefficient of `x ^ i`, and bit `i` of
`high` that of `x ^ (64 + i)`. -/
structure Wide where
  high : UInt64
  low : UInt64
  deriving DecidableEq

namespace Wide

/-- The coefficients as the bits of a number. -/
def toNat (p : Wide) : Nat := p.high.toNat * 2 ^ (64 : Nat) + p.low.toNat

/-- The sum of two polynomials. -/
@[inline] def add (p q : Wide) : Wide := ⟨p.high ^^^ q.high, p.low ^^^ q.low⟩

/-- The product with `x ^ i` for `i < 64`; coefficients beyond `x ^ 127` are dropped. -/
@[inline] def shift (p : Wide) (i : Nat) : Wide :=
  ⟨p.high <<< UInt64.ofNat i ^^^ p.low >>> 1 >>> UInt64.ofNat (63 - i), p.low <<< UInt64.ofNat i⟩

end Wide

/-- The carry-less product of `a` with the lowest `bits` bits of `b`. -/
def carryless (a b : UInt64) : (bits : Nat) → Wide
  | 0 => ⟨0, 0⟩
  | i + 1 =>
    let product := carryless a b i
    if b >>> UInt64.ofNat i &&& 1 = 1 then product.add (Wide.shift ⟨0, a⟩ i) else product

/-- The multiple of the modulus `x ^ 64 + x ^ 4 + x ^ 3 + x + 1` by a digit, which is zero or
one. -/
@[inline] def modulusTimes (digit : UInt64) : Wide := ⟨digit, 0b11011 * digit⟩

/-- Clears the bits `64 + i` for all `i < steps`, the highest first, by adding the shifted modulus
times the part of the product that stands at or above the bit. -/
def reduceFrom : (steps : Nat) → Wide → Wide
  | 0, product => product
  | i + 1, product =>
    let digit := product.high >>> UInt64.ofNat i
    reduceFrom i (product.add ((modulusTimes digit).shift i))

/-- The product modulo the reduction polynomial. -/
def mul (x y : Binary64) : Binary64 := ⟨(reduceFrom 63 (carryless x.word y.word 64)).low⟩

/-- The element encoded by exactly eight bytes. -/
def ofBytes? (b : Bytes) : Option Binary64 :=
  if b.length = 8 then some ⟨b.toUInt64⟩ else none

/-- One random word is one random element. -/
def draw {G : Type} [WordSource G] (g : G) : Binary64 × G :=
  let (w, g) := WordSource.word g
  (⟨w⟩, g)

instance : One Binary64 := ⟨⟨1⟩⟩

instance : Mul Binary64 := ⟨mul⟩

/-- The inverse: the multiplicative group has order `2 ^ 64 - 1`. -/
def inv? (x : Binary64) : Option Binary64 :=
  if x.word = 0 then none else some (power x (2 ^ (64 : Nat) - 2))

end Binary64

instance : CodedField Binary64 where
  zero := ⟨0⟩
  one := ⟨1⟩
  add x y := ⟨x.word ^^^ y.word⟩
  sub x y := ⟨x.word ^^^ y.word⟩
  mul := Binary64.mul
  neg x := x
  decEq := inferInstance
  width := 8
  ofWord w := ⟨w⟩
  toBytes x := Bytes.ofUInt64 x.word
  ofBytes? := Binary64.ofBytes?
  draw := Binary64.draw
  textForm := .number
  inv? := Binary64.inv?

end Multiparty
