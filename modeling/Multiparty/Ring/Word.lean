import Multiparty.Ring.Basic

/-!
# Integers modulo `2 ^ 64`

`Word64` is the ring of 64-bit words with wrapping arithmetic. It has zero divisors, so it serves
only the scheme that needs no division.
-/

namespace Multiparty

/-- An integer modulo `2 ^ 64`. -/
structure Word64 where
  /-- The representative as a machine word. -/
  word : UInt64
  deriving DecidableEq

namespace Word64

/-- The word encoded by exactly eight bytes. -/
def ofBytes? (b : Bytes) : Option Word64 :=
  if b.length = 8 then some ⟨b.toUInt64⟩ else none

/-- One random word is one random element. -/
def draw {G : Type} [WordSource G] (g : G) : Word64 × G :=
  let (w, g) := WordSource.word g
  (⟨w⟩, g)

end Word64

instance : CodedRing Word64 where
  zero := ⟨0⟩
  one := ⟨1⟩
  add x y := ⟨x.word + y.word⟩
  sub x y := ⟨x.word - y.word⟩
  mul x y := ⟨x.word * y.word⟩
  neg x := ⟨-x.word⟩
  decEq := inferInstance
  width := 8
  ofWord w := ⟨w⟩
  toBytes x := Bytes.ofUInt64 x.word
  ofBytes? := Word64.ofBytes?
  draw := Word64.draw
  textForm := .number

end Multiparty
