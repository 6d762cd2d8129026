import Multiparty.Ring.Basic

/-!
# Integers modulo a Mersenne number

`Mersenne e` is the ring of residues modulo `2 ^ e - 1`. The clear domains in use are
`Mersenne 61` and `Mersenne 127`, whose moduli are prime, with encodings of eight and sixteen
bytes.

## Main definitions

* `Mersenne`: a residue below `2 ^ e - 1`.
* `Mersenne.draw`: a random residue by rejection; the accepted bits are read as the residue times
  a power of two, the radix of a word-by-word multiplication.
* `Mersenne61`, `Mersenne127`: the two prime fields.
-/

namespace Multiparty

-- The powers in this file are those of the core library, whatever else is imported.
attribute [local instance (high)] instPowNat

/-- A residue modulo `2 ^ e - 1`. -/
structure Mersenne (e : Nat) where
  /-- The canonical representative. -/
  val : Nat
  /-- The representative is reduced. -/
  isLt : val < 2 ^ e - 1
  deriving DecidableEq

namespace Mersenne

variable {e : Nat}

@[ext] theorem ext {x y : Mersenne e} (h : x.val = y.val) : x = y := by
  cases x; cases y; congr

theorem modulus_pos (x : Mersenne e) : 0 < 2 ^ e - 1 := Nat.lt_of_le_of_lt (Nat.zero_le _) x.isLt

/-- The residue of a natural number, for a modulus that is not zero. -/
@[inline] def reduce (h : 0 < 2 ^ e - 1) (n : Nat) : Mersenne e :=
  ⟨n % (2 ^ e - 1), Nat.mod_lt n h⟩

@[always_inline, inline] instance : Add (Mersenne e) :=
  ⟨fun x y => reduce x.modulus_pos (x.val + y.val)⟩

@[always_inline, inline] instance : Neg (Mersenne e) :=
  ⟨fun x => reduce x.modulus_pos (2 ^ e - 1 - x.val)⟩

@[always_inline, inline] instance : Sub (Mersenne e) :=
  ⟨fun x y => reduce x.modulus_pos (x.val + (2 ^ e - 1 - y.val))⟩

@[always_inline, inline] instance : Mul (Mersenne e) :=
  ⟨fun x y => reduce x.modulus_pos (x.val * y.val)⟩

/-- Number of 64-bit words that hold a residue. -/
def limbs (e : Nat) : Nat := (e + 63) / 64

/-- Number of bytes that hold a residue. -/
def width (e : Nat) : Nat := (e + 7) / 8

/-- The little-endian bytes of the canonical representative. -/
def toBytes (x : Mersenne e) : Bytes := Bytes.ofNatLE (width e) x.val

/-- The residue written by exactly `width e` bytes, if they write a number below the modulus. -/
def ofBytes? (b : Bytes) : Option (Mersenne e) :=
  if b.length = width e then
    if h : b.toNatLE < 2 ^ e - 1 then some ⟨b.toNatLE, h⟩ else none
  else none

/-- The low `e` bits of as many words as hold a residue. -/
def drawBits {G : Type} [WordSource G] (e : Nat) (g : G) : Nat × G :=
  let (words, g) := WordSource.replicate WordSource.word (limbs e) g
  (words.foldr (fun w acc => w.toNat + 2 ^ (64 : Nat) * acc) 0 % 2 ^ e, g)

/-- A random residue. Bits that write the modulus are drawn again. The others are the residue
times `2 ^ (64 * limbs e)`, so they are multiplied by the inverse of that power of two. -/
def draw {G : Type} [WordSource G] (h : 0 < 2 ^ e - 1) (g : G) : Mersenne e × G :=
  let (bits, g) := WordSource.rejecting (drawBits e) (fun n => decide (n < 2 ^ e - 1))
    (WordSource.patience g) g
  (reduce h (bits * 2 ^ (e - 64 * limbs e % e)), g)

/-- The inverse of a residue, by Fermat's little theorem. -/
def inv? [One (Mersenne e)] (x : Mersenne e) : Option (Mersenne e) :=
  if x.val = 0 then none else some (power x (2 ^ e - 3))

end Mersenne

/-- The integers modulo `2 ^ 61 - 1`. -/
abbrev Mersenne61 : Type := Mersenne 61

/-- The integers modulo `2 ^ 127 - 1`. -/
abbrev Mersenne127 : Type := Mersenne 127

instance : CodedField Mersenne61 where
  zero := ⟨0, by decide⟩
  one := ⟨1, by decide⟩
  decEq := inferInstance
  width := Mersenne.width 61
  ofWord w := Mersenne.reduce (by decide) w.toNat
  toBytes := Mersenne.toBytes
  ofBytes? := Mersenne.ofBytes?
  draw := Mersenne.draw (by decide)
  textForm := .octets
  inv? :=
    letI : One (Mersenne 61) := ⟨⟨1, by decide⟩⟩
    Mersenne.inv?

instance : CodedField Mersenne127 where
  zero := ⟨0, by decide⟩
  one := ⟨1, by decide⟩
  decEq := inferInstance
  width := Mersenne.width 127
  ofWord w := Mersenne.reduce (by decide) w.toNat
  toBytes := Mersenne.toBytes
  ofBytes? := Mersenne.ofBytes?
  draw := Mersenne.draw (by decide)
  textForm := .octets
  inv? :=
    letI : One (Mersenne 127) := ⟨⟨1, by decide⟩⟩
    Mersenne.inv?

end Multiparty
