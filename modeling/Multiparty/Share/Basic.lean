import Multiparty.Ring.Basic

/-!
# Linear secret sharing

A share of a clear value is held by one party. Sums of shares and multiples by clear values are
formed locally, so sharing is linear. Three schemes are provided; the class `LinearShare` is their
common interface.

## Main definitions

* `SharingScheme`: the closed list of schemes and their names.
* `LinearShare`: what the protocols use of a type of shares.
-/

namespace Multiparty

/-- The supported sharing schemes. -/
inductive SharingScheme where
  /-- Additive shares with shares of a message authentication code. -/
  | additiveMac
  /-- Replicated shares among three parties. -/
  | replicated3
  /-- Evaluations of a polynomial of bounded degree. -/
  | shamirThreshold
  deriving DecidableEq

namespace SharingScheme

/-- All schemes, in the order of their tags. -/
def all : List SharingScheme := [additiveMac, replicated3, shamirThreshold]

/-- The name under which a scheme is stored and reported. -/
def name : SharingScheme → String
  | additiveMac => "AdditiveMac"
  | replicated3 => "Replicated3"
  | shamirThreshold => "ShamirThreshold"

/-- The number under which a scheme is stored. -/
def tag : SharingScheme → Nat
  | additiveMac => 0
  | replicated3 => 1
  | shamirThreshold => 2

/-- The scheme stored under a number. -/
def ofTag? : Nat → Option SharingScheme
  | 0 => some additiveMac
  | 1 => some replicated3
  | 2 => some shamirThreshold
  | _ => none

/-- The scheme with a name that a user may write. -/
def ofUserName? (s : String) : Option SharingScheme :=
  if s = "spdz" ∨ s = "additive" then some additiveMac
  else if s = "rep3" ∨ s = "replicated" then some replicated3
  else if s = "shamir" then some shamirThreshold
  else none

/-- What a user is told who writes another name. -/
def unknownName : String :=
  "Unsupported sharing scheme. Available options: spdz, rep3, shamir"

@[simp] theorem ofTag?_tag (s : SharingScheme) : ofTag? s.tag = some s := by
  cases s <;> rfl

end SharingScheme

/-- A type `S` of shares of clear values in `R`, held by parties with key material `K`. -/
class LinearShare (S : Type) (R K : outParam Type) extends
    Zero S, Add S, Sub S, Neg S where
  /-- Multiplication of a share by a clear value. -/
  scale : S → R → S
  /-- The share that party `party` with key material `key` holds of a public value. -/
  constant : R → (party : Nat) → (key : K) → S
  /-- The scheme of these shares. -/
  scheme : SharingScheme
  /-- The elements of which a share consists. -/
  slots : S → List R
  /-- The number of elements of a share. -/
  slotCount : Nat
  /-- The share with the given elements, if their number is right. -/
  ofSlots? : List R → Option S
  /-- The key material as ring elements. -/
  keySlots : K → List R
  /-- The number of ring elements of the key material. -/
  keySlotCount : Nat
  /-- The key material with the given elements, if their number is right. -/
  ofKeySlots? : List R → Option K

namespace LinearShare

variable {S R K : Type} [LinearShare S R K] [CodedRing R]

/-- Number of bytes of an encoded share. -/
def width (S : Type) {R K : Type} [LinearShare S R K] [CodedRing R] : Nat :=
  slotCount S * CodedRing.width R

/-- The encoding of a share: the encodings of its elements in order. -/
def toBytes (s : S) : Bytes := (slots s).flatMap CodedRing.toBytes

/-- The share encoded by exactly `width S` bytes, all of its elements canonical. -/
def ofBytes? (b : Bytes) : Option S :=
  if b.length = width S then
    ((Bytes.chunks (CodedRing.width R) (slotCount S) b).mapM CodedRing.ofBytes?).bind ofSlots?
  else none

/-- The elements of a share with `v` added to the one at index `slot`. -/
def tamper? (s : S) (slot : Nat) (v : R) : Option S :=
  if slot < slotCount S then ofSlots? ((slots s).modify slot (· + v)) else none

end LinearShare

end Multiparty
