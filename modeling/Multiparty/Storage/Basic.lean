import Multiparty.Json.Reader
import Multiparty.Ring.Basic

/-!
# Stored forms

A value that is kept in files has two forms: a binary one with numbers of fixed width, and a JSON
text without white space. The class `Stored` gives writers and readers of both; the binary reader
takes a value from the front and leaves the rest.

## Main definitions

* `Stored`: writers and readers of a type.
* Instances for numbers, lists, the unit value and ring elements.
-/

namespace Multiparty

-- The powers in this file are those of the core library, whatever else is imported.
attribute [local instance (high)] instPowNat

/-- A reader of binary forms: the value and the rest of the bytes. -/
abbrev BinaryReader (α : Type) : Type := Bytes → Option (α × Bytes)

/-- A type whose values are kept in files. -/
class Stored (α : Type) where
  /-- The binary form. -/
  binary : α → Bytes
  /-- Reads a binary form from the front. -/
  readBinary : BinaryReader α
  /-- The JSON form. -/
  text : α → String
  /-- Reads a JSON form. -/
  readText : JsonReader α

namespace BinaryReader

variable {α β : Type}

/-- The next `width` bytes. -/
def take (width : Nat) : BinaryReader Bytes := fun b =>
  if width ≤ b.length then some (b.take width, b.drop width) else none

/-- A little-endian number of `width` bytes. -/
def natLE (width : Nat) : BinaryReader Nat := fun b =>
  match take width b with
  | some (piece, rest) => some (piece.toNatLE, rest)
  | none => none

/-- Reads with the first reader and goes on with one that depends on the value. -/
protected def bind (m : BinaryReader α) (f : α → BinaryReader β) : BinaryReader β := fun b =>
  match m b with
  | some (a, rest) => f a rest
  | none => none

/-- The values of `n` readings, in front of them those in `acc` in reverse. -/
def timesOnto (m : BinaryReader α) : (n : Nat) → (acc : List α) → BinaryReader (List α)
  | 0, acc, b => some (acc.reverse, b)
  | n + 1, acc, b =>
    match m b with
    | some (a, rest) => timesOnto m n (a :: acc) rest
    | none => none

/-- The values of `n` readings. -/
def times (m : BinaryReader α) (n : Nat) : BinaryReader (List α) := timesOnto m n []

end BinaryReader

namespace Stored

/-- The JSON list of given items. -/
def listText (items : List String) : String := "[" ++ String.intercalate "," items ++ "]"

/-- The JSON object with given members. -/
def objectText (members : List (String × String)) : String :=
  "\x7b" ++ String.intercalate "," (members.map fun (name, value) => "\"" ++ name ++ "\":" ++ value)
    ++ "\x7d"

/-- Numbers are 64-bit words. -/
instance : Stored Nat where
  binary n := Bytes.ofNatLE 8 n
  readBinary := BinaryReader.natLE 8
  text n := toString n
  readText := JsonReader.number UInt64.size

/-- The unit value takes no bytes. -/
instance : Stored Unit where
  binary _ := []
  readBinary b := some ((), b)
  text _ := "null"
  readText := JsonReader.null

variable {α : Type} [Stored α]

/-- A list is its length followed by its items. -/
instance : Stored (List α) where
  binary as := Bytes.ofNatLE 8 as.length ++ as.flatMap binary
  readBinary := BinaryReader.bind (BinaryReader.natLE 8) (BinaryReader.times readBinary)
  text as := listText (as.map text)
  readText := JsonReader.list readText

end Stored

namespace CodedRing

variable {R : Type} [CodedRing R]

/-- The JSON form of a ring element: its bytes as a list, or the number that they write. -/
def toText (x : R) : String :=
  match textForm R with
  | .octets => Stored.listText ((toBytes x).map fun b => toString b.toNat)
  | .number => toString (toNat x)

/-- Reads the JSON form of a ring element. -/
def readText : JsonReader R := do
  let bytes ←
    match textForm R with
    | .octets => do
      let octets ← JsonReader.exactly (width R) (JsonReader.number 256)
      pure (octets.map UInt8.ofNat)
    | .number => do
      let n ← JsonReader.number (256 ^ width R)
      pure (Bytes.ofNatLE (width R) n)
  JsonReader.require (ofBytes? bytes)

/-- Reads the binary form of a ring element, which must be canonical. -/
def readBinary : BinaryReader R := fun b =>
  match BinaryReader.take (width R) b with
  | some (piece, rest) => (ofBytes? piece).map (·, rest)
  | none => none

instance (priority := low) : Stored R where
  binary := toBytes
  readBinary := readBinary
  text := toText
  readText := readText

end CodedRing

end Multiparty
