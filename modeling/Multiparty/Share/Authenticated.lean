import Multiparty.Share.Basic

/-!
# Authenticated additive shares

The value shares of all parties sum to the secret, and their authentication shares sum to the
secret times the key, itself the sum of the key shares of the parties.
-/

namespace Multiparty

/-- A share of a value together with a share of its authentication code. -/
structure MacShare (R : Type) where
  /-- Additive share of the secret. -/
  value : R
  /-- Additive share of the secret times the key. -/
  mac : R
  deriving DecidableEq

namespace MacShare

variable {R : Type} [CodedRing R]

instance : Zero (MacShare R) := ⟨⟨0, 0⟩⟩

instance : Add (MacShare R) := ⟨fun s t => ⟨s.value + t.value, s.mac + t.mac⟩⟩

instance : Sub (MacShare R) := ⟨fun s t => ⟨s.value - t.value, s.mac - t.mac⟩⟩

instance : Neg (MacShare R) := ⟨fun s => ⟨-s.value, -s.mac⟩⟩

/-- The multiple of a share by a clear value. -/
def scale (s : MacShare R) (c : R) : MacShare R := ⟨s.value * c, s.mac * c⟩

/-- The share of a public value: party zero holds the value, everyone authenticates it. -/
def constant (v : R) (party : Nat) (key : R) : MacShare R :=
  ⟨if party = 0 then v else 0, v * key⟩

instance : LinearShare (MacShare R) R R where
  scale := scale
  constant := constant
  scheme := .additiveMac
  slots s := [s.value, s.mac]
  slotCount := 2
  ofSlots?
    | [value, mac] => some ⟨value, mac⟩
    | _ => none
  keySlots key := [key]
  keySlotCount := 1
  ofKeySlots?
    | [key] => some key
    | _ => none

end MacShare

end Multiparty
