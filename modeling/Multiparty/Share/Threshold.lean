import Multiparty.Share.Basic

/-!
# Threshold shares

The secret is the constant term of a polynomial, and party `i` holds its value at the point
`i + 1`.
-/

namespace Multiparty

/-- The value of the sharing polynomial at the point of one party. -/
structure ThresholdShare (R : Type) where
  /-- The evaluation. -/
  value : R
  deriving DecidableEq

namespace ThresholdShare

variable {R : Type} [CodedRing R]

instance : Zero (ThresholdShare R) := ⟨⟨0⟩⟩

instance : Add (ThresholdShare R) := ⟨fun s t => ⟨s.value + t.value⟩⟩

instance : Sub (ThresholdShare R) := ⟨fun s t => ⟨s.value - t.value⟩⟩

instance : Neg (ThresholdShare R) := ⟨fun s => ⟨-s.value⟩⟩

/-- The multiple of a share by a clear value. -/
def scale (s : ThresholdShare R) (c : R) : ThresholdShare R := ⟨s.value * c⟩

/-- The share of a public value: a constant polynomial has that value at every point. -/
def constant (v : R) : ThresholdShare R := ⟨v⟩

instance : LinearShare (ThresholdShare R) R Unit where
  scale := scale
  constant v _ _ := constant v
  scheme := .shamirThreshold
  slots s := [s.value]
  slotCount := 1
  ofSlots?
    | [value] => some ⟨value⟩
    | _ => none
  keySlots _ := []
  keySlotCount := 0
  ofKeySlots?
    | [] => some ()
    | _ => none

end ThresholdShare

end Multiparty
