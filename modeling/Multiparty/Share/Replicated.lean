import Multiparty.Share.Basic

/-!
# Replicated shares among three parties

The secret is the sum of three parts, and party `i` holds the parts `i` and `i + 1` modulo three.
Every part is known to two parties, and any two parties know all parts.
-/

namespace Multiparty

/-- The number of parties of replicated sharing. -/
def replicatedParties : Nat := 3

/-- The two parts that one party holds. -/
structure ReplicatedShare (R : Type) where
  /-- The part with the number of the party. -/
  own : R
  /-- The part with the next number. -/
  next : R
  deriving DecidableEq

namespace ReplicatedShare

variable {R : Type} [CodedRing R]

instance : Zero (ReplicatedShare R) := ⟨⟨0, 0⟩⟩

instance : Add (ReplicatedShare R) := ⟨fun s t => ⟨s.own + t.own, s.next + t.next⟩⟩

instance : Sub (ReplicatedShare R) := ⟨fun s t => ⟨s.own - t.own, s.next - t.next⟩⟩

instance : Neg (ReplicatedShare R) := ⟨fun s => ⟨-s.own, -s.next⟩⟩

/-- The sum of the two parts held. -/
def sum (s : ReplicatedShare R) : R := s.own + s.next

/-- The multiple of a share by a clear value. -/
def scale (s : ReplicatedShare R) (c : R) : ReplicatedShare R := ⟨s.own * c, s.next * c⟩

/-- The share of a public value, which is put into part zero, held by the parties 0 and 2. -/
def constant (v : R) (party : Nat) : ReplicatedShare R :=
  match party with
  | 0 => ⟨v, 0⟩
  | 2 => ⟨0, v⟩
  | _ => 0

instance : LinearShare (ReplicatedShare R) R Unit where
  scale := scale
  constant v party _ := constant v party
  scheme := .replicated3
  slots s := [s.own, s.next]
  slotCount := 2
  ofSlots?
    | [own, next] => some ⟨own, next⟩
    | _ => none
  keySlots _ := []
  keySlotCount := 0
  ofKeySlots?
    | [] => some ()
    | _ => none

end ReplicatedShare

end Multiparty
