/-!
# Counts that a machine can hold

Counts and the numbers of players are machine words. A list takes at most half of the addresses,
so memory for more items than that cannot even be asked for.

## Main definitions

* `wordSize`, `isWord`: the numbers that a machine word holds.
* `isAddressable`: the lists for which memory can be asked.
-/

namespace Multiparty

-- The powers in this file are those of the core library, whatever else is imported.
attribute [local instance (high)] instPowNat

/-- The number of values of a machine word. -/
def wordSize : Nat := UInt64.size

/-- Whether a number is a machine word. -/
def isWord (n : Nat) : Bool := n < wordSize

/-- Whether memory for `count` items of `width` bytes each can be asked for. -/
def isAddressable (count width : Nat) : Bool := count * width < 2 ^ (63 : Nat)

end Multiparty
