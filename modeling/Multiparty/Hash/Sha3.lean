import Multiparty.Bytes

/-!
# SHA3-256

The hash of commitments and of replicated openings: the Keccak permutation on twenty-five 64-bit
lanes in a sponge of rate 136 bytes, with the domain suffix of SHA3.

## Main definitions

* `Sha3.permute`: the twenty-four rounds of Keccak-f[1600].
* `Sha3.hash256`: the 32-byte digest of a byte string.
-/

namespace Multiparty.Sha3

/-- The lanes of the state; the lane with coordinates `(x, y)` stands at index `x + 5 * y`. -/
abbrev Lanes : Type := Array UInt64

/-- Rotation of a lane to the left by `k < 64` bits. -/
def rotl (w : UInt64) (k : Nat) : UInt64 :=
  if k = 0 then w else w <<< UInt64.ofNat k ||| w >>> UInt64.ofNat (64 - k)

/-- The lane at index `i`. -/
def lane (s : Lanes) (i : Nat) : UInt64 := s.getD i 0

/-- Rotation amounts by lane index. -/
def rotations : Array Nat :=
  #[0, 1, 62, 28, 27, 36, 44, 6, 55, 20, 3, 10, 43, 25, 39, 41, 45, 15, 21, 8, 18, 2, 61, 56, 14]

/-- The constants added to lane zero, one per round. -/
def roundConstants : List UInt64 :=
  [0x0000000000000001, 0x0000000000008082, 0x800000000000808a, 0x8000000080008000,
    0x000000000000808b, 0x0000000080000001, 0x8000000080008081, 0x8000000000008009,
    0x000000000000008a, 0x0000000000000088, 0x0000000080008009, 0x000000008000000a,
    0x000000008000808b, 0x800000000000008b, 0x8000000000008089, 0x8000000000008003,
    0x8000000000008002, 0x8000000000000080, 0x000000000000800a, 0x800000008000000a,
    0x8000000080008081, 0x8000000000008080, 0x0000000080000001, 0x8000000080008008]

/-- Adds to each lane the parities of two neighbouring columns. -/
def theta (s : Lanes) : Lanes :=
  let parity := Array.ofFn (n := 5) fun x =>
    lane s x ^^^ lane s (x + 5) ^^^ lane s (x + 10) ^^^ lane s (x + 15) ^^^ lane s (x + 20)
  let delta := Array.ofFn (n := 5) fun x =>
    lane parity ((x + 4) % 5) ^^^ rotl (lane parity ((x + 1) % 5)) 1
  Array.ofFn (n := 25) fun i => lane s i ^^^ lane delta (i % 5)

/-- Rotates every lane and moves the lane `(x, y)` to `(y, 2x + 3y)`. -/
def rhoPi (s : Lanes) : Lanes :=
  Array.ofFn (n := 25) fun i =>
    let x := i.val % 5
    let y := i.val / 5
    let source := (x + 3 * y) % 5 + 5 * x
    rotl (lane s source) (rotations.getD source 0)

/-- The nonlinear step along the rows. -/
def chi (s : Lanes) : Lanes :=
  Array.ofFn (n := 25) fun i =>
    let x := i.val % 5
    let row := i.val - x
    lane s i ^^^ (~~~ lane s (row + (x + 1) % 5) &&& lane s (row + (x + 2) % 5))

/-- One round. -/
def round (s : Lanes) (constant : UInt64) : Lanes :=
  let s := chi (rhoPi (theta s))
  s.setIfInBounds 0 (lane s 0 ^^^ constant)

/-- The permutation Keccak-f[1600]. -/
def permute (s : Lanes) : Lanes := roundConstants.foldl round s

/-- Number of bytes absorbed by one permutation. -/
def rate : Nat := 136

/-- The message with its domain suffix and padding, a multiple of `rate` bytes long. -/
def pad (message : Bytes) : Bytes :=
  let gap := rate - message.length % rate
  if gap = 1 then message ++ [0x86]
  else message ++ 0x06 :: List.replicate (gap - 2) 0 ++ [0x80]

/-- Adds one block of the padded message to the state and permutes it. -/
def absorb (s : Lanes) (block : Bytes) : Lanes :=
  let words := ((Bytes.chunks 8 17 block).map Bytes.toUInt64).toArray
  permute (Array.ofFn (n := 25) fun i => lane s i ^^^ lane words i)

/-- The SHA3-256 digest of a message. -/
def hash256 (message : Bytes) : Bytes :=
  let padded := pad message
  let blocks := Bytes.chunks rate (padded.length / rate) padded
  let s := blocks.foldl absorb (Array.replicate 25 0)
  ((s.toList.take 4).flatMap Bytes.ofUInt64)

end Multiparty.Sha3
