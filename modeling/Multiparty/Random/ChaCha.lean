import Multiparty.Random.WordSource

/-!
# The ChaCha generator with twelve rounds

A `ChaCha` generator has a 256-bit key, a 64-bit block counter that starts at zero and a stream
number that is always zero. Its output is the sequence of 32-bit words of the blocks, in order;
64-bit words take two of them, the low half first, and byte strings take whole words and drop the
bytes that they do not use of the last one.

## Main definitions

* `ChaCha.block`: the sixteen output words of one block.
* `ChaCha.ofSeed`: the generator of a 32-byte seed.
* `ChaCha.ofWord`: the generator of a 64-bit seed, expanded by a linear congruential sequence.
-/

namespace Multiparty

/-- The state of the generator: key, next block and unused words of the current block. -/
structure ChaCha where
  /-- The eight words of the key. -/
  key : List UInt32
  /-- Number of the next block. -/
  counter : UInt64
  /-- Words of the current block that have not been handed out. -/
  unused : List UInt32
  deriving DecidableEq

namespace ChaCha

/-- Sixteen words: the state on which the rounds act. -/
structure State where
  (x0 x1 x2 x3 x4 x5 x6 x7 x8 x9 x10 x11 x12 x13 x14 x15 : UInt32)

/-- Rotation of a 32-bit word to the left. -/
@[inline] def rotl (w : UInt32) (k : UInt32) : UInt32 := w <<< k ||| w >>> (32 - k)

/-- The quarter round on four words. -/
@[inline] def quarter (a b c d : UInt32) : UInt32 × UInt32 × UInt32 × UInt32 :=
  let a := a + b
  let d := rotl (d ^^^ a) 16
  let c := c + d
  let b := rotl (b ^^^ c) 12
  let a := a + b
  let d := rotl (d ^^^ a) 8
  let c := c + d
  let b := rotl (b ^^^ c) 7
  (a, b, c, d)

/-- Two rounds: the quarter rounds on the four columns, then those on the four diagonals. -/
def doubleRound (s : State) : State :=
  let (a0, a4, a8, a12) := quarter s.x0 s.x4 s.x8 s.x12
  let (a1, a5, a9, a13) := quarter s.x1 s.x5 s.x9 s.x13
  let (a2, a6, a10, a14) := quarter s.x2 s.x6 s.x10 s.x14
  let (a3, a7, a11, a15) := quarter s.x3 s.x7 s.x11 s.x15
  let (b0, b5, b10, b15) := quarter a0 a5 a10 a15
  let (b1, b6, b11, b12) := quarter a1 a6 a11 a12
  let (b2, b7, b8, b13) := quarter a2 a7 a8 a13
  let (b3, b4, b9, b14) := quarter a3 a4 a9 a14
  ⟨b0, b1, b2, b3, b4, b5, b6, b7, b8, b9, b10, b11, b12, b13, b14, b15⟩

/-- The start state of a block: constants, key, block number and a zero stream number. -/
def start (key : List UInt32) (counter : UInt64) : State :=
  let k (i : Nat) : UInt32 := key.getD i 0
  ⟨0x61707865, 0x3320646e, 0x79622d32, 0x6b206574, k 0, k 1, k 2, k 3, k 4, k 5, k 6, k 7,
    counter.toUInt32, (counter >>> 32).toUInt32, 0, 0⟩

/-- Wordwise sum of two states, as a list. -/
def State.addWords (s t : State) : List UInt32 :=
  [s.x0 + t.x0, s.x1 + t.x1, s.x2 + t.x2, s.x3 + t.x3, s.x4 + t.x4, s.x5 + t.x5, s.x6 + t.x6,
    s.x7 + t.x7, s.x8 + t.x8, s.x9 + t.x9, s.x10 + t.x10, s.x11 + t.x11, s.x12 + t.x12,
    s.x13 + t.x13, s.x14 + t.x14, s.x15 + t.x15]

/-- The sixteen output words of a block: six double rounds added to the start state. -/
def block (key : List UInt32) (counter : UInt64) : List UInt32 :=
  let s := start key counter
  State.addWords (Nat.repeat doubleRound 6 s) s

/-- The next 32-bit word. -/
def halfWord (g : ChaCha) : UInt32 × ChaCha :=
  match g.unused with
  | w :: rest => (w, { g with unused := rest })
  | [] =>
    match block g.key g.counter with
    | w :: rest => (w, { g with counter := g.counter + 1, unused := rest })
    | [] => (0, g)

/-- The next 64-bit word, low half first. -/
def word (g : ChaCha) : UInt64 × ChaCha :=
  let (lo, g) := g.halfWord
  let (hi, g) := g.halfWord
  (lo.toUInt64 ||| hi.toUInt64 <<< 32, g)

/-- The little-endian bytes of as many 32-bit words as `n` bytes need, cut to `n` bytes. -/
def bytes (n : Nat) (g : ChaCha) : Bytes × ChaCha :=
  let (words, g) := WordSource.replicate halfWord ((n + 3) / 4) g
  ((words.flatMap Bytes.ofUInt32).take n, g)

/-- The generator keyed by a 32-byte seed. -/
def ofSeed (seed : Bytes) : ChaCha :=
  ⟨(Bytes.chunks 4 8 seed).map Bytes.toUInt32, 0, []⟩

/-- One word of seed expansion: the next state of the congruential sequence and its permuted
output. -/
def expandStep (state : UInt64) : UInt32 × UInt64 :=
  let state := state * 6364136223846793005 + 11634580027462260723
  let x := ((state >>> 18 ^^^ state) >>> 27).toUInt32
  let k := (state >>> 59).toUInt32
  (x >>> k ||| x <<< ((32 - k) % 32), state)

/-- The generator of a 64-bit seed. -/
def ofWord (seed : UInt64) : ChaCha :=
  ofSeed ((WordSource.replicate expandStep 8 seed).1.flatMap Bytes.ofUInt32)

instance : WordSource ChaCha where
  word := word
  halfWord := halfWord
  bytes := bytes
  patience _ := 128

end ChaCha

end Multiparty
