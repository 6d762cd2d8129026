import Multiparty.Random.WordSource

/-!
# A scripted generator

`Scripted` replays a given list of 64-bit words and then continues with the SplitMix64 sequence
of its seed, so that a run can be steered word by word and still never runs dry.
-/

namespace Multiparty

/-- The words still to be replayed and the state of the SplitMix64 sequence after them. -/
structure Scripted where
  /-- Words that are handed out before the sequence starts. -/
  script : List UInt64
  /-- State of the SplitMix64 sequence. -/
  state : UInt64
  /-- Number of words handed out so far. -/
  drawn : Nat
  deriving DecidableEq

namespace Scripted

/-- A generator that replays `script` and then follows the sequence of `seed`. -/
def create (script : List UInt64) (seed : UInt64) : Scripted := ⟨script, seed, 0⟩

/-- The output function of SplitMix64. -/
def scramble (z : UInt64) : UInt64 :=
  let z := (z ^^^ z >>> 30) * 0xbf58476d1ce4e5b9
  let z := (z ^^^ z >>> 27) * 0x94d049bb133111eb
  z ^^^ z >>> 31

/-- The next scripted word, or the next word of the sequence. -/
def word (g : Scripted) : UInt64 × Scripted :=
  match g.script with
  | w :: rest => (w, { g with script := rest, drawn := g.drawn + 1 })
  | [] =>
    let state := g.state + 0x9e3779b97f4a7c15
    (scramble state, { g with state := state, drawn := g.drawn + 1 })

/-- The low half of the next word. -/
def halfWord (g : Scripted) : UInt32 × Scripted :=
  let (w, g) := g.word
  (w.toUInt32, g)

/-- The little-endian bytes of the next words; a last partial word gives its low bytes. -/
def bytes (n : Nat) (g : Scripted) : Bytes × Scripted :=
  let (words, g) := WordSource.replicate word ((n + 7) / 8) g
  ((words.flatMap Bytes.ofUInt64).take n, g)

/-- Beyond the script a field element is rejected for at most eight words of the whole sequence,
so a few draws more than the script holds always suffice. -/
instance : WordSource Scripted where
  word := word
  halfWord := halfWord
  bytes := bytes
  patience g := g.script.length + 16

end Scripted

end Multiparty
