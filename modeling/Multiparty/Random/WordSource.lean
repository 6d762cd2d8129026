import Multiparty.Bytes

/-!
# Sources of random words

Dealers, commitments and coin tosses draw from a generator. A generator is a state `G` with the
class `WordSource G`: it yields 64-bit words, 32-bit words and byte strings, and says how many
draws a rejection sampler may discard before it settles for the last one.

## Main definitions

* `WordSource`: the drawing operations of a generator.
* `WordSource.rejecting`: the first acceptable draw.
* `WordSource.replicate`: `n` draws in sequence.
-/

namespace Multiparty

/-- A generator state that yields random words and bytes. -/
class WordSource (G : Type) where
  /-- The next 64-bit word. -/
  word : G → UInt64 × G
  /-- The next 32-bit word. -/
  halfWord : G → UInt32 × G
  /-- The next `n` bytes. -/
  bytes : Nat → G → Bytes × G
  /-- A bound on how many consecutive draws a rejection sampler discards. -/
  patience : G → Nat

namespace WordSource

variable {G α : Type}

/-- The first draw that `accept` keeps, or the last one when `fuel` draws were discarded. -/
def rejecting (draw : G → α × G) (accept : α → Bool) : (fuel : Nat) → G → α × G
  | 0, g => draw g
  | fuel + 1, g =>
    let (a, g') := draw g
    if accept a then (a, g') else rejecting draw accept fuel g'

/-- The list of `n` draws made one after another, in front of it the draws `acc` in reverse. -/
def replicateOnto (draw : G → α × G) : (n : Nat) → (acc : List α) → G → List α × G
  | 0, acc, g => (acc.reverse, g)
  | n + 1, acc, g =>
    let (a, g) := draw g
    replicateOnto draw n (a :: acc) g

/-- The list of `n` draws made one after another. -/
def replicate (draw : G → α × G) (n : Nat) (g : G) : List α × G := replicateOnto draw n [] g

theorem replicateOnto_eq (draw : G → α × G) (n : Nat) (acc : List α) (g : G) :
    replicateOnto draw n acc g =
      (acc.reverse ++ (replicate draw n g).1, (replicate draw n g).2) := by
  induction n generalizing acc g with
  | zero => simp [replicateOnto, replicate]
  | succ n ih =>
    simp only [replicate, replicateOnto]
    rw [ih, ih [(draw g).1]]
    simp

@[simp] theorem replicate_zero (draw : G → α × G) (g : G) : replicate draw 0 g = ([], g) := rfl

theorem replicate_succ (draw : G → α × G) (n : Nat) (g : G) :
    replicate draw (n + 1) g =
      ((draw g).1 :: (replicate draw n (draw g).2).1, (replicate draw n (draw g).2).2) := by
  change replicateOnto draw n [(draw g).1] (draw g).2 = _
  rw [replicateOnto_eq]
  simp

@[simp] theorem length_replicate (draw : G → α × G) (n : Nat) (g : G) :
    (replicate draw n g).1.length = n := by
  induction n generalizing g with
  | zero => rfl
  | succ n ih => simp [replicate_succ, ih]

end WordSource

end Multiparty
