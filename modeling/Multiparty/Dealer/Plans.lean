import Multiparty.Dealer.Basic
import Multiparty.Interpolation
import Multiparty.Share.Authenticated
import Multiparty.Share.Replicated
import Multiparty.Share.Threshold

/-!
# The dealing plans of the three schemes

## Main definitions

* `additiveParts`: a value split into additive parts, all but the first of them random.
* `MacPlan`: authenticated additive shares under the key shares of the parties.
* `ReplicatedPlan`: replicated shares among three parties.
* `ThresholdPlan`: evaluations of a random polynomial of bounded degree.
-/

namespace Multiparty

variable {R : Type} [CodedRing R]

/-- Parts that sum to `value`: the remainder, followed by the given random parts. -/
def additiveParts (value : R) (random : List R) : List R :=
  random.foldl (· - ·) value :: random

/-- Authenticated additive sharing among the holders of the given key shares. -/
structure MacPlan (R : Type) where
  /-- The key share of every party. -/
  keyShares : List R

namespace MacPlan

/-- The key: the sum of all key shares. -/
def key (p : MacPlan R) : R := CodedRing.sum p.keyShares

/-- A plan with fresh random key shares. -/
def create {G : Type} [WordSource G] (parties : Nat) (g : G) : Dealer (MacPlan R) G :=
  let (keyShares, g) := WordSource.replicate CodedRing.draw parties g
  ⟨⟨keyShares⟩, g⟩

/-- The value is split first and its authentication code afterwards, each with one random part
less than there are parties. -/
def deal (p : MacPlan R) (secret : R) (random : List R) : List (MacShare R) :=
  let k := p.keyShares.length - 1
  List.zipWith MacShare.mk (additiveParts secret (random.take k))
    (additiveParts (secret * p.key) (random.drop k))

instance : DealingPlan (MacPlan R) (MacShare R) R R where
  parties p := p.keyShares.length
  keys p := p.keyShares
  demand p := 2 * (p.keyShares.length - 1)
  deal := deal

end MacPlan

/-- Replicated sharing among three parties; there is nothing to choose. -/
inductive ReplicatedPlan (R : Type) where
  | plan

namespace ReplicatedPlan

/-- Party `i` gets the parts `i` and `i + 1` modulo three. -/
def deal (secret : R) (random : List R) : List (ReplicatedShare R) :=
  let parts := additiveParts secret random
  (List.range replicatedParties).map fun i =>
    ⟨parts.getD i 0, parts.getD ((i + 1) % replicatedParties) 0⟩

instance : DealingPlan (ReplicatedPlan R) (ReplicatedShare R) R Unit where
  parties _ := replicatedParties
  keys _ := List.replicate replicatedParties ()
  demand _ := replicatedParties - 1
  deal _ := deal

end ReplicatedPlan

/-- Threshold sharing among `parties` parties by polynomials of degree `threshold`. -/
structure ThresholdPlan (F : Type) where
  parties : Nat
  threshold : Nat
  /-- There are more parties than the degree. -/
  threshold_lt : threshold < parties

namespace ThresholdPlan

variable {F : Type} [CodedField F]

/-- The plan for the given parameters, refused unless the degree is below the number of
parties. -/
def create (parties threshold : Nat) : Except ProtocolError (ThresholdPlan F) :=
  if h : threshold < parties then .ok ⟨parties, threshold, h⟩
  else .error (.invalidParameters (.thresholdTooHigh threshold parties))

/-- Party `i` gets the value at its point of the polynomial whose constant term is the secret and
whose other coefficients are random. -/
def deal (p : ThresholdPlan F) (secret : F) (random : List F) : List (ThresholdShare F) :=
  (List.range p.parties).map fun i => ⟨evaluate (secret :: random) (partyPoint i)⟩

instance : DealingPlan (ThresholdPlan F) (ThresholdShare F) F Unit where
  parties p := p.parties
  keys p := List.replicate p.parties ()
  demand p := p.threshold
  deal := deal

end ThresholdPlan

end Multiparty
