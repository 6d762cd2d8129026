import Multiparty.Capacity
import Multiparty.Dealer.Basic
import Multiparty.Error
import Multiparty.Share.Basic

/-!
# Preprocessed material

Before a computation a dealer gives every party a bundle of correlated randomness: triples of
shares of `a`, `b` and `a * b`, shares of random bits, and for every party that will contribute
inputs shares of masks, whose plain values only that party gets.

## Main definitions

* `PreprocessingCounts`: how much material is dealt.
* `Bundle`: the material of one party.
* `Bundle.deal`: the bundles of all parties.
* `Bundle.tryDeal`: the same, refused if they are too large for any memory.
-/

namespace Multiparty

/-- How much material every party gets. -/
structure PreprocessingCounts where
  triples : Nat
  bits : Nat
  /-- Number of masks for the inputs of each party. -/
  inputMasks : Nat
  deriving DecidableEq

/-- A shared triple. -/
structure Triple (S : Type) where
  a : S
  b : S
  /-- The product of the secrets of `a` and `b`. -/
  c : S
  deriving DecidableEq

/-- The preprocessed material of one party, in the order in which it was dealt. -/
structure Bundle (S R K : Type) where
  /-- The scheme for which the material was dealt. -/
  scheme : SharingScheme
  parties : Nat
  party : Nat
  key : K
  triples : List (Triple S)
  bits : List S
  /-- Shares of the masks for the inputs of each party. -/
  inputMasks : List (List S)
  /-- Plain values of the masks for the own inputs. -/
  plainMasks : List R
  deriving DecidableEq

namespace Bundle

variable {P G S R K : Type} [DealingPlan P S R K] [LinearShare S R K] [CodedRing R]
  [WordSource G]

/-- The sharings of one random triple: for every party its share of each component. -/
def dealTriple (d : Dealer P G) : List (Triple S) × Dealer P G :=
  let (a, d) := (d.randomValue : R × Dealer P G)
  let (b, d) := (d.randomValue : R × Dealer P G)
  let (as, d) := d.share a
  let (bs, d) := d.share b
  let (cs, d) := d.share (a * b)
  (List.zipWith (fun ab c => ⟨ab.1, ab.2, c⟩) (as.zip bs) cs, d)

/-- The sharing of one random bit. -/
def dealBit (d : Dealer P G) : List S × Dealer P G :=
  let (bit, d) := (d.randomBit : R × Dealer P G)
  d.share bit

/-- A random mask and its sharing. -/
def dealMask (d : Dealer P G) : (R × List S) × Dealer P G :=
  let (mask, d) := (d.randomValue : R × Dealer P G)
  let (shares, d) := d.share mask
  ((mask, shares), d)

/-- The entries of one party in a list of sharings. -/
def column {α : Type} (party : Nat) (rows : List (List α)) : List α :=
  rows.filterMap (·[party]?)

/-- The bundles of all parties: first all triples, then all bits, then the masks owner by
owner. -/
def deal (counts : PreprocessingCounts) (d : Dealer P G) : List (Bundle S R K) × Dealer P G :=
  let keys : List K := DealingPlan.keys d.plan
  let n := DealingPlan.parties d.plan
  let (triples, d) := WordSource.replicate dealTriple counts.triples d
  let (bits, d) := WordSource.replicate dealBit counts.bits d
  let (masks, d) := WordSource.replicate (WordSource.replicate dealMask counts.inputMasks) n d
  (keys.mapIdx fun party key =>
    { scheme := LinearShare.scheme S
      parties := n
      party := party
      key := key
      triples := column party triples
      bits := column party bits
      inputMasks := masks.map fun row => column party (row.map (·.2))
      plainMasks := (masks.getD party []).map (·.1) }, d)

/-- Number of bytes of a bundle without its items: scheme, parties, party and key, and three words
for each of the four lists. -/
def headerWidth (S : Type) {R K : Type} [LinearShare S R K] [CodedRing R] : Nat :=
  3 * 8 + LinearShare.keySlotCount S * CodedRing.width R + 4 * (3 * 8)

/-- Whether memory for the items of one bundle can be asked for. -/
def areItemsAddressable (S : Type) {R K : Type} [LinearShare S R K] [CodedRing R]
    (counts : PreprocessingCounts) : Bool :=
  isAddressable counts.triples (3 * LinearShare.width S) &&
    isAddressable counts.bits (LinearShare.width S) &&
    isAddressable counts.inputMasks (LinearShare.width S)

/-- Whether memory for the bundles of so many parties can be asked for. Without parties there is no
bundle, so any counts will do. -/
def areAddressable (S : Type) {R K : Type} [LinearShare S R K] [CodedRing R] (parties : Nat)
    (counts : PreprocessingCounts) : Bool :=
  parties = 0 || isAddressable parties (headerWidth S) && areItemsAddressable S counts

/-- The bundles of all parties, if memory for them can be asked for. -/
def tryDeal (counts : PreprocessingCounts) (d : Dealer P G) :
    Except SetupFault (List (Bundle S R K) × Dealer P G) :=
  if areAddressable S (DealingPlan.parties d.plan) counts then .ok (deal counts d)
  else .error .tooLarge

end Bundle

end Multiparty
