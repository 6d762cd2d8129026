import Multiparty.Dealer.Plans
import Multiparty.Opening.MacCheck
import Multiparty.Opening.Replicated
import Multiparty.Opening.Threshold
import Multiparty.Preprocessing.Alteration
import Multiparty.Preprocessing.Supply

/-!
# Setting up all parties

A scheme is set up by a dealer who deals the material of all parties; every party then makes an
opener to go with its material. How dealer and openers follow from the parameters of the protocol
is the content of the class `Deployment`.

## Main definitions

* `Deployment`: dealer and openers of a scheme.
* `PartySetup`: what one party starts with.
* `PartySetup.deal`: the setups of all parties, with the dealer that has dealt them.
* `PartySetup.seeded`: the same from a numeric seed.
-/

namespace Multiparty

/-- How the dealer `P` and the openers `O` of a scheme follow from the parameters. -/
class Deployment (P O : Type) (S R K : outParam Type) where
  /-- The plan of a dealer for a number of parties, with what is left of the generator. -/
  plan : {G : Type} → [WordSource G] → (parties : Nat) → ProtocolConfig → G →
    Except SetupFault (Dealer P G)
  /-- The opener of the party that owns a bundle; `seed` determines its private randomness. -/
  opener : (parties : Nat) → ProtocolConfig → (seed : UInt64) → Bundle S R K →
    Except SetupFault O

/-- Authenticated sharing: the dealer draws the key shares, and party `i` draws from the generator
of the seed increased by `i + 1`. -/
instance {R : Type} [CodedRing R] : Deployment (MacPlan R) (MacOpener R) (MacShare R) R R where
  plan parties _ g :=
    if isAddressable parties (CodedRing.width R) then .ok (MacPlan.create parties g)
    else .error .tooLarge
  opener _ config seed b :=
    .ok (MacOpener.create b.party b.key config (ChaCha.ofWord (seed + UInt64.ofNat (b.party + 1))))

/-- Replicated sharing: always among three parties. -/
instance {R : Type} [CodedRing R] :
    Deployment (ReplicatedPlan R) (ReplicatedOpener R) (ReplicatedShare R) R Unit where
  plan _ _ g := .ok ⟨.plan, g⟩
  opener _ config _ b := .ok (ReplicatedOpener.create b.party config.replicatedCheck)

/-- Threshold sharing: with the configured degree. -/
instance {F : Type} [CodedField F] :
    Deployment (ThresholdPlan F) (ThresholdOpener F) (ThresholdShare F) F Unit where
  plan parties config g := do
    let plan ← (ThresholdPlan.create parties (config.thresholdFor parties)).mapError .refused
    pure ⟨plan, g⟩
  opener parties config _ b :=
    ThresholdOpener.create b.party parties (config.thresholdFor parties) config.maliciousThreshold

/-- What one party starts with. -/
structure PartySetup (O S R K : Type) where
  opener : O
  supply : Supply S R K

namespace PartySetup

variable {P O S R K G : Type} [Deployment P O S R K]

/-- The setup of the party that owns a bundle. -/
def ofBundle (P : Type) [Deployment P O S R K] (parties : Nat) (config : ProtocolConfig)
    (seed : UInt64) (b : Bundle S R K) : Except SetupFault (PartySetup O S R K) := do
  pure ⟨← Deployment.opener P parties config seed b, Supply.ofBundle b⟩

variable [DealingPlan P S R K] [LinearShare S R K] [CodedRing R] [WordSource G]

/-- The dealer and the setups of all parties. What was dealt is altered as told before it is handed
out. -/
def deal (changes : List (Nat × Alteration R)) (parties : Nat) (counts : PreprocessingCounts)
    (config : ProtocolConfig) (seed : UInt64) (g : G) :
    Except SetupFault (Dealer P G × List (PartySetup O S R K)) := do
  let dealer ← Deployment.plan O parties config g
  let (bundles, dealer) ← Bundle.tryDeal counts dealer
  match Alteration.alterAll? changes bundles with
  | none => throw .noSuchItem
  | some bundles =>
    let setups ← bundles.mapM (ofBundle P parties config seed)
    pure (dealer, setups)

/-- The dealer and the setups of all parties, dealt with the generator of a seed. -/
def seeded (parties : Nat) (counts : PreprocessingCounts) (config : ProtocolConfig)
    (seed : UInt64) : Except SetupFault (Dealer P ChaCha × List (PartySetup O S R K)) :=
  deal [] parties counts config seed (ChaCha.ofWord seed)

end PartySetup

end Multiparty
