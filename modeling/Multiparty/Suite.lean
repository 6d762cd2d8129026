import Multiparty.Processor
import Multiparty.Setup
import Multiparty.Storage.Shares

/-!
# Protocol suites

A suite is a sharing scheme over a ring of clear values together with everything that its protocols
need, as one value. So a scheme can be chosen while a program runs.

## Main definitions

* `Suite`: types and operations of a scheme.
* `Suite.authenticated`, `Suite.replicated`, `Suite.threshold`: the three schemes.
* `Suite.ofField`, `Suite.ofRing?`: the suite of a scheme over a field, or over a ring if the scheme
  can do without division.
-/

namespace Multiparty

/-- A sharing scheme with its dealing plans `P`, openers `O`, shares `S`, clear values `R` and key
material `K`. -/
structure Suite where
  (P O S R K : Type)
  [ring : CodedRing R]
  [share : LinearShare S R K]
  [plan : DealingPlan P S R K]
  [opener : Opener O S R]
  [deployment : Deployment P O S R K]
  [storedShare : Stored S]
  [storedKey : Stored K]
  [shareEq : DecidableEq S]

namespace Suite

attribute [instance] Suite.ring Suite.share Suite.plan Suite.opener Suite.deployment
  Suite.storedShare Suite.storedKey Suite.shareEq

/-- Authenticated additive sharing over a field. -/
def authenticated (F : Type) [CodedField F] : Suite :=
  { P := MacPlan F, O := MacOpener F, S := MacShare F, R := F, K := F }

/-- Replicated sharing over a ring. -/
def replicated (R : Type) [CodedRing R] : Suite :=
  { P := ReplicatedPlan R, O := ReplicatedOpener R, S := ReplicatedShare R, R := R, K := Unit }

/-- Threshold sharing over a field. -/
def threshold (F : Type) [CodedField F] : Suite :=
  { P := ThresholdPlan F, O := ThresholdOpener F, S := ThresholdShare F, R := F, K := Unit }

/-- The suite of a scheme over a field. -/
def ofField (F : Type) [CodedField F] : SharingScheme → Suite
  | .additiveMac => authenticated F
  | .replicated3 => replicated F
  | .shamirThreshold => threshold F

/-- The suite of a scheme over a ring without division: only replicated sharing works there. -/
def ofRing? (R : Type) [CodedRing R] : SharingScheme → Option Suite
  | .replicated3 => some (replicated R)
  | _ => none

/-- The scheme of a suite. -/
def scheme (X : Suite) : SharingScheme := LinearShare.scheme X.S

@[simp] theorem scheme_ofField (F : Type) [CodedField F] (s : SharingScheme) :
    (ofField F s).scheme = s := by
  cases s <;> rfl

/-- The processor of one party. -/
abbrev Processor (X : Suite) : Type := Multiparty.Processor X.O X.S X.R X.K

/-- The material of one party. -/
abbrev Bundle (X : Suite) : Type := Multiparty.Bundle X.S X.R X.K

/-- What one party starts with. -/
abbrev PartySetup (X : Suite) : Type := Multiparty.PartySetup X.O X.S X.R X.K

end Suite

end Multiparty
