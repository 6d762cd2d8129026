/-!
# Parameters of the protocol layer

## Main definitions

* `ReplicatedCheck`: how replicated openings are protected.
* `ProtocolConfig`: all tunable parameters, with their default values.
* `ProtocolConfig.thresholdFor`: the degree of threshold sharing for a number of parties.
-/

namespace Multiparty

/-- How replicated openings are protected against one malicious party. -/
inductive ReplicatedCheck where
  /-- Openings are not verified. -/
  | semiHonest
  /-- A running hash of the opened values is compared at check time. -/
  | hash
  /-- Every missing part is received twice and compared when the opening is finished. -/
  | communication
  deriving DecidableEq

namespace ReplicatedCheck

/-- The name of a mode in configuration files. -/
def name : ReplicatedCheck → String
  | semiHonest => "semi_honest"
  | hash => "hash"
  | communication => "communication"

/-- All modes, in the order of their names in configuration files. -/
def all : List ReplicatedCheck := [semiHonest, hash, communication]

end ReplicatedCheck

/-- The tunable parameters. -/
structure ProtocolConfig where
  /-- Number of pending authenticated openings from which on a check runs by itself. -/
  checkThreshold : Nat := 1000000
  /-- Fewer pending openings than this are verified one by one instead of by a random linear
  combination. -/
  smallCheckThreshold : Nat := 10
  /-- Degree of threshold sharing; by default just below half of the number of parties. -/
  threshold : Option Nat := none
  /-- Whether threshold openings are verified by redundant interpolation. -/
  maliciousThreshold : Bool := true
  replicatedCheck : ReplicatedCheck := .hash
  deriving DecidableEq

namespace ProtocolConfig

/-- The degree of threshold sharing among the given number of parties. -/
def thresholdFor (config : ProtocolConfig) (parties : Nat) : Nat :=
  config.threshold.getD ((parties - 1) / 2)

end ProtocolConfig

end Multiparty
