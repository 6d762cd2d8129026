import Multiparty.Proofs.Opening.Stalls
import Multiparty.Proofs.Ring.Laws
import Multiparty.Suite

/-!
# The standard suites

What is said about parties is mostly said for the three schemes at once. Their suites are over clear
domains that obey their laws, and their openers share what does not depend on a scheme.

## Main definitions

* `Suite.IsStandard`: the three schemes over clear domains that obey their laws.
-/

namespace Multiparty

/-- The three schemes over clear domains that obey their laws. -/
inductive Suite.IsStandard : Suite → Prop where
  | authenticated (F : Type) [CodedField F] [LawfulField F] : IsStandard (.authenticated F)
  | replicated (R : Type) [CodedRing R] [LawfulRing R] : IsStandard (.replicated R)
  | threshold (F : Type) [CodedField F] [LawfulField F] : IsStandard (.threshold F)

namespace Suite.IsStandard

variable {X : Suite}

theorem lawfulRing (hX : X.IsStandard) : LawfulRing X.R := by
  cases hX with
  | authenticated F => exact LawfulField.toLawfulRing (F := F)
  | replicated R => assumption
  | threshold F => exact LawfulField.toLawfulRing (F := F)

theorem neverStalls (hX : X.IsStandard) : Opener.NeverStalls X.O := by
  cases hX with
  | authenticated F => exact MacOpener.neverStalls F
  | replicated R => exact ReplicatedOpener.neverStalls R
  | threshold F => exact ThresholdOpener.neverStalls F

end Suite.IsStandard

end Multiparty
