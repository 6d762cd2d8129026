import Mathlib
import Multiparty.Proofs.Joint.Authenticated
import Multiparty.Proofs.Joint.Replicated
import Multiparty.Proofs.Joint.Threshold
import Multiparty.Proofs.Opening.Refusal
import Multiparty.Proofs.Suite

/-!
# The openers with which the parties start

Whichever scheme the parties use, the fresh openers of all of them fulfil the contract of openers,
for keys that sum to the key of the sharings and for equal parameters at all parties.

## Main definitions

* `Suite.FreshOpeners`: the openers with which the parties start, in each of the schemes.

## Main results

* `Suite.FreshOpeners.exists_idles`: they fulfil the contract, and make no calls in vain.
-/

namespace Multiparty

/-- The openers with which the parties of a scheme start, and its valid sharings. There are so few
parties that their numbers can be added. -/
inductive Suite.FreshOpeners : (X : Suite) → {n : Nat} → (Fin n → X.O) → Sharing X.S n → Prop where
  | authenticated (F : Type) [CodedField F] [LawfulField F] {n : Nat} (hn : 0 < n)
      (config : ProtocolConfig) (keys : Fin n → F) (rng : Fin n → ChaCha) :
      FreshOpeners (.authenticated F) (fun i => MacOpener.create i (keys i) config (rng i))
        (MacShare.sharing (∑ i, keys i) n)
  | replicated (R : Type) [CodedRing R] [LawfulRing R] (mode : ReplicatedCheck) :
      FreshOpeners (.replicated R) (fun i => ReplicatedOpener.create i mode)
        (ReplicatedShare.sharing (R := R))
  | threshold (F : Type) [CodedField F] [LawfulField F] {n : Nat} (hn : 0 < n)
      (hword : isWord (n + n) = true) {threshold : Nat} {malicious : Bool}
      {openers : Fin n → ThresholdOpener F}
      (hopeners : ∀ i : Fin n, ThresholdOpener.create i n threshold malicious = .ok (openers i)) :
      FreshOpeners (.threshold F) openers (ThresholdShare.sharing threshold n)

namespace Suite.FreshOpeners

variable {X : Suite} {n : Nat} {openers : Fin n → X.O} {V : Sharing X.S n}

theorem isStandard (h : X.FreshOpeners openers V) : X.IsStandard := by
  cases h with
  | authenticated F => exact .authenticated F
  | replicated R => exact .replicated R
  | threshold F => exact .threshold F

/-- Fresh openers fulfil the contract of openers of their scheme, lose nothing if an exchange is
refused, and make no calls when there is nothing to do. -/
theorem exists_idles (h : X.FreshOpeners openers V) :
    0 < n ∧ LawfulRing X.R ∧ Opener.Retries X.O ∧
      ∃ J : JointOpening X.O n, J.toSharing = V ∧ J.Holds openers [] [] ∧ J.Idles := by
  cases h with
  | authenticated F hn config keys rng =>
    let J : JointOpening (MacOpener F) n := MacOpener.jointOpening hn (∑ i, keys i) config
    have hidles : J.Idles := MacOpener.idles_jointOpening hn (∑ i, keys i) config
    refine ⟨hn, inferInstanceAs (LawfulRing F), MacOpener.retries F, J, rfl, ?_, hidles⟩
    exact ⟨fun _ => rfl, rfl, fun _ => rfl, fun _ => rfl, fun _ => rfl, ⟨[], .nil, fun _ => rfl⟩,
      fun _ => rfl, ⟨[], fun _ hp => (by cases hp), fun _ => rfl⟩⟩
  | replicated R mode =>
    let J : JointOpening (ReplicatedOpener R) 3 := ReplicatedOpener.jointOpening mode
    have hidles : J.Idles := ReplicatedOpener.idles_jointOpening mode
    refine ⟨Nat.succ_pos 2, inferInstanceAs (LawfulRing R), ReplicatedOpener.retries R, J, rfl, ?_,
      hidles⟩
    exact ⟨fun _ => rfl, fun _ => rfl, fun _ => rfl, ⟨[], .nil, fun _ => rfl⟩, fun _ => .nil,
      ⟨[], fun _ => rfl⟩⟩
  | threshold F hn hword hopeners =>
    rename_i threshold malicious
    choose rows hrows hsenders hopener using fun i => ThresholdOpener.exists_of_create (hopeners i)
    let first : Fin n := ⟨0, hn⟩
    have hsame (i : Fin n) : rows i = rows first :=
      Except.ok.inj ((hrows i).symm.trans (hrows first))
    have hsound := ThresholdOpener.soundRows_of_mapM (hrows first) (hsenders first)
    let J : JointOpening (ThresholdOpener F) n := ThresholdOpener.jointOpening hsound hword
    have hidles : J.Idles := ThresholdOpener.idles_jointOpening hsound hword
    refine ⟨hn, inferInstanceAs (LawfulRing F), ThresholdOpener.retries F, J, rfl, ?_, hidles⟩
    have hopener' (i : Fin n) := hsame i ▸ hopener i
    obtain rfl := funext hopener'
    exact ⟨fun _ => rfl, fun _ => rfl, fun _ => rfl, fun _ => rfl, fun _ => rfl,
      ⟨[], .nil, fun _ => rfl⟩, fun _ => .nil⟩

/-- Fresh openers fulfil the contract of openers of their scheme, and lose nothing if an exchange is
refused. -/
theorem exists_joint (h : X.FreshOpeners openers V) :
    0 < n ∧ LawfulRing X.R ∧ Opener.Retries X.O ∧
      ∃ J : JointOpening X.O n, J.toSharing = V ∧ J.Holds openers [] [] := by
  obtain ⟨hn, hlawful, hretries, J, hJ, hholds, -⟩ := h.exists_idles
  exact ⟨hn, hlawful, hretries, J, hJ, hholds⟩

end Suite.FreshOpeners

end Multiparty
