import Mathlib
import Multiparty.Proofs.Interpolation
import Multiparty.Proofs.Joint.Authenticated
import Multiparty.Proofs.Joint.Dealing
import Multiparty.Proofs.Joint.Replicated
import Multiparty.Proofs.Joint.Threshold

/-!
# The dealing plans of the three schemes

Each plan deals valid sharings of its scheme, and the openers that the parties make of what was dealt
to them fulfil the contract of openers.

## Main results

* `sum_additiveParts`: additive parts sum to the value.
* `MacPlan.sound`, `ReplicatedPlan.sound`, `ThresholdPlan.sound`: the plans deal valid sharings.
-/

namespace Multiparty

section Additive

variable {R : Type} [CodedRing R]

theorem length_additiveParts (value : R) (random : List R) :
    (additiveParts value random).length = random.length + 1 := rfl

variable [LawfulRing R]

/-- Additive parts sum to the value. -/
theorem sum_additiveParts (value : R) (random : List R) :
    (additiveParts value random).sum = value := by
  have hremainder (value : R) : random.foldl (· - ·) value = value - random.sum := by
    induction random generalizing value with
    | nil => rw [List.foldl_nil, List.sum_nil, sub_zero]
    | cons r random ih => rw [List.foldl_cons, ih, List.sum_cons, sub_sub]
  rw [additiveParts, List.sum_cons, hremainder, sub_add_cancel]

end Additive

namespace MacPlan

variable {R : Type} [CodedRing R] [LawfulRing R] {n : Nat}

omit [LawfulRing R] in
/-- A plan that is made for a number of parties is one for that many. -/
theorem parties_create {G : Type} [WordSource G] (parties : Nat) (g : G) :
    DealingPlan.parties (create parties g : Dealer (MacPlan R) G).plan = parties :=
  WordSource.length_replicate ..

theorem sound (hn : 0 < n) {p : MacPlan R} (hkeys : p.keyShares.length = n) :
    (MacShare.sharing p.key n).SoundPlan p where
  parties := hkeys
  keys := hkeys
  deal secret random hrandom := by
    replace hrandom : random.length = 2 * (p.keyShares.length - 1) := hrandom
    have hvalues : (additiveParts secret (random.take (p.keyShares.length - 1))).length = n := by
      rw [length_additiveParts, List.length_take]
      omega
    have hmacs : (additiveParts (secret * p.key)
        (random.drop (p.keyShares.length - 1))).length = n := by
      rw [length_additiveParts, List.length_drop]
      omega
    obtain ⟨values, hvalues⟩ := exists_eq_ofFn hvalues
    obtain ⟨macs, hmacs⟩ := exists_eq_ofFn hmacs
    refine ⟨fun i => ⟨values i, macs i⟩, ?_, ?_, ?_⟩
    · change List.zipWith MacShare.mk (additiveParts _ _) (additiveParts _ _) = _
      rw [hvalues, hmacs]
      refine List.ext_getElem (by simp) fun i hi hi' => ?_
      simp
    · rw [← List.sum_ofFn, ← hvalues, sum_additiveParts]
    · rw [← List.sum_ofFn, ← hmacs, sum_additiveParts]

end MacPlan

namespace ReplicatedPlan

variable {R : Type} [CodedRing R] [LawfulRing R]

theorem sound (p : ReplicatedPlan R) : (ReplicatedShare.sharing (R := R)).SoundPlan p where
  parties := rfl
  keys := rfl
  deal secret random hrandom := by
    replace hrandom : random.length = 2 := hrandom
    obtain ⟨r, s, rfl⟩ := List.length_eq_two.1 hrandom
    have hsum := sum_additiveParts secret [r, s]
    refine ⟨![⟨secret - r - s, r⟩, ⟨r, s⟩, ⟨s, secret - r - s⟩], rfl, fun i => ?_, ?_⟩
    · match i with
      | 0 => rfl
      | 1 => rfl
      | 2 => rfl
    · change secret - r - s + r + s = secret
      ring

end ReplicatedPlan

namespace ThresholdPlan

variable {F : Type} [CodedField F] [LawfulField F] {n : Nat}

theorem sound {p : ThresholdPlan F} (hparties : p.parties = n) :
    (ThresholdShare.sharing p.threshold n).SoundPlan p where
  parties := hparties
  keys := List.length_replicate.trans hparties
  deal secret random hrandom := by
    subst hparties
    refine ⟨fun i => ⟨evaluate (secret :: random) (partyPoint i)⟩, ?_,
      ThresholdShare.valid_evaluate secret hrandom⟩
    change (List.range p.parties).map _ = _
    rw [List.ofFn_eq_map, ← List.map_coe_finRange_eq_range, List.map_map]
    rfl

omit [LawfulField F] in
/-- The parameters of a plan that has not been refused. -/
theorem eq_of_plan {G : Type} [WordSource G] {parties : Nat} {config : ProtocolConfig} {g : G}
    {d : Dealer (ThresholdPlan F) G}
    (h : Deployment.plan (ThresholdOpener F) parties config g = .ok d) :
    d.plan.parties = parties ∧ d.plan.threshold = config.thresholdFor parties ∧
      config.thresholdFor parties < parties := by
  obtain ⟨plan, hplan, h⟩ := exists_of_bind_eq_ok h
  obtain rfl := Except.ok.inj h
  rw [create] at hplan
  split at hplan
  · next hlt =>
    obtain rfl := Except.ok.inj hplan
    exact ⟨rfl, rfl, hlt⟩
  · cases hplan

end ThresholdPlan

namespace PartySetup

variable {P O S R K G : Type} [Opener O S R] [DealingPlan P S R K] [LinearShare S R K]
  [CodedRing R] {n : Nat}

/-- All parties are ready to compute: their openers fulfil a contract, they have `count` valid
triples, and further secrets are shared in the same way. -/
def Ready (plan : P) (setup : Fin n → PartySetup O S R K) (count : Nat) : Prop :=
  ∃ J : JointOpening O n, J.Holds (fun i => (setup i).opener) [] [] ∧
    J.Stocked (fun i => (setup i).supply) count ∧ J.SoundPlan plan

end PartySetup

section Ready

variable {G : Type} [WordSource G] {parties n : Nat} {counts : PreprocessingCounts}
  {config : ProtocolConfig}

/-- Authenticated sharing among at least one party, with any private randomness. -/
theorem MacPlan.ready {R : Type} [CodedRing R] [LawfulRing R] (config : ProtocolConfig)
    (hn : 0 < n) {d dealer : Dealer (MacPlan R) G} {bundle : Fin n → Bundle (MacShare R) R R}
    (hdeal : Bundle.tryDeal counts d = .ok (List.ofFn bundle, dealer)) (rng : Fin n → ChaCha) :
    PartySetup.Ready dealer.plan (fun i => ⟨MacOpener.create (bundle i).party (bundle i).key config
      (rng i), .ofBundle (bundle i)⟩) counts.triples := by
  obtain ⟨hplan, hkeys, -, hdeal⟩ := Bundle.of_tryDeal hdeal
  have hsound := MacPlan.sound hn hkeys
  obtain ⟨hstocked, hparty, hkeys⟩ := hsound.stocked_of_deal hdeal
  rw [hplan]
  refine ⟨MacOpener.jointOpening hn d.plan.key config, ?_, hstocked, hsound⟩
  refine ⟨hparty, ?_, fun _ => rfl, fun _ => rfl, fun _ => rfl, ⟨[], .nil, fun _ => rfl⟩,
    fun _ => rfl, ⟨[], fun _ hp => (by cases hp), fun _ => rfl⟩⟩
  change ∑ i, (bundle i).key = CodedRing.sum (DealingPlan.keys d.plan)
  rw [CodedRing.sum_eq, hkeys, List.sum_ofFn]

/-- Replicated sharing in any mode. -/
theorem ReplicatedPlan.ready {R : Type} [CodedRing R] [LawfulRing R] (mode : ReplicatedCheck)
    {d dealer : Dealer (ReplicatedPlan R) G} {bundle : Fin n → Bundle (ReplicatedShare R) R Unit}
    (hdeal : Bundle.tryDeal counts d = .ok (List.ofFn bundle, dealer)) :
    PartySetup.Ready (O := ReplicatedOpener R) dealer.plan
      (fun i => ⟨.create (bundle i).party mode, .ofBundle (bundle i)⟩) counts.triples := by
  obtain ⟨hplan, hkeys, -, hdeal⟩ := Bundle.of_tryDeal hdeal
  obtain rfl : 3 = n := hkeys
  have hsound := ReplicatedPlan.sound d.plan
  obtain ⟨hstocked, hparty, -⟩ := hsound.stocked_of_deal hdeal
  rw [hplan]
  refine ⟨ReplicatedOpener.jointOpening mode, ?_, hstocked, hsound⟩
  exact ⟨hparty, fun _ => rfl, fun _ => rfl, ⟨[], .nil, fun _ => rfl⟩, fun _ => .nil,
    ⟨[], fun _ => rfl⟩⟩

/-- Threshold sharing with any parameters that neither the dealer nor the openers refuse. -/
theorem ThresholdPlan.ready {F : Type} [CodedField F] [LawfulField F] {g : G}
    {d dealer : Dealer (ThresholdPlan F) G} {bundle : Fin n → Bundle (ThresholdShare F) F Unit}
    (hplan : Deployment.plan (ThresholdOpener F) parties config g = .ok d)
    (hdeal : Bundle.tryDeal counts d = .ok (List.ofFn bundle, dealer))
    {opener : Fin n → ThresholdOpener F}
    (hopener : ∀ i, ThresholdOpener.create (bundle i).party parties (config.thresholdFor parties)
      config.maliciousThreshold = .ok (opener i)) :
    PartySetup.Ready dealer.plan (fun i => ⟨opener i, .ofBundle (bundle i)⟩) counts.triples := by
  obtain ⟨hparties, hthreshold, hlt⟩ := ThresholdPlan.eq_of_plan hplan
  obtain ⟨hplan, hkeys, haddressable, hdeal⟩ := Bundle.of_tryDeal hdeal
  obtain rfl : parties = n := hparties.symm.trans (List.length_replicate.symm.trans hkeys)
  have hsound := ThresholdPlan.sound hparties
  rw [hthreshold] at hsound
  obtain ⟨hstocked, hparty, -⟩ := hsound.stocked_of_deal hdeal
  choose rows hrows hsenders hopener using fun i => ThresholdOpener.exists_of_create (hopener i)
  let first : Fin parties := ⟨0, Nat.zero_lt_of_lt hlt⟩
  have hsame (i : Fin parties) : rows i = rows first :=
    Except.ok.inj ((hrows i).symm.trans (hrows first))
  rw [show DealingPlan.parties d.plan = parties from hparties] at haddressable
  have hword := Bundle.isWord_of_areAddressable haddressable
  rw [hplan]
  refine ⟨ThresholdOpener.jointOpening
    (ThresholdOpener.soundRows_of_mapM (hrows first) (hsenders first)) hword, ?_, hstocked, hsound⟩
  simp only [hopener, hparty, hsame]
  exact ⟨fun _ => rfl, fun _ => rfl, fun _ => rfl, fun _ => rfl, fun _ => rfl,
    ⟨[], .nil, fun _ => rfl⟩, fun _ => .nil⟩

end Ready

end Multiparty
