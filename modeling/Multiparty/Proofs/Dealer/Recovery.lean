import Mathlib
import Multiparty.Proofs.Joint.Plans
import Multiparty.Proofs.Opening.Redundancy
import Multiparty.Proofs.PartyPoints
import Multiparty.Random.Scripted

/-!
# What recovers a dealt secret

All shares of an authenticated sharing sum to the secret and to its authentication code, and the parts
of a replicated sharing sum to the secret. A threshold sharing is recovered from its first shares, as
soon as they are more than the degree, with the coefficients of reconstruction. The same number of
shares at any parties fixes the polynomial, so it determines the shares of all other parties.

## Main definitions

* `MacPlan.Recovers`, `ReplicatedPlan.Recovers`, `ThresholdPlan.Recovers`: shares of all parties from
  which a value is recovered in the way of their scheme.

## Main results

* `MacPlan.recovers_share`, `ReplicatedPlan.recovers_share`, `ThresholdPlan.recovers_share`: dealers
  deal such shares.
* `ThresholdPlan.share_eq_of_agree`: a few threshold shares determine all.
* `dealt_shares_recover`: the three schemes.
-/

namespace Multiparty

variable {G : Type} [WordSource G]

section Additive

variable {R : Type} [CodedRing R]

/-- There is a share for every party, the values sum to `v`, and the authentication codes to `v` times
the sum of the key shares. -/
structure MacPlan.Recovers (p : MacPlan R) (shares : List (MacShare R)) (v : R) : Prop where
  length : shares.length = DealingPlan.parties p
  value : CodedRing.sum (shares.map (·.value)) = v
  mac : CodedRing.sum (shares.map (·.mac)) = v * CodedRing.sum (DealingPlan.keys p)

/-- Three shares overlap in one part each with the next, and their own parts sum to `v`. -/
def ReplicatedPlan.Recovers (shares : List (ReplicatedShare R)) (v : R) : Prop :=
  ∃ a b c, shares = [⟨a, b⟩, ⟨b, c⟩, ⟨c, a⟩] ∧ a + b + c = v

variable [LawfulRing R]

/-- A dealer for at least one party deals authenticated shares that recover the secret. -/
theorem MacPlan.recovers_share (d : Dealer (MacPlan R) G) (v : R)
    (hparties : 1 ≤ DealingPlan.parties d.plan) : d.plan.Recovers (d.share v).1 v := by
  obtain ⟨x, hrow, hvalid⟩ := (MacPlan.sound hparties rfl).share v
  have hmac : ∑ i, (x i).mac = v * CodedRing.sum (DealingPlan.keys d.plan) := hvalid.mac
  refine ⟨?_, ?_, ?_⟩
  · rw [hrow, List.length_ofFn]
  · rw [hrow, CodedRing.sum_eq, List.map_ofFn, List.sum_ofFn]
    exact hvalid.value
  · rw [hrow, CodedRing.sum_eq, List.map_ofFn, List.sum_ofFn]
    exact hmac

/-- A dealer deals replicated shares that recover the secret. -/
theorem ReplicatedPlan.recovers_share (d : Dealer (ReplicatedPlan R) G) (v : R) :
    Recovers (d.share v).1 v := by
  obtain ⟨x, hrow, hvalid⟩ := d.plan.sound.share v
  refine ⟨(x 0).own, (x 1).own, (x 2).own, ?_, hvalid.sum⟩
  have hshare (i : Fin 3) : x i = ⟨(x i).own, (x (i + 1)).own⟩ := by
    rw [← hvalid.next]
  rw [hrow]
  exact congrArg₂ List.cons (hshare 0) (congrArg₂ List.cons (hshare 1)
    (congrArg₂ List.cons (hshare 2) rfl))

end Additive

namespace ThresholdPlan

variable {F : Type} [CodedField F]

/-- There is a share for every party, and the first shares recover `v` as soon as they are more than
the degree. -/
structure Recovers (p : ThresholdPlan F) (shares : List (ThresholdShare F)) (v : F) : Prop where
  length : shares.length = p.parties
  value : ∀ m, p.threshold + 1 ≤ m → m ≤ p.parties →
    ∃ coefficients, reconstructionCoefficients m = .ok coefficients ∧
      CodedRing.weightedSum coefficients ((shares.take m).map (·.value)) = v

variable [LawfulField F]

/-- The dealt shares are the values of a polynomial of small degree, with the secret as its constant
term. -/
theorem opens_share (d : Dealer (ThresholdPlan F) G) (v : F) :
    ThresholdOpener.Opens d.plan.threshold d.plan.parties ((d.share v).1.map (·.value)) v := by
  obtain ⟨x, hrow, f, hf, hconstant, hx⟩ := (ThresholdPlan.sound (p := d.plan) rfl).share v
  refine ⟨f, hf, hconstant, ?_⟩
  rw [hrow, List.map_ofFn, ← List.map_coe_finRange_eq_range, List.map_map, List.ofFn_eq_map]
  exact List.map_congr_left fun i _ => hx i

variable [DistinctPoints F] {d : Dealer (ThresholdPlan F) G}

/-- A dealer for no more parties than elements deals threshold shares that recover the secret. -/
theorem recovers_share (hword : isWord d.plan.parties = true)
    (hsize : d.plan.parties ≤ Nat.card F) (v : F) : d.plan.Recovers (d.share v).1 v := by
  obtain ⟨f, hf, hconstant, hvalues⟩ := opens_share d v
  refine ⟨?_, fun m hlow hhigh => ?_⟩
  · rw [← List.length_map, hvalues, List.length_map, List.length_range]
  · have hwordm : isWord m = true := decide_eq_true (hhigh.trans_lt (of_decide_eq_true hword))
    obtain ⟨coefficients, h⟩ := exists_reconstructionCoefficients_iff.2
      ((nodup_partyPoints_iff (F := F) hwordm).2 (hhigh.trans hsize))
    refine ⟨coefficients, h, ?_⟩
    rw [List.map_take, hvalues, ← hconstant]
    refine weightedSum_reconstructionCoefficients h (Polynomial.degreeLT_mono hlow hf) fun i hi => ?_
    rw [List.getElem?_take_of_lt hi, List.getElem?_map, List.getElem?_range (hi.trans_le hhigh)]
    rfl

/-- Shares at more parties than the degree determine the shares of all. -/
theorem share_eq_of_agree (hword : isWord d.plan.parties = true)
    (hsize : d.plan.parties ≤ Nat.card F) {known : Finset Nat}
    (hknown : known ⊆ Finset.range d.plan.parties) (hcard : known.card = d.plan.threshold + 1)
    {d' : Dealer (ThresholdPlan F) G} (hplan : d'.plan = d.plan) {v v' : F}
    (hagree : ∀ i ∈ known, (d'.share v').1[i]? = (d.share v).1[i]?) :
    (d'.share v').1 = (d.share v).1 := by
  obtain ⟨f, hf, -, hvalues⟩ := opens_share d v
  have hopens := opens_share d' v'
  rw [hplan] at hopens
  have hsame : ∀ i ∈ known, ((d'.share v').1.map (·.value))[i]? = some (f.eval (partyPoint i)) := by
    intro i hi
    rw [List.getElem?_map, hagree i hi, ← List.getElem?_map, hvalues, List.getElem?_map,
      List.getElem?_range (Finset.mem_range.1 (hknown hi))]
    rfl
  have hall := (hopens.eq_of_agree (DistinctPoints.injOn_partyPoint hword hsize) hf hknown
    (hcard ▸ Nat.lt_succ_self _) hsame).2
  have hvalue : Function.Injective (ThresholdShare.value : ThresholdShare F → F) := by
    rintro ⟨y⟩ ⟨z⟩ h
    exact congrArg _ h
  exact List.map_injective_iff.2 hvalue (hall.trans hvalues.symm)

end ThresholdPlan

/-- **Dealt secrets are recovered.** Whatever the random elements are: the values that a dealer for at
least one party hands out sum to the secret, and their authentication codes to the secret times the
sum of the keys; three replicated shares overlap, and their own parts sum to the secret; among no more
parties than the field has elements, all first shares that are more than the degree recover the secret
with the coefficients of reconstruction, and one share more than the degree, at whichever parties,
determines all others. -/
theorem dealt_shares_recover :
    (∀ (R : Type) [CodedRing R] [LawfulRing R] (d : Dealer (MacPlan R) G) (v : R),
      1 ≤ DealingPlan.parties d.plan → d.plan.Recovers (d.share v).1 v) ∧
    (∀ (R : Type) [CodedRing R] [LawfulRing R] (d : Dealer (ReplicatedPlan R) G) (v : R),
      ReplicatedPlan.Recovers (d.share v).1 v) ∧
    ∀ (F : Type) [CodedField F] [LawfulField F] [DistinctPoints F] (d : Dealer (ThresholdPlan F) G),
      isWord d.plan.parties = true → d.plan.parties ≤ Nat.card F →
        (∀ v, d.plan.Recovers (d.share v).1 v) ∧
        ∀ known ⊆ Finset.range d.plan.parties, known.card = d.plan.threshold + 1 →
          ∀ (d' : Dealer (ThresholdPlan F) G) (v v' : F), d'.plan = d.plan →
            (∀ i ∈ known, (d'.share v').1[i]? = (d.share v).1[i]?) →
              (d'.share v').1 = (d.share v).1 := by
  refine ⟨fun R _ _ => MacPlan.recovers_share, fun R _ _ => ReplicatedPlan.recovers_share, ?_⟩
  intro F _ _ _ d hword hsize
  refine ⟨ThresholdPlan.recovers_share hword hsize, ?_⟩
  intro known hknown hcard d' v v' hplan hagree
  exact ThresholdPlan.share_eq_of_agree hword hsize hknown hcard hplan hagree

section Example

/-- A dealer for three parties with degree one, whose next random element is 7. -/
private def lineDealer : Dealer (ThresholdPlan Binary64) Scripted :=
  ⟨⟨3, 1, by decide⟩, .create [7] 0⟩

/-- A dealer of authenticated shares for two parties. -/
private def pairDealer : Dealer (MacPlan Binary64) Scripted := ⟨⟨[⟨3⟩, ⟨5⟩]⟩, .create [9, 11] 0⟩

/-- Two parties share 6 with codes. Of three threshold shares of 5, the first two recover it, and
whenever the first and the last share are these, so is the middle one. -/
theorem dealt_shares_recover_line :
    (1 ≤ DealingPlan.parties pairDealer.plan ∧
      pairDealer.plan.Recovers [⟨⟨15⟩, ⟨31⟩⟩, ⟨⟨9⟩, ⟨11⟩⟩] (⟨6⟩ : Binary64)) ∧
    (isWord 3 = true ∧ 3 ≤ Nat.card Binary64) ∧
    (∃ coefficients : List Binary64, reconstructionCoefficients 2 = .ok coefficients ∧
      CodedRing.weightedSum coefficients [⟨2⟩, ⟨11⟩] = ⟨5⟩) ∧
    ∀ (d : Dealer (ThresholdPlan Binary64) Scripted) (v : Binary64), d.plan = lineDealer.plan →
      (d.share v).1[0]? = some ⟨⟨2⟩⟩ → (d.share v).1[2]? = some ⟨⟨12⟩⟩ →
        (d.share v).1 = [⟨⟨2⟩⟩, ⟨⟨11⟩⟩, ⟨⟨12⟩⟩] := by
  have hsize : 3 ≤ Nat.card Binary64 := by
    rw [Binary64.card]
    norm_num
  have hpair : (pairDealer.share ⟨6⟩).1 = [⟨⟨15⟩, ⟨31⟩⟩, ⟨⟨9⟩, ⟨11⟩⟩] := by decide +kernel
  have hline : (lineDealer.share ⟨5⟩).1 = [⟨⟨2⟩⟩, ⟨⟨11⟩⟩, ⟨⟨12⟩⟩] := by decide +kernel
  obtain ⟨hmac, -, hthreshold⟩ := dealt_shares_recover (G := Scripted)
  obtain ⟨hrecovers, hdetermined⟩ := hthreshold Binary64 lineDealer (by decide) hsize
  refine ⟨⟨by decide, hpair ▸ hmac Binary64 pairDealer ⟨6⟩ (by decide)⟩, ⟨by decide, hsize⟩, ?_, ?_⟩
  · obtain ⟨coefficients, h, hvalue⟩ := (hrecovers ⟨5⟩).value 2 (by decide) (by decide)
    rw [hline] at hvalue
    exact ⟨coefficients, h, hvalue⟩
  · intro d v hplan hfirst hlast
    rw [← hline]
    refine hdetermined {0, 2} (by decide) (by decide) d ⟨5⟩ v hplan fun i hi => ?_
    rw [hline]
    obtain rfl | rfl : i = 0 ∨ i = 2 := by simpa using hi
    · exact hfirst
    · exact hlast

end Example

end Multiparty
