import Mathlib
import Multiparty.Capacity
import Multiparty.Proofs.Interpolation
import Multiparty.Proofs.Ring.BinaryField
import Multiparty.Proofs.Ring.Mersenne

/-!
# When there are coefficients of reconstruction

The coefficients that recover a constant term are products of inverted differences of points, so they
exist exactly if the points of the parties differ. The points are the words from one on. In the
fields at hand these stand for different elements as long as there are no more of them than elements,
and beyond that no points can differ.

## Main definitions

* `partyPoints`: the points of the first parties.
* `DistinctPoints`: fields in which no points of few enough parties coincide.

## Main results

* `exists_reconstructionCoefficients_iff`: the coefficients exist exactly if the points differ.
* `nodup_partyPoints_iff`: the points differ exactly if they are not too many.
* `reconstructionCoefficients_exact`: when there are coefficients, and what they recover.
-/

namespace Multiparty

/-- The points of the first `n` parties. -/
def partyPoints (F : Type) [CodedField F] (n : Nat) : List F := (List.range n).map partyPoint

section Points

variable {F : Type} [CodedField F]

@[simp] theorem length_partyPoints (n : Nat) : (partyPoints F n).length = n := by
  rw [partyPoints, List.length_map, List.length_range]

theorem nodup_partyPoints {n : Nat} :
    (partyPoints F n).Nodup ↔ Set.InjOn (partyPoint : Nat → F) (Finset.range n) := by
  rw [partyPoints, List.nodup_map_iff_inj_on List.nodup_range, Finset.coe_range]
  simp only [List.mem_range]
  rfl

/-- The word that is the point of a party, if their number is a word. -/
theorem toNat_point {n i : Nat} (hword : isWord n = true) (hi : i < n) :
    (UInt64.ofNat (i + 1)).toNat = i + 1 :=
  UInt64.toNat_ofNat_of_lt' (Nat.lt_of_le_of_lt hi (of_decide_eq_true hword))

end Points

/-! ### Few enough parties -/

/-- A field in which the points of parties differ if the parties are no more than the elements. -/
class DistinctPoints (F : Type) [CodedField F] : Prop where
  injOn_partyPoint : ∀ {n : Nat}, isWord n = true → n ≤ Nat.card F →
    Set.InjOn (partyPoint : Nat → F) (Finset.range n)

section Instances

/-- The words from one up to the modulus leave different remainders. -/
private theorem injOn_residues {e n : Nat} (hpos : 0 < 2 ^ e - 1) (hword : isWord n = true)
    (hn : n ≤ 2 ^ e - 1) :
    Set.InjOn (fun i => Mersenne.reduce hpos (UInt64.ofNat (i + 1)).toNat) (Finset.range n) := by
  intro i hi j hj h
  rw [Finset.mem_coe, Finset.mem_range] at hi hj
  have hval : (UInt64.ofNat (i + 1)).toNat % (2 ^ e - 1) =
      (UInt64.ofNat (j + 1)).toNat % (2 ^ e - 1) := congrArg Mersenne.val h
  rw [toNat_point hword hi, toNat_point hword hj] at hval
  have hmod : i ≡ j [MOD 2 ^ e - 1] := Nat.ModEq.add_right_cancel' 1 hval
  exact hmod.eq_of_lt_of_lt (hi.trans_le hn) (hj.trans_le hn)

instance : DistinctPoints Mersenne61 where
  injOn_partyPoint hword hn := injOn_residues (by decide) hword (hn.trans_eq (Mersenne.card 61))

instance : DistinctPoints Mersenne127 where
  injOn_partyPoint hword hn := injOn_residues (by decide) hword (hn.trans_eq (Mersenne.card 127))

instance : DistinctPoints Binary64 where
  injOn_partyPoint {n} hword _ i hi j hj h := by
    rw [Finset.mem_coe, Finset.mem_range] at hi hj
    have hval : (UInt64.ofNat (i + 1)).toNat = (UInt64.ofNat (j + 1)).toNat :=
      congrArg (fun x : Binary64 => x.word.toNat) h
    rw [toNat_point hword hi, toNat_point hword hj] at hval
    exact Nat.succ.inj hval

end Instances

section Existence

variable {F : Type} [CodedField F] [LawfulField F] {n : Nat}

/-- Points that differ are not more than the elements. -/
theorem length_le_card_of_nodup (h : (partyPoints F n).Nodup) : n ≤ Nat.card F := by
  have := Fintype.ofFinite F
  have hlen := h.length_le_card
  rwa [length_partyPoints, ← Nat.card_eq_fintype_card] at hlen

/-- The points of the parties differ exactly if the parties are no more than the elements. -/
theorem nodup_partyPoints_iff [DistinctPoints F] (hword : isWord n = true) :
    (partyPoints F n).Nodup ↔ n ≤ Nat.card F :=
  ⟨length_le_card_of_nodup, fun h =>
    nodup_partyPoints.2 (DistinctPoints.injOn_partyPoint hword h)⟩

/-- There are coefficients of reconstruction exactly if the points of the parties differ. -/
theorem exists_reconstructionCoefficients_iff :
    (∃ coefficients : List F, reconstructionCoefficients n = .ok coefficients) ↔
      (partyPoints F n).Nodup := by
  rw [nodup_partyPoints]
  refine ⟨fun ⟨_, h⟩ => injOn_partyPoint h, fun h => exists_mapM_eq_ok fun i hi => ?_⟩
  refine ⟨_, reconstructionCoefficient_of_distinct fun j hj heq => ?_⟩
  obtain ⟨hne, hj⟩ := Finset.mem_erase.1 hj
  exact hne (h hj (Finset.mem_coe.2 (Finset.mem_range.2 (List.mem_range.1 hi))) heq)

/-- If two points coincide, that is what the failure says. -/
theorem reconstructionCoefficients_eq_error (h : ¬ (partyPoints F n).Nodup) :
    (reconstructionCoefficients n : Except ProtocolError (List F)) =
      .error (.invalidParameters (.pointsCollide n)) := by
  have hcases : (∃ cs : List F, reconstructionCoefficients n = .ok cs) ∨
      (reconstructionCoefficients n : Except ProtocolError (List F)) =
        .error (.invalidParameters (.pointsCollide n)) := by
    refine mapM_eq_ok_or_error fun i _ => ?_
    by_cases hdistinct : ∀ j ∈ (Finset.range n).erase i, (partyPoint j : F) ≠ partyPoint i
    · exact .inl ⟨_, reconstructionCoefficient_of_distinct hdistinct⟩
    · push Not at hdistinct
      obtain ⟨j, hj, heq⟩ := hdistinct
      exact .inr (reconstructionCoefficient_of_collision hj heq)
  exact hcases.resolve_left fun hok => h (exists_reconstructionCoefficients_iff.1 hok)

omit [LawfulField F] in
/-- There is one coefficient for each party. -/
theorem length_reconstructionCoefficients {coefficients : List F}
    (h : reconstructionCoefficients n = .ok coefficients) : coefficients.length = n := by
  rw [← (forall₂_of_mapM h).length_eq, List.length_range]

/-- The coefficients recover the constant term of a polynomial from its values. -/
theorem weightedSum_evaluations {coefficients f : List F}
    (h : reconstructionCoefficients n = .ok coefficients) (hf : f.length ≤ n) :
    CodedRing.weightedSum coefficients ((partyPoints F n).map (evaluate f)) = f.headD 0 := by
  have hdegree : polynomialOf f ∈ Polynomial.degreeLT F n :=
    Polynomial.degreeLT_mono hf (polynomialOf_mem_degreeLT f)
  have hconstant : (polynomialOf f).coeff 0 = f.headD 0 := by
    cases f with
    | nil => exact Polynomial.coeff_zero 0
    | cons c cs => exact coeff_zero_polynomialOf c cs
  rw [← hconstant]
  refine weightedSum_reconstructionCoefficients h hdegree fun i hi => ?_
  rw [partyPoints, List.map_map, List.getElem?_map, List.getElem?_range hi, eval_polynomialOf]
  rfl

end Existence

/-- **Exact coefficients.** Over every field there are coefficients of reconstruction for `n` parties
exactly if their points differ, and otherwise the parameters are refused. If there are, they are as
many as the parties, and recover the constant term of every polynomial with at most `n` coefficients
from its values at the points. Modulo `2 ^ 61 - 1` the points differ exactly if they are no more than
the residues. Modulo `2 ^ 127 - 1` and in the binary field they always do, because the number of
parties is a word. -/
theorem reconstructionCoefficients_exact :
    (∀ (F : Type) [CodedField F] [LawfulField F] (n : Nat),
      ((∃ coefficients : List F, reconstructionCoefficients n = .ok coefficients) ↔
        (partyPoints F n).Nodup) ∧
      (¬ (partyPoints F n).Nodup →
        (reconstructionCoefficients n : Except ProtocolError (List F)) =
          .error (.invalidParameters (.pointsCollide n))) ∧
      ∀ coefficients : List F, reconstructionCoefficients n = .ok coefficients →
        coefficients.length = n ∧ ∀ f : List F, f.length ≤ n →
          CodedRing.weightedSum coefficients ((partyPoints F n).map (evaluate f)) = f.headD 0) ∧
    (∀ n, (partyPoints Mersenne61 n).Nodup ↔ n ≤ 2 ^ 61 - 1) ∧
    (∀ n, isWord n = true → (partyPoints Mersenne127 n).Nodup) ∧
    ∀ n, isWord n = true → (partyPoints Binary64 n).Nodup := by
  refine ⟨fun F _ _ n => ?_, fun n => ⟨fun h => ?_, fun h => ?_⟩, fun n hword => ?_,
    fun n hword => ?_⟩
  · refine ⟨exists_reconstructionCoefficients_iff, reconstructionCoefficients_eq_error, ?_⟩
    intro coefficients h
    exact ⟨length_reconstructionCoefficients h, fun f => weightedSum_evaluations h⟩
  · exact (length_le_card_of_nodup h).trans_eq (Mersenne.card 61)
  · have hword : isWord n = true := decide_eq_true (h.trans_lt (by decide))
    exact (nodup_partyPoints_iff hword).2 (h.trans_eq (Mersenne.card 61).symm)
  · have hlt : n < 2 ^ 64 := of_decide_eq_true hword
    rw [nodup_partyPoints_iff hword, Mersenne.card]
    exact hlt.le.trans (by norm_num)
  · have hlt : n < 2 ^ 64 := of_decide_eq_true hword
    rw [nodup_partyPoints_iff hword, Binary64.card]
    exact hlt.le

/-- Three points in the binary field, and one more than there are residues modulo `2 ^ 61 - 1`. -/
theorem reconstructionCoefficients_exact_three :
    (∃ coefficients : List Binary64, reconstructionCoefficients 3 = .ok coefficients ∧
      CodedRing.weightedSum coefficients
        ((partyPoints Binary64 3).map (evaluate [⟨5⟩, ⟨7⟩, ⟨9⟩])) = ⟨5⟩) ∧
    (reconstructionCoefficients (2 ^ 61) : Except ProtocolError (List Mersenne61)) =
      .error (.invalidParameters (.pointsCollide (2 ^ 61))) := by
  obtain ⟨hexact, hmersenne, -, hbinary⟩ := reconstructionCoefficients_exact
  obtain ⟨hiff, -, hrecover⟩ := hexact Binary64 3
  obtain ⟨coefficients, h⟩ := hiff.2 (hbinary 3 (by decide))
  refine ⟨⟨coefficients, h, (hrecover coefficients h).2 _ (by decide)⟩, ?_⟩
  refine (hexact Mersenne61 (2 ^ 61)).2.1 fun hdistinct => ?_
  exact absurd ((hmersenne (2 ^ 61)).1 hdistinct) (by norm_num)

end Multiparty
