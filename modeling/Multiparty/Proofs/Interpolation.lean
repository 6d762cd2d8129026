import Mathlib.LinearAlgebra.Lagrange
import Multiparty.Interpolation
import Multiparty.Proofs.Ring.Laws
import Multiparty.Proofs.Session

/-!
# Interpolation at the points of the parties

The coefficients of reconstruction exist only if the points of the parties differ, and then they are
the values at zero of the basis polynomials of Lagrange. So they recover the constant term of every
polynomial whose degree is below the number of points.

## Main definitions

* `polynomialOf`: the polynomial with given coefficients, constant term first.

## Main results

* `eval_polynomialOf`: evaluation of coefficients is evaluation of the polynomial.
* `injOn_partyPoint`: the points differ if there are coefficients of reconstruction.
* `weightedSum_reconstructionCoefficients`: the constant term is recovered.
-/

namespace Multiparty

open Polynomial

variable {F : Type} [CodedField F] [LawfulField F]

/-- The polynomial with the given coefficients, constant term first. -/
noncomputable def polynomialOf (coefficients : List F) : F[X] :=
  coefficients.foldr (fun c f => f * X + C c) 0

theorem eval_polynomialOf (coefficients : List F) (x : F) :
    (polynomialOf coefficients).eval x = evaluate coefficients x := by
  induction coefficients with
  | nil => exact eval_zero
  | cons c cs ih =>
    change (polynomialOf cs * X + C c).eval x = evaluate cs x * x + c
    rw [eval_add, eval_mul_X, eval_C, ih]

theorem coeff_zero_polynomialOf (c : F) (cs : List F) : (polynomialOf (c :: cs)).coeff 0 = c := by
  change (polynomialOf cs * X + C c).coeff 0 = c
  rw [coeff_add, coeff_mul_X_zero, coeff_C_zero, zero_add]

theorem polynomialOf_mem_degreeLT (coefficients : List F) :
    polynomialOf coefficients ∈ degreeLT F coefficients.length := by
  induction coefficients with
  | nil => exact zero_mem _
  | cons c cs ih =>
    have hcons : polynomialOf (c :: cs) = polynomialOf cs * X + C c := rfl
    rw [mem_degreeLT] at ih ⊢
    rw [hcons, List.length_cons]
    refine (degree_add_le _ _).trans_lt (max_lt ?_ ?_)
    · by_cases hzero : polynomialOf cs = 0
      · rw [hzero, zero_mul, degree_zero]
        exact WithBot.bot_lt_coe _
      · rw [degree_mul_X, Nat.cast_succ]
        exact WithBot.add_lt_add_right WithBot.one_ne_bot ih
    · exact degree_C_le.trans_lt (by exact_mod_cast Nat.succ_pos cs.length)

private theorem foldl_mul_eq (f : Nat → F) (l : List Nat) (acc : F) :
    l.foldl (fun acc j => acc * f j) acc = acc * (l.map f).prod := by
  induction l generalizing acc with
  | nil => rw [List.map_nil, List.prod_nil, mul_one]; rfl
  | cons j l ih => rw [List.foldl_cons, ih, List.map_cons, List.prod_cons, mul_assoc]

/-- A product over all parties but one. -/
private theorem foldl_others_eq (f : Nat → F) (n i : Nat) :
    ((List.range n).filter (· ≠ i)).foldl (fun acc j => acc * f j) 1 =
      ∏ j ∈ (Finset.range n).erase i, f j := by
  have hset : (Finset.range n).erase i = ((List.range n).filter (· ≠ i)).toFinset := by
    ext j
    simp [and_comm]
  rw [foldl_mul_eq, one_mul, hset, List.prod_toFinset _ (List.nodup_range.filter _)]

/-- The coefficient of a party whose point differs from those of the others. -/
theorem reconstructionCoefficient_of_distinct {n i : Nat}
    (h : ∀ j ∈ (Finset.range n).erase i, (partyPoint j : F) ≠ partyPoint i) :
    (reconstructionCoefficient n i : Except ProtocolError F) =
      .ok (∏ j ∈ (Finset.range n).erase i,
        (partyPoint j : F) * (partyPoint j - partyPoint i)⁻¹) := by
  have hne : ∏ j ∈ (Finset.range n).erase i, ((partyPoint j : F) - partyPoint i) ≠ 0 :=
    Finset.prod_ne_zero_iff.2 fun j hj => sub_ne_zero.2 (h j hj)
  rw [reconstructionCoefficient, foldl_others_eq (partyPoint : Nat → F),
    foldl_others_eq fun j => (partyPoint j : F) - partyPoint i, CodedField.inv?_eq, if_neg hne,
    Finset.prod_mul_distrib, Finset.prod_inv_distrib]

/-- There is no coefficient for a party whose point is also that of another one. -/
theorem reconstructionCoefficient_of_collision {n i j : Nat} (hj : j ∈ (Finset.range n).erase i)
    (h : (partyPoint j : F) = partyPoint i) :
    (reconstructionCoefficient n i : Except ProtocolError F) =
      .error (.invalidParameters (.pointsCollide n)) := by
  have hzero : ∏ j ∈ (Finset.range n).erase i, ((partyPoint j : F) - partyPoint i) = 0 :=
    Finset.prod_eq_zero hj (sub_eq_zero.2 h)
  rw [reconstructionCoefficient, foldl_others_eq (partyPoint : Nat → F),
    foldl_others_eq fun j => (partyPoint j : F) - partyPoint i, CodedField.inv?_eq, if_pos hzero]

/-- The coefficient of a party exists only if its point differs from those of the others. -/
theorem reconstructionCoefficient_eq {n i : Nat} {c : F} (h : reconstructionCoefficient n i = .ok c) :
    (∀ j ∈ (Finset.range n).erase i, (partyPoint j : F) ≠ partyPoint i) ∧
      c = ∏ j ∈ (Finset.range n).erase i,
        (partyPoint j : F) * (partyPoint j - partyPoint i)⁻¹ := by
  have hdistinct : ∀ j ∈ (Finset.range n).erase i, (partyPoint j : F) ≠ partyPoint i := by
    intro j hj heq
    rw [reconstructionCoefficient_of_collision hj heq] at h
    cases h
  rw [reconstructionCoefficient_of_distinct hdistinct] at h
  exact ⟨hdistinct, (Except.ok.inj h).symm⟩

/-- The coefficients of reconstruction are the products over the other parties. -/
private theorem map_weights_eq {n : Nat} {coefficients : List F}
    (h : reconstructionCoefficients n = .ok coefficients) :
    coefficients = (List.range n).map fun i => ∏ j ∈ (Finset.range n).erase i,
      (partyPoint j : F) * (partyPoint j - partyPoint i)⁻¹ :=
  (List.forall₂_eq_eq_eq ▸ List.forall₂_map_left_iff.2
    ((forall₂_of_mapM h).imp fun _ _ hc => (reconstructionCoefficient_eq hc).2.symm)).symm

/-- The coefficients exist only if the points of the parties differ. -/
theorem injOn_partyPoint {n : Nat} {coefficients : List F}
    (h : reconstructionCoefficients n = .ok coefficients) :
    Set.InjOn (partyPoint : Nat → F) (Finset.range n) := by
  intro i hi j hj heq
  obtain ⟨hlen, hget⟩ := List.forall₂_iff_get.1 (forall₂_of_mapM h)
  have hi' : i < (List.range n).length := List.length_range.symm ▸ Finset.mem_range.1 hi
  have hc := hget i hi' (hlen ▸ hi')
  rw [List.get_eq_getElem, List.getElem_range] at hc
  by_contra hne
  exact (reconstructionCoefficient_eq hc).1 j (Finset.mem_erase.2 ⟨Ne.symm hne, hj⟩) heq.symm

/-- The constant term of a polynomial of small degree from its values at distinct points. -/
private theorem coeff_zero_eq_sum {n : Nat} {f : F[X]} (hf : f ∈ degreeLT F n)
    (hinj : Set.InjOn (partyPoint : Nat → F) (Finset.range n)) :
    f.coeff 0 = ∑ i ∈ Finset.range n, (∏ j ∈ (Finset.range n).erase i,
      (partyPoint j : F) * (partyPoint j - partyPoint i)⁻¹) * f.eval (partyPoint i) := by
  have hinterpolate := Lagrange.eq_interpolate hinj (f := f) (by
    rw [Finset.card_range]
    exact mem_degreeLT.1 hf)
  have hbasis (i j : Nat) : (Lagrange.basisDivisor (partyPoint i : F) (partyPoint j)).eval 0 =
      partyPoint j * (partyPoint j - partyPoint i)⁻¹ := by
    rw [Lagrange.basisDivisor, eval_mul, eval_C, eval_sub, eval_X, eval_C, zero_sub,
      ← neg_sub (partyPoint j : F), inv_neg, neg_mul_neg, mul_comm]
  calc f.coeff 0 = f.eval 0 := coeff_zero_eq_eval_zero f
    _ = ∑ i ∈ Finset.range n,
        f.eval (partyPoint i) * (Lagrange.basis (Finset.range n) partyPoint i).eval 0 := by
      conv_lhs => rw [hinterpolate, Lagrange.interpolate_apply, eval_finsetSum]
      exact Finset.sum_congr rfl fun i _ => by rw [eval_mul, eval_C]
    _ = _ := by
      refine Finset.sum_congr rfl fun i _ => ?_
      rw [Lagrange.basis, eval_prod, mul_comm]
      exact congrArg (· * _) (Finset.prod_congr rfl fun j _ => hbasis i j)

/-- The coefficients of reconstruction recover the constant term of a polynomial of small degree from
its values, which more values may follow. -/
theorem weightedSum_reconstructionCoefficients {n : Nat} {coefficients : List F}
    (hcoefficients : reconstructionCoefficients n = .ok coefficients) {f : F[X]}
    (hf : f ∈ degreeLT F n) {ys : List F} (hys : ∀ i < n, ys[i]? = some (f.eval (partyPoint i))) :
    CodedRing.weightedSum coefficients ys = f.coeff 0 := by
  have hlen : n ≤ ys.length := by
    by_contra hlt
    have hnone := hys ys.length (Nat.not_le.1 hlt)
    simp at hnone
  have hzip : List.zipWith (· * ·) coefficients ys = (List.range n).map fun i =>
      (∏ j ∈ (Finset.range n).erase i, (partyPoint j : F) * (partyPoint j - partyPoint i)⁻¹) *
        f.eval (partyPoint i) := by
    rw [map_weights_eq hcoefficients]
    refine List.ext_getElem ?_ fun i hi hi' => ?_
    · simp only [List.length_zipWith, List.length_map, List.length_range]
      omega
    · have hlt : i < n := by simpa using hi'
      have hget := hys i hlt
      rw [List.getElem?_eq_getElem (hlt.trans_le hlen), Option.some_inj] at hget
      rw [List.getElem_zipWith, List.getElem_map, List.getElem_map, List.getElem_range, hget]
  rw [CodedRing.weightedSum_eq, hzip, coeff_zero_eq_sum hf (injOn_partyPoint hcoefficients),
    ← List.sum_toFinset _ List.nodup_range, List.toFinset_range]

end Multiparty
