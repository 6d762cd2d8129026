import Mathlib
import Multiparty.Proofs.Joint.Threshold
import Multiparty.Proofs.Ring.BinaryField
import Multiparty.Proofs.Ring.Mersenne

/-!
# What redundant evaluations tell

In malicious mode every row of coefficients must give the same value. That is the case exactly if all
evaluations lie on one polynomial of degree at most the threshold. Since two such polynomials agree
if they agree at more points than the threshold, evaluations of which that many are right either are
all right or are refused.

## Main definitions

* `LawfulPoints`: fields in which the points of the parties come around only after zero.

## Main results

* `ThresholdOpener.opens_iff_forall_weightedSum`: the rows agree exactly on evaluations of one
  polynomial.
* `ThresholdOpener.reconstruct?_eq_some_iff`: what is reconstructed.
* `ThresholdOpener.Opens.eq_of_agree`: evaluations that are right at enough points.
-/

namespace Multiparty

-- The powers in this file are those of the core library, whatever else is imported.
attribute [local instance (high)] instPowNat

open Polynomial

/-- A field in which no point of a party is zero before the points come around. -/
class LawfulPoints (F : Type) [CodedField F] : Prop where
  partyPoint_succ : ∀ i, (partyPoint i : F) = 0 → (partyPoint (i + 1) : F) = partyPoint 0

section Instances

/-- The words that are the points of the parties come around, too. -/
private theorem ofNat_succ_of_eq_zero {i : Nat} (h : UInt64.ofNat (i + 1) = 0) :
    UInt64.ofNat (i + 1 + 1) = UInt64.ofNat (0 + 1) := by
  rw [UInt64.ofNat_add, h]
  rfl

instance : LawfulPoints Mersenne61 where
  partyPoint_succ i h := by
    have hval : (i + 1) % 2 ^ 64 % (2 ^ 61 - 1) = 0 := congrArg Mersenne.val h
    -- the last word before the words come around is no multiple of the modulus
    have hlast : (i + 1) % 2 ^ 64 ≠ 2 ^ 64 - 1 := by
      intro hlast
      rw [hlast] at hval
      exact absurd hval (by decide)
    have hnext : (i + 1 + 1) % 2 ^ 64 = (i + 1) % 2 ^ 64 + 1 := by omega
    refine Mersenne.ext (?_ : (i + 1 + 1) % 2 ^ 64 % (2 ^ 61 - 1) = 1)
    rw [hnext, Nat.add_mod, hval]
    rfl

instance : LawfulPoints Mersenne127 where
  partyPoint_succ i h := by
    have hval : (UInt64.ofNat (i + 1)).toNat % (2 ^ 127 - 1) = 0 := congrArg Mersenne.val h
    rw [Nat.mod_eq_of_lt ((UInt64.toNat_lt _).trans (by norm_num))] at hval
    exact congrArg CodedRing.ofWord (ofNat_succ_of_eq_zero (UInt64.toNat_inj.1 hval))

instance : LawfulPoints Binary64 where
  partyPoint_succ _ h :=
    congrArg CodedRing.ofWord (ofNat_succ_of_eq_zero (congrArg Binary64.word h))

end Instances

namespace ThresholdOpener

variable {F : Type} [CodedField F] [LawfulField F] {n threshold : Nat} {rows : List (List F)}

/-- The points of the senders differ. -/
theorem SoundRows.injOn_partyPoint (h : SoundRows n threshold rows) :
    Set.InjOn (partyPoint : Nat → F) (Finset.range (threshold + rows.length)) := by
  have hpos : 0 < rows.length := List.length_pos_of_ne_nil h.ne_nil
  have hlast := Multiparty.injOn_partyPoint (h.row (rows.length - 1) (by omega))
  rwa [show threshold + 1 + (rows.length - 1) = threshold + rows.length by omega] at hlast

/-- The polynomial through the first values at the points of the parties. -/
private noncomputable def through (m : Nat) (ys : List F) : F[X] :=
  Lagrange.interpolate (Finset.range m) partyPoint fun i => ys.getD i 0

private theorem through_mem_degreeLT {m : Nat} {ys : List F}
    (hinj : Set.InjOn (partyPoint : Nat → F) (Finset.range m)) : through m ys ∈ degreeLT F m := by
  have hdegree := Lagrange.degree_interpolate_lt (fun i => ys.getD i 0) hinj
  rwa [Finset.card_range, ← mem_degreeLT] at hdegree

private theorem eval_through {m i : Nat} {ys : List F}
    (hinj : Set.InjOn (partyPoint : Nat → F) (Finset.range m)) (hm : m ≤ ys.length) (hi : i < m) :
    ys[i]? = some ((through m ys).eval (partyPoint i)) := by
  rw [through, Lagrange.eval_interpolate_at_node _ hinj (Finset.mem_range.2 hi),
    List.getElem?_eq_getElem (hi.trans_le hm), List.getD_eq_getElem _ _ (hi.trans_le hm)]

/-- If the polynomial through the first values has the same constant term as the one through one
value more, it passes through this value, too: else their difference would vanish at zero and at the
points before, which are too many. -/
private theorem eval_next_of_coeff_zero [LawfulPoints F] {m : Nat} {ys : List F} {f : F[X]}
    (hm : m < ys.length) (hinj : Set.InjOn (partyPoint : Nat → F) (Finset.range (m + 1)))
    (hf : f ∈ degreeLT F m) (hys : ∀ i < m, ys[i]? = some (f.eval (partyPoint i)))
    (hzero : (through (m + 1) ys).coeff 0 = f.coeff 0) :
    ys[m]? = some (f.eval (partyPoint m)) := by
  have hnonzero : ∀ i ∈ Finset.range m, (partyPoint i : F) ≠ 0 := by
    intro i hi hpoint
    rw [Finset.mem_range] at hi
    have hnext := hinj (Finset.mem_coe.2 (Finset.mem_range.2 (by omega : i + 1 < m + 1)))
      (Finset.mem_coe.2 (Finset.mem_range.2 m.succ_pos)) (LawfulPoints.partyPoint_succ i hpoint)
    omega
  let points : Finset F := insert 0 ((Finset.range m).image partyPoint)
  have hcard : points.card = m + 1 := by
    rw [Finset.card_insert_of_notMem (by simpa using hnonzero), Finset.card_image_of_injOn
      (hinj.mono (by simp)), Finset.card_range]
  have heq : f = through (m + 1) ys := by
    refine Polynomial.eq_of_degrees_lt_of_eval_finset_eq points ?_ ?_ fun x hx => ?_
    · rw [hcard]
      exact (mem_degreeLT.1 hf).trans (by exact_mod_cast Nat.lt_succ_self m)
    · rw [hcard]
      exact mem_degreeLT.1 (through_mem_degreeLT hinj)
    · rcases Finset.mem_insert.1 hx with rfl | hx
      · rw [← coeff_zero_eq_eval_zero, ← coeff_zero_eq_eval_zero, hzero]
      · obtain ⟨i, hi, rfl⟩ := Finset.mem_image.1 hx
        rw [Finset.mem_range] at hi
        exact Option.some.inj ((hys i hi).symm.trans (eval_through hinj hm (by omega)))
  rw [heq]
  exact eval_through hinj hm m.lt_succ_self

/-- All rows give the same value exactly for the evaluations of a polynomial of small degree. -/
theorem opens_iff_forall_weightedSum [LawfulPoints F] (hrows : SoundRows n threshold rows)
    {ys : List F} (hlen : ys.length = threshold + rows.length) (v : F) :
    Opens threshold (threshold + rows.length) ys v ↔
      ∀ row ∈ rows, CodedRing.weightedSum row ys = v := by
  refine ⟨weightedSum_opens hrows, fun hall => ?_⟩
  have hpos : 0 < rows.length := List.length_pos_of_ne_nil hrows.ne_nil
  have hrow (k : Nat) (hk : k < rows.length) : (through (threshold + 1 + k) ys).coeff 0 = v := by
    have hinj := injOn_partyPoint (hrows.row k hk)
    rw [← hall _ (List.getElem_mem hk)]
    exact (weightedSum_reconstructionCoefficients (hrows.row k hk) (through_mem_degreeLT hinj)
      fun i hi => eval_through hinj (by omega) hi).symm
  -- the polynomial of the first row passes through one value after the other
  have hthrough (k : Nat) (hk : k < rows.length) : ∀ i < threshold + 1 + k,
      ys[i]? = some ((through (threshold + 1) ys).eval (partyPoint i)) := by
    have hfirst := injOn_partyPoint (hrows.row 0 hpos)
    induction k with
    | zero => exact fun i hi => eval_through hfirst (by omega) hi
    | succ k ih =>
      have hbefore := ih (Nat.lt_of_succ_lt hk)
      intro i hi
      by_cases hlt : i < threshold + 1 + k
      · exact hbefore i hlt
      · obtain rfl : i = threshold + 1 + k := by omega
        refine eval_next_of_coeff_zero (by omega) (injOn_partyPoint (hrows.row (k + 1) hk))
          (degreeLT_mono (by omega) (through_mem_degreeLT hfirst)) hbefore ?_
        exact (hrow (k + 1) hk).trans (hrow 0 hpos).symm
  refine ⟨_, through_mem_degreeLT (injOn_partyPoint (hrows.row 0 hpos)), hrow 0 hpos, ?_⟩
  refine List.ext_getElem? fun i => ?_
  by_cases hi : i < threshold + rows.length
  · rw [hthrough (rows.length - 1) (by omega) i (by omega), List.getElem?_map,
      List.getElem?_range hi, Option.map_some]
  · rw [List.getElem?_eq_none (by omega), List.getElem?_eq_none (by simpa using hi)]

/-- In malicious mode a value is reconstructed exactly if the evaluations are those of a polynomial
of small degree. -/
theorem reconstruct?_eq_some_iff [LawfulPoints F] {o : ThresholdOpener F}
    (hmalicious : o.malicious = true) (hrows : SoundRows n threshold o.rows) {ys : List F}
    (hlen : ys.length = threshold + o.rows.length) (v : F) :
    o.reconstruct? ys = some v ↔ Opens threshold (threshold + o.rows.length) ys v := by
  have hall : (∀ row ∈ o.rows, CodedRing.weightedSum row ys = v) ↔
      CodedRing.weightedSum (o.rows.headD []) ys = v ∧ ∀ row ∈ o.rows.tail,
        CodedRing.weightedSum row ys = CodedRing.weightedSum (o.rows.headD []) ys := by
    obtain ⟨row, others, hlist⟩ := List.exists_cons_of_ne_nil hrows.ne_nil
    rw [hlist, List.forall_mem_cons, List.headD_cons, List.tail_cons]
    exact and_congr_right fun hrow => by rw [hrow]
  rw [opens_iff_forall_weightedSum hrows hlen, hall, reconstruct?]
  simp [hmalicious, and_comm]

/-- Evaluations of a value that are those of a given polynomial at more points than the threshold
are so at all points. -/
theorem Opens.eq_of_agree {m : Nat} {ys : List F} {v : F} (h : Opens threshold m ys v)
    (hinj : Set.InjOn (partyPoint : Nat → F) (Finset.range m)) {f : F[X]}
    (hf : f ∈ degreeLT F (threshold + 1)) {agree : Finset Nat} (hagree : agree ⊆ Finset.range m)
    (hcard : threshold < agree.card) (hys : ∀ i ∈ agree, ys[i]? = some (f.eval (partyPoint i))) :
    v = f.coeff 0 ∧ ys = (List.range m).map fun i => f.eval (partyPoint i) := by
  obtain ⟨g, hg, rfl, rfl⟩ := h
  have hdegree {p : F[X]} (hp : p ∈ degreeLT F (threshold + 1)) : p.degree < agree.card :=
    (mem_degreeLT.1 hp).trans_le (by exact_mod_cast hcard)
  have heq : g = f := by
    refine Polynomial.eq_of_degrees_lt_of_eval_index_eq agree (hinj.mono (Finset.coe_subset.2 hagree))
      (hdegree hg) (hdegree hf) fun i hi => ?_
    have hi' := hys i hi
    rw [List.getElem?_map, List.getElem?_range (Finset.mem_range.1 (hagree hi))] at hi'
    exact Option.some.inj hi'
  exact ⟨by rw [heq], by rw [heq]⟩

end ThresholdOpener

end Multiparty
