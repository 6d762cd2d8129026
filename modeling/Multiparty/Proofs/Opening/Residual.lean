import Mathlib.Algebra.BigOperators.Fin
import Multiparty.Opening.MacCheck
import Multiparty.Proofs.Codec

/-!
# Residuals of authenticated values

The parties of a check add up what each of them computes from its own pending values. Here these
sums are related to one another, apart from how the payloads travel.

## Main definitions

* `PendingBatch`: the key shares of the parties and what each recorded for the same items.
* `PendingBatch.defect`: the sum of the residuals of an item.

## Main results

* `MacOpener.sumWithPeers_eq`, `MacOpener.sumSingles_eq`: the sums that a party forms.
* `PendingBatch.sum_combinedOf`: the combined residuals of all parties.
* `PendingBatch.eachVerdict_residualsOf`, `PendingBatch.combinedVerdict_combinedOf`: what the two ways
  to check make of these sums.
-/

namespace Multiparty

namespace MacOpener

section Sums

variable {R ι : Type} [CodedRing R]

/-- There are as many sums as own values. -/
theorem length_of_sumWithPeers {me : Nat} {own : List R} {payloads : List Bytes} {sums : List R}
    (h : sumWithPeers me own payloads = .ok sums) : sums.length = own.length := by
  rw [sumWithPeers] at h
  generalize payloads.zipIdx = indexed at h
  induction indexed generalizing own with
  | nil =>
    obtain rfl : own = sums := Except.ok.inj h
    rfl
  | cons entry indexed ih =>
    rw [List.foldlM_cons] at h
    obtain ⟨next, hnext, h⟩ := exists_of_bind_eq_ok h
    rw [ih h]
    dsimp only at hnext
    split_ifs at hnext with hme
    · rw [Except.ok.inj hnext]
    · obtain ⟨theirs, htheirs, hnext⟩ := exists_of_bind_eq_ok hnext
      obtain rfl : List.zipWith (· + ·) own theirs = next := Except.ok.inj hnext
      rw [List.length_zipWith, length_of_decodeValues htheirs, Nat.min_self]

theorem all_isZero_ofFn {k : Nat} (f : Fin k → R) :
    (List.ofFn f).all CodedRing.isZero = true ↔ ∀ j, f j = 0 := by
  rw [List.all_eq_true, List.forall_mem_ofFn_iff]
  simp only [CodedRing.isZero_iff]

variable [LawfulRing R]

private theorem sumWithPeers_from (me start : Nat) (items : List ι) (own : ι → R)
    (theirs : Nat → ι → R) (payloads : List Bytes)
    (h : ∀ p (hp : p < payloads.length), start + p ≠ me →
      decodeValues payloads[p] (some items.length) = .ok (items.map (theirs (start + p)))) :
    (payloads.zipIdx start).foldlM (fun sums (payload, party) =>
      if party = me then .ok sums
      else do
        let theirs ← decodeValues payload (some sums.length)
        pure (List.zipWith (· + ·) sums theirs)) (items.map own) =
      (.ok (items.map fun x => own x + ((List.range' start payloads.length).map fun p =>
        if p = me then 0 else theirs p x).sum) : Except ProtocolError (List R)) := by
  induction payloads generalizing start own with
  | nil =>
    simp only [List.zipIdx_nil, List.foldlM_nil, List.length_nil, List.range'_zero, List.map_nil,
      List.sum_nil, add_zero]
    rfl
  | cons payload payloads ih =>
    have hrest : ∀ p (hp : p < payloads.length), start + 1 + p ≠ me →
        decodeValues payloads[p] (some items.length) =
          .ok (items.map (theirs (start + 1 + p))) := by
      intro p hp hne
      have hp' : p + 1 < (payload :: payloads).length := by simpa using hp
      have hplus : start + (p + 1) = start + 1 + p := by omega
      have := h (p + 1) hp' (by omega)
      rwa [List.getElem_cons_succ, hplus] at this
    rw [List.zipIdx_cons, List.foldlM_cons, List.length_cons, List.range'_succ]
    dsimp only
    by_cases hme : start = me
    · rw [if_pos hme]
      change List.foldlM _ (items.map own) _ = _
      rw [ih (start + 1) own hrest]
      congr 1
      refine List.map_congr_left fun x _ => ?_
      rw [List.map_cons, List.sum_cons, if_pos hme, zero_add]
    · have hhead := h 0 (by simp) hme
      rw [List.getElem_cons_zero, Nat.add_zero] at hhead
      rw [if_neg hme, List.length_map, hhead]
      change List.foldlM _ (List.zipWith (· + ·) (items.map own) (items.map (theirs start))) _ = _
      rw [List.zipWith_map, List.zipWith_self, ih (start + 1) _ hrest]
      congr 1
      refine List.map_congr_left fun x _ => ?_
      rw [List.map_cons, List.sum_cons, if_neg hme, add_assoc]

private theorem sum_range_fin {n : Nat} (f : Nat → R) :
    ((List.range n).map f).sum = ∑ p : Fin n, f p := by
  rw [← List.sum_ofFn, List.ofFn_eq_map, ← List.map_coe_finRange_eq_range, List.map_map]
  rfl

/-- The own values and those that the payloads of the peers encode are added item by item. -/
theorem sumWithPeers_eq {n : Nat} (me : Fin n) (items : List ι) (own : ι → R)
    (theirs : Fin n → ι → R) (payloads : List Bytes) (hlen : payloads.length = n)
    (h : ∀ p : Fin n, p ≠ me → decodeValues (payloads.get (p.cast hlen.symm)) (some items.length) =
      .ok (items.map (theirs p))) :
    sumWithPeers me (items.map own) payloads =
      .ok (items.map fun x => own x + ∑ p ∈ Finset.univ.erase me, theirs p x) := by
  let extended (p : Nat) (x : ι) : R := if hp : p < n then theirs ⟨p, hp⟩ x else 0
  have hext (p : Fin n) : extended p = theirs p := by
    funext x
    exact dif_pos p.isLt
  have hfrom := sumWithPeers_from me 0 items own extended payloads (by
    intro p hp hne
    rw [Nat.zero_add] at hne ⊢
    rw [hext ⟨p, hlen ▸ hp⟩]
    exact h ⟨p, hlen ▸ hp⟩ fun heq => hne (congrArg Fin.val heq))
  rw [sumWithPeers, hfrom, hlen, ← List.range_eq_range']
  congr 1
  refine List.map_congr_left fun x _ => ?_
  rw [sum_range_fin, ← Finset.add_sum_erase _ _ (Finset.mem_univ me), if_pos rfl, zero_add]
  congr 1
  refine Finset.sum_congr rfl fun p hp => ?_
  rw [if_neg fun heq => (Finset.mem_erase.1 hp).1 (Fin.ext heq), hext]

/-- When every payload encodes what its party computed, all parties form the same sums. -/
theorem sumWithPeers_encodeValues {n : Nat} (me : Fin n) (items : List ι) (own : Fin n → ι → R) :
    sumWithPeers me (items.map (own me)) (List.ofFn fun p => encodeValues (items.map (own p))) =
      .ok (items.map fun x => ∑ p, own p x) := by
  rw [sumWithPeers_eq me items (own me) own _ (List.length_ofFn)]
  · congr 1
    refine List.map_congr_left fun x _ => ?_
    rw [Finset.add_sum_erase _ (fun p => own p x) (Finset.mem_univ me)]
  · intro p _
    have h := decodeValues_encodeValues (items.map (own p))
    rw [List.length_map] at h
    simpa using h

private theorem sumSingles_from (vs : List R) (acc : R) :
    (vs.map fun v => encodeValues [v]).foldlM (fun sum payload => do
      let values ← decodeValues payload (some 1)
      pure (sum + values.headD 0)) acc = (.ok (acc + vs.sum) : Except ProtocolError R) := by
  induction vs generalizing acc with
  | nil =>
    rw [List.sum_nil, add_zero]
    rfl
  | cons v vs ih =>
    have hv : decodeValues (encodeValues [v]) (some 1) = .ok [v] := decodeValues_encodeValues [v]
    rw [List.map_cons, List.foldlM_cons, hv]
    change List.foldlM _ (acc + v) _ = _
    rw [ih, List.sum_cons, add_assoc]

/-- When every payload encodes one element, their sum is formed. -/
theorem sumSingles_eq {n : Nat} (own : Fin n → R) :
    sumSingles (List.ofFn fun p => encodeValues [own p]) = .ok (∑ p, own p) := by
  have hmap : (List.ofFn fun p => encodeValues [own p]) =
      (List.ofFn own).map fun v => encodeValues [v] := by
    rw [List.map_ofFn]
    rfl
  rw [sumSingles, hmap, sumSingles_from, List.sum_ofFn, zero_add]

end Sums

end MacOpener

/-- The key shares of the `n` parties of a check and what each of them recorded for the same `k`
items. -/
structure PendingBatch (R : Type) (n k : Nat) where
  /-- The key share of a party. -/
  key : Fin n → R
  /-- What a party recorded for an item. -/
  item : Fin n → Fin k → PendingCheck R

namespace PendingBatch

open MacOpener

variable {R : Type} [CodedRing R] {n k : Nat} (b : PendingBatch R n k)

/-- The pending list of a party. -/
def pending (p : Fin n) : List (PendingCheck R) := List.ofFn (b.item p)

/-- The residuals that a party reveals. -/
def residualsOf (p : Fin n) : List R := residuals (b.key p) (b.pending p)

/-- The combined residual that a party reveals for given coefficients. -/
def combinedOf (h : Fin k → R) (p : Fin n) : R :=
  combinedResidual (b.key p) (b.pending p) (List.ofFn h)

theorem residualsOf_eq_map (p : Fin n) :
    b.residualsOf p = (List.finRange k).map fun j => residual (b.key p) (b.item p j) := by
  rw [residualsOf, residuals, pending, List.ofFn_eq_map, List.map_map]
  rfl

variable [LawfulRing R]

/-- The sum over all parties of the value times the key share less the authentication share. -/
def defect (j : Fin k) : R := ∑ p, ((b.item p j).value * b.key p - (b.item p j).mac)

variable {b} in
/-- Without parties there is no defect. -/
theorem pos_of_defect_ne_zero {j : Fin k} (h : b.defect j ≠ 0) : 0 < n := by
  refine Nat.pos_of_ne_zero fun hn => h ?_
  subst hn
  exact Finset.sum_of_isEmpty _

/-- All parties that check the items one by one form the defects. -/
theorem sumWithPeers_residualsOf (me : Fin n) :
    sumWithPeers me (b.residualsOf me) (List.ofFn fun p => encodeValues (b.residualsOf p)) =
      .ok (List.ofFn b.defect) := by
  simp only [residualsOf_eq_map]
  rw [sumWithPeers_encodeValues me (List.finRange k) fun p j => residual (b.key p) (b.item p j),
    List.ofFn_eq_map]
  rfl

/-- The verdict on the items one by one is whether none of them has a defect. -/
theorem eachVerdict_residualsOf (me : Fin n) :
    eachVerdict me (b.residualsOf me) (List.ofFn fun p => encodeValues (b.residualsOf p)) =
      .ok (decide (∀ j, b.defect j = 0)) := by
  have hall : (List.ofFn b.defect).all CodedRing.isZero = decide (∀ j, b.defect j = 0) := by
    rw [Bool.eq_iff_iff, all_isZero_ofFn, decide_eq_true_iff]
  rw [eachVerdict, sumWithPeers_residualsOf, ← hall]
  rfl

private theorem weightedSum_ofFn (h f : Fin k → R) :
    CodedRing.weightedSum (List.ofFn h) (List.ofFn f) = ∑ j, h j * f j := by
  rw [CodedRing.weightedSum_eq, List.ofFn_eq_map, List.ofFn_eq_map, List.zipWith_map,
    List.zipWith_self, ← List.ofFn_eq_map, List.sum_ofFn]

/-- The combined residual of a party, with the opposite sign of its residuals. -/
theorem combinedOf_eq (h : Fin k → R) (p : Fin n) :
    b.combinedOf h p = -∑ j, h j * ((b.item p j).value * b.key p - (b.item p j).mac) := by
  have hmac : (b.pending p).map (·.mac) = List.ofFn fun j => (b.item p j).mac := by
    rw [pending, List.map_ofFn]
    rfl
  have hvalue : (b.pending p).map (·.value) = List.ofFn fun j => (b.item p j).value := by
    rw [pending, List.map_ofFn]
    rfl
  rw [combinedOf, combinedResidual, hmac, hvalue, weightedSum_ofFn, weightedSum_ofFn,
    Finset.mul_sum, ← Finset.sum_sub_distrib, ← Finset.sum_neg_distrib]
  exact Finset.sum_congr rfl fun j _ => by ring

/-- Summing over the parties and combining the items may be exchanged. -/
theorem sum_combinedOf (h : Fin k → R) : ∑ p, b.combinedOf h p = -∑ j, h j * b.defect j := by
  simp only [combinedOf_eq, defect, Finset.sum_neg_distrib, Finset.mul_sum]
  rw [Finset.sum_comm]

/-- The verdict on a combination is whether the combination of the defects vanishes. -/
theorem combinedVerdict_combinedOf (h : Fin k → R) :
    combinedVerdict R (List.ofFn fun p => encodeValues [b.combinedOf h p]) =
      .ok (decide (∑ j, h j * b.defect j = 0)) := by
  have hzero : CodedRing.isZero (-∑ j, h j * b.defect j) =
      decide (∑ j, h j * b.defect j = 0) := by
    rw [Bool.eq_iff_iff, CodedRing.isZero_iff, neg_eq_zero, decide_eq_true_iff]
  rw [combinedVerdict, sumSingles_eq, sum_combinedOf, ← hzero]
  rfl

end PendingBatch

end Multiparty
