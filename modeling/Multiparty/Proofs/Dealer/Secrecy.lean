import Mathlib
import Multiparty.Proofs.Interpolation
import Multiparty.Proofs.Joint.Plans
import Multiparty.Proofs.PartyPoints
import Multiparty.Suite

/-!
# What a few parties see of a dealt secret

The shares of a secret are linear in the secret and the random elements. So if there is a change of
the random elements that makes up, in the shares of some parties, for another secret, then adding it
is a bijection of the random elements under which these parties see the same of either secret. There
is such a change if the parties are few enough: one additive part belongs to none of them, or some
polynomial of small degree vanishes at all of their points and has any given constant term.

## Main definitions

* `DealingPlan.view`: what some parties see of a sharing.
* `DealingPlan.Conceals`: a change of the random elements that makes up for another secret.
* `FaithfulWords`: fields in which no small word stands for zero.
* `Suite.TooFew`: the coalitions that are too small to learn a secret.

## Main results

* `exists_change`: a change of additive parts that shows in one of them only.
* `MacPlan.exists_conceals`, `ReplicatedPlan.exists_conceals`, `ThresholdPlan.exists_conceals`: every
  change of the secret is concealed from coalitions that are too small.
* `Suite.TooFew.same_view`: such coalitions see the same of all secrets.
-/

namespace Multiparty

open Polynomial

namespace DealingPlan

variable {P S R K : Type} [DealingPlan P S R K]

/-- The random elements of one sharing. -/
abbrev Randomness (plan : P) : Type := List.Vector R (demand plan)

/-- What the members of a coalition see of a sharing. -/
def view (plan : P) (coalition : Finset Nat) (secret : R) (random : Randomness plan) :
    coalition → Option S :=
  fun i => (deal plan secret random.toList)[(i : Nat)]?

variable [CodedRing R]

/-- If `change` is added to the random elements, no member of the coalition sees that `secret'` is
shared in the place of `secret`. -/
structure Conceals (plan : P) (coalition : Finset Nat) (secret secret' : R) (change : List R) :
    Prop where
  length : change.length = demand plan
  deal : ∀ random : List R, random.length = demand plan → ∀ i ∈ coalition,
    (DealingPlan.deal plan secret' (List.zipWith (· + ·) random change))[i]? =
      (DealingPlan.deal plan secret random)[i]?

variable [LawfulRing R]

/-- Addition of fixed elements to the random ones. -/
def translation {k : Nat} (change : List.Vector R k) : Equiv.Perm (List.Vector R k) where
  toFun random := List.Vector.zipWith (· + ·) random change
  invFun random := List.Vector.zipWith (· - ·) random change
  left_inv random := List.Vector.ext fun j => by
    rw [List.Vector.zipWith_get, List.Vector.zipWith_get, add_sub_cancel_right]
  right_inv random := List.Vector.ext fun j => by
    rw [List.Vector.zipWith_get, List.Vector.zipWith_get, sub_add_cancel]

variable {plan : P} {coalition : Finset Nat} {secret secret' : R}

/-- A concealed change of the secret comes with a bijection of the random elements. -/
theorem Conceals.exists_perm {change : List R}
    (h : Conceals plan coalition secret secret' change) :
    ∃ e : Equiv.Perm (Randomness plan), ∀ random,
      view plan coalition secret' (e random) = view plan coalition secret random := by
  refine ⟨translation ⟨change, h.length⟩, fun random => funext fun i => ?_⟩
  exact h.deal random.toList random.toList_length i i.2

omit [CodedRing R] [LawfulRing R] in
/-- Every view comes from equally many random elements if a bijection relates them. -/
theorem card_view_eq {e : Equiv.Perm (Randomness plan)} (he : ∀ random,
    view plan coalition secret' (e random) = view plan coalition secret random)
    (seen : coalition → Option S) :
    Nat.card {random // view plan coalition secret random = seen} =
      Nat.card {random // view plan coalition secret' random = seen} :=
  Nat.card_congr (e.subtypeEquiv fun random => by rw [he])

end DealingPlan

section Additive

variable {R : Type} [CodedRing R] [LawfulRing R]

theorem additiveParts_eq (value : R) (random : List R) :
    additiveParts value random = (value - random.sum) :: random := by
  have hsum := sum_additiveParts value random
  rw [additiveParts, List.sum_cons] at hsum
  rw [additiveParts, eq_sub_of_add_eq hsum]

/-- Adding zero somewhere. -/
private theorem getElem?_zipWith_add {random change : List R} {i : Nat}
    (hlength : random.length = change.length) (hzero : i < change.length → change[i]? = some 0) :
    (List.zipWith (· + ·) random change)[i]? = random[i]? := by
  rcases Nat.lt_or_ge i change.length with hi | hi
  · rw [List.getElem?_zipWith, hzero hi, List.getElem?_eq_getElem (hi.trans_eq hlength.symm)]
    exact congrArg some (add_zero _)
  · rw [List.getElem?_eq_none (by simpa [hlength] using hi),
      List.getElem?_eq_none (hlength.trans_le hi)]

/-- Another value can be split such that a single part differs, whichever that is to be. -/
theorem exists_change (value value' : R) {k hidden : Nat} (hhidden : hidden ≤ k) :
    ∃ change : List R, change.length = k ∧ ∀ random : List R, random.length = k →
      ∀ i, i ≠ hidden → (additiveParts value' (List.zipWith (· + ·) random change))[i]? =
        (additiveParts value random)[i]? := by
  cases hidden with
  | zero =>
    -- the remainder takes up the difference
    refine ⟨List.replicate k 0, List.length_replicate, fun random hrandom i hi => ?_⟩
    obtain ⟨i, rfl⟩ := Nat.exists_eq_succ_of_ne_zero hi
    rw [additiveParts, additiveParts, List.getElem?_cons_succ, List.getElem?_cons_succ]
    refine getElem?_zipWith_add (by rw [hrandom, List.length_replicate]) fun hlt => ?_
    rw [List.length_replicate] at hlt
    rw [List.getElem?_replicate, if_pos hlt]
  | succ hidden =>
    let change := (List.replicate k (0 : R)).set hidden (value' - value)
    have hlength : change.length = k := by rw [List.length_set, List.length_replicate]
    have hsum : change.sum = value' - value := by
      rw [List.sum_set, List.length_replicate, if_pos (Nat.lt_of_succ_le hhidden)]
      simp
    refine ⟨change, hlength, fun random hrandom i hi => ?_⟩
    replace hrandom := hrandom.trans hlength.symm
    rw [additiveParts_eq, additiveParts_eq,
      ← List.sum_add_sum_eq_sum_zipWith_of_length_eq _ _ hrandom, hsum]
    cases i with
    | zero =>
      rw [List.getElem?_cons_zero, List.getElem?_cons_zero]
      congr 1
      ring
    | succ i =>
      rw [List.getElem?_cons_succ, List.getElem?_cons_succ]
      refine getElem?_zipWith_add hrandom fun hlt => ?_
      rw [List.getElem?_set_ne fun heq => hi (congrArg _ heq.symm), List.getElem?_replicate,
        if_pos (hlt.trans_eq hlength)]

/-- The parts of a value and of its authentication code that belong to an absent party hide both. -/
theorem MacPlan.exists_conceals {p : MacPlan R} {coalition : Finset Nat}
    (h : coalition.card < p.keyShares.length) (secret secret' : R) :
    ∃ change, DealingPlan.Conceals p coalition secret secret' change := by
  obtain ⟨hidden, hparty, habsent⟩ : ∃ i ∈ Finset.range p.keyShares.length, i ∉ coalition :=
    Finset.exists_mem_notMem_of_card_lt_card (h.trans_eq (Finset.card_range _).symm)
  have hhidden : hidden ≤ p.keyShares.length - 1 := Nat.le_sub_one_of_lt (Finset.mem_range.1 hparty)
  obtain ⟨values, hvalues, hparts⟩ := exists_change secret secret' hhidden
  obtain ⟨macs, hmacs, hcodes⟩ := exists_change (secret * p.key) (secret' * p.key) hhidden
  refine ⟨values ++ macs, ?_, fun random hrandom i hi => ?_⟩
  · rw [List.length_append, hvalues, hmacs]
    exact (Nat.two_mul _).symm
  · replace hrandom : random.length = 2 * (p.keyShares.length - 1) := hrandom
    have hne : i ≠ hidden := fun heq => habsent (heq ▸ hi)
    change (List.zipWith MacShare.mk (additiveParts secret' _) (additiveParts _ _))[i]? =
      (List.zipWith MacShare.mk (additiveParts secret _) (additiveParts _ _))[i]?
    rw [List.take_zipWith, List.drop_zipWith, List.take_left' hvalues, List.drop_left' hvalues,
      List.getElem?_zipWith, List.getElem?_zipWith,
      hparts _ (by rw [List.length_take]; omega) i hne,
      hcodes _ (by rw [List.length_drop]; omega) i hne]

/-- The part that a party does not hold hides the value from it. -/
theorem ReplicatedPlan.exists_conceals (p : ReplicatedPlan R) {coalition : Finset Nat}
    (h : coalition.card ≤ 1) (secret secret' : R) :
    ∃ change, DealingPlan.Conceals p coalition secret secret' change := by
  obtain ⟨party, hparty⟩ := Finset.card_le_one_iff_subset_singleton.1 h
  have hhidden : (party + 2) % 3 ≤ 2 := by omega
  obtain ⟨change, hchange, hparts⟩ := exists_change secret secret' hhidden
  refine ⟨change, hchange, fun random hrandom i hi => ?_⟩
  obtain rfl := Finset.mem_singleton.1 (hparty hi)
  change (ReplicatedPlan.deal secret' _)[i]? = (ReplicatedPlan.deal secret _)[i]?
  simp only [ReplicatedPlan.deal, replicatedParties, List.getD_eq_getElem?_getD, List.getElem?_map]
  rcases Nat.lt_or_ge i 3 with hlt | hge
  · have hown : i ≠ (i + 2) % 3 := by omega
    have hnext : (i + 1) % 3 ≠ (i + 2) % 3 := by omega
    rw [List.getElem?_range hlt, Option.map_some, Option.map_some, hparts random hrandom i hown,
      hparts random hrandom _ hnext]
  · rw [List.getElem?_eq_none (by simpa using hge)]
    rfl

end Additive

section Words

/-- A field in which no word stands for zero but zero itself, unless it reaches the number of
elements. -/
class FaithfulWords (F : Type) [CodedField F] : Prop where
  ofWord_ne_zero : ∀ w : UInt64, w ≠ 0 → w.toNat < Nat.card F → (CodedRing.ofWord w : F) ≠ 0

instance : FaithfulWords Mersenne61 where
  ofWord_ne_zero w hw hsmall hzero := by
    have hval : w.toNat % (2 ^ 61 - 1) = 0 := congrArg Mersenne.val hzero
    rw [Nat.mod_eq_of_lt (hsmall.trans_eq (Mersenne.card 61))] at hval
    exact hw (UInt64.toNat_inj.1 hval)

instance : FaithfulWords Mersenne127 where
  ofWord_ne_zero w hw hsmall hzero := by
    have hval : w.toNat % (2 ^ 127 - 1) = 0 := congrArg Mersenne.val hzero
    rw [Nat.mod_eq_of_lt (hsmall.trans_eq (Mersenne.card 127))] at hval
    exact hw (UInt64.toNat_inj.1 hval)

instance : FaithfulWords Binary64 where
  ofWord_ne_zero _ hw _ hzero := hw (congrArg Binary64.word hzero)

end Words

section Threshold

variable {F : Type} [CodedField F]

/-- The points of the parties are not zero if the parties are fewer than the elements. -/
theorem partyPoint_ne_zero [FaithfulWords F] {n : Nat} (hsize : n < Nat.card F)
    (hword : isWord n = true) {i : Nat} (hi : i < n) : (partyPoint i : F) ≠ 0 := by
  have htoNat := toNat_point hword hi
  refine FaithfulWords.ofWord_ne_zero _ (fun hzero => ?_) ?_
  · rw [hzero] at htoNat
    exact absurd htoNat (Nat.succ_ne_zero i).symm
  · rw [htoNat]
    exact Nat.lt_of_le_of_lt hi hsize

variable [LawfulField F]

theorem evaluate_zipWith_add {cs ds : List F} (h : cs.length = ds.length) (x : F) :
    evaluate (List.zipWith (· + ·) cs ds) x = evaluate cs x + evaluate ds x := by
  induction cs generalizing ds with
  | nil =>
    obtain rfl := List.length_eq_zero_iff.1 h.symm
    exact (add_zero 0).symm
  | cons c cs ih =>
    cases ds with
    | nil => cases h
    | cons d ds =>
      change evaluate (List.zipWith (· + ·) cs ds) x * x + (c + d) =
        evaluate cs x * x + c + (evaluate ds x * x + d)
      rw [ih (Nat.succ.inj h)]
      ring

theorem coeff_polynomialOf (cs : List F) (j : Nat) :
    (polynomialOf cs).coeff j = cs.getD j 0 := by
  induction cs generalizing j with
  | nil => exact coeff_zero j
  | cons c cs ih =>
    cases j with
    | zero => exact coeff_zero_polynomialOf c cs
    | succ j =>
      change (polynomialOf cs * X + C c).coeff (j + 1) = cs.getD j 0
      rw [coeff_add, coeff_mul_X, coeff_C_succ, add_zero, ih]

/-- A polynomial of small degree is given by its coefficients. -/
theorem polynomialOf_coeff {f : F[X]} {k : Nat} (hf : f ∈ degreeLT F k) :
    polynomialOf ((List.range k).map f.coeff) = f := by
  refine Polynomial.ext fun j => ?_
  rw [coeff_polynomialOf, List.getD_eq_getElem?_getD, List.getElem?_map]
  rcases Nat.lt_or_ge j k with hj | hj
  · rw [List.getElem?_range hj]
    rfl
  · rw [List.getElem?_eq_none (by simpa using hj)]
    exact (coeff_eq_zero_of_degree_lt ((mem_degreeLT.1 hf).trans_le (by exact_mod_cast hj))).symm

/-- There is a polynomial with any constant term that vanishes at given points, if zero is none of
them. Its degree is the number of the points. -/
private theorem exists_vanishing {points : Finset Nat}
    (hpoints : ∀ i ∈ points, (partyPoint i : F) ≠ 0) (v : F) : ∃ f ∈ degreeLT F (points.card + 1), f.coeff 0 = v ∧
      ∀ i ∈ points, f.eval (partyPoint i) = 0 := by
  let nodal : F[X] := Lagrange.nodal points partyPoint
  have hzero : nodal.eval 0 ≠ 0 :=
    Lagrange.eval_nodal_not_at_node fun i hi => (hpoints i hi).symm
  have hdegree : nodal ∈ degreeLT F (points.card + 1) := by
    rw [mem_degreeLT, Lagrange.degree_nodal]
    exact_mod_cast Nat.lt_succ_self _
  refine ⟨(v / nodal.eval 0) • nodal, Submodule.smul_mem _ _ hdegree, ?_, fun i hi => ?_⟩
  · rw [coeff_zero_eq_eval_zero, eval_smul, smul_eq_mul, div_mul_cancel₀ v hzero]
  · rw [eval_smul, Lagrange.eval_nodal_at_node hi, smul_zero]

/-- A polynomial that vanishes at the points of a coalition hides the constant term from it. -/
theorem ThresholdPlan.exists_conceals [FaithfulWords F] {p : ThresholdPlan F}
    (hsize : p.parties < Nat.card F) (hword : isWord p.parties = true) {coalition : Finset Nat}
    (h : coalition.card ≤ p.threshold) (secret secret' : F) :
    ∃ change, DealingPlan.Conceals p coalition secret secret' change := by
  let members := coalition.filter (· < p.parties)
  have hmembers : members.card ≤ p.threshold := (Finset.card_filter_le _ _).trans h
  have hpoints : ∀ i ∈ members, (partyPoint i : F) ≠ 0 := fun i hi =>
    partyPoint_ne_zero hsize hword (Finset.mem_filter.1 hi).2
  obtain ⟨f, hf, hconstant, hvanish⟩ := exists_vanishing hpoints (secret' - secret)
  let change := (List.range p.threshold).map fun j => f.coeff (j + 1)
  have hchange (x : F) : evaluate ((secret' - secret) :: change) x = f.eval x := by
    rw [← hconstant, ← eval_polynomialOf]
    have hcoeff : f.coeff 0 :: change = (List.range (p.threshold + 1)).map f.coeff := by
      rw [List.range_succ_eq_map, List.map_cons, List.map_map]
      rfl
    rw [hcoeff, polynomialOf_coeff (degreeLT_mono (Nat.succ_le_succ hmembers) hf)]
  have hlength : change.length = p.threshold := by rw [List.length_map, List.length_range]
  refine ⟨change, hlength, fun random hrandom i hi => ?_⟩
  replace hrandom : random.length = p.threshold := hrandom
  change ((List.range p.parties).map _)[i]? = ((List.range p.parties).map _)[i]?
  rw [List.getElem?_map, List.getElem?_map]
  rcases Nat.lt_or_ge i p.parties with hlt | hge
  · have hsum : evaluate (secret' :: List.zipWith (· + ·) random change) (partyPoint i) =
        evaluate (secret :: random) (partyPoint i) := by
      calc evaluate (secret' :: List.zipWith (· + ·) random change) (partyPoint i)
          = evaluate (List.zipWith (· + ·) (secret :: random) ((secret' - secret) :: change))
              (partyPoint i) := by rw [List.zipWith_cons_cons, add_sub_cancel]
        _ = evaluate (secret :: random) (partyPoint i) + f.eval (partyPoint i) := by
          rw [evaluate_zipWith_add (congrArg (· + 1) (hrandom.trans hlength.symm)), hchange]
        _ = evaluate (secret :: random) (partyPoint i) := by
          rw [hvanish i (Finset.mem_filter.2 ⟨hi, hlt⟩), add_zero]
    rw [List.getElem?_range hlt, Option.map_some, Option.map_some, hsum]
  · rw [List.getElem?_eq_none (by simpa using hge)]
    rfl

end Threshold

/-- The coalitions that are too small to learn what is shared: fewer than all parties of an
authenticated sharing, a single party of a replicated one, and no more parties of a threshold sharing
than its degree. The parties of a threshold sharing are fewer than the elements of the field. -/
inductive Suite.TooFew : (X : Suite) → X.P → Finset Nat → Prop where
  | authenticated (F : Type) [CodedField F] [LawfulField F] {p : MacPlan F} {coalition : Finset Nat}
      (h : coalition.card < p.keyShares.length) : TooFew (.authenticated F) p coalition
  | replicated (R : Type) [CodedRing R] [LawfulRing R] (p : ReplicatedPlan R)
      {coalition : Finset Nat} (h : coalition.card ≤ 1) : TooFew (.replicated R) p coalition
  | threshold (F : Type) [CodedField F] [LawfulField F] [FaithfulWords F] {p : ThresholdPlan F}
      (hsize : p.parties < Nat.card F) (hword : isWord p.parties = true) {coalition : Finset Nat}
      (h : coalition.card ≤ p.threshold) : TooFew (.threshold F) p coalition

namespace Suite.TooFew

variable {X : Suite} {plan : X.P} {coalition : Finset Nat}

/-- No change of the secret shows in the shares of too few parties. -/
theorem exists_conceals (h : X.TooFew plan coalition) (secret secret' : X.R) :
    LawfulRing X.R ∧ ∃ change, DealingPlan.Conceals plan coalition secret secret' change := by
  cases h with
  | authenticated F h =>
    exact ⟨inferInstanceAs (LawfulRing F), MacPlan.exists_conceals h secret secret'⟩
  | replicated R p h =>
    exact ⟨inferInstanceAs (LawfulRing R), p.exists_conceals h secret secret'⟩
  | threshold F hsize hword h =>
    exact ⟨inferInstanceAs (LawfulRing F),
      ThresholdPlan.exists_conceals hsize hword h secret secret'⟩

open DealingPlan in
/-- Too few parties see the same of all secrets: for any two of them there is a bijection of the
random elements under which the coalition gets the same shares of both. So each view comes from
equally many random elements, whatever the secret is. -/
theorem same_view (h : X.TooFew plan coalition) (secret secret' : X.R) :
    (∃ e : Equiv.Perm (Randomness plan), ∀ random,
      view plan coalition secret' (e random) = view plan coalition secret random) ∧
    ∀ seen : coalition → Option X.S,
      Nat.card {random // view plan coalition secret random = seen} =
        Nat.card {random // view plan coalition secret' random = seen} := by
  obtain ⟨_, change, hchange⟩ := h.exists_conceals secret secret'
  obtain ⟨e, he⟩ := hchange.exists_perm
  exact ⟨⟨e, he⟩, card_view_eq he⟩

/-- The middle one of three parties who share with degree one. -/
theorem same_view_threeParties :
    let p : ThresholdPlan Mersenne61 := ⟨3, 1, by decide⟩
    (3 < Nat.card Mersenne61 ∧ isWord 3 = true ∧ ({1} : Finset Nat).card ≤ 1) ∧
      ∃ e : Equiv.Perm (DealingPlan.Randomness p), ∀ random,
        DealingPlan.view p {1} (CodedRing.ofWord 7) (e random) =
          DealingPlan.view p {1} (CodedRing.ofWord 5) random := by
  intro p
  have hsize : 3 < Nat.card Mersenne61 := by
    rw [Mersenne.card]
    norm_num
  have hfew : (Suite.threshold Mersenne61).TooFew p {1} :=
    .threshold Mersenne61 hsize (by decide) (by decide)
  exact ⟨⟨hsize, by decide, by decide⟩, (hfew.same_view _ _).1⟩

end Suite.TooFew

end Multiparty
