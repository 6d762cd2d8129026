import Mathlib
import Multiparty.Proofs.Ring.BinaryPolynomial
import Multiparty.Proofs.Ring.Word

/-!
# The binary domain is a field

The residue classes modulo `X ^ 64 + X ^ 4 + X ^ 3 + X + 1` interpret the elements, one to one. The
modulus is irreducible: an irreducible factor of degree at most 32 would give the indeterminate a
period dividing 32 under squaring, and a computation shows that it has none.

## Main definitions

* `Binary64.toQuotient`: the residue class of an element.

## Main results

* `Binary64.irreducible_modulus`: the modulus is irreducible.
* The instance of `LawfulField` for `Binary64`.
-/

open Polynomial

namespace Multiparty

namespace Binary64

theorem degree_modulus : modulus.degree = 64 := by
  unfold modulus
  compute_degree!

theorem monic_modulus : modulus.Monic := by
  unfold modulus
  monicity!

/-- There is only one polynomial of small degree in a residue class. -/
theorem eq_of_modulus_dvd_sub {f g : (ZMod 2)[X]} (hf : f.degree < 64) (hg : g.degree < 64)
    (h : modulus ∣ f - g) : f = g := by
  have hlt : (f - g).degree < modulus.degree := by
    rw [degree_modulus]
    exact (degree_sub_le _ _).trans_lt (max_lt hf hg)
  exact sub_eq_zero.1 (eq_zero_of_dvd_of_degree_lt h hlt)

/-- The residue class of an element. -/
noncomputable def toQuotient (x : Binary64) : AdjoinRoot modulus :=
  AdjoinRoot.mk modulus x.toPolynomial

theorem toQuotient_injective : Function.Injective toQuotient := by
  intro x y h
  have hdvd : modulus ∣ x.toPolynomial - y.toPolynomial := AdjoinRoot.mk_eq_mk.1 h
  exact toPolynomial_injective
    (eq_of_modulus_dvd_sub x.degree_toPolynomial_lt y.degree_toPolynomial_lt hdvd)

theorem toQuotient_add (x y : Binary64) : (x + y).toQuotient = x.toQuotient + y.toQuotient := by
  have h : (x + y).toPolynomial = x.toPolynomial + y.toPolynomial := by
    change bitPolynomial (x.word ^^^ y.word).toNat = _
    rw [UInt64.toNat_xor, bitPolynomial_xor, toPolynomial, toPolynomial]
  rw [toQuotient, h, map_add, toQuotient, toQuotient]

theorem toQuotient_mul (x y : Binary64) : (x * y).toQuotient = x.toQuotient * y.toQuotient := by
  rw [toQuotient, toQuotient, toQuotient, ← map_mul]
  exact (AdjoinRoot.mk_eq_mk.2 (modulus_dvd_mul x y)).symm

theorem toQuotient_zero : (0 : Binary64).toQuotient = 0 := by
  have h : (0 : Binary64).toPolynomial = 0 := bitPolynomial_zero
  rw [toQuotient, h, map_zero]

theorem toQuotient_one : (1 : Binary64).toQuotient = 1 := by
  have h : (1 : Binary64).toPolynomial = 1 := bitPolynomial_one
  rw [toQuotient, h, map_one]

/-! ### Irreducibility -/

theorem toQuotient_X : toQuotient ⟨2⟩ = AdjoinRoot.root modulus := by
  have h : toPolynomial ⟨2⟩ = X := by
    change bitPolynomial (1 <<< 1) = X
    rw [bitPolynomial_shiftLeft, bitPolynomial_one, one_mul, pow_one]
  rw [toQuotient, h, AdjoinRoot.mk_X]

/-- Squaring `n` times. -/
def squareTimes (n : Nat) (x : Binary64) : Binary64 := (fun y => mul y y)^[n] x

private theorem toQuotient_squareTimes (n : Nat) (x : Binary64) :
    (squareTimes n x).toQuotient = (· ^ 2)^[n] x.toQuotient := by
  have h : Function.Semiconj toQuotient (fun y => mul y y) (· ^ 2) := fun y =>
    (toQuotient_mul y y).trans (pow_two _).symm
  exact h.iterate_right n x

/-- The indeterminate has period dividing 64 under squaring. -/
theorem squareTimes_64 : squareTimes 64 ⟨2⟩ = ⟨2⟩ := by decide +kernel

/-- The indeterminate has no period dividing 32 under squaring, not even modulo a factor of the
modulus: the difference has an inverse. -/
theorem squareTimes_32_add_mul :
    mul (squareTimes 32 ⟨2⟩ + ⟨2⟩) ⟨6037868468195985863⟩ = 1 := by decide +kernel

/-- In a finite field with `2 ^ d` elements a period `n` under squaring gives every period that
`d` and `n` together force. -/
private theorem square_period {K : Type} [Field K] [Finite K] {d n m : Nat}
    (hcard : Nat.card K = 2 ^ d) (hm : d.gcd n ∣ m) {b : K} (hn : (· ^ 2)^[n] b = b) :
    (· ^ 2)^[m] b = b := by
  have := Fintype.ofFinite K
  have hd : Function.IsPeriodicPt (· ^ 2) d b := by
    change (· ^ 2)^[d] b = b
    rw [pow_iterate, ← hcard, Nat.card_eq_fintype_card]
    exact FiniteField.pow_card b
  exact (hd.gcd hn).trans_dvd hm

private theorem finite_adjoinRoot {r : (ZMod 2)[X]} (hr : r.Monic) : Finite (AdjoinRoot r) := by
  have : Module.Finite (ZMod 2) (AdjoinRoot r) := hr.finite_adjoinRoot
  exact Module.finite_of_finite (ZMod 2)

private theorem card_adjoinRoot {r : (ZMod 2)[X]} (hr : r.Monic) :
    Nat.card (AdjoinRoot r) = 2 ^ r.natDegree := by
  have : Module.Finite (ZMod 2) (AdjoinRoot r) := hr.finite_adjoinRoot
  have h := Module.natCard_eq_pow_finrank (K := ZMod 2) (V := AdjoinRoot r)
  rwa [Nat.card_zmod, (AdjoinRoot.powerBasis hr.ne_zero).finrank, AdjoinRoot.powerBasis_dim] at h

private theorem gcd_dvd_32 {d : Nat} (hpos : 0 < d) (hd : d ≤ 32) : d.gcd 64 ∣ 32 := by
  obtain ⟨k, -, hkeq⟩ := (Nat.dvd_prime_pow Nat.prime_two).1 (Nat.gcd_dvd_right d (2 ^ 6))
  have hle : d.gcd (2 ^ 6) ≤ 2 ^ 5 := (Nat.gcd_le_left _ hpos).trans hd
  rw [hkeq] at hle
  have hk5 : k ≤ 5 := (Nat.pow_le_pow_iff_right (by omega)).1 hle
  change d.gcd (2 ^ 6) ∣ 2 ^ 5
  rw [hkeq]
  exact pow_dvd_pow 2 hk5

/-- An irreducible factor of the modulus has a degree above 32: otherwise the indeterminate would
have a period dividing 32 under squaring modulo the factor. -/
private theorem natDegree_factor {r : (ZMod 2)[X]} (hr : r.Monic) (hirr : Irreducible r)
    (hdvd : r ∣ modulus) : 32 < r.natDegree := by
  by_contra! hrdeg
  have : Fact (Irreducible r) := ⟨hirr⟩
  have := finite_adjoinRoot hr
  have hroot : modulus.eval₂ (AdjoinRoot.of r) (AdjoinRoot.root r) = 0 := by
    obtain ⟨c, hc⟩ := hdvd
    rw [hc, eval₂_mul, AdjoinRoot.eval₂_root, zero_mul]
  let σ := AdjoinRoot.lift (AdjoinRoot.of r) (AdjoinRoot.root r) hroot
  have hσ : σ (AdjoinRoot.root modulus) = AdjoinRoot.root r := AdjoinRoot.lift_root hroot
  have hiter (n : Nat) : σ (squareTimes n ⟨2⟩).toQuotient = (· ^ 2)^[n] (AdjoinRoot.root r) := by
    have h : Function.Semiconj σ (· ^ 2) (· ^ 2) := fun x => map_pow σ x 2
    rw [toQuotient_squareTimes, toQuotient_X, h.iterate_right n, hσ]
  have h64 : (· ^ 2)^[64] (AdjoinRoot.root r) = AdjoinRoot.root r := by
    rw [← hiter, squareTimes_64, toQuotient_X, hσ]
  have h32 := square_period (card_adjoinRoot hr) (gcd_dvd_32 hirr.natDegree_pos hrdeg) h64
  have htwo : AdjoinRoot.root r + AdjoinRoot.root r = 0 := by
    have h2 : (2 : AdjoinRoot r) = 0 := by
      rw [← map_ofNat (AdjoinRoot.of r) 2, show (2 : ZMod 2) = 0 from rfl, map_zero]
    rw [← two_mul, h2, zero_mul]
  -- so the unit that `squareTimes_32_add_mul` exhibits would be zero
  have hone := congrArg (fun x => σ (toQuotient x)) squareTimes_32_add_mul
  have hmul := toQuotient_mul (squareTimes 32 ⟨2⟩ + ⟨2⟩) ⟨6037868468195985863⟩
  change σ (toQuotient ((squareTimes 32 ⟨2⟩ + ⟨2⟩) * ⟨6037868468195985863⟩)) = σ (toQuotient 1)
    at hone
  rw [hmul, toQuotient_add, map_mul, map_add, hiter, h32, toQuotient_X, hσ, htwo, zero_mul,
    toQuotient_one, map_one] at hone
  exact zero_ne_one hone

theorem natDegree_modulus : modulus.natDegree = 64 := natDegree_eq_of_degree_eq_some degree_modulus

theorem irreducible_modulus : Irreducible modulus := by
  have hne : modulus ≠ 1 := by
    intro h
    have hdeg := natDegree_modulus
    rw [h, natDegree_one] at hdeg
    omega
  rw [monic_modulus.irreducible_iff_lt_natDegree_lt hne]
  intro q hq hqdeg hqdvd
  obtain ⟨hqpos, hqdeg⟩ := Finset.mem_Ioc.1 hqdeg
  have hqunit : ¬IsUnit q := fun h => by
    rw [hq.isUnit_iff.1 h, natDegree_one] at hqpos
    omega
  obtain ⟨r, hr, hirr, hrdvd⟩ := exists_monic_irreducible_factor q hqunit
  have hrdeg := natDegree_factor hr hirr (hrdvd.trans hqdvd)
  have hle := natDegree_le_of_dvd hrdvd hq.ne_zero
  have hmod := natDegree_modulus
  omega

/-! ### Laws -/

instance : Fact (Irreducible modulus) := ⟨irreducible_modulus⟩

/-- In a field with `2 ^ d` elements the inverse is a power. -/
private theorem mul_pow_eq_one {K : Type} [Field K] [Finite K] {d : Nat} (hd : 1 ≤ d)
    (hcard : Nat.card K = 2 ^ d) {a : K} (ha : a ≠ 0) : a * a ^ (2 ^ d - 2) = 1 := by
  have := Fintype.ofFinite K
  have hpow : 2 ^ 1 ≤ 2 ^ d := Nat.pow_le_pow_right (by omega) hd
  have hexp : 2 ^ d - 2 + 1 = Fintype.card K - 1 := by
    rw [← Nat.card_eq_fintype_card, hcard]
    omega
  rw [← pow_succ', hexp, FiniteField.pow_card_sub_one_eq_one a ha]

theorem exists_inv? {x : Binary64} (hx : x ≠ 0) : ∃ y, inv? x = some y ∧ x * y = 1 := by
  have hword : x.word ≠ 0 := fun h => hx (congrArg mk h)
  have hne : x.toQuotient ≠ 0 := fun h => hx (toQuotient_injective (h.trans toQuotient_zero.symm))
  have := finite_adjoinRoot monic_modulus
  have hcard : Nat.card (AdjoinRoot modulus) = 2 ^ 64 := by
    rw [card_adjoinRoot monic_modulus, natDegree_modulus]
  refine ⟨power x (2 ^ 64 - 2), by rw [inv?, if_neg hword], toQuotient_injective ?_⟩
  rw [toQuotient_mul, map_power toQuotient toQuotient_mul toQuotient_one, toQuotient_one]
  exact mul_pow_eq_one (by omega) hcard hne

/-- There are as many elements as words. -/
theorem card : Nat.card Binary64 = 2 ^ 64 := by
  let words : Binary64 ≃ Fin (2 ^ 64) :=
    ⟨fun x => x.word.toFin, fun i => ⟨.ofFin i⟩, fun _ => rfl, fun _ => rfl⟩
  rw [Nat.card_congr words, Nat.card_fin]

/-- An element is its own negative. -/
theorem add_self (x : Binary64) : x + x = 0 := congrArg mk (UInt64.xor_self)

/-- Reading accepts exactly what writing produces. -/
theorem ofBytes?_eq_some_iff (b : Bytes) (x : Binary64) :
    ofBytes? b = some x ↔ Bytes.ofUInt64 x.word = b := by
  constructor
  · intro h
    rw [ofBytes?] at h
    split_ifs at h with hlen
    have hx : (⟨b.toUInt64⟩ : Binary64) = x := Option.some.inj h
    rw [← hx, Bytes.ofUInt64_toUInt64 b hlen]
  · rintro rfl
    rw [ofBytes?, if_pos (Bytes.length_ofUInt64 _), Bytes.toUInt64_ofUInt64]

end Binary64

open Binary64 in
instance : LawfulField Binary64 where
  add_assoc x y z := toQuotient_injective (by simp only [toQuotient_add, add_assoc])
  add_comm x y := toQuotient_injective (by simp only [toQuotient_add, add_comm])
  zero_add x := toQuotient_injective (by rw [toQuotient_add, toQuotient_zero, zero_add])
  neg_add_cancel := Binary64.add_self
  sub_eq_add_neg _ _ := rfl
  mul_assoc x y z := toQuotient_injective (by simp only [toQuotient_mul, mul_assoc])
  mul_comm x y := toQuotient_injective (by simp only [toQuotient_mul, mul_comm])
  one_mul x := toQuotient_injective (by rw [toQuotient_mul, toQuotient_one, one_mul])
  mul_add x y z := toQuotient_injective (by simp only [toQuotient_mul, toQuotient_add, mul_add])
  width_pos := by decide
  length_toBytes x := Bytes.length_ofUInt64 x.word
  ofBytes?_eq_some_iff := Binary64.ofBytes?_eq_some_iff
  zero_ne_one := by decide
  inv?_zero := rfl
  exists_inv? _ := Binary64.exists_inv?

end Multiparty
