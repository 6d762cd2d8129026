import Mathlib
import Multiparty.Proofs.Ring.BinaryField

/-!
# Products, powers and inverses in the binary domain

The reduction of a product clears one bit in each round. What stands at or above the bit is never
more than one digit then, because the rounds before have cleared everything else. So the multiple of
the modulus that a round adds is the modulus or nothing, and it fits into 128 bits. What is left in
the end is the remainder of the product of polynomials, and the inverse of an element is a power of
it.

## Main definitions

* `Binary64.rounds`: the rounds of a reduction.
* `Binary64.RoundFits`: a round that stays within 128 bits.

## Main results

* `Binary64.roundFits_of_mem`: every round of a reduction stays within 128 bits.
* `Binary64.mul_is_remainder`: products are remainders, and form a commutative ring.
* `Binary64.inverse_is_power`: powers, inverses, and that there are no zero divisors.
-/

open Polynomial

namespace Multiparty

namespace Binary64

/-! ### The rounds of the reduction -/

/-- The rounds of a reduction, highest bit first: which bit `64 + i` a round clears, and the product
with which it begins. -/
def rounds : (steps : Nat) → Wide → List (Nat × Wide)
  | 0, _ => []
  | i + 1, p => (i, p) :: rounds i (clearBit p i)

/-- There is one round for each bit. -/
theorem map_fst_rounds (steps : Nat) (p : Wide) :
    (rounds steps p).map Prod.fst = (List.range steps).reverse := by
  induction steps generalizing p with
  | zero => rfl
  | succ i ih => rw [rounds, List.map_cons, ih, List.range_succ, List.reverse_concat]

/-- From each round the reduction goes on to the same end. -/
theorem reduceFrom_of_mem_rounds {steps i : Nat} {p q : Wide} (h : (i, q) ∈ rounds steps p) :
    reduceFrom (i + 1) q = reduceFrom steps p := by
  induction steps generalizing p with
  | zero => cases h
  | succ j ih =>
    rcases List.mem_cons.1 h with heq | h
    · obtain ⟨rfl, rfl⟩ := Prod.mk.inj heq
      rfl
    · rw [reduceFrom_succ j p]
      exact ih h

/-- A round that clears bit `64 + i` within 128 bits. -/
structure RoundFits (i : Nat) (p : Wide) : Prop where
  /-- What stands at or above the bit is zero or one. -/
  digit : p.toNat >>> (64 + i) = 0 ∨ p.toNat >>> (64 + i) = 1
  /-- The modulus times this, shifted, has no bit beyond the last. -/
  fits : (0x1000000000000001B * (p.toNat >>> (64 + i))) <<< i < 2 ^ 128
  /-- This is what the round adds. -/
  next : (clearBit p i).toNat =
    p.toNat ^^^ (0x1000000000000001B * (p.toNat >>> (64 + i))) <<< i

private theorem shifted_modulus_lt {i : Nat} (hi : i < 63) :
    0x1000000000000001B <<< i < 2 ^ 128 := by
  calc 0x1000000000000001B <<< i = 0x1000000000000001B * 2 ^ i := Nat.shiftLeft_eq ..
    _ < 2 ^ 65 * 2 ^ i := Nat.mul_lt_mul_of_pos_right (by norm_num) (Nat.two_pow_pos i)
    _ = 2 ^ (65 + i) := (pow_add ..).symm
    _ ≤ 2 ^ 128 := Nat.pow_le_pow_right (by omega) (by omega)

/-- A round stays within 128 bits if the rounds before have cleared all higher bits. -/
theorem roundFits {p : Wide} {i : Nat} (hi : i < 63) (hp : p.toNat < 2 ^ (64 + (i + 1))) :
    RoundFits i p := by
  by_cases hbit : p.toNat < 2 ^ (64 + i)
  · have hdigit : p.toNat >>> (64 + i) = 0 := by
      rw [Nat.shiftRight_eq_div_pow, Nat.div_eq_of_lt hbit]
    refine ⟨.inl hdigit, ?_, ?_⟩
    · rw [hdigit, Nat.mul_zero, Nat.zero_shiftLeft]
      exact Nat.two_pow_pos 128
    · rw [hdigit, Nat.mul_zero, Nat.zero_shiftLeft, Nat.xor_zero, clearBit_of_lt hi hbit]
  · have hdigit : p.toNat >>> (64 + i) = 1 := by
      rw [Nat.shiftRight_eq_div_pow]
      exact Nat.div_eq_of_lt_le (by omega) (by rw [← add_assoc, pow_succ] at hp; omega)
    refine ⟨.inr hdigit, ?_, ?_⟩
    · rw [hdigit, Nat.mul_one]
      exact shifted_modulus_lt hi
    · rw [hdigit, Nat.mul_one, toNat_clearBit_of_le hi hp (not_lt.1 hbit)]

/-- Every round of a reduction stays within 128 bits. -/
theorem roundFits_of_mem {steps : Nat} {p : Wide} (hsteps : steps ≤ 63)
    (hp : p.toNat < 2 ^ (64 + steps)) : ∀ r ∈ rounds steps p, RoundFits r.1 r.2 := by
  induction steps generalizing p with
  | zero => exact fun r hr => (by cases hr)
  | succ i ih =>
    rw [rounds, List.forall_mem_cons]
    exact ⟨roundFits hsteps hp, ih (Nat.le_of_succ_le hsteps) (clearBit_lt hsteps hp)⟩

/-! ### Products -/

/-- The product of two elements is the only polynomial of small degree in the residue class of the
product of their polynomials. -/
private theorem modulus_dvd_sub_iff (x y : Binary64) {f : (ZMod 2)[X]} (hf : f.degree < 64) :
    modulus ∣ x.toPolynomial * y.toPolynomial - f ↔ f = (x * y).toPolynomial := by
  have hproduct := modulus_dvd_mul x y
  constructor
  · intro h
    exact eq_of_modulus_dvd_sub hf (x * y).degree_toPolynomial_lt
      (dvd_sub_trans ((dvd_sub_comm).1 h) hproduct)
  · rintro rfl
    exact hproduct

/-- **Products are remainders.** The product of two words is the only polynomial of degree below 64
that is congruent to the product of their polynomials modulo `X ^ 64 + X ^ 4 + X ^ 3 + X + 1`. The
reduction comes to it in one round for each bit above the low word, from the highest on. Every round
adds the modulus or nothing and stays within 128 bits, and in the end no bit above the low word is
left. With the exclusive or as the sum, the elements form a commutative ring. -/
theorem mul_is_remainder (a b : UInt64) :
    ((⟨a⟩ * ⟨b⟩ : Binary64).toPolynomial.degree < 64 ∧
      ∀ f : (ZMod 2)[X], f.degree < 64 →
        (X ^ 64 + X ^ 4 + X ^ 3 + X + 1 ∣ bitPolynomial a.toNat * bitPolynomial b.toNat - f ↔
          f = (⟨a⟩ * ⟨b⟩ : Binary64).toPolynomial)) ∧
    ((rounds 63 (carryless a b 64)).map Prod.fst = (List.range 63).reverse ∧
      ∀ r ∈ rounds 63 (carryless a b 64), RoundFits r.1 r.2 ∧
        reduceFrom (r.1 + 1) r.2 = reduceFrom 63 (carryless a b 64)) ∧
    (reduceFrom 63 (carryless a b 64)).toNat < 2 ^ 64 ∧
    ∃ ring : CommRing Binary64, (∀ x y, ring.add x y = ⟨x.word ^^^ y.word⟩) ∧
      (∀ x y, ring.mul x y = mul x y) ∧ ring.zero = ⟨0⟩ ∧ ring.one = ⟨1⟩ := by
  have hproduct : (carryless a b 64).toNat < 2 ^ (64 + 63) := Wide.toNat_carryless_lt a b le_rfl
  refine ⟨⟨degree_toPolynomial_lt _, fun f hf => modulus_dvd_sub_iff ⟨a⟩ ⟨b⟩ hf⟩,
    ⟨map_fst_rounds _ _, fun r hr => ⟨roundFits_of_mem le_rfl hproduct r hr,
      reduceFrom_of_mem_rounds hr⟩⟩, (reduceFrom_spec _ le_rfl hproduct).1, ?_⟩
  exact ⟨inferInstance, fun _ _ => rfl, fun _ _ => rfl, rfl, rfl⟩

/-- The indeterminate times its power with exponent 63 has a remainder with four terms. -/
theorem mul_is_remainder_X :
    (toPolynomial ⟨0b11011⟩).degree < 64 ∧
      X ^ 64 + X ^ 4 + X ^ 3 + X + 1 ∣
        bitPolynomial (2 : UInt64).toNat * bitPolynomial (0x8000000000000000 : UInt64).toNat -
          toPolynomial ⟨0b11011⟩ := by
  have hdegree := degree_toPolynomial_lt ⟨0b11011⟩
  have hvalue : (⟨0b11011⟩ : Binary64) = ⟨2⟩ * ⟨0x8000000000000000⟩ := by decide +kernel
  exact ⟨hdegree, ((mul_is_remainder 2 0x8000000000000000).1.2 _ hdegree).2
    (congrArg toPolynomial hvalue)⟩

/-! ### Powers and inverses -/

/-- Repeated squaring multiplies as often as the exponent says. -/
theorem power_eq_prod (x : Binary64) (n : Nat) : power x n = (List.replicate n x).prod := by
  rw [List.prod_replicate]
  exact map_power id (fun _ _ => rfl) rfl x n

/-- **Inverses are powers.** Repeated squaring computes all powers, and exactly the elements that are
not zero have an inverse, so that the elements form a field. In particular there are no zero divisors,
and the modulus is irreducible. -/
theorem inverse_is_power :
    (∀ (x : Binary64) (n : Nat), power x n = (List.replicate n x).prod) ∧
    (∀ x : Binary64, x ≠ 0 → ∃ y, inv? x = some y ∧ x * y = 1) ∧
    inv? 0 = none ∧
    (∃ field : Field Binary64, (∀ x y, field.add x y = ⟨x.word ^^^ y.word⟩) ∧
      (∀ x y, field.mul x y = mul x y) ∧
      ∀ x, inv? x = if x = 0 then none else some (field.inv x)) ∧
    (∀ x y : Binary64, x * y = 0 → x = 0 ∨ y = 0) ∧
    Irreducible (X ^ 64 + X ^ 4 + X ^ 3 + X + 1 : (ZMod 2)[X]) :=
  ⟨power_eq_prod, fun _ => exists_inv?, rfl,
    ⟨inferInstance, fun _ _ => rfl, fun _ _ => rfl, CodedField.inv?_eq⟩,
    fun _ _ => mul_eq_zero.1, irreducible_modulus⟩

/-- The inverse of the indeterminate. -/
theorem inverse_is_power_X :
    (⟨2⟩ : Binary64) ≠ 0 ∧ inv? ⟨2⟩ = some ⟨0x800000000000000D⟩ := by
  have hne : (⟨2⟩ : Binary64) ≠ 0 := by decide
  obtain ⟨y, hy, hinverse⟩ := inverse_is_power.2.1 ⟨2⟩ hne
  have hvalue : (⟨2⟩ : Binary64) * ⟨0x800000000000000D⟩ = 1 := by decide +kernel
  refine ⟨hne, ?_⟩
  rw [hy, mul_left_cancel₀ hne (hinverse.trans hvalue.symm)]

end Binary64

end Multiparty
