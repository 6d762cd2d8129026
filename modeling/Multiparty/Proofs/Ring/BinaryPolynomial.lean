import Mathlib
import Multiparty.Proofs.Ring.Laws
import Multiparty.Ring.Binary

/-!
# The binary domain as polynomials

The bits of a number are the coefficients of a polynomial over the field with two elements. Seen
so, the product of two elements of the binary domain is the remainder of the product of their
polynomials modulo `X ^ 64 + X ^ 4 + X ^ 3 + X + 1`.

## Main definitions

* `bitPolynomial`: the polynomial whose coefficients are the bits of a number.
* `Binary64.toPolynomial`, `Binary64.modulus`.

## Main results

* `Binary64.Wide.toPolynomial_carryless`: the product without carries.
* `Binary64.reduceFrom_spec`: the reduction keeps the residue class.
* `Binary64.modulus_dvd_mul`: the product of two elements.
-/

open Polynomial

namespace Multiparty

/-! ### Bits as coefficients -/

/-- The polynomial whose coefficients are the bits of a number. -/
noncomputable def bitPolynomial (n : Nat) : (ZMod 2)[X] :=
  ∑ i ∈ Finset.range n, monomial i (if n.testBit i then (1 : ZMod 2) else 0)

theorem coeff_bitPolynomial (n i : Nat) :
    (bitPolynomial n).coeff i = if n.testBit i then 1 else 0 := by
  rw [bitPolynomial, finsetSum_coeff]
  simp only [coeff_monomial, Finset.sum_ite_eq', Finset.mem_range]
  split_ifs with hi hbit hbit
  · rfl
  · rfl
  · have hlt : n < 2 ^ i := (Nat.le_of_not_lt hi).trans_lt Nat.lt_two_pow_self
    rw [Nat.testBit_lt_two_pow hlt] at hbit
    cases hbit
  · rfl

@[simp] theorem bitPolynomial_zero : bitPolynomial 0 = 0 := by
  rw [bitPolynomial, Finset.range_zero, Finset.sum_empty]

@[simp] theorem bitPolynomial_one : bitPolynomial 1 = 1 := by
  rw [bitPolynomial, Finset.sum_range_one, Nat.testBit_one_eq_true_iff_self_eq_zero.2 rfl]
  rfl

/-- The exclusive or adds polynomials. -/
theorem bitPolynomial_xor (m n : Nat) :
    bitPolynomial (m ^^^ n) = bitPolynomial m + bitPolynomial n := by
  ext i
  rw [coeff_add, coeff_bitPolynomial, coeff_bitPolynomial, coeff_bitPolynomial, Nat.testBit_xor]
  cases m.testBit i <;> cases n.testBit i <;> decide

/-- A shift multiplies by a power of the indeterminate. -/
theorem bitPolynomial_shiftLeft (n k : Nat) :
    bitPolynomial (n <<< k) = bitPolynomial n * X ^ k := by
  ext i
  rw [coeff_mul_X_pow', coeff_bitPolynomial, coeff_bitPolynomial, Nat.testBit_shiftLeft]
  by_cases h : k ≤ i <;> simp [h]

/-- A number is determined by its polynomial. -/
theorem bitPolynomial_injective : Function.Injective bitPolynomial := by
  intro m n h
  apply Nat.eq_of_testBit_eq
  intro i
  have hi := congrArg (coeff · i) h
  simp only [coeff_bitPolynomial] at hi
  cases hm : m.testBit i <;> cases hn : n.testBit i <;> simp_all

theorem degree_bitPolynomial_lt {n k : Nat} (h : n < 2 ^ k) : (bitPolynomial n).degree < k := by
  rw [degree_lt_iff_coeff_zero]
  intro i hi
  have hlt : n < 2 ^ i := h.trans_le (Nat.pow_le_pow_right (by omega) hi)
  rw [coeff_bitPolynomial, Nat.testBit_lt_two_pow hlt]
  rfl

namespace Binary64

/-- The polynomial of an element. -/
noncomputable def toPolynomial (x : Binary64) : (ZMod 2)[X] := bitPolynomial x.word.toNat

/-- The reduction polynomial. -/
noncomputable def modulus : (ZMod 2)[X] := X ^ 64 + X ^ 4 + X ^ 3 + X + 1

theorem toPolynomial_injective : Function.Injective toPolynomial := by
  rintro ⟨v⟩ ⟨w⟩ h
  have hword : v = w := UInt64.toNat.inj (bitPolynomial_injective h)
  rw [hword]

theorem degree_toPolynomial_lt (x : Binary64) : x.toPolynomial.degree < 64 :=
  degree_bitPolynomial_lt x.word.toNat_lt

theorem bitPolynomial_modulus : bitPolynomial 0x1000000000000001B = modulus := by
  have hbits : 0x1000000000000001B = 1 <<< 64 ^^^ (1 <<< 4 ^^^ (1 <<< 3 ^^^ (1 <<< 1 ^^^ 1))) := by
    decide
  rw [hbits]
  simp only [bitPolynomial_xor, bitPolynomial_shiftLeft, bitPolynomial_one, modulus]
  ring

/-! ### Polynomials of double width -/

namespace Wide

/-- The polynomial of a double word. -/
noncomputable def toPolynomial (p : Wide) : (ZMod 2)[X] := bitPolynomial p.toNat

theorem toNat_eq_xor (p : Wide) : p.toNat = p.high.toNat <<< 64 ^^^ p.low.toNat := by
  have hlow : p.low.toNat < 2 ^ 64 := p.low.toNat_lt
  rw [toNat, ← Nat.shiftLeft_eq, Nat.shiftLeft_add_eq_or_of_lt hlow]
  apply Nat.eq_of_testBit_eq
  intro i
  rw [Nat.testBit_or, Nat.testBit_xor, Nat.testBit_shiftLeft]
  by_cases hi : 64 ≤ i
  · have : p.low.toNat.testBit i = false :=
      Nat.testBit_lt_two_pow (hlow.trans_le (Nat.pow_le_pow_right (by omega) hi))
    simp [this]
  · simp [hi]

theorem toNat_add (p q : Wide) : (p.add q).toNat = p.toNat ^^^ q.toNat := by
  rw [toNat_eq_xor, toNat_eq_xor p, toNat_eq_xor q, add, UInt64.toNat_xor, UInt64.toNat_xor,
    Nat.shiftLeft_xor_distrib]
  generalize p.high.toNat <<< 64 = a
  generalize q.high.toNat <<< 64 = b
  ac_rfl

theorem toPolynomial_add (p q : Wide) :
    (p.add q).toPolynomial = p.toPolynomial + q.toPolynomial := by
  rw [toPolynomial, toNat_add, bitPolynomial_xor, toPolynomial, toPolynomial]

private theorem toNat_ofNat_lt {k : Nat} (hk : k < 64) : (UInt64.ofNat k).toNat % 64 = k := by
  rw [UInt64.toNat_ofNat', Nat.mod_eq_of_lt (hk.trans (by norm_num)), Nat.mod_eq_of_lt hk]

/-- A shift that drops nothing multiplies the number by a power of two. -/
theorem toNat_shift (p : Wide) {i : Nat} (hi : i < 64) (hp : p.toNat < 2 ^ (128 - i)) :
    (p.shift i).toNat = p.toNat <<< i := by
  obtain ⟨high, low⟩ := p
  have hlow : low.toNat < 2 ^ 64 := low.toNat_lt
  have hsplit : 2 ^ (128 - i) = 2 ^ (64 - i) * 2 ^ 64 := by
    rw [← pow_add]
    congr 1
    omega
  have hpow : 2 ^ (64 - i) * 2 ^ i = 2 ^ 64 := by
    rw [← pow_add]
    congr 1
    omega
  have hhigh : high.toNat < 2 ^ (64 - i) := by
    rw [toNat, hsplit] at hp
    exact lt_of_mul_lt_mul_right ((Nat.le_add_right _ _).trans_lt hp) (Nat.zero_le _)
  -- the bits of the low word that move into the high one
  have hcarry : low.toNat / 2 ^ (64 - i) < 2 ^ i := by
    rw [Nat.div_lt_iff_lt_mul (by positivity), mul_comm, hpow]
    exact hlow
  have hhigh' : (shift ⟨high, low⟩ i).high.toNat =
      high.toNat * 2 ^ i + low.toNat / 2 ^ (64 - i) := by
    have hfit : high.toNat <<< i % 2 ^ 64 = high.toNat <<< i := by
      rw [Nat.shiftLeft_eq]
      exact Nat.mod_eq_of_lt (hpow ▸ Nat.mul_lt_mul_of_pos_right hhigh (by positivity))
    have hdown : low.toNat >>> 1 >>> (63 - i) = low.toNat / 2 ^ (64 - i) := by
      rw [← Nat.shiftRight_add, Nat.shiftRight_eq_div_pow]
      congr 2
      omega
    rw [shift, UInt64.toNat_xor, UInt64.toNat_shiftLeft, UInt64.toNat_shiftRight,
      UInt64.toNat_shiftRight, toNat_ofNat_lt hi, toNat_ofNat_lt (by omega : 63 - i < 64), hfit]
    change high.toNat <<< i ^^^ low.toNat >>> 1 >>> (63 - i) = _
    rw [hdown, ← Nat.shiftLeft_eq, Nat.shiftLeft_add_eq_or_of_lt hcarry]
    apply Nat.eq_of_testBit_eq
    intro j
    rw [Nat.testBit_or, Nat.testBit_xor, Nat.testBit_shiftLeft]
    by_cases hj : i ≤ j
    · rw [Nat.testBit_lt_two_pow (hcarry.trans_le (Nat.pow_le_pow_right (by omega) hj)),
        Bool.xor_false, Bool.or_false]
    · simp [hj]
  have hlow' : (shift ⟨high, low⟩ i).low.toNat = low.toNat * 2 ^ i % 2 ^ 64 := by
    rw [shift, UInt64.toNat_shiftLeft, toNat_ofNat_lt hi, Nat.shiftLeft_eq]
  have hdiv : low.toNat * 2 ^ i / 2 ^ 64 = low.toNat / 2 ^ (64 - i) := by
    rw [← hpow, Nat.mul_div_mul_right _ _ (by positivity)]
  have hdecomp := Nat.div_add_mod (low.toNat * 2 ^ i) (2 ^ 64)
  calc (shift ⟨high, low⟩ i).toNat
      = (high.toNat * 2 ^ i + low.toNat / 2 ^ (64 - i)) * 2 ^ 64 + low.toNat * 2 ^ i % 2 ^ 64 := by
        rw [toNat, hhigh', hlow']
    _ = high.toNat * 2 ^ 64 * 2 ^ i + low.toNat * 2 ^ i := by
        rw [add_mul, mul_right_comm high.toNat, ← hdiv]
        omega
    _ = toNat ⟨high, low⟩ <<< i := by rw [Nat.shiftLeft_eq, toNat, add_mul]

theorem toPolynomial_shift (p : Wide) {i : Nat} (hi : i < 64) (hp : p.toNat < 2 ^ (128 - i)) :
    (p.shift i).toPolynomial = p.toPolynomial * X ^ i := by
  rw [toPolynomial, toNat_shift p hi hp, bitPolynomial_shiftLeft, toPolynomial]

end Wide

/-! ### The product without carries -/

private theorem lowBit_eq_one_iff (w : UInt64) {i : Nat} (hi : i < 64) :
    w >>> UInt64.ofNat i &&& 1 = 1 ↔ w.toNat.testBit i = true := by
  rw [← UInt64.toNat_inj, UInt64.toNat_and, UInt64.toNat_shiftRight, Wide.toNat_ofNat_lt hi]
  change w.toNat >>> i &&& 1 = 1 ↔ _
  rw [Nat.and_one_is_mod, Nat.testBit, Nat.and_comm, Nat.and_one_is_mod]
  simp

/-- The bits of a number below a position. -/
private theorem bitPolynomial_mod_succ (n i : Nat) :
    bitPolynomial (n % 2 ^ (i + 1)) =
      bitPolynomial (n % 2 ^ i) + if n.testBit i then X ^ i else 0 := by
  ext j
  rw [coeff_add, coeff_bitPolynomial, coeff_bitPolynomial, Nat.testBit_mod_two_pow,
    Nat.testBit_mod_two_pow]
  rcases lt_trichotomy j i with h | rfl | h
  · have h' : j < i + 1 := by omega
    split_ifs <;> simp_all [coeff_X_pow, h.ne]
  · split_ifs <;> simp_all
  · rw [decide_eq_false (by omega : ¬j < i + 1), decide_eq_false (by omega : ¬j < i),
      Bool.false_and]
    split_ifs <;> simp_all [coeff_X_pow, h.ne']

private theorem toNat_low (a : UInt64) : Wide.toNat ⟨0, a⟩ = a.toNat := by simp [Wide.toNat]

private theorem fits_low (a : UInt64) {i : Nat} (hi : i < 64) :
    Wide.toNat ⟨0, a⟩ < 2 ^ (128 - i) := by
  rw [toNat_low]
  exact a.toNat_lt.trans_le (Nat.pow_le_pow_right (by omega) (by omega))

/-- The carry-less product is the product of polynomials. -/
theorem Wide.toPolynomial_carryless (a b : UInt64) {bits : Nat} (h : bits ≤ 64) :
    (carryless a b bits).toPolynomial =
      bitPolynomial a.toNat * bitPolynomial (b.toNat % 2 ^ bits) := by
  induction bits with
  | zero =>
    have h0 : (carryless a b 0).toNat = 0 := by simp [carryless, Wide.toNat]
    rw [pow_zero, Nat.mod_one, bitPolynomial_zero, mul_zero, Wide.toPolynomial, h0,
      bitPolynomial_zero]
  | succ i ih =>
    have hi : i < 64 := h
    rw [carryless, bitPolynomial_mod_succ, mul_add]
    simp only [lowBit_eq_one_iff b hi]
    split_ifs with hbit
    · rw [Wide.toPolynomial_add, ih hi.le, Wide.toPolynomial_shift _ hi (fits_low a hi),
        Wide.toPolynomial, toNat_low]
    · rw [ih hi.le, mul_zero, add_zero]

theorem Wide.toNat_carryless_lt (a b : UInt64) {bits : Nat} (h : bits ≤ 64) :
    (carryless a b bits).toNat < 2 ^ (63 + bits) := by
  induction bits with
  | zero => simp [carryless, Wide.toNat]
  | succ i ih =>
    have hi : i < 64 := h
    have hprev : (carryless a b i).toNat < 2 ^ (63 + (i + 1)) :=
      (ih hi.le).trans_le (Nat.pow_le_pow_right (by omega) (by omega))
    have hshift : (Wide.shift ⟨0, a⟩ i).toNat < 2 ^ (63 + (i + 1)) := by
      rw [Wide.toNat_shift _ hi (fits_low a hi), toNat_low, Nat.shiftLeft_eq]
      calc a.toNat * 2 ^ i < 2 ^ 64 * 2 ^ i :=
            Nat.mul_lt_mul_of_pos_right a.toNat_lt (Nat.two_pow_pos i)
        _ = 2 ^ (63 + (i + 1)) := by rw [← pow_add]; congr 1; omega
    rw [carryless]
    split_ifs
    · rw [Wide.toNat_add]
      exact Nat.xor_lt_two_pow hprev hshift
    · exact hprev

/-! ### Reduction -/

private theorem toNat_modulusTimes_one : (modulusTimes 1).toNat = 0x1000000000000001B := by
  decide

/-- The shifted-down product that multiplies the modulus is zero or one. -/
theorem digit_eq (p : Wide) {i : Nat} (hi : i < 63) (hp : p.toNat < 2 ^ (64 + (i + 1))) :
    p.high >>> UInt64.ofNat i = if p.toNat < 2 ^ (64 + i) then 0 else 1 := by
  have hlow : p.low.toNat < 2 ^ 64 := p.low.toNat_lt
  have hpow (k : Nat) : 2 ^ (64 + k) = 2 ^ k * 2 ^ 64 := by rw [pow_add, mul_comm]
  have hhigh (k : Nat) : p.toNat < 2 ^ (64 + k) ↔ p.high.toNat < 2 ^ k := by
    rw [hpow, Wide.toNat]
    omega
  have hdigit : (p.high >>> UInt64.ofNat i).toNat = p.high.toNat / 2 ^ i := by
    rw [UInt64.toNat_shiftRight, Wide.toNat_ofNat_lt (by omega), Nat.shiftRight_eq_div_pow]
  rw [hhigh, pow_succ] at hp
  apply UInt64.toNat.inj
  rw [hdigit]
  by_cases h : p.toNat < 2 ^ (64 + i)
  · rw [if_pos h, Nat.div_eq_of_lt ((hhigh i).1 h)]
    rfl
  · rw [if_neg h]
    rw [hhigh, not_lt] at h
    change p.high.toNat / 2 ^ i = 1
    exact Nat.div_eq_of_lt_le (by omega) (by omega)

/-- One round of the reduction, which clears bit `64 + i`. -/
def clearBit (p : Wide) (i : Nat) : Wide :=
  p.add ((modulusTimes (p.high >>> UInt64.ofNat i)).shift i)

theorem reduceFrom_succ (i : Nat) (p : Wide) :
    reduceFrom (i + 1) p = reduceFrom i (clearBit p i) := rfl

/-- A bit that is clear already, with all above it, is left so. -/
theorem clearBit_of_lt {p : Wide} {i : Nat} (hi : i < 63) (hp : p.toNat < 2 ^ (64 + i)) :
    clearBit p i = p := by
  have hfits : p.toNat < 2 ^ (64 + (i + 1)) :=
    hp.trans_le (Nat.pow_le_pow_right (by omega) (by omega))
  rw [clearBit, digit_eq p hi hfits, if_pos hp]
  simp [Wide.add, modulusTimes, Wide.shift]

/-- The highest bit, if it is set, is cleared by adding the shifted modulus. -/
theorem toNat_clearBit_of_le {p : Wide} {i : Nat} (hi : i < 63)
    (hp : p.toNat < 2 ^ (64 + (i + 1))) (hbit : 2 ^ (64 + i) ≤ p.toNat) :
    (clearBit p i).toNat = p.toNat ^^^ 0x1000000000000001B <<< i := by
  have hfit : (modulusTimes 1).toNat < 2 ^ (128 - i) := by
    rw [toNat_modulusTimes_one]
    exact Nat.lt_of_lt_of_le (by norm_num : 0x1000000000000001B < 2 ^ 65)
      (Nat.pow_le_pow_right (by omega) (by omega))
  rw [clearBit, digit_eq p hi hp, if_neg (not_lt.2 hbit), Wide.toNat_add,
    Wide.toNat_shift _ (by omega) hfit, toNat_modulusTimes_one]

/-- After a round the bit is clear. -/
theorem clearBit_lt {p : Wide} {i : Nat} (hi : i < 63) (hp : p.toNat < 2 ^ (64 + (i + 1))) :
    (clearBit p i).toNat < 2 ^ (64 + i) := by
  by_cases hbit : p.toNat < 2 ^ (64 + i)
  · rwa [clearBit_of_lt hi hbit]
  rw [toNat_clearBit_of_le hi hp (not_lt.1 hbit)]
  apply Nat.lt_pow_two_of_testBit
  intro j hj
  rw [Nat.testBit_xor, Nat.testBit_shiftLeft, decide_eq_true (by omega : j ≥ i), Bool.true_and]
  rcases Nat.eq_or_lt_of_le hj with rfl | hj
  · have htop : p.toNat.testBit (64 + i) = true := by
      rw [Nat.testBit_eq_decide_div_mod_eq, decide_eq_true_eq]
      have hdiv : p.toNat / 2 ^ (64 + i) = 1 :=
        Nat.div_eq_of_lt_le (by omega) (by rw [← add_assoc, pow_succ] at hp; omega)
      rw [hdiv]
    rw [htop, Nat.add_sub_cancel]
    decide
  · have hsmall : 0x1000000000000001B < 2 ^ (j - i) :=
      Nat.lt_of_lt_of_le (by norm_num : 0x1000000000000001B < 2 ^ 65)
        (Nat.pow_le_pow_right (by omega) (by omega))
    have hlarge : p.toNat < 2 ^ j := hp.trans_le (Nat.pow_le_pow_right (by omega) (by omega))
    rw [Nat.testBit_lt_two_pow hsmall, Nat.testBit_lt_two_pow hlarge]
    rfl

/-- Residue classes do not see multiples of the modulus. -/
private theorem dvd_sub_add_mul (m a q : (ZMod 2)[X]) : m ∣ a - (a + m * q) := ⟨-q, by ring⟩

theorem dvd_sub_trans {m a b c : (ZMod 2)[X]} (hab : m ∣ a - b) (hbc : m ∣ b - c) :
    m ∣ a - c := by
  have hac := dvd_add hab hbc
  rwa [sub_add_sub_cancel] at hac

/-- A round keeps the residue class. -/
theorem modulus_dvd_clearBit {p : Wide} {i : Nat} (hi : i < 63)
    (hp : p.toNat < 2 ^ (64 + (i + 1))) :
    modulus ∣ p.toPolynomial - (clearBit p i).toPolynomial := by
  by_cases hbit : p.toNat < 2 ^ (64 + i)
  · rw [clearBit_of_lt hi hbit, sub_self]
    exact dvd_zero _
  · have hadd : (clearBit p i).toPolynomial = p.toPolynomial + modulus * X ^ i := by
      rw [Wide.toPolynomial, toNat_clearBit_of_le hi hp (not_lt.1 hbit), bitPolynomial_xor,
        bitPolynomial_shiftLeft, bitPolynomial_modulus, Wide.toPolynomial]
    have hdvd := dvd_sub_add_mul modulus p.toPolynomial (X ^ i)
    rwa [← hadd] at hdvd

/-- Reduction leaves nothing beyond the low word and keeps the residue class. -/
theorem reduceFrom_spec {steps : Nat} (p : Wide) (hsteps : steps ≤ 63)
    (hp : p.toNat < 2 ^ (64 + steps)) :
    (reduceFrom steps p).toNat < 2 ^ 64 ∧
      modulus ∣ p.toPolynomial - (reduceFrom steps p).toPolynomial := by
  induction steps generalizing p with
  | zero =>
    rw [add_zero] at hp
    rw [reduceFrom, sub_self]
    exact ⟨hp, dvd_zero _⟩
  | succ i ih =>
    rw [reduceFrom_succ]
    obtain ⟨hres, hdvd⟩ := ih (clearBit p i) (Nat.le_of_succ_le hsteps) (clearBit_lt hsteps hp)
    exact ⟨hres, dvd_sub_trans (modulus_dvd_clearBit hsteps hp) hdvd⟩

/-- The low word of what reduction leaves is all of it. -/
private theorem toPolynomial_low {p : Wide} (h : p.toNat < 2 ^ 64) :
    toPolynomial ⟨p.low⟩ = p.toPolynomial := by
  have hhigh : p.high.toNat = 0 := by
    rw [Wide.toNat] at h
    omega
  rw [Wide.toPolynomial, Wide.toNat, hhigh, zero_mul, zero_add, toPolynomial]

private theorem modulus_dvd_reduced {a b : (ZMod 2)[X]} {p : Wide}
    (hproduct : p.toPolynomial = a * b) (hlt : p.toNat < 2 ^ (64 + 63)) :
    modulus ∣ a * b - toPolynomial ⟨(reduceFrom 63 p).low⟩ := by
  obtain ⟨hres, hdvd⟩ := reduceFrom_spec p (le_refl 63) hlt
  rw [toPolynomial_low hres, ← hproduct]
  exact hdvd

/-- The product of two elements lies in the residue class of the product of their polynomials. -/
theorem modulus_dvd_mul (x y : Binary64) :
    modulus ∣ x.toPolynomial * y.toPolynomial - (mul x y).toPolynomial := by
  have hproduct := Wide.toPolynomial_carryless x.word y.word (le_refl 64)
  have hlt := Wide.toNat_carryless_lt x.word y.word (le_refl 64)
  rw [Nat.mod_eq_of_lt y.word.toNat_lt] at hproduct
  rw [Nat.add_comm 63 64] at hlt
  exact modulus_dvd_reduced hproduct hlt

end Binary64

end Multiparty
