import Mathlib.Algebra.BigOperators.Group.List.Basic
import Mathlib.Algebra.BigOperators.Ring.List
import Mathlib.Algebra.Field.Basic
import Mathlib.Algebra.Group.Nat.Even
import Mathlib.Data.FinEnum
import Mathlib.Data.Fintype.Vector
import Mathlib.Tactic.Ring
import Multiparty.Ring.Basic

/-!
# Laws of clear domains

A clear domain brings its operations only. It is *lawful* when they form a commutative ring and
when reading accepts exactly the encodings that writing produces. A lawful domain with division is
a field, and every lawful domain is finite, because its elements have encodings of one width.

## Main definitions

* `LawfulRing`, `LawfulField`: the laws.
* The instances of `CommRing` and `Field` that they give.

## Main results

* `CodedRing.sum_eq`, `CodedRing.weightedSum_eq`: sums and combinations as sums of lists.
* `LawfulRing.finite`: a lawful domain is finite.
* `map_power`: repeated squaring computes powers.
-/

namespace Multiparty

/-- The laws of a clear domain: a commutative ring with a canonical encoding of fixed width. -/
class LawfulRing (R : Type) [CodedRing R] : Prop where
  add_assoc : ∀ x y z : R, x + y + z = x + (y + z)
  add_comm : ∀ x y : R, x + y = y + x
  zero_add : ∀ x : R, 0 + x = x
  neg_add_cancel : ∀ x : R, -x + x = 0
  sub_eq_add_neg : ∀ x y : R, x - y = x + -y
  mul_assoc : ∀ x y z : R, x * y * z = x * (y * z)
  mul_comm : ∀ x y : R, x * y = y * x
  one_mul : ∀ x : R, 1 * x = x
  mul_add : ∀ x y z : R, x * (y + z) = x * y + x * z
  /-- An encoding takes some room. -/
  width_pos : 0 < CodedRing.width R
  /-- Every encoding has the same width. -/
  length_toBytes : ∀ x : R, (CodedRing.toBytes x).length = CodedRing.width R
  /-- Reading accepts exactly what writing produces. -/
  ofBytes?_eq_some_iff : ∀ (b : Bytes) (x : R),
    CodedRing.ofBytes? b = some x ↔ CodedRing.toBytes x = b

/-- The laws of a clear domain with division: exactly the elements that are not zero have an
inverse. -/
class LawfulField (F : Type) [CodedField F] : Prop extends LawfulRing F where
  zero_ne_one : (0 : F) ≠ 1
  inv?_zero : CodedField.inv? (0 : F) = none
  exists_inv? : ∀ x : F, x ≠ 0 → ∃ y, CodedField.inv? x = some y ∧ x * y = 1

section Ring

variable {R : Type} [CodedRing R] [LawfulRing R]

private theorem LawfulRing.zero_mul' (x : R) : 0 * x = 0 := by
  have h : (0 : R) * x + 0 * x = 0 + 0 * x := by
    rw [LawfulRing.mul_comm, ← LawfulRing.mul_add, LawfulRing.zero_add, LawfulRing.zero_add]
  calc (0 : R) * x = 0 * x + (-(0 * x) + 0 * x) := by
        rw [LawfulRing.neg_add_cancel, LawfulRing.add_comm, LawfulRing.zero_add]
    _ = -(0 * x) + (0 * x + 0 * x) := by
        rw [← LawfulRing.add_assoc, LawfulRing.add_comm (0 * x), LawfulRing.add_assoc]
    _ = 0 := by rw [h, LawfulRing.zero_add, LawfulRing.neg_add_cancel]

instance (priority := 100) LawfulRing.toCommRing : CommRing R where
  add_assoc := LawfulRing.add_assoc
  zero_add := LawfulRing.zero_add
  add_zero x := by rw [LawfulRing.add_comm, LawfulRing.zero_add]
  add_comm := LawfulRing.add_comm
  neg_add_cancel := LawfulRing.neg_add_cancel
  sub_eq_add_neg := LawfulRing.sub_eq_add_neg
  mul_assoc := LawfulRing.mul_assoc
  mul_comm := LawfulRing.mul_comm
  one_mul := LawfulRing.one_mul
  mul_one x := by rw [LawfulRing.mul_comm, LawfulRing.one_mul]
  left_distrib := LawfulRing.mul_add
  right_distrib x y z := by
    rw [LawfulRing.mul_comm, LawfulRing.mul_add, LawfulRing.mul_comm z x, LawfulRing.mul_comm z y]
  zero_mul := LawfulRing.zero_mul'
  mul_zero x := by rw [LawfulRing.mul_comm, LawfulRing.zero_mul']
  nsmul := nsmulRec
  zsmul := zsmulRec

theorem LawfulRing.ofBytes?_toBytes (x : R) : CodedRing.ofBytes? (CodedRing.toBytes x) = some x :=
  (LawfulRing.ofBytes?_eq_some_iff _ _).2 rfl

theorem LawfulRing.toBytes_injective : Function.Injective (CodedRing.toBytes : R → Bytes) := by
  intro x y h
  have hx := LawfulRing.ofBytes?_toBytes x
  rw [h, LawfulRing.ofBytes?_toBytes] at hx
  exact (Option.some.inj hx).symm

/-- A lawful domain is finite: an element is determined by its encoding. -/
instance (priority := 100) LawfulRing.finite : Finite R := by
  let encoding (x : R) : List.Vector UInt8 (CodedRing.width R) :=
    ⟨CodedRing.toBytes x, LawfulRing.length_toBytes x⟩
  have hinj : Function.Injective encoding := fun _ _ h =>
    LawfulRing.toBytes_injective (congrArg Subtype.val h)
  exact Finite.of_injective encoding hinj

namespace CodedRing

omit [LawfulRing R] in
@[simp] theorem isZero_iff (x : R) : isZero x = true ↔ x = 0 := by simp [isZero]

private theorem foldl_add_eq (xs : List R) (a : R) :
    xs.foldl (· + ·) a = a + xs.sum := by
  induction xs generalizing a with
  | nil => simp
  | cons x xs ih => rw [List.foldl_cons, ih, List.sum_cons, add_assoc]

/-- Summing from the left gives the sum. -/
theorem sum_eq (xs : List R) : sum xs = xs.sum := by
  rw [sum, foldl_add_eq, zero_add]

private theorem foldl_mul_add_eq (ps : List (R × R)) (a : R) :
    ps.foldl (fun acc p => acc + p.1 * p.2) a = a + (ps.map fun p => p.1 * p.2).sum := by
  induction ps generalizing a with
  | nil => simp
  | cons p ps ih => rw [List.foldl_cons, ih, List.map_cons, List.sum_cons, add_assoc]

/-- A combination is the sum of the products. -/
theorem weightedSum_eq (ws vs : List R) :
    weightedSum ws vs = (List.zipWith (· * ·) ws vs).sum := by
  rw [weightedSum, foldl_mul_add_eq, zero_add, List.zip, List.map_zipWith]

end CodedRing

end Ring

section Field

variable {F : Type} [CodedField F] [LawfulField F]

theorem LawfulField.mul_inv?_getD {x : F} (hx : x ≠ 0) :
    x * (CodedField.inv? x).getD 0 = 1 := by
  obtain ⟨y, hy, hxy⟩ := LawfulField.exists_inv? x hx
  rw [hy, Option.getD_some, hxy]

instance (priority := 100) LawfulField.toField : Field F where
  inv x := (CodedField.inv? x).getD 0
  exists_pair_ne := ⟨0, 1, LawfulField.zero_ne_one⟩
  mul_inv_cancel _ := LawfulField.mul_inv?_getD
  inv_zero := by
    change (CodedField.inv? (0 : F)).getD 0 = 0
    rw [LawfulField.inv?_zero, Option.getD_none]
  nnqsmul := _
  qsmul := _

/-- Taking an inverse succeeds exactly for the elements that are not zero. -/
theorem CodedField.inv?_eq (x : F) : CodedField.inv? x = if x = 0 then none else some x⁻¹ := by
  split
  · next h => rw [h, LawfulField.inv?_zero]
  · next h =>
    obtain ⟨y, hy, -⟩ := LawfulField.exists_inv? x h
    have hinv : x⁻¹ = (CodedField.inv? x).getD 0 := rfl
    rw [hinv, hy, Option.getD_some]

end Field

section Power

variable {M N : Type} [Mul M] [Monoid N]

private theorem map_powerTimes (f : M → N) (hf : ∀ x y, f (x * y) = f x * f y) (acc x : M)
    (n : Nat) : f (powerTimes acc x n) = f acc * f x ^ n := by
  induction n using Nat.strong_induction_on generalizing acc x with
  | _ n ih =>
    rw [powerTimes]
    split
    · next h => simp [h]
    · next h =>
      rw [ih (n / 2) (by omega), hf, ← pow_two, ← pow_mul]
      rcases Nat.mod_two_eq_zero_or_one n with h0 | h1
      · rw [if_neg (by omega), Nat.two_mul_div_two_of_even (Nat.even_iff.2 h0)]
      · rw [if_pos h1, hf, mul_assoc, ← pow_succ',
          Nat.two_mul_div_two_add_one_of_odd (Nat.odd_iff.2 h1)]

/-- Repeated squaring computes powers, seen through any multiplicative comparison. -/
theorem map_power [One M] (f : M → N) (hf : ∀ x y, f (x * y) = f x * f y) (hone : f 1 = 1)
    (x : M) (n : Nat) : f (power x n) = f x ^ n := by
  rw [power, map_powerTimes f hf, hone, one_mul]

end Power

end Multiparty
