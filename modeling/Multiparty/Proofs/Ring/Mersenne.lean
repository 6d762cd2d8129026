import Mathlib.FieldTheory.Finite.Basic
import Mathlib.NumberTheory.LucasLehmer
import Multiparty.Proofs.Ring.Laws
import Multiparty.Ring.Mersenne

/-!
# The Mersenne domains are fields

Residues modulo `2 ^ e - 1` are compared with the integers modulo `2 ^ e - 1`. The laws carry over,
and for the two prime moduli in use Fermat's little theorem gives the inverses.

## Main results

* `Mersenne.toZMod`: the comparison, with one equation for each operation.
* The instances of `LawfulField` for `Mersenne61` and `Mersenne127`.
-/

namespace Multiparty

namespace Mersenne

variable {e : Nat}

/-- A residue as an integer modulo `2 ^ e - 1`. -/
def toZMod (x : Mersenne e) : ZMod (2 ^ e - 1) := (x.val : ZMod (2 ^ e - 1))

theorem toZMod_injective : Function.Injective (toZMod : Mersenne e → ZMod (2 ^ e - 1)) := by
  intro x y h
  have h' : x.val % (2 ^ e - 1) = y.val % (2 ^ e - 1) := (ZMod.natCast_eq_natCast_iff' _ _ _).1 h
  rw [Nat.mod_eq_of_lt x.isLt, Nat.mod_eq_of_lt y.isLt] at h'
  exact Mersenne.ext h'

@[simp] theorem toZMod_reduce (h : 0 < 2 ^ e - 1) (n : Nat) :
    toZMod (reduce h n) = (n : ZMod (2 ^ e - 1)) := by
  rw [toZMod, reduce, ZMod.natCast_mod]

private theorem cast_complement (x : Mersenne e) :
    ((2 ^ e - 1 - x.val : Nat) : ZMod (2 ^ e - 1)) = -x.toZMod := by
  rw [Nat.cast_sub x.isLt.le, ZMod.natCast_self, zero_sub, toZMod]

@[simp] theorem toZMod_add (x y : Mersenne e) : (x + y).toZMod = x.toZMod + y.toZMod := by
  change toZMod (reduce x.modulus_pos (x.val + y.val)) = _
  rw [toZMod_reduce, Nat.cast_add, toZMod, toZMod]

@[simp] theorem toZMod_neg (x : Mersenne e) : (-x).toZMod = -x.toZMod := by
  change toZMod (reduce x.modulus_pos (2 ^ e - 1 - x.val)) = _
  rw [toZMod_reduce, cast_complement]

@[simp] theorem toZMod_sub (x y : Mersenne e) : (x - y).toZMod = x.toZMod - y.toZMod := by
  change toZMod (reduce x.modulus_pos (x.val + (2 ^ e - 1 - y.val))) = _
  rw [toZMod_reduce, Nat.cast_add, cast_complement, sub_eq_add_neg]
  rfl

@[simp] theorem toZMod_mul (x y : Mersenne e) : (x * y).toZMod = x.toZMod * y.toZMod := by
  change toZMod (reduce x.modulus_pos (x.val * y.val)) = _
  rw [toZMod_reduce, Nat.cast_mul, toZMod, toZMod]

/-- Residues are as many as their modulus. -/
theorem card (e : Nat) : Nat.card (Mersenne e) = 2 ^ e - 1 := by
  let residues : Mersenne e ≃ Fin (2 ^ e - 1) :=
    ⟨fun x => ⟨x.val, x.isLt⟩, fun i => ⟨i, i.isLt⟩, fun _ => rfl, fun _ => rfl⟩
  rw [Nat.card_congr residues, Nat.card_fin]

/-- A residue fits into its bytes. -/
theorem modulus_le_width (e : Nat) : 2 ^ e - 1 < 256 ^ width e := by
  have hpow : 256 ^ width e = 2 ^ (8 * width e) := by
    rw [Nat.pow_mul]
  have hle : 2 ^ e ≤ 2 ^ (8 * width e) := Nat.pow_le_pow_right (by omega) (by rw [width]; omega)
  have hpos : 0 < 2 ^ e := Nat.two_pow_pos e
  omega

theorem length_toBytes (x : Mersenne e) : x.toBytes.length = width e :=
  Bytes.length_ofNatLE _ _

/-- Reading accepts exactly what writing produces. -/
theorem ofBytes?_eq_some_iff (b : Bytes) (x : Mersenne e) :
    ofBytes? b = some x ↔ x.toBytes = b := by
  constructor
  · intro h
    rw [ofBytes?] at h
    split_ifs at h with hlen hlt
    have hx : (⟨b.toNatLE, hlt⟩ : Mersenne e) = x := Option.some.inj h
    rw [← hx, toBytes, ← hlen, Bytes.ofNatLE_toNatLE]
  · rintro rfl
    have hval : Bytes.toNatLE x.toBytes = x.val := by
      rw [toBytes, Bytes.toNatLE_ofNatLE]
      exact Nat.mod_eq_of_lt (x.isLt.trans (modulus_le_width e))
    rw [ofBytes?, if_pos x.length_toBytes]
    simp only [hval, x.isLt, dite_true]

/-! ### Laws -/

variable (x y z : Mersenne e)

protected theorem add_assoc : x + y + z = x + (y + z) := by
  apply toZMod_injective
  simp only [toZMod_add]
  ring

protected theorem add_comm : x + y = y + x := by
  apply toZMod_injective
  simp only [toZMod_add]
  ring

protected theorem sub_eq_add_neg : x - y = x + -y := by
  apply toZMod_injective
  simp only [toZMod_sub, toZMod_add, toZMod_neg]
  ring

protected theorem mul_assoc : x * y * z = x * (y * z) := by
  apply toZMod_injective
  simp only [toZMod_mul]
  ring

protected theorem mul_comm : x * y = y * x := by
  apply toZMod_injective
  simp only [toZMod_mul]
  ring

protected theorem mul_add : x * (y + z) = x * y + x * z := by
  apply toZMod_injective
  simp only [toZMod_mul, toZMod_add]
  ring

/-- The residue zero is neutral for sums. -/
theorem add_of_val_eq_zero {o : Mersenne e} (ho : o.val = 0) : o + x = x := by
  apply toZMod_injective
  rw [toZMod_add, toZMod, ho, Nat.cast_zero, zero_add]

/-- A residue and its negative sum to the residue zero. -/
theorem neg_add_of_val_eq_zero {o : Mersenne e} (ho : o.val = 0) : -x + x = o := by
  apply toZMod_injective
  rw [toZMod_add, toZMod_neg, neg_add_cancel, toZMod, ho, Nat.cast_zero]

/-- The residue one is neutral for products. -/
theorem mul_of_val_eq_one {u : Mersenne e} (hu : u.val = 1) : u * x = x := by
  apply toZMod_injective
  rw [toZMod_mul, toZMod, hu, Nat.cast_one, one_mul]

/-- For a prime modulus every residue but zero has an inverse. -/
theorem exists_inv? [One (Mersenne e)] (hone : (1 : Mersenne e).val = 1) (he : 2 ≤ e)
    (hp : (2 ^ e - 1).Prime) (hx : x.val ≠ 0) : ∃ y, inv? x = some y ∧ x * y = 1 := by
  have : Fact (2 ^ e - 1).Prime := ⟨hp⟩
  have hcast : toZMod (1 : Mersenne e) = 1 := by rw [toZMod, hone, Nat.cast_one]
  have hx' : x.toZMod ≠ 0 := by
    intro h
    have hdvd := (ZMod.natCast_eq_zero_iff _ _).1 h
    exact hx (Nat.eq_zero_of_dvd_of_lt hdvd x.isLt)
  have hexp : 2 ^ e - 3 + 1 = 2 ^ e - 1 - 1 := by
    have : 2 ^ 2 ≤ 2 ^ e := Nat.pow_le_pow_right (by omega) he
    omega
  refine ⟨power x (2 ^ e - 3), by rw [inv?, if_neg hx], toZMod_injective ?_⟩
  rw [toZMod_mul, map_power toZMod toZMod_mul hcast, ← pow_succ', hexp, hcast,
    ZMod.pow_card_sub_one_eq_one hx']

end Mersenne

theorem prime_mersenne61 : Nat.Prime (2 ^ 61 - 1) :=
  lucas_lehmer_sufficiency 61 (by norm_num) (by norm_num)

theorem prime_mersenne127 : Nat.Prime (2 ^ 127 - 1) :=
  lucas_lehmer_sufficiency 127 (by norm_num) (by norm_num)

instance : LawfulField Mersenne61 where
  add_assoc := Mersenne.add_assoc
  add_comm := Mersenne.add_comm
  zero_add x := Mersenne.add_of_val_eq_zero x rfl
  neg_add_cancel x := Mersenne.neg_add_of_val_eq_zero x rfl
  sub_eq_add_neg := Mersenne.sub_eq_add_neg
  mul_assoc := Mersenne.mul_assoc
  mul_comm := Mersenne.mul_comm
  one_mul x := Mersenne.mul_of_val_eq_one x rfl
  mul_add := Mersenne.mul_add
  width_pos := by decide
  length_toBytes := Mersenne.length_toBytes
  ofBytes?_eq_some_iff := Mersenne.ofBytes?_eq_some_iff
  zero_ne_one := by decide
  inv?_zero := rfl
  exists_inv? x hx := Mersenne.exists_inv? x rfl (by omega) prime_mersenne61 fun h =>
    hx (Mersenne.ext h)

instance : LawfulField Mersenne127 where
  add_assoc := Mersenne.add_assoc
  add_comm := Mersenne.add_comm
  zero_add x := Mersenne.add_of_val_eq_zero x rfl
  neg_add_cancel x := Mersenne.neg_add_of_val_eq_zero x rfl
  sub_eq_add_neg := Mersenne.sub_eq_add_neg
  mul_assoc := Mersenne.mul_assoc
  mul_comm := Mersenne.mul_comm
  one_mul x := Mersenne.mul_of_val_eq_one x rfl
  mul_add := Mersenne.mul_add
  width_pos := by decide
  length_toBytes := Mersenne.length_toBytes
  ofBytes?_eq_some_iff := Mersenne.ofBytes?_eq_some_iff
  zero_ne_one := by decide
  inv?_zero := rfl
  exists_inv? x hx := Mersenne.exists_inv? x rfl (by omega) prime_mersenne127 fun h =>
    hx (Mersenne.ext h)

end Multiparty
