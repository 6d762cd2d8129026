import Multiparty.Proofs.Ring.Laws
import Multiparty.Ring.Word

/-!
# Machine words as a clear domain

Words with wrapping arithmetic form a commutative ring. Their eight bytes determine them.

## Main results

* `Bytes.toUInt64_ofUInt64`, `Bytes.ofUInt64_toUInt64`: a word and its bytes.
* The instance of `LawfulRing` for `Word64`.
-/

namespace Multiparty

namespace Bytes

@[simp] theorem length_ofUInt64 (w : UInt64) : (ofUInt64 w).length = 8 := rfl

/-- The bytes of a word write its number. -/
theorem ofUInt64_eq_ofNatLE (w : UInt64) : ofUInt64 w = ofNatLE 8 w.toNat := by
  have hbyte (k : UInt64) : (w >>> k).toUInt8 = UInt8.ofNat (w.toNat / 2 ^ (k.toNat % 64)) := by
    apply UInt8.toNat.inj
    rw [UInt64.toNat_toUInt8, UInt64.toNat_shiftRight, Nat.shiftRight_eq_div_pow,
      UInt8.toNat_ofNat']
  have hlow : w.toUInt8 = UInt8.ofNat w.toNat := by
    apply UInt8.toNat.inj
    rw [UInt64.toNat_toUInt8, UInt8.toNat_ofNat']
  simp only [ofUInt64, ofNatLE, hbyte, hlow, Nat.div_div_eq_div_mul]
  rfl

private theorem toNat_shift_or (acc : UInt64) (x : UInt8) (h : acc.toNat < 2 ^ 56) :
    (acc <<< 8 ||| x.toUInt64).toNat = x.toNat + 256 * acc.toNat := by
  have hx : x.toNat < 2 ^ 8 := x.toNat_lt
  have hshift : acc.toNat <<< 8 % 2 ^ 64 = acc.toNat <<< 8 := by
    rw [Nat.shiftLeft_eq]
    exact Nat.mod_eq_of_lt (by omega)
  rw [UInt64.toNat_or, UInt64.toNat_shiftLeft, UInt8.toNat_toUInt64]
  change acc.toNat <<< 8 % 2 ^ 64 ||| x.toNat = _
  rw [hshift, ← Nat.shiftLeft_add_eq_or_of_lt hx, Nat.shiftLeft_eq]
  omega

private theorem toNat_foldr_bytes (b : Bytes) (h : b.length ≤ 8) :
    (b.foldr (fun (x : UInt8) (acc : UInt64) => acc <<< 8 ||| x.toUInt64) 0).toNat =
      toNatLE b := by
  induction b with
  | nil => rfl
  | cons x bs ih =>
    have hlen : bs.length ≤ 7 := Nat.le_of_succ_le_succ h
    have hih := ih (by omega)
    have hlt : toNatLE bs < 2 ^ 56 := by
      have hpow : 256 ^ bs.length ≤ 256 ^ 7 := Nat.pow_le_pow_right (by omega) hlen
      exact (toNatLE_lt bs).trans_le (hpow.trans (by norm_num))
    rw [List.foldr_cons, toNat_shift_or _ _ (hih ▸ hlt), hih, toNatLE]

/-- Eight bytes read as a word write its number. -/
theorem toNat_toUInt64 (b : Bytes) (h : b.length ≤ 8) : (toUInt64 b).toNat = toNatLE b := by
  rw [toUInt64, List.take_of_length_le h, toNat_foldr_bytes b h]

/-- Reading the bytes of a word gives it back. -/
theorem toUInt64_ofUInt64 (w : UInt64) : toUInt64 (ofUInt64 w) = w := by
  apply UInt64.toNat.inj
  rw [toNat_toUInt64 _ (length_ofUInt64 w).le, ofUInt64_eq_ofNatLE, toNatLE_ofNatLE]
  exact Nat.mod_eq_of_lt w.toNat_lt

/-- Eight bytes are the bytes of the word that they write. -/
theorem ofUInt64_toUInt64 (b : Bytes) (h : b.length = 8) : ofUInt64 (toUInt64 b) = b := by
  rw [ofUInt64_eq_ofNatLE, toNat_toUInt64 b h.le, ← h, ofNatLE_toNatLE]

end Bytes

namespace Word64

/-- Reading accepts exactly what writing produces. -/
theorem ofBytes?_eq_some_iff (b : Bytes) (x : Word64) :
    ofBytes? b = some x ↔ Bytes.ofUInt64 x.word = b := by
  constructor
  · intro h
    rw [ofBytes?] at h
    split_ifs at h with hlen
    have hx : (⟨b.toUInt64⟩ : Word64) = x := Option.some.inj h
    rw [← hx, Bytes.ofUInt64_toUInt64 b hlen]
  · rintro rfl
    rw [ofBytes?, if_pos (Bytes.length_ofUInt64 _), Bytes.toUInt64_ofUInt64]

private theorem ext_word {x y : Word64} (h : x.word = y.word) : x = y := by
  cases x
  cases y
  congr

end Word64

instance : LawfulRing Word64 where
  add_assoc x y z := Word64.ext_word (UInt64.add_assoc x.word y.word z.word)
  add_comm x y := Word64.ext_word (UInt64.add_comm x.word y.word)
  zero_add x := Word64.ext_word (UInt64.zero_add x.word)
  neg_add_cancel x := Word64.ext_word (UInt64.add_left_neg x.word)
  sub_eq_add_neg x y := Word64.ext_word (UInt64.sub_eq_add_neg x.word y.word)
  mul_assoc x y z := Word64.ext_word (UInt64.mul_assoc x.word y.word z.word)
  mul_comm x y := Word64.ext_word (UInt64.mul_comm x.word y.word)
  one_mul x := Word64.ext_word (UInt64.one_mul x.word)
  mul_add x y z := Word64.ext_word (UInt64.mul_add (a := x.word) (b := y.word) (c := z.word))
  width_pos := by decide
  length_toBytes x := Bytes.length_ofUInt64 x.word
  ofBytes?_eq_some_iff := Word64.ofBytes?_eq_some_iff

end Multiparty
