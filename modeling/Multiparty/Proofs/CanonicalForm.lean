import Mathlib
import Multiparty.Proofs.Codec
import Multiparty.Proofs.Ring.BinaryField
import Multiparty.Proofs.Ring.Mersenne
import Multiparty.Proofs.Ring.Word
import Multiparty.Share.Authenticated
import Multiparty.Share.Replicated
import Multiparty.Share.Threshold

/-!
# One written form for elements, payloads and shares

A payload is cut into pieces of the width of its domain, and a piece is read if it writes a number
small enough. So the payloads that are read are known by their bytes alone, and each of them is what
writing gives for exactly one list of elements, of whatever length. A share is written as the
elements of which it consists, so the same holds of shares.

## Main definitions

* `CodedRing.WritesBelow`: domains whose encodings are the strings that write a small number.
* `ClearDomain`: the clear domains at hand, with the bounds of their numbers.
* `LinearShare.ConsistsOfSlots`: types of shares that are determined by their elements.

## Main results

* `exists_encodeValues_eq_iff`: the byte strings that are payloads.
* `decodeValues_eq_ok_iff_of_mem`: reading accepts exactly what writing gives.
* `LinearShare.ofBytes?_eq_some_iff`: the same for shares.
* `ClearDomain.decodeValues_canonical`: the codecs of all domains and shares accept their images.
-/

namespace Multiparty

/-! ### Payloads -/

section Payloads

variable {R : Type} [CodedRing R]

theorem encodeValues_append (xs ys : List R) :
    encodeValues (xs ++ ys) = encodeValues xs ++ encodeValues ys :=
  List.flatMap_append

/-- A payload that is refused is reported as malformed. -/
theorem decodeValues_eq_ok_or_malformed (b : Bytes) (expected : Option Nat) :
    (∃ xs : List R, decodeValues b expected = .ok xs) ∨
      ∃ fault, decodeValues (R := R) b expected = .error (.invalidShareSet fault) := by
  have hpieces (pieces : List Bytes) : (∃ xs : List R, decodePieces pieces = .ok xs) ∨
      decodePieces (R := R) pieces = .error (.invalidShareSet .noncanonical) := by
    refine mapM_eq_ok_or_error fun piece _ => ?_
    cases CodedRing.ofBytes? (R := R) piece with
    | none => exact .inr rfl
    | some x => exact .inl ⟨x, rfl⟩
  rw [decodeValues]
  dsimp only
  split
  · exact .inr ⟨_, rfl⟩
  cases expected with
  | none => exact (hpieces _).imp_right fun h => ⟨_, h⟩
  | some n =>
    dsimp only
    split
    · exact .inr ⟨_, rfl⟩
    · exact (hpieces _).imp_right fun h => ⟨_, h⟩

/-- Without a prescribed number, as many elements are read as there is room for. -/
theorem decodeValues_none (b : Bytes) :
    decodeValues (R := R) b none = decodeValues b (some (b.length / CodedRing.width R)) := by
  rw [decodeValues, decodeValues]
  dsimp only
  rw [if_neg (not_not.2 (rfl : b.length / CodedRing.width R = _))]

variable [LawfulRing R]

/-- Reading accepts exactly what writing gives, if it has the number of elements that may be
prescribed. -/
theorem decodeValues_eq_ok_iff_of_mem (b : Bytes) (expected : Option Nat) (xs : List R) :
    decodeValues b expected = .ok xs ↔
      encodeValues xs = b ∧ ∀ n ∈ expected, xs.length = n := by
  cases expected with
  | some n => simpa using decodeValues_eq_ok_iff b n xs
  | none =>
    -- the number that is read has to be that of the elements that were written
    rw [decodeValues_none, decodeValues_eq_ok_iff]
    refine and_congr_right fun henc => iff_of_true ?_ fun n hn => by cases hn
    rw [← henc, length_encodeValues, Nat.mul_div_cancel _ LawfulRing.width_pos]

/-- Payloads one after the other are read as one payload. -/
theorem decodeValues_append {b c : Bytes} {xs ys : List R} (hb : decodeValues b none = .ok xs)
    (hc : decodeValues c none = .ok ys) : decodeValues (b ++ c) none = .ok (xs ++ ys) := by
  rw [decodeValues_eq_ok_iff_of_mem] at hb hc ⊢
  exact ⟨by rw [encodeValues_append, hb.1, hc.1], fun n hn => by cases hn⟩

end Payloads

/-! ### The bytes of payloads -/

theorem Bytes.length_of_mem_chunks {width n : Nat} {b piece : Bytes} (hb : b.length = n * width)
    (h : piece ∈ chunks width n b) : piece.length = width := by
  induction n generalizing b with
  | zero => cases h
  | succ n ih =>
    rw [Nat.succ_mul] at hb
    rcases List.mem_cons.1 h with rfl | h
    · rw [List.length_take, hb, Nat.min_eq_left (Nat.le_add_left _ _)]
    · exact ih (by rw [List.length_drop, hb, Nat.add_sub_cancel]) h

/-- The encodings of a domain are the byte strings of its width that write a number below
`bound`. -/
def CodedRing.WritesBelow (R : Type) [CodedRing R] (bound : Nat) : Prop :=
  ∀ b : Bytes, (∃ x : R, CodedRing.toBytes x = b) ↔
    b.length = CodedRing.width R ∧ b.toNatLE < bound

section WritesBelow

variable {R : Type} [CodedRing R] [LawfulRing R] {bound : Nat}

/-- Whether a byte string is a payload is seen from its length and from the numbers that its pieces
write. -/
theorem exists_encodeValues_eq_iff (hR : CodedRing.WritesBelow R bound) (b : Bytes) :
    (∃ xs : List R, encodeValues xs = b) ↔
      CodedRing.width R ∣ b.length ∧
        ∀ piece ∈ Bytes.chunks (CodedRing.width R) (b.length / CodedRing.width R) b,
          piece.toNatLE < bound := by
  constructor
  · rintro ⟨xs, hxs⟩
    have hdvd : CodedRing.width R ∣ b.length := ⟨xs.length, by
      rw [← hxs, length_encodeValues, Nat.mul_comm]⟩
    refine ⟨hdvd, fun piece hpiece => ?_⟩
    have hlen := (Nat.div_mul_cancel hdvd).symm
    have hread := forall₂_of_mapM ((decodePieces_chunks_eq_ok_iff _ b xs hlen).2 hxs)
    obtain ⟨i, hi, rfl⟩ := List.mem_iff_getElem.1 hpiece
    have hx := hread.get hi (hread.length_eq ▸ hi)
    simp only [List.get_eq_getElem] at hx
    split at hx
    · next x hx' =>
      exact ((hR _).1 ⟨x, (LawfulRing.ofBytes?_eq_some_iff _ _).1 hx'⟩).2
    · cases hx
  · rintro ⟨hdvd, hpieces⟩
    have hlen := (Nat.div_mul_cancel hdvd).symm
    suffices hread : ∃ xs : List R, decodePieces (Bytes.chunks (CodedRing.width R)
        (b.length / CodedRing.width R) b) = .ok xs from
      hread.imp fun xs => (decodePieces_chunks_eq_ok_iff _ b xs hlen).1
    refine exists_mapM_eq_ok fun piece hpiece => ?_
    obtain ⟨x, hx⟩ := (hR piece).2 ⟨Bytes.length_of_mem_chunks hlen hpiece, hpieces piece hpiece⟩
    exact ⟨x, by rw [(LawfulRing.ofBytes?_eq_some_iff piece x).2 hx]⟩

end WritesBelow

/-- A string of the bytes of a residue writes a residue if it writes a number below the modulus. -/
theorem Mersenne.exists_toBytes_eq_iff {e : Nat} (b : Bytes) :
    (∃ x : Mersenne e, x.toBytes = b) ↔ b.length = width e ∧ b.toNatLE < 2 ^ e - 1 := by
  simp only [← ofBytes?_eq_some_iff, ofBytes?]
  constructor
  · rintro ⟨x, hx⟩
    split_ifs at hx with hlen hlt
    exact ⟨hlen, hlt⟩
  · rintro ⟨hlen, hlt⟩
    exact ⟨⟨_, hlt⟩, by rw [if_pos hlen, dif_pos hlt]⟩

/-- Any eight bytes are the bytes of a word, and write a number of 64 bits. -/
theorem Bytes.exists_ofUInt64_eq_iff (b : Bytes) :
    (∃ w : UInt64, ofUInt64 w = b) ↔ b.length = 8 ∧ b.toNatLE < 2 ^ 64 := by
  constructor
  · rintro ⟨w, rfl⟩
    exact ⟨length_ofUInt64 w, (toNatLE_lt _).trans_eq (by rw [length_ofUInt64]; norm_num)⟩
  · rintro ⟨hlen, -⟩
    exact ⟨b.toUInt64, ofUInt64_toUInt64 b hlen⟩

/-! ### Shares -/

namespace LinearShare

variable {S R K : Type} [LinearShare S R K]

/-- A share has the number of elements of its type, and the elements from which it is put together
are exactly its own. -/
structure ConsistsOfSlots (S : Type) {R K : Type} [LinearShare S R K] : Prop where
  length_slots : ∀ s : S, (slots s).length = slotCount S
  ofSlots?_eq_some_iff : ∀ (xs : List R) (s : S), ofSlots? xs = some s ↔ slots s = xs

variable [CodedRing R]

theorem toBytes_eq_encodeValues (s : S) : toBytes s = encodeValues (slots s) := rfl

/-- The pieces of a payload are read as elements exactly if the payload is read. -/
theorem mapM_ofBytes?_eq_some_iff [LawfulRing R] {n : Nat} {b : Bytes} {xs : List R}
    (hb : b.length = n * CodedRing.width R) :
    (Bytes.chunks (CodedRing.width R) n b).mapM CodedRing.ofBytes? = some xs ↔
      encodeValues xs = b := by
  rw [← decodePieces_chunks_eq_ok_iff n b xs hb]
  generalize Bytes.chunks (CodedRing.width R) n b = pieces
  clear hb
  induction pieces generalizing xs with
  | nil => simp [decodePieces_nil]
  | cons piece pieces ih =>
    rw [decodePieces_cons, List.mapM_cons]
    cases CodedRing.ofBytes? (R := R) piece with
    | none => simp
    | some x =>
      cases hrest : decodePieces (R := R) pieces with
      | error e =>
        have hnone : pieces.mapM (CodedRing.ofBytes? (R := R)) = none :=
          Option.eq_none_iff_forall_ne_some.2 fun ys hys => by simpa [hrest] using ih.1 hys
        simp [hnone, Except.map]
      | ok ys => simp [ih.2 hrest, Except.map]

/-- Reading a share accepts exactly what writing gives. -/
theorem ofBytes?_eq_some_iff [LawfulRing R] (hS : ConsistsOfSlots S) (b : Bytes) (s : S) :
    ofBytes? b = some s ↔ toBytes s = b := by
  rw [toBytes_eq_encodeValues, ofBytes?]
  constructor
  · intro h
    split_ifs at h with hlen
    obtain ⟨xs, hxs, hs⟩ := Option.bind_eq_some_iff.1 h
    rw [(hS.ofSlots?_eq_some_iff xs s).1 hs]
    exact (mapM_ofBytes?_eq_some_iff hlen).1 hxs
  · rintro rfl
    have hlen : (encodeValues (slots s)).length = width S := by
      rw [length_encodeValues, hS.length_slots, width]
    rw [if_pos hlen, (mapM_ofBytes?_eq_some_iff hlen).2 rfl]
    exact (hS.ofSlots?_eq_some_iff _ s).2 rfl

end LinearShare

section Shares

variable {R : Type} [CodedRing R]

theorem MacShare.consistsOfSlots : LinearShare.ConsistsOfSlots (MacShare R) where
  length_slots _ := rfl
  ofSlots?_eq_some_iff xs s := by
    cases s
    simp only [LinearShare.ofSlots?, LinearShare.slots]
    split <;> grind

theorem ReplicatedShare.consistsOfSlots : LinearShare.ConsistsOfSlots (ReplicatedShare R) where
  length_slots _ := rfl
  ofSlots?_eq_some_iff xs s := by
    cases s
    simp only [LinearShare.ofSlots?, LinearShare.slots]
    split <;> grind

theorem ThresholdShare.consistsOfSlots : LinearShare.ConsistsOfSlots (ThresholdShare R) where
  length_slots _ := rfl
  ofSlots?_eq_some_iff xs s := by
    cases s
    simp only [LinearShare.ofSlots?, LinearShare.slots]
    split <;> grind

end Shares

/-! ### The domains at hand -/

/-- The clear domains at hand, each with the bound of the numbers that its encodings write. -/
inductive ClearDomain : (R : Type) → [CodedRing R] → Nat → Prop where
  | mersenne61 : ClearDomain Mersenne61 (2 ^ 61 - 1)
  | mersenne127 : ClearDomain Mersenne127 (2 ^ 127 - 1)
  | binary64 : ClearDomain Binary64 (2 ^ 64)
  | word64 : ClearDomain Word64 (2 ^ 64)

namespace ClearDomain

variable {R : Type} [CodedRing R] {bound : Nat}

theorem lawfulRing (hR : ClearDomain R bound) : LawfulRing R := by
  cases hR <;> infer_instance

theorem writesBelow (hR : ClearDomain R bound) : CodedRing.WritesBelow R bound := by
  intro b
  cases hR with
  | mersenne61 => exact Mersenne.exists_toBytes_eq_iff b
  | mersenne127 => exact Mersenne.exists_toBytes_eq_iff b
  | binary64 =>
    refine Iff.trans ⟨?_, ?_⟩ (Bytes.exists_ofUInt64_eq_iff b)
    · exact fun ⟨x, hx⟩ => ⟨x.word, hx⟩
    · exact fun ⟨w, hw⟩ => ⟨⟨w⟩, hw⟩
  | word64 =>
    refine Iff.trans ⟨?_, ?_⟩ (Bytes.exists_ofUInt64_eq_iff b)
    · exact fun ⟨x, hx⟩ => ⟨x.word, hx⟩
    · exact fun ⟨w, hw⟩ => ⟨⟨w⟩, hw⟩

/-- **Payloads and shares have one written form.** In every clear domain a byte string is read as a
list of elements exactly if it is what writing gives for them and their number is the one that may be
prescribed, and what is not read so is reported as malformed. The strings that are written are those
of a whole number of pieces each of which writes a number below the bound of the domain; different
lists are written differently, and payloads one after the other are read as one payload. Likewise a
byte string is read as a share of one of the three schemes exactly if it is what writing gives for
that share. -/
theorem decodeValues_canonical (hR : ClearDomain R bound) :
    (∀ b expected, (∀ vs : List R, decodeValues b expected = .ok vs ↔
        encodeValues vs = b ∧ ∀ n ∈ expected, vs.length = n) ∧
      ((∀ vs : List R, ¬(encodeValues vs = b ∧ ∀ n ∈ expected, vs.length = n)) →
        ∃ fault, decodeValues (R := R) b expected = .error (.invalidShareSet fault))) ∧
    (∀ b, (∃ vs : List R, encodeValues vs = b) ↔ CodedRing.width R ∣ b.length ∧
      ∀ piece ∈ Bytes.chunks (CodedRing.width R) (b.length / CodedRing.width R) b,
        piece.toNatLE < bound) ∧
    Function.Injective (encodeValues : List R → Bytes) ∧
    (∀ b c (vs ws : List R), decodeValues b none = .ok vs → decodeValues c none = .ok ws →
      decodeValues (b ++ c) none = .ok (vs ++ ws)) ∧
    ∀ b, (∀ s : MacShare R, LinearShare.ofBytes? b = some s ↔ LinearShare.toBytes s = b) ∧
      (∀ s : ReplicatedShare R, LinearShare.ofBytes? b = some s ↔ LinearShare.toBytes s = b) ∧
      ∀ s : ThresholdShare R, LinearShare.ofBytes? b = some s ↔ LinearShare.toBytes s = b := by
  have := hR.lawfulRing
  refine ⟨fun b expected => ⟨decodeValues_eq_ok_iff_of_mem b expected, fun hnone => ?_⟩,
    exists_encodeValues_eq_iff hR.writesBelow, encodeValues_injective,
    fun b c vs ws => decodeValues_append, fun b => ⟨?_, ?_, ?_⟩⟩
  · refine (decodeValues_eq_ok_or_malformed b expected).resolve_left fun ⟨vs, hvs⟩ => ?_
    exact hnone vs ((decodeValues_eq_ok_iff_of_mem b expected vs).1 hvs)
  · exact LinearShare.ofBytes?_eq_some_iff MacShare.consistsOfSlots b
  · exact LinearShare.ofBytes?_eq_some_iff ReplicatedShare.consistsOfSlots b
  · exact LinearShare.ofBytes?_eq_some_iff ThresholdShare.consistsOfSlots b

/-- Two elements modulo `2 ^ 61 - 1` are read from the sixteen bytes that write them, and from no
others. The modulus itself, in eight bytes, is no element. -/
theorem decodeValues_canonical_mersenne61 :
    ClearDomain Mersenne61 (2 ^ 61 - 1) ∧
      decodeValues (R := Mersenne61) [5, 0, 0, 0, 0, 0, 0, 0, 7, 1, 0, 0, 0, 0, 0, 0] (some 2) =
        .ok [⟨5, by decide⟩, ⟨263, by decide⟩] ∧
      ¬∃ vs : List Mersenne61, encodeValues vs = [255, 255, 255, 255, 255, 255, 255, 31] := by
  obtain ⟨hread, himage, -, -, -⟩ := decodeValues_canonical .mersenne61
  refine ⟨.mersenne61, ((hread _ _).1 _).2 ⟨by decide, by decide⟩, fun h => ?_⟩
  have hbelow := ((himage _).1 h).2
  exact absurd hbelow (by decide)

end ClearDomain

end Multiparty
