import Multiparty.Codec
import Multiparty.Proofs.Ring.Laws
import Multiparty.Proofs.Session

/-!
# Payloads determine their elements

Encodings have one width, so a payload is cut at the right places, and reading accepts exactly what
writing produces.

## Main results

* `decodeValues_eq_ok_iff`: reading a prescribed number of elements.
* `decodeValues_encodeValues`, `decodeValues_encodeValues_none`: reading back what was written.
* `encodeValues_injective`: a payload tells its elements.
-/

namespace Multiparty

variable {R : Type} [CodedRing R]

@[simp] theorem encodeValues_nil : encodeValues ([] : List R) = [] := rfl

@[simp] theorem encodeValues_cons (x : R) (xs : List R) :
    encodeValues (x :: xs) = CodedRing.toBytes x ++ encodeValues xs := rfl

theorem decodePieces_nil : decodePieces (R := R) [] = .ok [] := rfl

theorem decodePieces_cons (piece : Bytes) (pieces : List Bytes) :
    decodePieces (R := R) (piece :: pieces) =
      match CodedRing.ofBytes? piece with
      | some x => (decodePieces pieces).map (x :: ·)
      | none => .error (.invalidShareSet .noncanonical) := by
  rw [decodePieces, List.mapM_cons]
  cases CodedRing.ofBytes? (R := R) piece with
  | none => rfl
  | some x =>
    change (decodePieces pieces >>= fun xs => pure (x :: xs)) = _
    cases decodePieces (R := R) pieces <;> rfl

/-- Reading a prescribed number of elements gives no other number of them. -/
theorem length_of_decodeValues {b : Bytes} {n : Nat} {xs : List R}
    (h : decodeValues b (some n) = .ok xs) : xs.length = n := by
  rw [decodeValues] at h
  dsimp only at h
  split_ifs at h with hrag hcount
  rw [← (forall₂_of_mapM h).length_eq, Bytes.length_chunks]
  exact not_not.1 hcount

variable [LawfulRing R]

@[simp] theorem length_encodeValues (xs : List R) :
    (encodeValues xs).length = xs.length * CodedRing.width R := by
  induction xs with
  | nil => simp
  | cons x xs ih =>
    rw [encodeValues_cons, List.length_append, LawfulRing.length_toBytes, ih, List.length_cons,
      Nat.succ_mul, Nat.add_comm]

/-- Reading pieces of the right width accepts exactly their concatenation. -/
theorem decodePieces_chunks_eq_ok_iff (n : Nat) (b : Bytes) (xs : List R)
    (hb : b.length = n * CodedRing.width R) :
    decodePieces (Bytes.chunks (CodedRing.width R) n b) = .ok xs ↔ encodeValues xs = b := by
  induction n generalizing b xs with
  | zero =>
    have hnil : b = [] := by simpa using hb
    rw [hnil, Bytes.chunks, decodePieces_nil]
    constructor
    · intro h
      rw [← Except.ok.inj h, encodeValues_nil]
    · intro h
      cases xs with
      | nil => rfl
      | cons x xs =>
        have hlen := congrArg List.length h
        have := LawfulRing.width_pos (R := R)
        rw [length_encodeValues, List.length_cons, List.length_nil, Nat.succ_mul] at hlen
        omega
  | succ n ih =>
    have hdrop : (b.drop (CodedRing.width R)).length = n * CodedRing.width R := by
      rw [List.length_drop, hb, Nat.succ_mul, Nat.add_sub_cancel]
    rw [Bytes.chunks, decodePieces_cons]
    constructor
    · intro h
      cases hx : CodedRing.ofBytes? (R := R) (b.take (CodedRing.width R)) with
      | none =>
        rw [hx] at h
        cases h
      | some x =>
        rw [hx] at h
        cases hxs : decodePieces (R := R) (Bytes.chunks (CodedRing.width R) n
            (b.drop (CodedRing.width R))) with
        | error e =>
          rw [hxs] at h
          cases h
        | ok rest =>
          rw [hxs] at h
          have hrest := (ih _ _ hdrop).1 hxs
          rw [← Except.ok.inj h, encodeValues_cons, hrest,
            (LawfulRing.ofBytes?_eq_some_iff _ _).1 hx, List.take_append_drop]
    · intro h
      cases xs with
      | nil =>
        have hlen := congrArg List.length h
        have := LawfulRing.width_pos (R := R)
        rw [encodeValues_nil, hb, List.length_nil, Nat.succ_mul] at hlen
        omega
      | cons x xs =>
        have hx := LawfulRing.length_toBytes x
        have htake : b.take (CodedRing.width R) = CodedRing.toBytes x := by
          rw [← h, encodeValues_cons, List.take_left' hx]
        have hdropEq : b.drop (CodedRing.width R) = encodeValues xs := by
          rw [← h, encodeValues_cons, List.drop_left' hx]
        rw [htake, LawfulRing.ofBytes?_toBytes]
        rw [hdropEq] at hdrop ⊢
        rw [(ih _ _ hdrop).2 rfl]
        rfl

/-- Reading a prescribed number of elements accepts exactly what writing produces. -/
theorem decodeValues_eq_ok_iff (b : Bytes) (n : Nat) (xs : List R) :
    decodeValues b (some n) = .ok xs ↔ encodeValues xs = b ∧ xs.length = n := by
  have hpos := LawfulRing.width_pos (R := R)
  constructor
  · intro h
    rw [decodeValues] at h
    dsimp only at h
    split_ifs at h with hrag hcount
    have hmod : b.length % CodedRing.width R = 0 := not_not.1 hrag
    have hn : b.length / CodedRing.width R = n := not_not.1 hcount
    rw [hn] at h
    have hlen : b.length = n * CodedRing.width R := by
      rw [← hn, Nat.div_mul_cancel (Nat.dvd_of_mod_eq_zero hmod)]
    have henc := (decodePieces_chunks_eq_ok_iff n b xs hlen).1 h
    refine ⟨henc, Nat.eq_of_mul_eq_mul_right hpos ?_⟩
    rw [← length_encodeValues, henc, hlen]
  · rintro ⟨rfl, rfl⟩
    rw [decodeValues]
    dsimp only
    rw [length_encodeValues, Nat.mul_mod_left, Nat.mul_div_cancel _ hpos, if_neg (not_not.2 rfl),
      if_neg (not_not.2 rfl)]
    exact (decodePieces_chunks_eq_ok_iff _ _ _ (length_encodeValues xs)).2 rfl

/-- Reading gives back what was written. -/
theorem decodeValues_encodeValues (xs : List R) :
    decodeValues (encodeValues xs) (some xs.length) = .ok xs :=
  (decodeValues_eq_ok_iff _ _ _).2 ⟨rfl, rfl⟩

/-- Reading gives back what was written, without the number of elements. -/
theorem decodeValues_encodeValues_none (xs : List R) :
    decodeValues (encodeValues xs) none = .ok xs := by
  have hcount := decodeValues_encodeValues xs
  rw [decodeValues] at hcount ⊢
  dsimp only at hcount ⊢
  rw [length_encodeValues, Nat.mul_mod_left, Nat.mul_div_cancel _ LawfulRing.width_pos] at hcount ⊢
  simpa using hcount

/-- A payload tells the elements that are written in it. -/
theorem encodeValues_injective : Function.Injective (encodeValues : List R → Bytes) := by
  intro xs ys h
  have hlen := congrArg List.length h
  rw [length_encodeValues, length_encodeValues] at hlen
  have hxs := decodeValues_encodeValues xs
  rw [h, Nat.eq_of_mul_eq_mul_right LawfulRing.width_pos hlen, decodeValues_encodeValues] at hxs
  exact (Except.ok.inj hxs).symm

/-- The elements of a payload that is sent unless there are no items. -/
theorem eq_of_payload {α : Type} {items : List α} (hitems : items ≠ []) {payloads : List Bytes}
    {xs ys : List R} (hxs : payloads = if items = [] then [] else [encodeValues xs])
    (hys : payloads = [encodeValues ys]) : xs = ys := by
  rw [if_neg hitems, hys, List.singleton_inj] at hxs
  exact (encodeValues_injective hxs).symm

end Multiparty
