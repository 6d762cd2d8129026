import Mathlib
import Multiparty.Interpolation
import Multiparty.Proofs.Ring.Laws
import Multiparty.Share.Authenticated
import Multiparty.Share.Replicated
import Multiparty.Share.Threshold

/-!
# Valid sharings

The shares that `n` parties hold of one value form a valid sharing if they determine the value in
the way of their scheme. Sums, differences and multiples of valid sharings are formed by every party
on its own and are valid again.

## Main definitions

* `Sharing`: a notion of valid sharings that is closed under linear operations.
* `Sharing.Shared`: a value with a valid sharing of it.
* `MacShare.Valid`, `ReplicatedShare.Valid`, `ThresholdShare.Valid`: the three schemes.
* `MacShare.sharing`, `ReplicatedShare.sharing`, `ThresholdShare.sharing`: their closure.
-/

namespace Multiparty

/-- A list as the items of all parties. -/
theorem exists_eq_ofFn {α : Type} {l : List α} {n : Nat} (h : l.length = n) :
    ∃ f : Fin n → α, l = List.ofFn f := by
  subst h
  exact ⟨l.get, (List.ofFn_get l).symm⟩

/-- A notion of valid sharings of values in `R` among `n` parties, closed under the operations that
every party carries out on its own shares. -/
structure Sharing (S : Type) {R K : Type} [LinearShare S R K] [CodedRing R] (n : Nat) where
  /-- The shares of all parties are a sharing of the value. -/
  Valid : (Fin n → S) → R → Prop
  zero : Valid (fun _ => 0) 0
  add : ∀ {x y : Fin n → S} {v w : R}, Valid x v → Valid y w → Valid (fun i => x i + y i) (v + w)
  sub : ∀ {x y : Fin n → S} {v w : R}, Valid x v → Valid y w → Valid (fun i => x i - y i) (v - w)
  neg : ∀ {x : Fin n → S} {v : R}, Valid x v → Valid (fun i => -x i) (-v)
  scale : ∀ {x : Fin n → S} {v : R}, Valid x v → ∀ c,
    Valid (fun i => LinearShare.scale (x i) c) (v * c)

namespace Sharing

variable {S R K : Type} [LinearShare S R K] [CodedRing R] {n : Nat}

/-- A value together with a valid sharing of it. -/
structure Shared (V : Sharing S n) where
  shares : Fin n → S
  value : R
  valid : V.Valid shares value

variable {V : Sharing S n}

theorem forall₂_shared (xs : List V.Shared) :
    List.Forall₂ V.Valid (xs.map (·.shares)) (xs.map (·.value)) :=
  List.forall₂_map_left_iff.2 (List.forall₂_map_right_iff.2 (List.forall₂_same.2 fun x _ => x.valid))

/-- Valid sharings, as values together with their sharings. -/
theorem exists_shared {items : List (Fin n → S)} {vs : List R}
    (h : List.Forall₂ V.Valid items vs) :
    ∃ xs : List V.Shared, items = xs.map (·.shares) ∧ vs = xs.map (·.value) := by
  induction h with
  | nil => exact ⟨[], rfl, rfl⟩
  | cons hx _ ih =>
    obtain ⟨xs, rfl, rfl⟩ := ih
    exact ⟨⟨_, _, hx⟩ :: xs, rfl, rfl⟩

end Sharing

section Authenticated

variable {R : Type} [CodedRing R] [LawfulRing R] {n : Nat}

namespace MacShare

/-- The value shares sum to the value, and the authentication shares to the value times the key. -/
structure Valid (key : R) (x : Fin n → MacShare R) (v : R) : Prop where
  value : ∑ i, (x i).value = v
  mac : ∑ i, (x i).mac = v * key

/-- Valid sharings under a key. -/
def sharing (key : R) (n : Nat) : Sharing (MacShare R) n where
  Valid := Valid key
  zero := ⟨Finset.sum_const_zero, by rw [zero_mul]; exact Finset.sum_const_zero⟩
  add {x y v w} hx hy := by
    refine ⟨?_, ?_⟩
    · rw [← hx.value, ← hy.value, ← Finset.sum_add_distrib]
      rfl
    · rw [add_mul, ← hx.mac, ← hy.mac, ← Finset.sum_add_distrib]
      rfl
  sub {x y v w} hx hy := by
    refine ⟨?_, ?_⟩
    · rw [← hx.value, ← hy.value, ← Finset.sum_sub_distrib]
      rfl
    · rw [sub_mul, ← hx.mac, ← hy.mac, ← Finset.sum_sub_distrib]
      rfl
  neg {x v} hx := by
    refine ⟨?_, ?_⟩
    · rw [← hx.value, ← Finset.sum_neg_distrib]
      rfl
    · rw [neg_mul, ← hx.mac, ← Finset.sum_neg_distrib]
      rfl
  scale {x v} hx c := by
    refine ⟨?_, ?_⟩
    · rw [← hx.value, Finset.sum_mul]
      rfl
    · rw [mul_right_comm, ← hx.mac, Finset.sum_mul]
      rfl

/-- The shares of a public value. There must be a party zero, who holds the value. -/
theorem valid_constant (hn : 0 < n) (keys : Fin n → R) (v : R) :
    Valid (∑ i, keys i) (fun i => constant v i (keys i)) v where
  value := by
    change ∑ i : Fin n, (if (i : Nat) = 0 then v else 0) = v
    rw [Finset.sum_eq_single_of_mem (⟨0, hn⟩ : Fin n) (Finset.mem_univ _), if_pos rfl]
    intro i _ hi
    exact if_neg fun h => hi (Fin.ext h)
  mac := (Finset.mul_sum ..).symm

end MacShare

end Authenticated

section Replicated

variable {R : Type} [CodedRing R]

namespace ReplicatedShare

/-- Every party holds its own part and that of the next one, and the parts sum to the value. -/
structure Valid (x : Fin 3 → ReplicatedShare R) (v : R) : Prop where
  next : ∀ i, (x i).next = (x (i + 1)).own
  sum : (x 0).own + (x 1).own + (x 2).own = v

variable [LawfulRing R]

/-- Valid sharings among three parties. -/
def sharing : Sharing (ReplicatedShare R) 3 where
  Valid := Valid
  zero := ⟨fun _ => rfl, by
    change (0 : R) + 0 + 0 = 0
    rw [add_zero, add_zero]⟩
  add {x y v w} hx hy := by
    refine ⟨fun i => ?_, ?_⟩
    · change (x i).next + (y i).next = (x (i + 1)).own + (y (i + 1)).own
      rw [hx.next, hy.next]
    · rw [← hx.sum, ← hy.sum]
      change (x 0).own + (y 0).own + ((x 1).own + (y 1).own) + ((x 2).own + (y 2).own) = _
      ring
  sub {x y v w} hx hy := by
    refine ⟨fun i => ?_, ?_⟩
    · change (x i).next - (y i).next = (x (i + 1)).own - (y (i + 1)).own
      rw [hx.next, hy.next]
    · rw [← hx.sum, ← hy.sum]
      change (x 0).own - (y 0).own + ((x 1).own - (y 1).own) + ((x 2).own - (y 2).own) = _
      ring
  neg {x v} hx := by
    refine ⟨fun i => ?_, ?_⟩
    · change -(x i).next = -(x (i + 1)).own
      rw [hx.next]
    · rw [← hx.sum]
      change -(x 0).own + -(x 1).own + -(x 2).own = _
      ring
  scale {x v} hx c := by
    refine ⟨fun i => ?_, ?_⟩
    · change (x i).next * c = (x (i + 1)).own * c
      rw [hx.next]
    · rw [← hx.sum]
      change (x 0).own * c + (x 1).own * c + (x 2).own * c = _
      ring

/-- The shares of a public value. -/
theorem valid_constant (v : R) :
    Valid (fun i : Fin 3 => constant v i) v where
  next i := by
    match i with
    | 0 => rfl
    | 1 => rfl
    | 2 => rfl
  sum := by
    change v + 0 + 0 = v
    rw [add_zero, add_zero]

end ReplicatedShare

end Replicated

section Threshold

open Polynomial

variable {F : Type} [CodedField F] [LawfulField F] {n : Nat}

namespace ThresholdShare

/-- The shares are the values, at the points of the parties, of a polynomial of degree at most
`threshold` with the value as its constant term. -/
def Valid (threshold : Nat) (x : Fin n → ThresholdShare F) (v : F) : Prop :=
  ∃ f ∈ degreeLT F (threshold + 1), f.coeff 0 = v ∧ ∀ i, (x i).value = f.eval (partyPoint i)

/-- Valid sharings by polynomials of bounded degree. -/
def sharing (threshold n : Nat) : Sharing (ThresholdShare F) n where
  Valid := Valid threshold
  zero := ⟨0, zero_mem _, coeff_zero 0, fun i => eval_zero.symm⟩
  add := by
    rintro x y v w ⟨f, hf, rfl, hx⟩ ⟨g, hg, rfl, hy⟩
    refine ⟨f + g, add_mem hf hg, coeff_add .., fun i => ?_⟩
    rw [eval_add, ← hx, ← hy]
    rfl
  sub := by
    rintro x y v w ⟨f, hf, rfl, hx⟩ ⟨g, hg, rfl, hy⟩
    refine ⟨f - g, sub_mem hf hg, coeff_sub .., fun i => ?_⟩
    rw [eval_sub, ← hx, ← hy]
    rfl
  neg := by
    rintro x v ⟨f, hf, rfl, hx⟩
    refine ⟨-f, neg_mem hf, coeff_neg .., fun i => ?_⟩
    rw [eval_neg, ← hx]
    rfl
  scale := by
    rintro x v ⟨f, hf, rfl, hx⟩ c
    refine ⟨c • f, Submodule.smul_mem _ c hf, ?_, fun i => ?_⟩
    · rw [coeff_smul, smul_eq_mul, mul_comm]
    · rw [eval_smul, smul_eq_mul, mul_comm, ← hx]
      rfl

/-- The shares of a public value. -/
theorem valid_constant (threshold : Nat) (v : F) :
    Valid threshold (fun _ : Fin n => constant v) v := by
  refine ⟨C v, ?_, coeff_C_zero, fun i => eval_C.symm⟩
  rw [mem_degreeLT]
  exact degree_C_le.trans_lt (by exact_mod_cast Nat.succ_pos threshold)

end ThresholdShare

end Threshold

end Multiparty
