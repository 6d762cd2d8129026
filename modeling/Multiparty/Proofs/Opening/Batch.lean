import Mathlib.Data.List.Basic
import Multiparty.Opening.Basic

/-!
# Opening a batch at one party

A party queues its shares of the items of a batch, reveals them in one exchange, and then takes the
openings in order, whatever comes of the ones before. An opening may be refused, and then all later
attempts fail in the same way; there may be no opening left.

## Main definitions

* `Opener.reveal`: the exchange of a batch.
* `Attempt.nth`: the results of an attempt that is made again and again.
* `takenAt`: the results of taking given openings.

## Main results

* `Attempt.nth_eq_takenAt`: attempts that take given openings.
* `takenAt_admitted`: which openings are taken, and which are refused.
-/

namespace Multiparty

/-- The exchange at party `i` of a batch of sharings among `n` parties. -/
def Opener.reveal {O S R : Type} [Opener O S R] {n : Nat} (items : List (Fin n → S)) (o : Fin n → O)
    (i : Fin n) : Session O (Except ProtocolError Unit) :=
  (exchange : Action O Unit).run ⟨i, n⟩ (prepareAll (items.map (· i)) (o i))

variable {σ α : Type}

/-- The result of the attempt numbered `k` from zero, when it is made again and again whatever
comes of it. -/
def Attempt.nth (f : Attempt σ α) : Nat → σ → Except ProtocolError α
  | 0, s => (f s).1
  | k + 1, s => Attempt.nth f k (f s).2

/-- The result of the attempt numbered `k` to take openings, of which some are refused. -/
def takenAt : List (Option α) → Nat → Except ProtocolError α
  | [], _ => .error (.misuse .nothingOpened)
  | none :: _, _ => .error .macFail
  | some v :: _, 0 => .ok v
  | some _ :: openings, k + 1 => takenAt openings k

/-- An attempt takes openings one after another if it takes the first of them, and if nothing changes
once there is none or it is refused. -/
theorem Attempt.nth_eq_takenAt {f : Attempt σ α} (Holds : σ → List (Option α) → Prop)
    (hnil : ∀ s, Holds s [] → ∃ s', f s = (.error (.misuse .nothingOpened), s') ∧ Holds s' [])
    (hnone : ∀ s openings, Holds s (none :: openings) →
      ∃ s', f s = (.error .macFail, s') ∧ Holds s' (none :: openings))
    (hsome : ∀ s v openings, Holds s (some v :: openings) →
      ∃ s', f s = (.ok v, s') ∧ Holds s' openings)
    {s : σ} {openings : List (Option α)} (h : Holds s openings) (k : Nat) :
    nth f k s = takenAt openings k := by
  have hstep : ∀ s openings, Holds s openings → ∃ s' rest, f s = (takenAt openings 0, s') ∧
      Holds s' rest ∧ ∀ k, takenAt openings (k + 1) = takenAt rest k := by
    intro s openings h
    match openings, h with
    | [], h =>
      obtain ⟨s', hf, h'⟩ := hnil s h
      exact ⟨s', [], hf, h', fun _ => rfl⟩
    | none :: openings, h =>
      obtain ⟨s', hf, h'⟩ := hnone s openings h
      exact ⟨s', none :: openings, hf, h', fun _ => rfl⟩
    | some v :: openings, h =>
      obtain ⟨s', hf, h'⟩ := hsome s v openings h
      exact ⟨s', openings, hf, h', fun _ => rfl⟩
  induction k generalizing s openings with
  | zero =>
    obtain ⟨s', -, hf, -, -⟩ := hstep s openings h
    rw [nth, hf]
  | succ k ih =>
    obtain ⟨s', rest, hf, h', hrest⟩ := hstep s openings h
    rw [nth, hf, ih h', hrest]

theorem takenAt_eq_ok_iff {openings : List (Option α)} {k : Nat} {v : α} :
    takenAt openings k = .ok v ↔ openings[k]? = some (some v) ∧ none ∉ openings.take k := by
  induction openings, k using takenAt.induct with
  | case1 => simp [takenAt]
  | case2 openings k => cases k <;> simp [takenAt]
  | case3 => simp [takenAt]
  | case4 => simp_all [takenAt]

/-- Nothing is taken of openings that are all refused. -/
theorem takenAt_ne_ok {openings : List (Option α)} (h : ∀ opening ∈ openings, opening = none)
    (k : Nat) (v : α) : takenAt openings k ≠ .ok v := by
  intro hv
  cases h _ (List.mem_of_getElem? (takenAt_eq_ok_iff.1 hv).1)

theorem takenAt_eq_macFail_iff {openings : List (Option α)} {k : Nat} :
    takenAt openings k = .error .macFail ↔ none ∈ openings.take (k + 1) := by
  induction openings, k using takenAt.induct with
  | case1 => simp [takenAt]
  | case2 => simp [takenAt]
  | case3 => simp [takenAt]
  | case4 => simp_all [takenAt]

/-- If openings hold given values as far as these are admitted, a value is taken exactly if it is
admitted together with all before it, and else taking fails. -/
theorem takenAt_admitted {values : List α} {openings : List (Option α)} {Admitted : Nat → Prop}
    [DecidablePred Admitted]
    (h : ∀ j, openings[j]? = values[j]?.map fun v => if Admitted j then some v else none)
    (hbeyond : ∀ j ≥ values.length, Admitted j) (k : Nat) :
    (∀ v, takenAt openings k = .ok v ↔ values[k]? = some v ∧ ∀ j ≤ k, Admitted j) ∧
      (takenAt openings k = .error .macFail ↔ ¬ ∀ j ≤ k, Admitted j) := by
  have hget (j : Nat) : openings[j]? = some none ↔ ¬ Admitted j := by
    rw [h j]
    by_cases hj : j < values.length
    · by_cases hadmitted : Admitted j <;> simp [hj, hadmitted]
    · simp [hj, hbeyond j (Nat.not_lt.1 hj)]
  have hnone (k : Nat) : none ∈ openings.take k ↔ ∃ j < k, ¬ Admitted j := by
    simp only [List.mem_iff_getElem?, List.getElem?_take]
    refine exists_congr fun j => ?_
    by_cases hj : j < k <;> simp [hj, hget]
  refine ⟨fun v => ?_, ?_⟩
  · rw [takenAt_eq_ok_iff, hnone, h k]
    constructor
    · rintro ⟨hk, hbefore⟩
      obtain ⟨w, hw, hv⟩ := Option.map_eq_some_iff.1 hk
      split_ifs at hv with hadmitted
      refine ⟨hw.trans hv, fun j hj => ?_⟩
      rcases Nat.lt_or_eq_of_le hj with hlt | rfl
      · by_contra hj'
        exact hbefore ⟨j, hlt, hj'⟩
      · exact hadmitted
    · rintro ⟨hk, hall⟩
      refine ⟨by rw [hk, Option.map_some, if_pos (hall k (Nat.le_refl k))], ?_⟩
      rintro ⟨j, hj, hj'⟩
      exact hj' (hall j (Nat.le_of_lt hj))
  · rw [takenAt_eq_macFail_iff, hnone]
    simp only [Nat.lt_succ_iff, not_forall, exists_prop]

end Multiparty
