import Multiparty.Proofs.Transcript

/-!
# Histories of a protocol object

Whoever uses a protocol object may carry out its operations in any order, and may go on after one
of them has failed. The network may answer every call in any way. A history tells what has been
done, and how each of the operations went.

## Main definitions

* `Operation`: an operation with its calls and its outcome.
* `returned`: the values that some operations have handed out.
* `History`: the operations that have led from one state to another.
* `OpeningLog`, `OpeningLog.advance`: what has been revealed, and how much of it is verified.
* `Covered`: an entry of the log was among what a passed check has verified.
* `Advances`: a log that is kept along a history.

## Main results

* `History.of_append_singleton`, `History.of_cons`: the last and the first operation of a history.
* `History.of_carryOut`: operations and answers of any kind make a history.
* `Advances.lt_verified_iff`: the verified entries are those that a passed check has covered.
-/

namespace Multiparty

open Multiparty.Action (Runs)

/-- An operation that has been carried out. -/
structure Operation (ι α : Type) where
  /-- What was asked for. -/
  step : ι
  seat : Seat
  /-- The calls on the network with their answers. -/
  calls : List Event
  outcome : Except ProtocolError α

section Returned

variable {ι α : Type}

/-- The value that an operation has handed out. -/
def Operation.value? (op : Operation ι (Option α)) : Option α :=
  match op.outcome with
  | .ok value => value
  | .error _ => none

theorem Operation.value?_of_ok {op : Operation ι (Option α)} {value : Option α}
    (h : op.outcome = .ok value) : op.value? = value := by
  rw [value?, h]

theorem Operation.value?_of_error {op : Operation ι (Option α)} (h : ∃ e, op.outcome = .error e) :
    op.value? = none := by
  obtain ⟨e, he⟩ := h
  rw [value?, he]

/-- The values that some operations have handed out, oldest first. -/
def returned (ops : List (Operation ι (Option α))) : List α := ops.filterMap Operation.value?

@[simp] theorem returned_append_singleton (ops : List (Operation ι (Option α)))
    (op : Operation ι (Option α)) : returned (ops ++ [op]) = returned ops ++ op.value?.toList := by
  cases h : op.value? <;> simp [returned, h]

end Returned

/-- The operations `ops`, oldest first, have led from `s` to a state. Any of them may have failed. -/
inductive History {ι σ α : Type} (act : ι → Action σ α) (s : σ) :
    List (Operation ι α) → σ → Prop where
  | start : History act s [] s
  | next {ops : List (Operation ι α)} {op : Operation ι α} {s₁ s₂ : σ} :
      History act s ops s₁ → Runs (act op.step) op.seat s₁ op.calls s₂ op.outcome →
        History act s (ops ++ [op]) s₂

namespace History

variable {ι σ α : Type} {act : ι → Action σ α} {s s' : σ}

/-- One history after another. -/
theorem append {ops ops' : List (Operation ι α)} {s₁ : σ} (h : History act s ops s₁)
    (h' : History act s₁ ops' s') : History act s (ops ++ ops') s' := by
  induction h' with
  | start => rwa [List.append_nil]
  | next hops hop ih =>
    rw [← List.append_assoc]
    exact ih.next hop

theorem of_nil (h : History act s [] s') : s' = s := by
  generalize hnil : [] = ops at h
  cases h with
  | start => rfl
  | next hops hop => simp at hnil

/-- Before the last operation there was a state from which it was carried out. -/
theorem of_append_singleton {ops : List (Operation ι α)} {op : Operation ι α}
    (h : History act s (ops ++ [op]) s') :
    ∃ s₁, History act s ops s₁ ∧ Runs (act op.step) op.seat s₁ op.calls s' op.outcome := by
  generalize hall : ops ++ [op] = all at h
  cases h with
  | start => simp at hall
  | next hops hop =>
    obtain ⟨rfl, hlast⟩ := List.append_inj' hall rfl
    obtain rfl := List.singleton_inj.1 hlast
    exact ⟨_, hops, hop⟩

/-- After the first operation there was a state from which the others were carried out. -/
theorem of_cons {op : Operation ι α} {ops : List (Operation ι α)}
    (h : History act s (op :: ops) s') :
    ∃ s₁, Runs (act op.step) op.seat s op.calls s₁ op.outcome ∧ History act s₁ ops s' := by
  induction ops using List.reverseRecOn generalizing s' with
  | nil =>
    rw [← List.nil_append [op]] at h
    obtain ⟨s₁, hnil, hop⟩ := h.of_append_singleton
    obtain rfl := hnil.of_nil
    exact ⟨s', hop, .start⟩
  | append_singleton ops last ih =>
    rw [← List.cons_append] at h
    obtain ⟨s₂, hops, hlast⟩ := h.of_append_singleton
    obtain ⟨s₁, hop, hrest⟩ := ih hops
    exact ⟨s₁, hop, hrest.next hlast⟩

variable (act)

/-- Carries out operations one after another, whether they fail or not. Each of them comes with the
answers to its calls. -/
def carryOut (seat : Seat) : List (ι × Answers) → σ → List (Operation ι α) × σ
  | [], s => ([], s)
  | (step, answers) :: rest, s =>
    let session := (act step).run seat s
    let (ops, s') := carryOut seat rest (session.under answers).1
    (⟨step, seat, session.transcript answers, (session.under answers).2⟩ :: ops, s')

/-- Whatever is asked for and however the network answers, there is a history of it. -/
theorem of_carryOut (seat : Seat) (requests : List (ι × Answers)) (s : σ) :
    History act s (carryOut act seat requests s).1 (carryOut act seat requests s).2 := by
  induction requests generalizing s with
  | nil => exact .start
  | cons request requests ih =>
    let session := (act request.1).run seat s
    have hfirst : History act s [⟨request.1, seat, session.transcript request.2,
        (session.under request.2).2⟩] (session.under request.2).1 :=
      .next .start ⟨request.2, rfl, rfl⟩
    exact hfirst.append (ih _)

end History

/-! ### What a check covers -/

/-- What has been revealed so far, oldest first, and how many of the entries are verified. -/
structure OpeningLog (α : Type) where
  entries : List α
  verified : Nat

namespace OpeningLog

variable {α : Type}

/-- Nothing has been revealed yet. -/
def blank : OpeningLog α := ⟨[], 0⟩

/-- More is revealed, and then all of it is verified if a check has passed. -/
def advance (log : OpeningLog α) (more : List α) (passed : Bool) : OpeningLog α where
  entries := log.entries ++ more
  verified := if passed then (log.entries ++ more).length else log.verified

/-- What awaits verification, oldest first. -/
def unverified (log : OpeningLog α) : List α := log.entries.drop log.verified

/-- No more is verified than has been revealed. -/
def Valid (log : OpeningLog α) : Prop := log.verified ≤ log.entries.length

variable {log : OpeningLog α}

theorem valid_blank : (blank : OpeningLog α).Valid := Nat.le_refl 0

theorem Valid.advance (h : log.Valid) (more : List α) (passed : Bool) :
    (log.advance more passed).Valid := by
  cases passed with
  | true => exact Nat.le_refl _
  | false => exact h.trans (by simp [OpeningLog.advance])

@[simp] theorem advance_nil_false : log.advance [] false = log := by
  simp [advance]

/-- A check that passes leaves nothing to verify. -/
theorem unverified_advance_true (more : List α) : (log.advance more true).unverified = [] := by
  simp [advance, unverified]

/-- Without such a check, what is revealed comes after what already awaits verification. -/
theorem Valid.unverified_advance_false (h : log.Valid) (more : List α) :
    (log.advance more false).unverified = log.unverified ++ more :=
  List.drop_append_of_le_length h

end OpeningLog

section Covered

variable {ι α β : Type} (passed : Operation ι α → Bool)
  (logOf : List (Operation ι α) → OpeningLog β)

/-- The entry at a place of the log was revealed and not yet verified when a check took place that
has passed. -/
def Covered (ops : List (Operation ι α)) (place : Nat) : Prop :=
  ∃ before op after, ops = before ++ op :: after ∧ passed op = true ∧
    (logOf before).verified ≤ place ∧ place < (logOf (before ++ [op])).entries.length

variable {passed logOf}

/-- An entry was covered before, or else by the last operation. -/
theorem covered_append_singleton_iff {ops : List (Operation ι α)} {op : Operation ι α} {place : Nat} :
    Covered passed logOf (ops ++ [op]) place ↔ Covered passed logOf ops place ∨
      passed op = true ∧ (logOf ops).verified ≤ place ∧
        place < (logOf (ops ++ [op])).entries.length := by
  constructor
  · rintro ⟨before, op', after, hops, h⟩
    obtain rfl | ⟨after, last, rfl⟩ := List.eq_nil_or_concat after
    · obtain ⟨rfl, hlast⟩ := List.append_inj' hops rfl
      obtain rfl := List.singleton_inj.1 hlast
      exact .inr h
    · rw [List.concat_eq_append, ← List.cons_append, ← List.append_assoc] at hops
      obtain ⟨rfl, -⟩ := List.append_inj' hops rfl
      exact .inl ⟨before, op', after, rfl, h⟩
  · rintro (⟨before, op', after, rfl, h⟩ | h)
    · exact ⟨before, op', after ++ [op], by simp, h⟩
    · exact ⟨ops, op, [], rfl, h⟩

variable (passed logOf)

/-- The log advances with every operation of a history. -/
structure Advances : Prop where
  start : logOf [] = .blank
  next : ∀ ops op, ∃ more, logOf (ops ++ [op]) = (logOf ops).advance more (passed op)

variable {passed logOf}

namespace Advances

variable (h : Advances passed logOf) (ops : List (Operation ι α))

include h

theorem valid : (logOf ops).Valid := by
  induction ops using List.reverseRecOn with
  | nil => exact h.start ▸ OpeningLog.valid_blank
  | append_singleton ops op ih =>
    obtain ⟨more, hmore⟩ := h.next ops op
    exact hmore ▸ ih.advance more _

/-- The verified entries are those that a passed check has covered. -/
theorem lt_verified_iff (place : Nat) :
    place < (logOf ops).verified ↔ Covered passed logOf ops place := by
  induction ops using List.reverseRecOn with
  | nil =>
    rw [h.start]
    refine ⟨fun hlt => absurd hlt (Nat.not_lt_zero _), ?_⟩
    rintro ⟨before, op, after, hops, -⟩
    simp at hops
  | append_singleton ops op ih =>
    obtain ⟨more, hmore⟩ := h.next ops op
    have hvalid : (logOf ops).verified ≤ (logOf ops).entries.length := h.valid ops
    rw [covered_append_singleton_iff, ← ih, hmore]
    cases passed op with
    | true =>
      simp only [OpeningLog.advance, if_true, List.length_append, true_and]
      omega
    | false => simp [OpeningLog.advance]

/-- Nothing awaits verification exactly if a passed check has covered every entry. -/
theorem unverified_eq_nil_iff : (logOf ops).unverified = [] ↔
    ∀ place < (logOf ops).entries.length, Covered passed logOf ops place := by
  simp only [← h.lt_verified_iff]
  rw [OpeningLog.unverified, List.drop_eq_nil_iff]
  constructor
  · intro hall place hplace
    exact hplace.trans_le hall
  · intro hall
    by_contra hlt
    exact absurd (hall _ (Nat.lt_of_not_le hlt)) (Nat.lt_irrefl _)

end Advances

end Covered

end Multiparty
