import Mathlib
import Multiparty.Executor
import Multiparty.Proofs.Joint.Circuit
import Multiparty.Proofs.Joint.Processor

/-!
# Running circuits of all parties

When all parties run circuits that go on in step, every round serves the same requests at all of
them, and since somebody awaits every answer nothing is left unclaimed.

## Main definitions

* `Executor.Joint`: the executors of all parties between two rounds.

## Main results

* `Executor.Joint.round`: one round.
* `Executor.Joint.runCircuit`: whole circuits.
-/

namespace Multiparty

open Multiparty.Action (Succeed)

namespace Executor

variable {O S R K : Type} {n : Nat}

section Awaited

variable {β : Type} {requests : List (Request β)}

theorem isOutOfOrder_of_awaited (h : ∀ r ∈ requests, r.awaited = true) :
    isOutOfOrder requests = false := by
  rw [isOutOfOrder, List.dropWhile_eq_nil_iff.2 h]
  rfl

theorem leavesUnclaimed_of_awaited (h : ∀ r ∈ requests, r.awaited = true) :
    leavesUnclaimed requests = false := by
  refine List.any_eq_false.2 fun r hr => ?_
  rw [h r hr]
  exact Bool.false_ne_true

end Awaited

variable [Opener O S R] [LinearShare S R K] [CodedRing R]

/-- The products of one round. -/
private def serveMuls (r : Requests S) : Action (Executor O S R K) (List S) :=
  if r.muls.isEmpty then pure []
  else withProcessor (Processor.mul (r.muls.map (·.operand)))

/-- The opened values of one round. -/
private def serveOpens (r : Requests S) : Action (Executor O S R K) (List R) :=
  if r.opens.isEmpty then pure []
  else withProcessor (Processor.openShares (r.opens.map (·.operand)))

private theorem serve_eq (r : Requests S) :
    (serve r : Action (Executor O S R K) (List S × List R)) =
      serveMuls r >>= fun products => serveOpens r >>= fun values => pure (products, values) := by
  rw [serve, serveMuls]
  split <;> (rw [serveOpens]; split) <;> rfl

/-- The executors of all parties between two rounds: `count` triples are left, and earlier rounds
have left nothing behind. -/
structure Joint (J : JointOpening O n) (x : Fin n → Executor O S R K) (count : Nat) : Prop where
  processor : Processor.Joint J (fun i => (x i).processor) count
  unserved : ∀ i, (x i).unserved = .none
  products : ∀ i, (x i).unclaimedProducts = false
  values : ∀ i, (x i).unclaimedValues = false

namespace Joint

variable {J : JointOpening O n} {x : Fin n → Executor O S R K} {count : Nat}

/-- A batch of all processors, within executors. -/
private theorem succeed_withProcessor {α : Type} {count' : Nat} {P : (Fin n → α) → Prop}
    {ms : Fin n → Action (Processor O S R K) α} (h : Joint J x count)
    (hms : Succeed ms (fun i => (x i).processor) fun p a => Processor.Joint J p count' ∧ P a) :
    Succeed (fun i => withProcessor (ms i)) x fun x' a => Joint J x' count' ∧ P a :=
  Succeed.zoom (hms.mono fun _ _ hp => ⟨⟨hp.1, h.unserved, h.products, h.values⟩, hp.2⟩)

variable {muls : List (J.Shared × J.Shared)} {opens : List J.Shared}

private theorem succeed_serveMuls [LawfulRing R] (h : Joint J x (count + muls.length)) :
    Succeed (fun i => serveMuls (Requests.ofShared muls opens i)) x fun x' a =>
      Joint J x' count ∧ ∃ products : List J.Shared,
        products.map (·.value) = muls.map (fun m => m.1.value * m.2.value) ∧
          a = fun i => products.map (·.shares i) := by
  simp only [serveMuls, Requests.ofShared, List.isEmpty_map, List.map_map]
  cases hempty : muls.isEmpty with
  | true =>
    obtain rfl := List.isEmpty_iff.1 hempty
    exact Succeed.pure (a := fun _ => []) ⟨h, [], rfl, rfl⟩
  | false =>
    simp only [Bool.false_eq_true, if_false]
    exact h.succeed_withProcessor (h.processor.mul muls)

private theorem succeed_serveOpens (h : Joint J x count) :
    Succeed (fun i => serveOpens (Requests.ofShared muls opens i)) x fun x' a =>
      Joint J x' count ∧ a = fun _ => opens.map (·.value) := by
  simp only [serveOpens, Requests.ofShared, List.isEmpty_map, List.map_map]
  cases hempty : opens.isEmpty with
  | true =>
    obtain rfl := List.isEmpty_iff.1 hempty
    exact Succeed.pure (a := fun _ => []) ⟨h, rfl⟩
  | false =>
    simp only [Bool.false_eq_true, if_false]
    exact h.succeed_withProcessor (h.processor.openShares opens)

/-- Serving the same requests at all parties yields valid sharings of the products and the opened
values. -/
theorem serve [LawfulRing R] (h : Joint J x (count + muls.length)) (opens : List J.Shared) :
    Succeed (fun i => Executor.serve (Requests.ofShared muls opens i)) x
      fun x' a => Joint J x' count ∧ ∃ products : List J.Shared,
        products.map (·.value) = muls.map (fun m => m.1.value * m.2.value) ∧
          a = fun i => (products.map (·.shares i), opens.map (·.value)) := by
  simp only [serve_eq]
  refine Succeed.bind h.succeed_serveMuls ?_
  rintro x₁ _ ⟨h₁, products, hproducts, rfl⟩
  refine Succeed.bind h₁.succeed_serveOpens ?_
  rintro x₂ _ ⟨h₂, rfl⟩
  exact Succeed.pure ⟨h₂, products, hproducts, rfl⟩

omit [Opener O S R] [LinearShare S R K] [CodedRing R] in
/-- Answers that are all awaited are settled without a fault. -/
private theorem settle_eq {r : Requests S} (hmuls : ∀ q ∈ r.muls, q.awaited = true)
    (hopens : ∀ q ∈ r.opens, q.awaited = true) {x : Executor O S R K}
    (hproducts : x.unclaimedProducts = false) (hvalues : x.unclaimedValues = false) :
    settle r x = (.ok (), { x with rounds := x.rounds + 1 }) := by
  obtain ⟨processor, unserved, products, values, rounds⟩ := x
  dsimp only at hproducts hvalues
  subst hproducts hvalues
  simp only [settle, leavesUnclaimed_of_awaited hmuls, leavesUnclaimed_of_awaited hopens,
    isOutOfOrder_of_awaited hmuls, isOutOfOrder_of_awaited hopens, Bool.or_self,
    Bool.false_eq_true, if_false]

/-- One round of all parties serves what they ask for. -/
theorem round [LawfulRing R] (h : Joint J x (count + muls.length)) (hissued : muls ≠ [] ∨ opens ≠ []) :
    Lockstep (fun i => Executor.round (Requests.ofShared muls opens i) ⟨i, n⟩ (x i))
      fun x' answers => Joint J x' count ∧ ∃ products : List J.Shared,
        products.map (·.value) = muls.map (fun m => m.1.value * m.2.value) ∧
          answers = fun i => .ok (products.map (·.shares i), opens.map (·.value)) := by
  have hempty (i : Fin n) : (Requests.ofShared muls opens i).isEmpty = false := by
    rw [Requests.isEmpty, Requests.ofShared]
    simpa only [List.isEmpty_map, Bool.and_eq_false_iff, List.isEmpty_eq_false_iff] using hissued
  simp only [Executor.round, h.unserved, Requests.none_append, hempty, Bool.false_eq_true, if_false]
  have hserve : Joint J (fun i => { x i with unserved := .none }) (count + muls.length) :=
    ⟨h.processor, fun _ => rfl, h.products, h.values⟩
  refine Lockstep.bind (hserve.serve opens) ?_
  rintro x₁ _ ⟨_, rfl, h₁, products, hproducts, rfl⟩
  have hsettle (i : Fin n) : settle (Requests.ofShared muls opens i) (x₁ i) =
      (.ok (), { x₁ i with rounds := (x₁ i).rounds + 1 }) :=
    settle_eq (Requests.awaited_muls i) (Requests.awaited_opens i) (h₁.products i) (h₁.values i)
  simp only [hsettle]
  exact Lockstep.done ⟨⟨h₁.processor, h₁.unserved, h₁.products, h₁.values⟩, products, hproducts, rfl⟩

variable {α : Type} {Q : (Fin n → α) → Prop} {cs : Fin n → Circuit S R α} {k : Nat}

/-- Circuits of all parties that go on in step come to their ends, if there are triples for all
their multiplications. -/
theorem runCircuit [LawfulRing R] (h : Joint J x (count + k)) (hcs : Faithful J.toSharing Q cs k) :
    Lockstep (fun i => Executor.runCircuit (cs i) ⟨i, n⟩ (x i)) fun x' results =>
      Joint J x' count ∧ ∃ a, results = (fun i => .ok (a i)) ∧ Q a := by
  induction hcs generalizing x with
  | @done a hq =>
    simp only [Executor.runCircuit]
    refine Lockstep.done ⟨⟨h.processor, fun i => ?_, h.products, h.values⟩, a, rfl, hq⟩
    rw [Requests.append_none, h.unserved]
  | @wait muls opens resume k hissued _ ih =>
    simp only [Executor.runCircuit]
    rw [Nat.add_comm muls.length, ← Nat.add_assoc] at h
    refine Lockstep.bind (h.round hissued) ?_
    rintro x' _ ⟨h', products, hproducts, rfl⟩
    exact ih products hproducts h'

end Joint

end Executor

end Multiparty
