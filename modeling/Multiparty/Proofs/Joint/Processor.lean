import Mathlib
import Multiparty.Processor
import Multiparty.Proofs.Joint.Multiplication

/-!
# Batches of all parties together

All parties hand the same batch of operations to their processors. As long as the triples last,
products and openings come out right.

## Main definitions

* `Processor.Joint`: the processors of all parties between two batches.

## Main results

* `Processor.Joint.openShares`, `Processor.Joint.mul`, `Processor.Joint.check`: the batches.
-/

namespace Multiparty

open Multiparty.Action (Succeed)

namespace Processor

variable {O S R K : Type} [Opener O S R] [LinearShare S R K] [CodedRing R] {n : Nat}

/-- The processors of all parties between two batches, with `count` triples left. -/
structure Joint (J : JointOpening O n) (p : Fin n → Processor O S R K) (count : Nat) : Prop where
  openers : ∃ q vs, J.Holds (fun i => (p i).opener) q vs
  supply : J.Stocked (fun i => (p i).multiplier.supply) count

namespace Joint

variable {J : JointOpening O n} {p : Fin n → Processor O S R K} {count : Nat}

omit [Opener O S R] [LinearShare S R K] [CodedRing R] in
private theorem succeed_withOpener {α : Type} {ms : Fin n → Action O α}
    {Q : (Fin n → O) → (Fin n → α) → Prop} (h : Succeed ms (fun i => (p i).opener) Q) :
    Succeed (fun i => (withOpener (ms i) : Action (Processor O S R K) α)) p fun p' a =>
      Q (fun i => (p' i).opener) a ∧ ∀ i, (p' i).multiplier = (p i).multiplier :=
  Succeed.zoom (h.mono fun _ _ hq => ⟨hq, fun _ => rfl⟩)

/-- Opening a batch yields its values at all parties. -/
theorem openShares (h : Joint J p count) (xs : List J.Shared) :
    Succeed (fun i => (Processor.openShares (xs.map (·.shares i)) :
        Action (Processor O S R K) (List R))) p
      fun p' a => Joint J p' count ∧ a = fun _ => xs.map (·.value) := by
  obtain ⟨q, vs, hopeners⟩ := h.openers
  have hopen := J.openBatch hopeners (Sharing.forall₂_shared xs)
  simp only [List.map_map] at hopen
  refine (succeed_withOpener hopen).mono ?_
  rintro p' a ⟨⟨hopeners', ha⟩, hsame⟩
  refine ⟨⟨⟨_, _, hopeners'⟩, ?_⟩, ha⟩
  simp only [hsame]
  exact h.supply

/-- A check of all parties passes. -/
theorem check (h : Joint J p count) :
    Succeed (fun _ => (Processor.check : Action (Processor O S R K) Unit)) p
      fun p' _ => Joint J p' count := by
  obtain ⟨q, vs, hopeners⟩ := h.openers
  refine (succeed_withOpener (J.check hopeners)).mono ?_
  rintro p' a ⟨hopeners', hsame⟩
  refine ⟨⟨_, _, hopeners'⟩, ?_⟩
  simp only [hsame]
  exact h.supply

/-- What is known while all parties prepare the multiplications `left`. -/
private structure Preparing (J : JointOpening O n) (o : Fin n → O) (count : Nat)
    (products : List R) (s : Fin n → Processor O S R K) (left : List (J.Shared × J.Shared)) :
    Prop where
  opener : ∀ i, (s i).opener = o i
  multiplier : ∃ prepared : List J.Masking,
    Multiplier.Joint J.toSharing (fun i => (s i).multiplier) (count + left.length) prepared [] ∧
      prepared.map (fun p => p.x * p.y) ++ left.map (fun g => g.1.value * g.2.value) = products

private theorem Preparing.prepare {o : Fin n → O} {products : List R}
    {s : Fin n → Processor O S R K} {g : J.Shared × J.Shared} {left : List (J.Shared × J.Shared)}
    (h : Preparing J o count products s (g :: left)) :
    ∃ s', (∀ i, tryMultiplier (Multiplier.prepare (g.1.shares i) (g.2.shares i)) (s i) =
      (.ok (), s' i)) ∧ Preparing J o count products s' left := by
  obtain ⟨prepared, hmultiplier, hproducts⟩ := h.multiplier
  obtain ⟨m', p, hprepare, hx, hy, hmultiplier'⟩ := hmultiplier.prepare g.1.valid g.2.valid
  refine ⟨fun i => { s i with multiplier := m' i }, fun i => ?_, h.opener,
    prepared ++ [p], hmultiplier', ?_⟩
  · rw [tryMultiplier, Attempt.zoom, hprepare]
  · rw [← hproducts, List.map_append, List.append_assoc, List.map_singleton, hx, hy]
    rfl

/-- What is known while all parties finish multiplications with the products `left`. -/
private def Finishing (J : JointOpening O n) (count : Nat) (s : Fin n → Processor O S R K)
    (left : List R) : Prop :=
  (∃ q vs, J.Holds (fun i => (s i).opener) q vs) ∧ ∃ exchanged : List J.Masking,
    Multiplier.Joint J.toSharing (fun i => (s i).multiplier) count [] exchanged ∧
      exchanged.map (fun p => p.x * p.y) = left

private theorem Finishing.finalize [LawfulRing R] {s : Fin n → Processor O S R K} {v : R}
    {left : List R} (h : Finishing J count s (v :: left)) :
    ∃ s' z, (∀ i, finalizeProduct (s i) = (.ok (z i), s' i)) ∧ J.Valid z v ∧
      Finishing J count s' left := by
  obtain ⟨⟨q, vs, hopeners⟩, exchanged, hmultiplier, hleft⟩ := h
  obtain ⟨p, exchanged, rfl, rfl, rfl⟩ := List.map_eq_cons_iff.1 hleft
  obtain ⟨m', z, hfinalize, hz, hmultiplier'⟩ := hmultiplier.finalize hopeners
  refine ⟨fun i => { s i with multiplier := m' i }, z, fun i => ?_, hz, ⟨q, vs, hopeners⟩,
    exchanged, hmultiplier', rfl⟩
  rw [finalizeProduct, tryMultiplier, Attempt.zoom, hfinalize]

/-- Multiplying a batch of pairs yields valid sharings of the products and takes one triple for
each. -/
theorem mul [LawfulRing R] (gs : List (J.Shared × J.Shared)) (h : Joint J p (count + gs.length)) :
    Succeed (fun i => (Processor.mul (gs.map fun g => (g.1.shares i, g.2.shares i)) :
        Action (Processor O S R K) (List S))) p
      fun p' a => Joint J p' count ∧ ∃ products : List J.Shared,
        products.map (·.value) = gs.map (fun g => g.1.value * g.2.value) ∧
          a = fun i => products.map (·.shares i) := by
  obtain ⟨q, vs, hopeners⟩ := h.openers
  refine Succeed.modify_bind
    (fun _ (p : Processor O S R K) => { p with multiplier := p.multiplier.init }) ?_
  have hpreparing : Preparing J (fun i => (p i).opener) count
      (gs.map fun g => g.1.value * g.2.value)
      (fun i => { p i with multiplier := (p i).multiplier.init }) (gs ++ []) := by
    rw [List.append_nil]
    exact ⟨fun _ => rfl, [], ⟨h.supply, fun _ => rfl, fun _ => rfl, fun _ => rfl⟩, rfl⟩
  obtain ⟨s₁, units, hprepare, -, hprepared⟩ :=
    Attempt.forEach_eq (f := fun pair : S × S => tryMultiplier (Multiplier.prepare pair.1 pair.2))
      (fun i (g : J.Shared × J.Shared) => (g.1.shares i, g.2.shares i)) (fun _ _ => True)
      (Preparing J (fun i => (p i).opener) count (gs.map fun g => g.1.value * g.2.value))
      (fun s g left h => by
        obtain ⟨s', hprepare, h'⟩ := h.prepare
        exact ⟨s', fun _ => (), hprepare, trivial, h'⟩) gs [] hpreparing
  refine Succeed.ofAttempt_bind hprepare ?_
  obtain ⟨prepared, hmultiplier, hproducts⟩ := hprepared.multiplier
  rw [List.map_nil, List.append_nil] at hproducts
  have hopeners' : J.Holds (fun i => (s₁ i).opener) q vs := by
    simp only [hprepared.opener]
    exact hopeners
  have hexchange := hmultiplier.exchange hopeners'
  refine Succeed.bind (Q := fun s _ => Finishing J count s
    (gs.map fun g => g.1.value * g.2.value)) (Succeed.zoom (hexchange.mono ?_)) ?_
  · rintro s' _ ⟨hopeners', hmultiplier'⟩
    exact ⟨hopeners', prepared, hmultiplier', hproducts⟩
  · intro s₂ _ hfinishing
    rw [← List.append_nil (gs.map _)] at hfinishing
    obtain ⟨s₃, zs, htimes, hzs, hfinished⟩ := Attempt.times_eq J.Valid (Finishing J count)
      (fun s v left h => h.finalize) _ [] hfinishing
    obtain ⟨products, rfl, hvalues⟩ := Sharing.exists_shared hzs
    obtain ⟨hopeners', exchanged, hmultiplier', -⟩ := hfinished
    refine Succeed.ofAttempt (a := fun i => products.map (·.shares i)) (fun i => ?_)
      ⟨⟨hopeners', hmultiplier'.supply⟩, products, hvalues.symm, rfl⟩
    have hrun := htimes i
    rw [List.length_map, List.map_map] at hrun
    rw [List.length_map]
    exact hrun

end Joint

end Processor

end Multiparty
