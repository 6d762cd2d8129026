import Mathlib
import Multiparty.Multiplication
import Multiparty.Proofs.Joint.Opening

/-!
# Multiplication by all parties together

A multiplication under way consists of two values, of a triple that masks them, and of sharings of
the masked differences. All parties keep the same multiplications in the same order, so that the
opened differences meet the triple that they belong to, and what is formed from them is a valid
sharing of the product.

## Main definitions

* `Sharing.ValidTriple`: a shared triple.
* `Sharing.Stocked`: supplies of all parties with valid triples.
* `Sharing.Masking`: a multiplication under way.
* `Multiplier.Joint`: the multipliers of all parties.

## Main results

* `Multiplier.Joint.prepare`, `Multiplier.Joint.exchange`, `Multiplier.Joint.finalize`: the stages
  of a multiplication.
-/

namespace Multiparty

open Multiparty.Action (Succeed)

namespace Sharing

variable {S R K : Type} [LinearShare S R K] [CodedRing R] {n : Nat} (V : Sharing S n)

/-- The triples of all parties are valid sharings of two values and their product. -/
def ValidTriple (t : Fin n → Triple S) : Prop :=
  ∃ a b, V.Valid (fun i => (t i).a) a ∧ V.Valid (fun i => (t i).b) b ∧
    V.Valid (fun i => (t i).c) (a * b)

/-- The supplies of all parties hold shares of the same `count` valid triples, in the same order. -/
def Stocked (supply : Fin n → Supply S R K) (count : Nat) : Prop :=
  ∃ triples : List (Fin n → Triple S), triples.length = count ∧
    (∀ t ∈ triples, V.ValidTriple t) ∧ ∀ i, (supply i).triples = triples.map (· i)

/-- A multiplication of `x` and `y` under way: a triple of sharings of `a`, `b` and their product,
and sharings of the differences that are to be opened. -/
structure Masking where
  (x y a b : R)
  triple : Fin n → Triple S
  masked : Fin n → S × S
  valid_a : V.Valid (fun i => (triple i).a) a
  valid_b : V.Valid (fun i => (triple i).b) b
  valid_c : V.Valid (fun i => (triple i).c) (a * b)
  valid_fst : V.Valid (fun i => (masked i).1) (x - a)
  valid_snd : V.Valid (fun i => (masked i).2) (y - b)

namespace Masking

variable {V}

/-- The values to be opened. -/
def differences (p : V.Masking) : R × R := (p.x - p.a, p.y - p.b)

/-- The values of two sharings multiplied by a shared triple. -/
theorem exists_of_triple {t : Fin n → Triple S} (ht : V.ValidTriple t) {x y : Fin n → S} {v w : R}
    (hx : V.Valid x v) (hy : V.Valid y w) :
    ∃ p : V.Masking, p.x = v ∧ p.y = w ∧ p.triple = t ∧
      p.masked = fun i => (x i - (t i).a, y i - (t i).b) := by
  obtain ⟨a, b, ha, hb, hc⟩ := ht
  exact ⟨⟨v, w, a, b, t, _, ha, hb, hc, V.sub hx ha, V.sub hy hb⟩, rfl, rfl, rfl, rfl⟩

/-- What is formed from the opened differences and the triple is a sharing of the product. -/
theorem valid_product [LawfulRing R] (p : V.Masking) {constant : R → Fin n → S}
    (hconstant : ∀ v, V.Valid (constant v) v) :
    V.Valid (fun i => (p.triple i).c + LinearShare.scale (p.triple i).b p.differences.1 +
      LinearShare.scale (p.triple i).a p.differences.2 +
        constant (p.differences.1 * p.differences.2) i) (p.x * p.y) := by
  have h := V.add (V.add (V.add p.valid_c (V.scale p.valid_b p.differences.1))
    (V.scale p.valid_a p.differences.2)) (hconstant (p.differences.1 * p.differences.2))
  have hvalue : p.a * p.b + p.b * p.differences.1 + p.a * p.differences.2 +
      p.differences.1 * p.differences.2 = p.x * p.y := by
    rw [differences]
    ring
  rwa [hvalue] at h

end Masking

end Sharing

namespace Multiplier

variable {O S R K : Type} [LinearShare S R K] [CodedRing R] {n : Nat}

/-- The multipliers of all parties. They have supplies of `count` triples, the multiplications
`prepared` wait for an exchange, and those in `exchanged` can be finished. -/
structure Joint (V : Sharing S n) (m : Fin n → Multiplier S R K) (count : Nat)
    (prepared exchanged : List V.Masking) : Prop where
  supply : V.Stocked (fun i => (m i).supply) count
  triples : ∀ i, (m i).triples.toList = (exchanged ++ prepared).map (·.triple i)
  masked : ∀ i, (m i).masked.toList = prepared.map (·.masked i)
  opened : ∀ i, (m i).opened.toList = exchanged.map (·.differences)

namespace Joint

variable {V : Sharing S n} {m : Fin n → Multiplier S R K} {count : Nat}
  {prepared exchanged : List V.Masking}

theorem create {supply : Fin n → Supply S R K} (h : V.Stocked supply count) :
    Joint V (fun i => Multiplier.create (supply i)) count [] [] :=
  ⟨h, fun _ => rfl, fun _ => rfl, fun _ => rfl⟩

theorem init (h : Joint V m count prepared exchanged) :
    Joint V (fun i => (m i).init) count [] [] :=
  ⟨h.supply, fun _ => rfl, fun _ => rfl, fun _ => rfl⟩

/-- All parties prepare a multiplication of valid sharings, which takes one triple. -/
theorem prepare (h : Joint V m (count + 1) prepared exchanged) {x y : Fin n → S} {v w : R}
    (hx : V.Valid x v) (hy : V.Valid y w) :
    ∃ m' p, (∀ i, Multiplier.prepare (x i) (y i) (m i) = (.ok (), m' i)) ∧
      p.x = v ∧ p.y = w ∧ Joint V m' count (prepared ++ [p]) exchanged := by
  obtain ⟨triples, hlen, hvalid, hsupply⟩ := h.supply
  obtain ⟨t, rest, rfl⟩ := List.exists_cons_of_length_eq_add_one hlen
  obtain ⟨p, hpx, hpy, rfl, hmasked⟩ :=
    Sharing.Masking.exists_of_triple (hvalid t List.mem_cons_self) hx hy
  refine ⟨fun i => { m i with
      supply := { (m i).supply with triples := rest.map (· i) }
      masked := (m i).masked.enqueue (p.masked i)
      triples := (m i).triples.enqueue (p.triple i) }, p, fun i => ?_, hpx, hpy, ?_⟩
  · rw [Multiplier.prepare, ofSupply, Attempt.zoom, Supply.triple, hsupply, hmasked]
    rfl
  · refine ⟨⟨rest, Nat.succ.inj hlen, fun t' ht' => hvalid t' (List.mem_cons_of_mem _ ht'),
      fun _ => rfl⟩, fun i => ?_, fun i => ?_, h.opened⟩
    · rw [Queue.toList_enqueue, h.triples]
      simp
    · rw [Queue.toList_enqueue, h.masked, List.map_append]
      rfl

/-- Without triples nobody can prepare a multiplication. -/
theorem prepare_eq_error (h : Joint V m 0 prepared exchanged) (x y : S) (i : Fin n) :
    Multiplier.prepare x y (m i) = (.error (.insufficient .triple), m i) := by
  obtain ⟨triples, hlen, -, hsupply⟩ := h.supply
  obtain rfl := List.eq_nil_of_length_eq_zero hlen
  rw [Multiplier.prepare, ofSupply, Attempt.zoom, Supply.triple, hsupply]
  rfl

/-- Without an exchanged multiplication nobody can finish one. -/
theorem finalize_eq_error [Opener O S R] (h : Joint V m count prepared []) (o : O) (i : Fin n) :
    Multiplier.finalize o (m i) = (.error (.misuse .nothingExchanged), m i) := by
  rw [Multiplier.finalize, (Queue.dequeue?_eq_none_iff _).2 (h.opened i)]

variable [Opener O S R] (J : JointOpening O n)

section Exchange

variable {J} {m : Fin n → Multiplier S R K} {prepared exchanged : List J.toSharing.Masking}

/-- The masked differences of all prepared multiplications, as sharings. -/
private theorem forall₂_masked (prepared : List J.toSharing.Masking) :
    List.Forall₂ J.Valid
      (prepared.flatMap fun p => [fun i => (p.masked i).1, fun i => (p.masked i).2])
      (prepared.flatMap fun p => [p.differences.1, p.differences.2]) := by
  induction prepared with
  | nil => exact .nil
  | cons p prepared ih => exact .cons p.valid_fst (.cons p.valid_snd ih)

private theorem maskedShares_eq (h : Joint J.toSharing m count prepared exchanged) (i : Fin n) :
    (m i).maskedShares =
      (prepared.flatMap fun p => [fun i => (p.masked i).1, fun i => (p.masked i).2]).map
        (fun x : Fin n → S => x i) := by
  rw [maskedShares, h.masked, List.flatMap_map, List.map_flatMap]
  rfl

/-- All parties queue the differences of everything prepared. -/
theorem holds_prepareAll {o : Fin n → O} {q vs : List R} (hopeners : J.Holds o q vs)
    (h : Joint J.toSharing m count prepared exchanged) :
    J.Holds (fun i => Opener.prepareAll (m i).maskedShares (o i))
      (prepared.flatMap fun p => [p.differences.1, p.differences.2]) [] := by
  have hqueued := J.prepareAll hopeners (forall₂_masked prepared)
  simpa only [← maskedShares_eq h] using hqueued

/-- What is known while all parties take the opened differences of the multiplications `left`. -/
private structure Taking (m : Fin n → Multiplier S R K) (prepared exchanged : List J.toSharing.Masking)
    (s : Fin n → O × Multiplier S R K) (left : List J.toSharing.Masking) : Prop where
  holds : J.Holds (fun i => (s i).1) [] (left.flatMap fun p => [p.differences.1, p.differences.2])
  supply : ∀ i, (s i).2.supply = (m i).supply
  triples : ∀ i, (s i).2.triples = (m i).triples
  masked : ∀ i, (s i).2.masked = .empty
  opened : ∃ taken, taken ++ left = prepared ∧
    ∀ i, (s i).2.opened.toList = (exchanged ++ taken).map (·.differences)

private theorem Taking.takePair {s : Fin n → O × Multiplier S R K} {p : J.toSharing.Masking}
    {left : List J.toSharing.Masking} (h : Taking m prepared exchanged s (p :: left)) :
    ∃ s', (∀ i, Multiplier.takePair (s i) = (.ok (), s' i)) ∧
      Taking m prepared exchanged s' left := by
  obtain ⟨o₁, hfirst, h₁⟩ := J.finalize h.holds
  obtain ⟨o₂, hsecond, h₂⟩ := J.finalize h₁
  obtain ⟨taken, htaken, hopened⟩ := h.opened
  refine ⟨fun i => (o₂ i, { (s i).2 with opened := (s i).2.opened.enqueue p.differences }),
    fun i => ?_, ⟨h₂, h.supply, h.triples, h.masked, taken ++ [p], ?_, fun i => ?_⟩⟩
  · rw [Multiplier.takePair]
    dsimp only
    rw [hfirst]
    dsimp only
    rw [hsecond]
  · rw [List.append_assoc, List.singleton_append, htaken]
  · rw [Queue.toList_enqueue, hopened]
    simp

/-- An exchange of all parties opens the differences of everything prepared. -/
theorem exchange {o : Fin n → O} {q vs : List R} (hopeners : J.Holds o q vs)
    (h : Joint J.toSharing m count prepared exchanged) :
    Succeed (fun _ => Multiplier.exchange) (fun i => (o i, m i)) fun s' _ =>
      (∃ q' vs', J.Holds (fun i => (s' i).1) q' vs') ∧
        Joint J.toSharing (fun i => (s' i).2) count [] (exchanged ++ prepared) := by
  refine Succeed.get_bind ?_
  dsimp only
  have hempty (i : Fin n) : (m i).masked.isEmpty = prepared.isEmpty := by
    rw [Bool.eq_iff_iff, Queue.isEmpty_iff, h.masked, List.map_eq_nil_iff, List.isEmpty_iff]
  simp only [hempty]
  cases hprepared : prepared.isEmpty with
  | true =>
    obtain rfl := List.isEmpty_iff.1 hprepared
    rw [List.append_nil]
    exact Succeed.pure ⟨⟨q, vs, hopeners⟩, h⟩
  | false =>
    simp only [Bool.false_eq_true, if_false]
    refine Succeed.modify_bind
      (fun i (p : O × Multiplier S R K) => (Opener.prepareAll p.2.maskedShares p.1, p.2)) ?_
    refine Succeed.bind (Q := fun s' _ => (J.Holds (fun i => (s' i).1) []
        (prepared.flatMap fun p => [p.differences.1, p.differences.2])) ∧ ∀ i, (s' i).2 = m i)
      (Succeed.zoom ((J.exchange (h.holds_prepareAll hopeners)).mono fun o' _ h' => ⟨h', fun _ => rfl⟩)) ?_
    rintro s₁ _ ⟨hholds, hsame⟩
    refine Succeed.modify_bind
      (fun i (p : O × Multiplier S R K) => (p.1, { p.2 with masked := .empty })) ?_
    have htaking : Taking m prepared exchanged
        (fun i => ((s₁ i).1, { (s₁ i).2 with masked := .empty })) (prepared ++ []) := by
      rw [List.append_nil]
      refine ⟨hholds, fun i => ?_, fun i => ?_, fun _ => rfl, [], rfl, fun i => ?_⟩
      · rw [hsame]
      · rw [hsame]
      · rw [hsame, h.opened, List.append_nil]
    obtain ⟨s₂, units, htimes, -, htaken⟩ := Attempt.times_eq (fun _ _ => True)
      (Taking m prepared exchanged) (fun s p left h => by
        obtain ⟨s', hpair, h'⟩ := h.takePair
        exact ⟨s', fun _ => (), hpair, trivial, h'⟩) prepared [] htaking
    have hlength (i : Fin n) : (m i).masked.length = prepared.length := by
      rw [← Queue.length_toList, h.masked, List.length_map]
    refine Succeed.ofAttempt_bind (fun i => (congrArg (Attempt.times takePair · _) (hlength i)).trans
      (htimes i)) (Succeed.pure ⟨⟨_, _, htaken.holds⟩, ?_⟩)
    obtain ⟨taken, hall, hopened⟩ := htaken.opened
    rw [List.append_nil] at hall
    subst hall
    refine ⟨?_, fun i => ?_, fun i => ?_, hopened⟩
    · simp only [htaken.supply]
      exact h.supply
    · rw [htaken.triples, h.triples, List.append_nil]
    · rw [htaken.masked]
      rfl

/-- All parties finish the oldest multiplication that has been exchanged. -/
theorem finalize [LawfulRing R] {o : Fin n → O} {q vs : List R} (hopeners : J.Holds o q vs)
    {p : J.toSharing.Masking} (h : Joint J.toSharing m count prepared (p :: exchanged)) :
    ∃ m' z, (∀ i, Multiplier.finalize (o i) (m i) = (.ok (z i), m' i)) ∧
      J.Valid z (p.x * p.y) ∧ Joint J.toSharing m' count prepared exchanged := by
  choose opened hopenedEq hopened using fun i => Queue.exists_dequeue? (h.opened i)
  choose triples htriplesEq htriples using fun i => Queue.exists_dequeue? (h.triples i)
  refine ⟨fun i => { m i with opened := opened i, triples := triples i }, _, fun i => ?_,
    p.valid_product (J.constant hopeners), ⟨h.supply, htriples, h.masked, hopened⟩⟩
  rw [Multiplier.finalize, hopenedEq]
  dsimp only
  rw [htriplesEq]

end Exchange

end Joint

end Multiplier

end Multiparty
