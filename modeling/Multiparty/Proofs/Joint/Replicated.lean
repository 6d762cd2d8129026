import Mathlib
import Multiparty.Opening.Replicated
import Multiparty.Proofs.Codec
import Multiparty.Proofs.Joint.Opening

/-!
# Replicated openers of all parties

Every party receives the one part of a value that it misses, and in communication mode it receives
it twice, each time as it is. All parties take the same values in the same order, so that in hash
mode their hashes agree.

## Main definitions

* `ReplicatedOpener.Joint`: the openers of all parties with valid sharings only.
* `ReplicatedOpener.jointOpening`: they fulfil the contract of openers.

## Main results

* `ReplicatedOpener.idles_jointOpening`: with nothing to do they make no calls.
-/

namespace Multiparty

open Multiparty.Action (Succeed)

namespace ReplicatedOpener

variable {R : Type} [CodedRing R] [LawfulRing R]

/-- An opening of a value, whose two copies of the missing part agree. -/
def Opens (opening : ReplicatedOpening R) (v : R) : Prop :=
  opening.localSum + opening.fromPrevious = v ∧
    opening.fromNext.any (· ≠ opening.fromPrevious) = false

/-- The openers of all parties in one mode. What they have queued are valid sharings of the values
`queued`, all of them can take the values `opened`, and all of them have taken the same values since
the last check. -/
structure Joint (mode : ReplicatedCheck) (o : Fin 3 → ReplicatedOpener R)
    (queued opened : List R) : Prop where
  party : ∀ i, (o i).party = i
  mode : ∀ i, (o i).mode = mode
  fresh : ∀ i, (o i).poisoned = false
  batch : ∃ items : List (Fin 3 → ReplicatedShare R),
    List.Forall₂ ReplicatedShare.Valid items queued ∧ ∀ i, (o i).batch.toList = items.map (· i)
  received : ∀ i, List.Forall₂ Opens (o i).received.toList opened
  unchecked : ∃ values : List R, ∀ i, (o i).unchecked.toList = values

namespace Joint

variable {mode : ReplicatedCheck} {o : Fin 3 → ReplicatedOpener R} {q vs : List R}

/-- Everyone can send to everyone else. -/
private theorem isWord_small (i : Fin 3) {offset : Nat} (h : offset ≤ 3) :
    isWord (i + offset) = true ∧ isWord (i + 3) = true := by
  have hi := i.isLt
  refine ⟨decide_eq_true ?_, decide_eq_true ?_⟩ <;> rw [wordSize, UInt64.size] <;> omega

/-- The parts that a party misses, as its neighbours send them. -/
private theorem opens_of_valid {x : Fin 3 → ReplicatedShare R} {v : R}
    (h : ReplicatedShare.Valid x v) (i : Fin 3) :
    (x i).sum + (x (Round.previous i 1)).own = v ∧
      (x (Round.previous i 2)).next = (x (Round.previous i 1)).own := by
  rw [← h.sum, ReplicatedShare.sum]
  match i with
  | 0 =>
    have h0 := h.next 0
    have h1 := h.next 1
    refine ⟨?_, h1⟩
    rw [h0]
    rfl
  | 1 =>
    have h1 := h.next 1
    have h2 := h.next 2
    refine ⟨?_, h2⟩
    rw [h1]
    change (x 1).own + (x 2).own + (x 0).own = _
    ring
  | 2 =>
    have h2 := h.next 2
    have h0 := h.next 0
    refine ⟨?_, h0⟩
    rw [h2]
    change (x 2).own + (x 0).own + (x 1).own = _
    ring

/-- Reading what another party sends of the queued sharings. -/
private theorem decodeValues_map {items : List (Fin 3 → ReplicatedShare R)} {k : Nat}
    (hk : k = items.length) (part : (Fin 3 → ReplicatedShare R) → R) :
    decodeValues (encodeValues (items.map part)) (some k) = .ok (items.map part) := by
  have h := decodeValues_encodeValues (items.map part)
  rwa [List.length_map, ← hk] at h

/-- In communication mode the missing parts are received a second time. -/
private theorem succeed_secondCopies (h : Joint mode o q vs)
    {items : List (Fin 3 → ReplicatedShare R)} (hbatch : ∀ i, (o i).batch.toList = items.map (· i)) :
    Succeed (fun _ => secondCopies) o fun o' a => o' = o ∧ ∀ i, a i =
      items.map fun x => if mode = .communication then some (x (Round.previous i 2)).next
        else none := by
  have hsize (i : Fin 3) : (o i).batch.size = items.length := size_of_toList_eq (hbatch i)
  have hnext (i : Fin 3) : (o i).batch.toList.map (·.next) = items.map fun x => (x i).next := by
    rw [hbatch, List.map_map]
    rfl
  have hnone (i : Fin 3) : List.replicate (o i).batch.size none =
      items.map fun _ => (none : Option R) := by
    rw [hsize, List.map_const']
  refine Succeed.get_bind ?_
  simp only [h.mode]
  cases mode with
  | communication =>
    refine Succeed.pass_bind 2 (by decide) (fun i => isWord_small i (by decide))
      (fun i => encodeValues ((o i).batch.toList.map (·.next))) ?_
    refine Succeed.ofExcept_bind (fun i => ?_)
      (Succeed.pure (a := fun i => (items.map fun x => (x (Round.previous i 2)).next).map some)
        ⟨rfl, fun i => ?_⟩)
    · rw [hnext]
      exact decodeValues_map (hsize i) fun x => (x (Round.previous i 2)).next
    · dsimp only
      rw [List.map_map]
      rfl
  | semiHonest => exact Succeed.pure ⟨rfl, hnone⟩
  | hash => exact Succeed.pure ⟨rfl, hnone⟩

/-- Recording what was received of the queued sharings. -/
private theorem record (h : Joint mode o q vs) {items : List (Fin 3 → ReplicatedShare R)}
    (hitems : List.Forall₂ ReplicatedShare.Valid items q)
    (hbatch : ∀ i, (o i).batch.toList = items.map (· i)) :
    Joint mode (fun i => ReplicatedOpener.record
      (items.map fun x => (x (Round.previous i 1)).own)
      (items.map fun x => if mode = .communication then some (x (Round.previous i 2)).next
        else none) (o i)) [] (vs ++ q) := by
  refine { h with batch := ⟨[], .nil, fun _ => rfl⟩, received := fun i => ?_ }
  rw [ReplicatedOpener.record, Queue.toList_appendList, hbatch, List.zip, List.zipWith_map,
    List.zipWith_self, List.zipWith_map, List.zipWith_self]
  refine List.rel_append (h.received i) (List.forall₂_map_left_iff.2 (hitems.imp ?_))
  intro x v hx
  obtain ⟨hsum, hcopies⟩ := opens_of_valid hx i
  refine ⟨hsum, ?_⟩
  dsimp only
  rw [← hcopies]
  split
  · rw [Option.any_some]
    exact decide_eq_false (not_not.2 rfl)
  · rfl

/-- An exchange of all parties opens what they have queued. -/
theorem exchange (h : Joint mode o q vs) :
    Succeed (fun _ => ReplicatedOpener.exchange) o fun o' _ => Joint mode o' [] (vs ++ q) := by
  obtain ⟨items, hitems, hbatch⟩ := h.batch
  have hsize (i : Fin 3) : (o i).batch.size = items.length := size_of_toList_eq (hbatch i)
  have hempty (i : Fin 3) : (o i).batch.isEmpty = items.isEmpty := isEmpty_of_toList_eq (hbatch i)
  refine Succeed.get_bind (Succeed.seat_bind ?_)
  simp only [h.fresh, hempty, Bool.false_eq_true, if_false, replicatedParties, ne_eq,
    not_true_eq_false]
  cases items with
  | nil =>
    cases hitems
    rw [List.append_nil]
    exact Succeed.pure h
  | cons x items =>
    simp only [List.isEmpty_cons, Bool.false_eq_true, if_false]
    have hown (i : Fin 3) : (o i).batch.toList.map (·.own) =
        (x :: items).map fun y => (y i).own := by
      rw [hbatch, List.map_map]
      rfl
    refine Succeed.pass_bind 1 (by decide) (fun i => isWord_small i (by decide))
      (fun i => encodeValues ((o i).batch.toList.map (·.own))) ?_
    refine Succeed.ofExcept_bind
      (a := fun i => (x :: items).map fun y => (y (Round.previous i 1)).own) (fun i => ?_) ?_
    · rw [hown]
      exact decodeValues_map (hsize i) fun y => (y (Round.previous i 1)).own
    · refine Succeed.bind (h.succeed_secondCopies hbatch) ?_
      rintro _ a ⟨rfl, ha⟩
      obtain rfl := funext ha
      exact Succeed.modify (h.record hitems hbatch)

omit [LawfulRing R] in
/-- All parties take the next opened value. -/
theorem finalize {v : R} (h : Joint mode o q (v :: vs)) :
    ∃ o', (∀ i, ReplicatedOpener.finalize (o i) = (.ok v, o' i)) ∧ Joint mode o' q vs := by
  choose opening rest hdequeue hopens hrest using
    fun i => Queue.exists_dequeue?_of_forall₂ (h.received i)
  obtain ⟨values, hvalues⟩ := h.unchecked
  refine ⟨fun i => { o i with
      received := rest i
      unchecked := if mode = .hash then (o i).unchecked.push v else (o i).unchecked },
    fun i => ?_, { h with received := hrest, unchecked := ?_ }⟩
  · rw [ReplicatedOpener.finalize, if_neg (by simp [h.fresh]), hdequeue]
    dsimp only
    rw [if_neg (by rw [(hopens i).2]; exact Bool.false_ne_true), (hopens i).1, h.mode]
    split <;> rfl
  · by_cases hmode : mode = .hash
    · refine ⟨values ++ [v], fun i => ?_⟩
      dsimp only
      rw [if_pos hmode, Array.toList_push, hvalues]
    · refine ⟨values, fun i => ?_⟩
      dsimp only
      rw [if_neg hmode, hvalues]

private theorem allEqual_ofFn (digest : Fin 3 → Bytes) (h : ∀ i j, digest i = digest j) :
    allEqual (List.ofFn digest) = true := by
  have hall : ∀ b ∈ List.ofFn fun i : Fin 2 => digest i.succ, b = digest 0 := by
    rw [List.forall_mem_ofFn_iff]
    exact fun i => h _ _
  rw [List.ofFn_succ, allEqual, List.all_eq_true]
  exact fun b hb => decide_eq_true (hall b hb)

omit [LawfulRing R] in
/-- A check of all parties passes. -/
theorem check (h : Joint mode o q vs) :
    Succeed (fun _ => ReplicatedOpener.check) o fun o' _ => Joint mode o' q vs := by
  obtain ⟨values, hvalues⟩ := h.unchecked
  have hempty (i : Fin 3) : (o i).unchecked.isEmpty = values.isEmpty :=
    isEmpty_of_toList_eq ((hvalues i).trans (List.map_id values).symm)
  have hdigest (i j : Fin 3) : (o i).digest = (o j).digest := by
    rw [digest, digest, hvalues, hvalues]
  refine Succeed.get_bind ?_
  simp only [h.fresh, hempty, Bool.false_eq_true, if_false]
  split
  · exact Succeed.pure h
  · refine Succeed.attempt_bind (Succeed.broadcast fun i => (o i).digest) ?_
    rintro _ _ ⟨rfl, rfl⟩
    dsimp only
    rw [if_pos (allEqual_ofFn _ hdigest)]
    refine Succeed.modify ?_
    exact { h with unchecked := ⟨[], fun _ => rfl⟩ }

end Joint

/-- The openers of replicated shares fulfil the contract of openers. -/
def jointOpening (mode : ReplicatedCheck) : JointOpening (ReplicatedOpener R) 3 where
  toSharing := ReplicatedShare.sharing
  Holds := Joint mode
  constant {o q vs} h v := by
    have hconstant := ReplicatedShare.valid_constant v
    refine (congrArg (fun x => ReplicatedShare.Valid x v) (funext fun i => ?_)).mp hconstant
    rw [← h.party i]
    rfl
  init h := { h with batch := ⟨[], .nil, fun _ => rfl⟩, received := fun _ => .nil }
  prepare {o q vs x v} h hx := by
    obtain ⟨items, hitems, hbatch⟩ := h.batch
    exact { h with batch := ⟨items ++ [x], List.rel_append hitems (.cons hx .nil),
      fun i => toList_push_of_toList_eq (hbatch i) x⟩ }
  exchange h := h.exchange
  finalize h := h.finalize
  check h := h.check

theorem idles_jointOpening (mode : ReplicatedCheck) : (jointOpening (R := R) mode).Idles where
  exchange {o vs} h i := by
    obtain ⟨items, hitems, hbatch⟩ := h.batch
    change ReplicatedOpener.exchange.run ⟨i, 3⟩ (o i) = _
    rw [ReplicatedOpener.exchange, Action.run_get_bind, Action.run_seat_bind,
      if_neg (by simp [h.fresh]), if_neg fun hne => hne rfl,
      if_pos (isEmpty_of_forall₂_nil hitems (hbatch i))]
    rfl
  check {o q vs} h i hpending := by
    have hempty : (o i).unchecked.isEmpty = true := by
      by_contra hne
      exact absurd ((if_neg hne).symm.trans hpending) one_ne_zero
    change ReplicatedOpener.check.run ⟨i, 3⟩ (o i) = _
    rw [ReplicatedOpener.check, Action.run_get_bind, if_neg (by simp [h.fresh]), if_pos hempty]
    rfl
  finalize {o q} h i := by
    change ReplicatedOpener.finalize (o i) = _
    rw [ReplicatedOpener.finalize, if_neg (by simp [h.fresh]),
      (Queue.dequeue?_eq_none_iff _).2 (List.forall₂_nil_right_iff.1 (h.received i))]

end ReplicatedOpener

end Multiparty
