import Mathlib
import Multiparty.Proofs.Network.Progress
import Multiparty.Proofs.Opening.Threshold

/-!
# Exchanges of threshold shares under every schedule

In an exchange the parties visit each other by increasing distance, and at one distance some send and
receive, some only send, some only receive, and some do neither. So the parties drift apart by
different numbers of calls. Still every schedule of their sends and receives brings all of them to
the end with the evaluations of all senders, and the pipes are empty again, so that a later exchange
does not get what an earlier one has sent.

## Main definitions

* `ThresholdOpener.exchangeAll`: how a party exchanges batches one after another.

## Main results

* `ThresholdOpener.succeed_exchangeAll`: exchanges of several batches in lockstep.
* `ThresholdOpener.listens_exchangeAll`: parties that are no senders only receive.
* `ThresholdOpener.alwaysEnds_exchangeAll`: exchanges under every schedule.
-/

namespace Multiparty

open Multiparty.Action (Ensures Succeed)

namespace ThresholdOpener

variable {F : Type} [CodedField F] {n senders : Nat}

/-- Queues batches of shares and exchanges them, one after another. -/
def exchangeAll : List (List (ThresholdShare F)) → Action (ThresholdOpener F) Unit
  | [] => pure ()
  | shares :: batches => do
    modify fun o => shares.foldl (fun o s => Opener.prepare s o) o
    exchange
    exchangeAll batches

/-- Several exchanges of all parties collect the evaluations that the senders have of all items. -/
theorem succeed_exchangeAll [LawfulField F] (hpos : 0 < senders) (hsenders : senders ≤ n)
    (hword : isWord (n + n) = true) {o : Fin n → ThresholdOpener F} (h : Aligned senders o)
    (hbatch : ∀ i, (o i).batch = #[]) (batches : List (List (Fin n → ThresholdShare F))) :
    Succeed (fun i => exchangeAll (batches.map fun items => items.map (· i))) o
      fun o' _ => ∀ i, (o' i).batch = #[] ∧ (o' i).received.toList =
        (o i).received.toList ++ batches.flatten.map (evaluations senders) := by
  induction batches generalizing o with
  | nil => exact Succeed.pure fun i => ⟨hbatch i, by simp⟩
  | cons items batches ih =>
    refine Succeed.modify_bind (fun i (o : ThresholdOpener F) =>
      (items.map (· i)).foldl (fun o s => Opener.prepare s o) o) ?_
    simp only [foldl_prepare, hbatch, Array.empty_append]
    have hqueued : Aligned senders fun i =>
        { o i with batch := (items.map (· i)).toArray } := ⟨h.party, h.parties, h.senders, h.fresh⟩
    have hitems (i : Fin n) : (items.map (· i)).toArray.toList = items.map (· i) := by simp
    refine Succeed.bind (hqueued.exchange hpos hsenders hword hitems) ?_
    rintro o' _ ⟨hrest, hreceived⟩
    choose received hrest using hrest
    obtain rfl := funext hrest
    refine (ih (o := fun i => { o i with batch := #[], received := received i })
      ⟨h.party, h.parties, h.senders, h.fresh⟩ fun i => rfl).mono ?_
    intro o'' _ hend i
    obtain ⟨hempty, hlist⟩ := hend i
    refine ⟨hempty, hlist.trans ?_⟩
    rw [hreceived, List.flatten_cons, List.map_append, List.append_assoc]

section Listens

variable {o s : ThresholdOpener F} {seat : Seat}

private theorem ensures_visit_of_le (hparty : o.senders ≤ o.party) (payload : Bytes) (offset : Nat)
    (columns : List (List F)) :
    Ensures (visit o payload offset columns) seat s fun t s' _ => OnlyReceives t ∧ s' = s := by
  rw [visit, decide_eq_false (Nat.not_lt.2 hparty)]
  cases decide ((o.party + o.parties - offset) % o.parties < o.senders) <;> dsimp only
  · exact Ensures.pure ⟨.nil, rfl⟩
  · exact Ensures.call_bind (fun bytes => Ensures.ofExcept ⟨.receive _ _, rfl⟩)
      fun e => ⟨.receive _ _, rfl⟩

private theorem ensures_exchangeAt_of_le (hparty : o.senders ≤ o.party) (payload : Bytes)
    (offsets : List Nat) (columns : List (List F)) :
    Ensures (exchangeAt o payload offsets columns) seat s
      fun t s' _ => OnlyReceives t ∧ s' = s := by
  induction offsets generalizing columns with
  | nil => exact Ensures.pure ⟨.nil, rfl⟩
  | cons offset offsets ih =>
    refine Ensures.bind ((ensures_visit_of_le hparty payload offset columns).mono ?_)
    rintro t s' (e | columns') ⟨ht, rfl⟩
    · exact ⟨ht, rfl⟩
    · exact (ih columns').mono fun t' _ _ ⟨ht', hs⟩ => ⟨ht.append ht', hs⟩

private theorem ensures_exchange_of_le (hparty : o.senders ≤ o.party) :
    Ensures exchange seat o fun t o' _ => OnlyReceives t ∧ o'.senders ≤ o'.party := by
  refine Ensures.get_bind (Ensures.seat_bind ?_)
  dsimp only
  split_ifs
  · exact Ensures.throw ⟨.nil, hparty⟩
  · exact Ensures.throw ⟨.nil, hparty⟩
  · exact Ensures.pure ⟨.nil, hparty⟩
  · refine Ensures.bind ((ensures_exchangeAt_of_le hparty _ _ _).mono ?_)
    rintro t s' (e | columns) ⟨ht, rfl⟩
    · exact ⟨ht, hparty⟩
    · exact Ensures.modify ⟨ht.append .nil, hparty⟩

/-- A party that is no sender only receives. -/
theorem listens_exchangeAll (hparty : o.senders ≤ o.party)
    (batches : List (List (ThresholdShare F))) : ((exchangeAll batches).run seat o).Listens := by
  have h : Ensures (exchangeAll batches) seat o fun t _ _ => OnlyReceives t := by
    induction batches generalizing o with
    | nil => exact Ensures.pure .nil
    | cons shares batches ih =>
      refine Ensures.bind (Ensures.modify ?_)
      rw [foldl_prepare]
      refine Ensures.bind ((ensures_exchange_of_le (o := { o with
        batch := o.batch ++ shares.toArray }) hparty).mono ?_)
      rintro t o' (e | _) ⟨ht, hparty'⟩
      · exact ht
      · exact (ih hparty').mono fun t' _ _ ht' => ht.append ht'
  exact fun answers => h answers

end Listens

/-- However the sends and receives of the parties are scheduled, the exchanges of all parties come to
their end, for parameters with which openers are made. Every party has collected, item by item, the
evaluations that the senders have queued, in party order, and nothing is left in the pipes. Parties
that are no senders send nothing at any time. Every number of parties will do whose channels fit into
memory. -/
theorem alwaysEnds_exchangeAll [LawfulField F] {threshold : Nat} {malicious : Bool}
    (hn : isAddressable n 1 = true) {o : Fin n → ThresholdOpener F}
    (ho : ∀ i : Fin n, create i n threshold malicious = .ok (o i))
    (batches : List (List (Fin n → ThresholdShare F))) :
    let start := Scene.start (Pipes.empty n fun _ => true) fun i =>
      (exchangeAll (batches.map fun items => items.map (· i))).run ⟨i, n⟩ (o i)
    start.AlwaysEnds (fun x => ∃ o' : Fin n → ThresholdOpener F,
      (∀ i, x.post i = ⟨.done (o' i) (.ok ()), none⟩) ∧
      (∀ i j : Fin n, i ≠ j → x.pipes.queue i j = []) ∧
      ∀ i, (o' i).batch = #[] ∧ (o' i).received.toList =
        batches.flatten.map (evaluations (sendersFor threshold malicious))) ∧
    ∀ x, start.Reaches x → ∀ i j : Fin n, sendersFor threshold malicious ≤ i →
      x.pipes.queue i j = [] := by
  intro start
  have hmade (i : Fin n) : Made i n threshold malicious (o i) :=
    ⟨o i, (o i).batch, (o i).received, (o i).poisoned, ho i, rfl⟩
  have hnew (i : Fin n) : (o i).poisoned = false ∧ (o i).batch = #[] ∧
      (o i).received.toList = [] ∧ sendersFor threshold malicious ≤ n := by
    obtain ⟨rows, -, hle, heq⟩ := exists_of_create (ho i)
    rw [heq]
    exact ⟨rfl, rfl, rfl, hle⟩
  have haligned : Aligned (sendersFor threshold malicious) o :=
    ⟨fun i => (hmade i).spec.1, fun i => (hmade i).spec.2.1, fun i => (hmade i).spec.2.2.2.1,
      fun i => (hnew i).1⟩
  refine ⟨?_, fun x hx i j hi => ?_⟩
  · have hpos : 0 < sendersFor threshold malicious := by
      rw [sendersFor]
      split <;> omega
    have hlockstep : Succeed (fun i => exchangeAll (batches.map fun items => items.map (· i))) o
        fun o' _ => ∀ i, (o' i).batch = #[] ∧ (o' i).received.toList =
          (o i).received.toList ++
            batches.flatten.map (evaluations (sendersFor threshold malicious)) := by
      rcases Nat.eq_zero_or_pos n with rfl | hparties
      · exact ⟨[], fun _ hr => (by cases hr), o, fun i => i.elim0, fun i => i.elim0, fun i => i.elim0,
          funext fun i => i.elim0, fun i => i.elim0⟩
      · exact succeed_exchangeAll hpos (hnew ⟨0, hparties⟩).2.2.2 (isWord_add_self hn) haligned
          (fun i => (hnew i).2.1) batches
    refine (Lockstep.alwaysEnds hlockstep).mono ?_
    rintro x ⟨o', _, hpost, ⟨_, rfl, hend⟩, hqueue⟩
    refine ⟨o', hpost, hqueue, fun i => ⟨(hend i).1, (hend i).2.trans ?_⟩⟩
    rw [(hnew i).2.2.1, List.nil_append]
  · refine hx.queue_eq_nil (.of_session (listens_exchangeAll ?_ _)) (fun _ => Pipes.queue_empty ..) j
    rw [haligned.senders, haligned.party]
    exact hi

section Example

-- The parties below name this instance, whatever else is imported.
private theorem audience_neZero : NeZero 3 := inferInstance

attribute [local instance] audience_neZero

/-- Openers of three parties of which the last one is no sender. -/
private def audience (i : Fin 3) : ThresholdOpener Mersenne61 :=
  ⟨i, 3, 1, false, [[2, 2305843009213693950].map CodedRing.ofWord], #[], .empty, false⟩

/-- Shares of one item, and then of two more. -/
private def unevenBatches : List (List (Fin 3 → ThresholdShare Mersenne61)) :=
  [[[6, 7, 8]], [[10, 10, 10], [3, 5, 7]]].map (·.map fun evaluations i =>
    ⟨CodedRing.ofWord (evaluations.getD i 0)⟩)

/-- Two exchanges of three parties leave all of them with the evaluations of the first two, and the
last party sends nothing. -/
theorem alwaysEnds_exchangeAll_audience :
    let start := Scene.start (Pipes.empty 3 fun _ => true) fun i : Fin 3 =>
      (exchangeAll (unevenBatches.map fun items => items.map (· i))).run ⟨i, 3⟩ (audience i)
    (∀ i : Fin 3, create i 3 1 false = .ok (audience i)) ∧
      start.AlwaysEnds (fun x => ∃ o' : Fin 3 → ThresholdOpener Mersenne61,
        (∀ i, x.post i = ⟨.done (o' i) (.ok ()), none⟩) ∧
        ∀ i, (o' i).received.toList =
          [[6, 7], [10, 10], [3, 5]].map (·.map CodedRing.ofWord)) ∧
      ∀ x, start.Reaches x → ∀ j : Fin 3, x.pipes.queue 2 j = [] := by
  intro start
  have hmade (i : Fin 3) : create i 3 1 false = .ok (audience i) :=
    create_eq_ok (by decide) (by decide) i.isLt (by decide +kernel)
  obtain ⟨hends, hsilent⟩ := alwaysEnds_exchangeAll rfl hmade unevenBatches
  refine ⟨hmade, hends.mono ?_, fun x hx j => hsilent x hx 2 j (by decide)⟩
  rintro x ⟨o', hpost, -, hend⟩
  exact ⟨o', hpost, fun i => (hend i).2.trans (by decide +kernel)⟩

end Example

end ThresholdOpener

end Multiparty
