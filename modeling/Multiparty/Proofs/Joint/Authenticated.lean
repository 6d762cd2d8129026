import Mathlib
import Multiparty.Opening.MacCheck
import Multiparty.Proofs.Joint.Check
import Multiparty.Proofs.Joint.Opening
import Multiparty.Proofs.Opening.MacCheck

/-!
# Authenticated openers of all parties

All parties open the same values, and what they record of an item are shares of its authentication
code. So every check passes, whether an exchange runs it by itself or it is asked for.

## Main definitions

* `MacOpener.Joint`: the openers of all parties with valid sharings only.
* `MacOpener.jointOpening`: they fulfil the contract of openers.

## Main results

* `MacOpener.Joint.check`: a check of all parties passes.
* `MacOpener.idles_jointOpening`: with nothing to do they make no calls.
-/

namespace Multiparty

open Multiparty.Action (Succeed)

variable {n : Nat}

namespace MacOpener

variable {R : Type} [CodedRing R] [LawfulRing R]

/-- The openers of all parties under a key, with equal thresholds. What they have queued are valid
sharings of the values `queued`, all of them hold the opened values `opened`, and what they have
recorded of an item since the last check are its value and shares of its authentication code. -/
structure Joint (key : R) (config : ProtocolConfig) (o : Fin n → MacOpener R)
    (queued opened : List R) : Prop where
  party : ∀ i, (o i).party = i
  keys : ∑ i, (o i).key = key
  checkThreshold : ∀ i, (o i).checkThreshold = config.checkThreshold
  smallCheckThreshold : ∀ i, (o i).smallCheckThreshold = config.smallCheckThreshold
  fresh : ∀ i, (o i).poisoned = false
  batch : ∃ items : List (Fin n → MacShare R), List.Forall₂ (MacShare.Valid key) items queued ∧
    ∀ i, (o i).batch.toList = items.map (· i)
  opened : ∀ i, (o i).opened.toList = opened
  pending : ∃ items : List (R × (Fin n → R)), (∀ p ∈ items, ∑ i, p.2 i = p.1 * key) ∧
    ∀ i, (o i).pending.toList = items.map fun p => ⟨p.1, p.2 i⟩

namespace Joint

variable {key : R} {config : ProtocolConfig} {o : Fin n → MacOpener R} {q vs : List R}

/-- What the parties have recorded is a batch without defects. -/
theorem exists_pendingBatch (h : Joint key config o q vs) :
    ∃ (k : Nat) (b : PendingBatch R n k), b.HeldBy o ∧ ∀ j, b.defect j = 0 := by
  obtain ⟨items, hmacs, hpending⟩ := h.pending
  refine ⟨items.length, ⟨fun i => (o i).key, fun i j => ⟨(items.get j).1, (items.get j).2 i⟩⟩,
    ⟨h.party, fun i => rfl, fun i => ?_⟩, fun j => ?_⟩
  · rw [hpending, PendingBatch.pending]
    conv_lhs => rw [← List.ofFn_get items, List.map_ofFn]
    rfl
  · rw [PendingBatch.defect, Finset.sum_sub_distrib, ← Finset.mul_sum, h.keys,
      hmacs _ (List.get_mem items j), sub_self]

/-- Using up randomness changes nothing that counts. -/
theorem withRng (h : Joint key config o q vs) (rng : Fin n → ChaCha) :
    Joint key config (fun i => { o i with rng := rng i }) q vs :=
  ⟨h.party, h.keys, h.checkThreshold, h.smallCheckThreshold, h.fresh, h.batch, h.opened, h.pending⟩

/-- Checking item by item gives a good verdict at all parties. -/
theorem checkEach (h : Joint key config o q vs) : Concur MacOpener.checkEach o true := by
  obtain ⟨k, b, hheld, hdefect⟩ := h.exists_pendingBatch
  have hconcur := hheld.concur_checkEach
  rwa [decide_eq_true hdefect] at hconcur

/-- Checking a random combination gives a good verdict at all parties. -/
theorem checkCombined (h : Joint key config o q vs) : Concur MacOpener.checkCombined o true := by
  obtain ⟨k, b, hheld, hdefect⟩ := h.exists_pendingBatch
  obtain ⟨c, -, hconcur⟩ := hheld.exists_concur_checkCombined
  have hsum : ∑ j, c j * b.defect j = 0 := Finset.sum_eq_zero fun j _ => by rw [hdefect, mul_zero]
  rwa [decide_eq_true hsum] at hconcur

/-- A check of all parties passes. -/
theorem check (h : Joint key config o q vs) :
    Succeed (fun _ => MacOpener.check) o fun o' _ => Joint key config o' q vs := by
  obtain ⟨items, hmacs, hpending⟩ := h.pending
  have hsize (i : Fin n) : (o i).pending.size = items.length := size_of_toList_eq (hpending i)
  have hempty (i : Fin n) : (o i).pending.isEmpty = items.isEmpty :=
    isEmpty_of_toList_eq (hpending i)
  cases hitems : items.isEmpty with
  | true =>
    have hrun : (fun i : Fin n => MacOpener.check.run ⟨i, n⟩ (o i)) =
        fun i => .done (o i) (.ok ()) :=
      funext fun i => run_check_nil _ _ (h.fresh i) ((hempty i).trans hitems)
    rw [Succeed, hrun]
    exact Lockstep.done ⟨fun _ => (), rfl, h⟩
  | false =>
    have hrun : (fun i : Fin n => MacOpener.check.run ⟨i, n⟩ (o i)) = fun i : Fin n =>
        Session.bind conclude ((if items.length < config.smallCheckThreshold
          then MacOpener.checkEach else MacOpener.checkCombined).run ⟨i, n⟩ (o i)) := by
      funext i
      rw [run_check _ _ (h.fresh i) ((hempty i).trans hitems), hsize, h.smallCheckThreshold]
    have hverdict : Concur (if items.length < config.smallCheckThreshold
        then MacOpener.checkEach else MacOpener.checkCombined) o true := by
      split
      · exact h.checkEach
      · exact h.checkCombined
    rw [Succeed, hrun]
    refine Lockstep.bind hverdict ?_
    rintro _ _ ⟨_, rfl, ⟨rng, rfl⟩, rfl⟩
    refine Lockstep.done ⟨fun _ => (), rfl, ?_⟩
    exact { h.withRng rng with pending := ⟨[], fun p hp => (by cases hp), fun _ => rfl⟩ }

/-- The values of queued sharings are the sums of their value shares. -/
private theorem map_sum_eq {items : List (Fin n → MacShare R)} {ws : List R}
    (h : List.Forall₂ (MacShare.Valid key) items ws) :
    (items.map fun x => ∑ p, (x p).value) = ws := by
  induction h with
  | nil => rfl
  | cons hx _ ih => rw [List.map_cons, hx.value, ih]

/-- Recording an opened batch, whose items are opened to their values. -/
theorem record (h : Joint key config o q vs) :
    Joint key config (fun i => MacOpener.record q (o i)) [] (vs ++ q) := by
  obtain ⟨items, hitems, hbatch⟩ := h.batch
  obtain ⟨pending, hmacs, hpending⟩ := h.pending
  refine { h with batch := ⟨[], .nil, fun i => rfl⟩, opened := fun i => ?_, pending := ?_ }
  · rw [MacOpener.record, Queue.toList_appendList, h.opened]
  · refine ⟨pending ++ (items.zip q).map fun p => (p.2, fun i => (p.1 i).mac), fun p hp => ?_,
      fun i => ?_⟩
    · rcases List.mem_append.1 hp with hp | hp
      · exact hmacs p hp
      · obtain ⟨⟨x, v⟩, hmem, rfl⟩ := List.mem_map.1 hp
        exact (List.forall₂_zip hitems hmem).mac
    · rw [MacOpener.record, Array.toList_append, hpending, hbatch, List.map_append, List.map_map,
        List.zipWith_map_left, List.zip, List.map_zipWith]
      rfl

/-- An exchange of all parties opens what they have queued. -/
theorem exchange (h : Joint key config o q vs) :
    Succeed (fun _ => MacOpener.exchange) o fun o' _ => Joint key config o' [] (vs ++ q) := by
  obtain ⟨items, hitems, hbatch⟩ := h.batch
  have hempty (i : Fin n) : (o i).batch.isEmpty = items.isEmpty := isEmpty_of_toList_eq (hbatch i)
  refine Succeed.get_bind ?_
  simp only [h.fresh, hempty, Bool.false_eq_true, if_false]
  cases items with
  | nil =>
    cases hitems
    rw [List.append_nil]
    exact Succeed.pure h
  | cons x items =>
    simp only [List.isEmpty_cons, Bool.false_eq_true, if_false]
    have hown (i : Fin n) : (o i).batch.toList.map (·.value) =
        (x :: items).map fun y => (y i).value := by
      rw [hbatch, List.map_map]
      rfl
    refine Succeed.broadcast_bind
      (fun i => encodeValues ((o i).batch.toList.map (·.value))) ?_
    refine Succeed.ofExcept_bind (a := fun _ => q) (fun i => ?_) ?_
    · simp only [hown, h.party]
      rw [sumWithPeers_encodeValues i (x :: items) fun p y => (y p).value, map_sum_eq hitems]
    · refine Succeed.modify_bind (fun _ => MacOpener.record q) (Succeed.get_bind ?_)
      have hrecord := h.record
      obtain ⟨pending, -, hpending⟩ := hrecord.pending
      have hsize (i : Fin n) : (MacOpener.record q (o i)).pending.size = pending.length :=
        size_of_toList_eq (hpending i)
      simp only [hsize, hrecord.checkThreshold]
      split
      · exact hrecord.check
      · exact Succeed.pure hrecord

/-- All parties take the next opened value. -/
theorem finalize {v : R} (h : Joint key config o q (v :: vs)) :
    ∃ o', (∀ i, MacOpener.finalize (o i) = (.ok v, o' i)) ∧ Joint key config o' q vs := by
  choose rest hdequeue hrest using fun i => Queue.exists_dequeue? (h.opened i)
  refine ⟨fun i => { o i with opened := rest i }, fun i => ?_, { h with opened := hrest }⟩
  rw [MacOpener.finalize, if_neg (by simp [h.fresh]), hdequeue]

end Joint

/-- The openers of authenticated shares fulfil the contract of openers. -/
def jointOpening (hn : 0 < n) (key : R) (config : ProtocolConfig) :
    JointOpening (MacOpener R) n where
  toSharing := MacShare.sharing key n
  Holds := Joint key config
  constant {o q vs} h v := by
    have hconstant := MacShare.valid_constant hn (fun i => (o i).key) v
    rw [h.keys] at hconstant
    refine (congrArg (fun x => MacShare.Valid key x v) (funext fun i => ?_)).mp hconstant
    rw [← h.party i]
    rfl
  init h := { h with batch := ⟨[], .nil, fun _ => rfl⟩, opened := fun _ => rfl }
  prepare {o q vs x v} h hx := by
    obtain ⟨items, hitems, hbatch⟩ := h.batch
    exact { h with batch := ⟨items ++ [x], List.rel_append hitems (.cons hx .nil),
      fun i => toList_push_of_toList_eq (hbatch i) x⟩ }
  exchange h := h.exchange
  finalize h := h.finalize
  check h := h.check

theorem idles_jointOpening (hn : 0 < n) (key : R) (config : ProtocolConfig) :
    (jointOpening hn key config).Idles where
  exchange {o vs} h i := by
    obtain ⟨items, hitems, hbatch⟩ := h.batch
    change MacOpener.exchange.run ⟨i, n⟩ (o i) = _
    rw [MacOpener.exchange, Action.run_get_bind, if_neg (by simp [h.fresh]),
      if_pos (isEmpty_of_forall₂_nil hitems (hbatch i))]
    rfl
  check {o q vs} h i hpending :=
    run_check_nil _ _ (h.fresh i) (decide_eq_true (show (o i).pending.size = 0 from hpending))
  finalize {o q} h i := by
    change MacOpener.finalize (o i) = _
    rw [MacOpener.finalize, if_neg (by simp [h.fresh]),
      (Queue.dequeue?_eq_none_iff _).2 (h.opened i)]

end MacOpener

end Multiparty
