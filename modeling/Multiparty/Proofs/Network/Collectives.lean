import Mathlib
import Multiparty.Proofs.Network.Progress

/-!
# Collective operations under every schedule

In a collective operation every party takes part with a payload: all parties broadcast, or all of
them pass their payloads around the ring by the same offset. A party goes on to its next operation as
soon as its own part is done, so the payloads of several operations may be under way in one pipe.
Still every party gets in its `k`-th operation what the others have sent in their `k`-th one.

## Main definitions

* `Collective`: the operations.
* `Collective.performAll`: how a party takes part in a sequence of operations.
* `Collective.Recorded`: every operation has returned to everybody what the others have sent in it.

## Main results

* `Collective.succeed_performAll`: sequences of operations in lockstep.
* `Collective.alwaysEnds_performAll`: under every schedule they are completed without cross-talk.
-/

namespace Multiparty

open Multiparty.Action (Succeed)

variable {n : Nat}

/-- The party a number of places before along the ring, in terms of integers. -/
theorem Round.coe_previous (i : Fin n) (offset : Nat) :
    ((previous i offset : Nat) : Int) = ((i : Int) - offset) % n := by
  have hle : offset % n ≤ i + n := by
    have := Nat.mod_lt offset (Nat.zero_lt_of_lt i.isLt)
    omega
  change (((i + n - offset % n) % n : Nat) : Int) = _
  rw [Int.natCast_mod, Nat.cast_sub hle]
  refine Int.ModEq.symm (Int.modEq_iff_dvd.2 ⟨1 + offset / n, ?_⟩)
  have hsplit := Int.emod_add_mul_ediv offset n
  push_cast
  linear_combination -hsplit

/-- An operation in which all parties take part. -/
inductive Collective where
  /-- Everyone sends its payload to all others. -/
  | broadcast
  /-- Everyone sends its payload to the party so many places further. -/
  | pass (offset : Nat)
  deriving DecidableEq

namespace Collective

/-- The call by which a party takes part. -/
def call (payload : Bytes) : Collective → Call
  | broadcast => .broadcast payload
  | pass offset => .pass offset payload

/-- What `n` parties can do together: payloads are passed to somebody else, and nobody computes its
number beyond the machine word. -/
def Valid (n : Nat) : Collective → Prop
  | broadcast => True
  | pass offset => ¬ n ∣ offset ∧ ∀ i < n, isWord (i + offset) = true

/-- A party takes part in an operation and notes its turn. The payload may depend on all turns that
it has taken before. -/
def perform (payload : List Turn → Bytes) (op : Collective) : Action (List Turn) Unit := do
  let log ← get
  let reply ← Action.call (op.call (payload log))
  modify (· ++ [⟨op.call (payload log), reply⟩])

/-- A party takes part in a sequence of operations. -/
def performAll (payload : List Turn → Bytes) : List Collective → Action (List Turn) Unit
  | [] => pure ()
  | op :: ops => do
    perform payload op
    performAll payload ops

/-- The turn that a party takes in an operation in which the parties send given payloads: a broadcast
returns the payloads of all, and passing around that of the party as many places before. -/
def turn (sent : Fin n → Bytes) (i : Fin n) : Collective → Turn
  | broadcast => ⟨.broadcast (sent i), List.ofFn sent⟩
  | pass offset => ⟨.pass offset (sent i), sent (Round.previous i offset)⟩

/-- The parties have taken their turns in the operations, each of which has returned what was sent in
it. -/
structure Recorded (payload : Fin n → List Turn → Bytes) (ops : List Collective)
    (logs : Fin n → List Turn) : Prop where
  length : ∀ i, (logs i).length = ops.length
  turn : ∀ (k : Nat) (hk : k < ops.length) (i : Fin n),
    (logs i)[k]? = some (ops[k].turn (fun j => payload j ((logs j).take k)) i)

variable {payload : Fin n → List Turn → Bytes} {ops : List Collective} {logs : Fin n → List Turn}

/-- One more operation. -/
theorem Recorded.snoc (h : Recorded payload ops logs) (op : Collective) :
    Recorded payload (ops ++ [op])
      fun i => logs i ++ [op.turn (fun j => payload j (logs j)) i] where
  length i := by rw [List.length_append, List.length_append, h.length]; rfl
  turn k hk i := by
    have htake (j : Fin n) (hk : k ≤ ops.length) (t : Turn) :
        (logs j ++ [t]).take k = (logs j).take k :=
      List.take_append_of_le_length (h.length j ▸ hk)
    by_cases hlt : k < ops.length
    · rw [List.getElem?_append_left (h.length i ▸ hlt), h.turn k hlt, List.getElem_append_left hlt]
      simp only [htake _ hlt.le]
    · obtain rfl : k = ops.length := by
        rw [List.length_append, List.length_singleton] at hk
        omega
      have hall (j : Fin n) : (logs j).take ops.length = logs j := by rw [← h.length j, List.take_length]
      simp only [htake _ le_rfl, hall, List.getElem_concat_length]
      rw [← h.length i, List.getElem?_concat_length]

/-- All parties take part in one operation. -/
theorem succeed_perform (hword : isWord (n + n) = true) {op : Collective} (hop : op.Valid n)
    (payload : Fin n → List Turn → Bytes) (logs : Fin n → List Turn) :
    Succeed (fun i => perform (payload i) op) logs fun logs' _ =>
      logs' = fun i => logs i ++ [op.turn (fun j => payload j (logs j)) i] := by
  refine Succeed.get_bind ?_
  cases op with
  | broadcast =>
    exact Succeed.broadcast_bind (fun j => payload j (logs j)) (Succeed.modify rfl)
  | pass offset =>
    refine Succeed.pass_bind offset hop.1 (fun i => ⟨hop.2 i i.isLt, ?_⟩)
      (fun j => payload j (logs j)) (Succeed.modify rfl)
    have hi := i.isLt
    simp only [isWord, decide_eq_true_eq] at hword ⊢
    omega

/-- All parties take part in a sequence of operations, after some others. -/
theorem succeed_performAll (hword : isWord (n + n) = true) {done : List Collective}
    (hops : ∀ op ∈ ops, op.Valid n) (h : Recorded payload done logs) :
    Succeed (fun i => performAll (payload i) ops) logs fun logs' _ =>
      Recorded payload (done ++ ops) logs' := by
  induction ops generalizing done logs with
  | nil => exact Succeed.pure (by rwa [List.append_nil])
  | cons op ops ih =>
    obtain ⟨hop, hops⟩ := List.forall_mem_cons.1 hops
    refine Succeed.bind (succeed_perform hword hop payload logs) ?_
    rintro _ _ rfl
    rw [List.append_cons]
    exact ih hops (h.snoc op)

/-- However the sends and receives of the parties are scheduled, all of them complete all operations
of a sequence. In the `k`-th one a broadcast returns what every party has sent in its `k`-th one, and
passing around returns what the party so many places before has sent in its `k`-th one. Nothing is
left in the pipes. Every number of parties will do whose channels fit into memory. -/
theorem alwaysEnds_performAll (hn : isAddressable n 1 = true) (hops : ∀ op ∈ ops, op.Valid n)
    (payload : Fin n → List Turn → Bytes) :
    (Scene.start (Pipes.empty n fun _ => true) fun i =>
      (performAll (payload i) ops).run ⟨i, n⟩ []).AlwaysEnds fun x =>
        ∃ logs : Fin n → List Turn, (∀ i, x.post i = ⟨.done (logs i) (.ok ()), none⟩) ∧
          (∀ i j : Fin n, i ≠ j → x.pipes.queue i j = []) ∧
          (∀ i, (logs i).length = ops.length) ∧
          ∀ (k : Nat) (hk : k < ops.length) (i : Fin n),
            let sent := fun j => payload j ((logs j).take k)
            (ops[k] = .broadcast →
              (logs i)[k]? = some ⟨.broadcast (sent i), List.ofFn sent⟩) ∧
            ∀ offset, ops[k] = .pass offset → ∀ j : Fin n, (j : Int) = ((i : Int) - offset) % n →
              (logs i)[k]? = some ⟨.pass offset (sent i), sent j⟩ := by
  have hempty : Recorded payload [] fun _ => [] :=
    ⟨fun _ => rfl, fun k hk => absurd hk (Nat.not_lt_zero k)⟩
  have hlockstep := succeed_performAll (isWord_add_self hn) hops hempty
  refine (Lockstep.alwaysEnds hlockstep).mono ?_
  rintro x ⟨logs, _, hpost, ⟨_, rfl, hlength, hturn⟩, hqueue⟩
  refine ⟨logs, hpost, hqueue, hlength, fun k hk i => ?_⟩
  have hentry : (logs i)[k]? = some (ops[k].turn (fun j => payload j ((logs j).take k)) i) :=
    hturn k hk i
  refine ⟨fun hop => ?_, fun offset hop j hj => ?_⟩
  · rw [hentry, hop]
    rfl
  · rw [← Round.coe_previous, Nat.cast_inj, ← Fin.ext_iff] at hj
    rw [hentry, hop, hj]
    rfl

/-- Three parties broadcast, pass around by an offset beyond their number, and broadcast again. -/
theorem alwaysEnds_performAll_three :
    (∀ op ∈ [.broadcast, .pass 5, .broadcast], Valid 3 op) ∧
      (Scene.start (Pipes.empty 3 fun _ => true) fun i : Fin 3 =>
        (performAll (fun _ => [UInt8.ofNat i]) [.broadcast, .pass 5, .broadcast]).run ⟨i, 3⟩
          []).AlwaysEnds fun x =>
            ∃ logs : Fin 3 → List Turn, (∀ i, x.post i = ⟨.done (logs i) (.ok ()), none⟩) ∧
              (logs 0)[1]? = some ⟨.pass 5 [0], [1]⟩ ∧
              (logs 0)[2]? = some ⟨.broadcast [0], [[0], [1], [2]]⟩ := by
  have hops : ∀ op ∈ [.broadcast, .pass 5, .broadcast], Valid 3 op := by
    simp only [List.mem_cons, List.not_mem_nil, or_false, forall_eq_or_imp, forall_eq]
    exact ⟨trivial, ⟨by decide, by decide⟩, trivial⟩
  refine ⟨hops, (alwaysEnds_performAll rfl hops fun (i : Fin 3) _ => [UInt8.ofNat i]).mono ?_⟩
  rintro x ⟨logs, hpost, -, -, hturn⟩
  exact ⟨logs, hpost, (hturn 1 (by decide) 0).2 5 rfl 1 (by decide), (hturn 2 (by decide) 0).1 rfl⟩

end Collective

end Multiparty
