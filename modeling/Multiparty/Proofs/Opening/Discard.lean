import Mathlib
import Multiparty.Proofs.Opening.HashCheck
import Multiparty.Proofs.Opening.Pending

/-!
# Discarding an opener

An opener that defers its checks refuses to be discarded as long as something that it has opened is
not verified, unless it is poisoned. With authenticated shares the check is deferred from the
exchange on, with hashes from the moment at which a value is taken.

## Main definitions

* `Accounted`: what a history says of the values that an opener has handed out.
* `hashLog`: the values taken in hash mode and how many of them are verified.

## Main results

* `ReplicatedOpener.remembers_of_history`: what is remembered in hash mode after any history.
* `Opener.accounted_of_history`: no value disappears unverified.
-/

namespace Multiparty

open Multiparty.Action (Ensures Runs)

variable {S R : Type}

/-- Either the opener may not be discarded, or it is poisoned, or the entries at the given places
were covered by checks that have passed. It has no pending checks exactly if all entries were. -/
structure Accounted {O β : Type} [Opener O S R]
    (logOf : List (Operation (OpenerStep S) (Option R)) → OpeningLog β)
    (ops : List (Operation (OpenerStep S) (Option R))) (o : O) (taken : List Nat) : Prop where
  discarded : (Opener.discardFault? o).isSome = true ∨ Opener.isPoisoned o = true ∨
    ∀ place ∈ taken, Covered Operation.passed logOf ops place
  pending : Opener.pendingChecks o = 0 ↔
    ∀ place < (logOf ops).entries.length, Covered Operation.passed logOf ops place

/-- It is enough that an opener with pending checks is not discarded, and that it has some exactly as
long as something awaits verification. -/
theorem Accounted.of_unverified {O β : Type} [Opener O S R]
    {logOf : List (Operation (OpenerStep S) (Option R)) → OpeningLog β}
    (hlog : Advances Operation.passed logOf) {ops : List (Operation (OpenerStep S) (Option R))}
    {o : O} {taken : List Nat} (htaken : ∀ place ∈ taken, place < (logOf ops).entries.length)
    (hpending : Opener.pendingChecks o = 0 ↔ (logOf ops).unverified = [])
    (hfault : Opener.discardFault? o = none → Opener.isPoisoned o = false →
      Opener.pendingChecks o = 0) : Accounted logOf ops o taken := by
  have hcovered := hpending.trans (hlog.unverified_eq_nil_iff ops)
  refine ⟨?_, hcovered⟩
  cases hdiscard : Opener.discardFault? o with
  | some fault => exact .inl rfl
  | none =>
    cases hpoisoned : Opener.isPoisoned o with
    | true => exact .inr (.inl rfl)
    | false =>
      have hall := hcovered.1 (hfault hdiscard hpoisoned)
      exact .inr (.inr fun place hplace => hall place (htaken place hplace))

variable [CodedRing R]

namespace MacOpener

/-- What was taken from an opener of authenticated shares is accounted for. -/
theorem accounted {party : Nat} {key : R} {config : ProtocolConfig} {rng : ChaCha}
    {ops : List (Operation (OpenerStep (MacShare R)) (Option R))} {o : MacOpener R}
    (h : History OpenerStep.act (create party key config rng) ops o) :
    Accounted (fun ops => (MacLedger.after party ops).log) ops o (MacLedger.after party ops).taken := by
  have hkeeps := keeps_of_history h
  refine .of_unverified (MacLedger.advances party) (Reads.lt_length_of_mem hkeeps.taken) ?_
    fun hnone hfresh => ?_
  · rw [← hkeeps.pending]
    simp [Opener.pendingChecks]
  · have hunchecked : o.hasUnchecked = false := by simpa [Opener.discardFault?] using hnone
    have hpoisoned : o.poisoned = false := hfresh
    have hempty : o.pending = #[] := by simpa [hasUnchecked, hpoisoned] using hunchecked
    simp [Opener.pendingChecks, hempty]

end MacOpener

/-! ### Hash mode -/

/-- The values that were taken in hash mode. -/
def hashLog (ops : List (Operation (OpenerStep (ReplicatedShare R)) (Option R))) : OpeningLog R :=
  ops.foldl (fun log op => log.advance op.value?.toList op.passed) .blank

omit [CodedRing R] in
theorem hashLog_append_singleton (ops : List (Operation (OpenerStep (ReplicatedShare R)) (Option R)))
    (op : Operation (OpenerStep (ReplicatedShare R)) (Option R)) :
    hashLog (ops ++ [op]) = (hashLog ops).advance op.value?.toList op.passed := by
  rw [hashLog, List.foldl_append]
  rfl

omit [CodedRing R] in
theorem advances_hashLog : Advances Operation.passed (hashLog (R := R)) where
  start := rfl
  next ops op := ⟨_, hashLog_append_singleton ops op⟩

omit [CodedRing R] in
/-- The entries are all values that were ever handed out. -/
@[simp] theorem entries_hashLog (ops : List (Operation (OpenerStep (ReplicatedShare R)) (Option R))) :
    (hashLog ops).entries = returned ops := by
  induction ops using List.reverseRecOn with
  | nil => rfl
  | append_singleton ops op ih =>
    rw [hashLog_append_singleton, returned_append_singleton, ← ih]
    rfl

namespace ReplicatedOpener

variable {seat : Seat} {o o' : ReplicatedOpener R} {log : OpeningLog R}
  {op : Operation (OpenerStep (ReplicatedShare R)) (Option R)}

/-- In hash mode the values that await verification are remembered. -/
structure Remembers (log : OpeningLog R) (o : ReplicatedOpener R) : Prop where
  mode : o.mode = .hash
  unchecked : o.unchecked.toList = log.unverified

private theorem ensures_exchange_hash (hmode : o.mode = .hash) : Ensures exchange seat o
    fun t o' _ => t.length ≤ 1 ∧ o'.mode = .hash ∧ o'.unchecked = o.unchecked := by
  refine Ensures.get_bind (Ensures.seat_bind ?_)
  by_cases hpoisoned : o.poisoned = true
  · rw [if_pos hpoisoned]
    exact Ensures.throw ⟨Nat.zero_le 1, hmode, rfl⟩
  rw [if_neg hpoisoned]
  by_cases hplayers : seat.players ≠ replicatedParties
  · rw [if_pos hplayers]
    exact Ensures.throw ⟨Nat.zero_le 1, hmode, rfl⟩
  rw [if_neg hplayers]
  by_cases hempty : o.batch.isEmpty = true
  · rw [if_pos hempty]
    exact Ensures.pure ⟨Nat.zero_le 1, hmode, rfl⟩
  rw [if_neg hempty]
  refine Ensures.call_bind (fun payload => Ensures.ofExcept_bind (fun previous _ => ?_)
    fun e _ => ⟨Nat.le_refl 1, hmode, rfl⟩) fun e => ⟨Nat.le_refl 1, hmode, rfl⟩
  have hnone : Ensures secondCopies seat o fun t o' _ => t = [] ∧ o' = o := by
    refine Ensures.get_bind ?_
    rw [hmode]
    exact Ensures.pure ⟨rfl, rfl⟩
  refine Ensures.bind (hnone.mono ?_)
  rintro t o' (e | next) ⟨rfl, rfl⟩
  · exact ⟨Nat.le_refl 1, hmode, rfl⟩
  · exact Ensures.modify ⟨Nat.le_refl 1, hmode, rfl⟩

private theorem ensures_check_hash : Ensures check seat o fun _ o' r => o'.mode = o.mode ∧
    match r with
    | .ok _ => o'.unchecked = #[]
    | .error _ => o'.unchecked = o.unchecked := by
  refine Ensures.get_bind ?_
  by_cases hpoisoned : o.poisoned = true
  · rw [if_pos hpoisoned]
    exact Ensures.throw ⟨rfl, rfl⟩
  rw [if_neg hpoisoned]
  by_cases hempty : o.unchecked.isEmpty = true
  · rw [if_pos hempty]
    exact Ensures.pure ⟨rfl, by simpa using hempty⟩
  rw [if_neg hempty]
  have hbroadcast : Ensures (Action.broadcast o.digest).attempt seat o
      fun _ o' r => o' = o ∧ ∃ answer, r = .ok answer :=
    Ensures.attempt (Ensures.call (fun _ => ⟨rfl, _, rfl⟩) fun _ => ⟨rfl, _, rfl⟩)
  refine Ensures.bind (hbroadcast.mono ?_)
  rintro t o' r ⟨rfl, answer, rfl⟩
  cases answer with
  | error e => exact Ensures.bind (Ensures.modify (Ensures.throw ⟨rfl, rfl⟩))
  | ok digests =>
    dsimp only
    split
    · exact Ensures.modify ⟨rfl, rfl⟩
    · exact Ensures.bind (Ensures.modify (Ensures.throw ⟨rfl, rfl⟩))

omit [CodedRing R] in
/-- An operation that hands out nothing and verifies nothing keeps what is remembered. -/
private theorem Remembers.of_idle (h : Remembers log o) (hmode : o'.mode = .hash)
    (hunchecked : o'.unchecked = o.unchecked) : Remembers (log.advance [] false) o' :=
  ⟨hmode, by rw [OpeningLog.advance_nil_false, hunchecked, h.unchecked]⟩

private theorem Remembers.step_finalize (h : Remembers log o) (hvalid : log.Valid) :
    let op : Operation (OpenerStep (ReplicatedShare R)) (Option R) :=
      ⟨.finalize, seat, [], (finalize o).1.map some⟩
    Remembers (log.advance op.value?.toList false) (finalize o).2 := by
  dsimp only
  rw [finalize]
  by_cases hpoisoned : o.poisoned = true
  · rw [if_pos hpoisoned]
    exact h.of_idle h.mode rfl
  rw [if_neg hpoisoned]
  cases o.received.dequeue? with
  | none => exact h.of_idle h.mode rfl
  | some next =>
    obtain ⟨opening, received⟩ := next
    dsimp only
    split
    · exact h.of_idle h.mode rfl
    · rw [if_pos h.mode]
      refine ⟨h.mode, ?_⟩
      change (o.unchecked.push _).toList = (log.advance [_] false).unverified
      rw [hvalid.unverified_advance_false, Array.toList_push, h.unchecked]

/-- Whatever the network does, what is remembered changes as the log does. -/
theorem Remembers.step (h : Remembers log o) (hvalid : log.Valid)
    (hrun : Runs op.step.act op.seat o op.calls o' op.outcome) :
    Remembers (log.advance op.value?.toList op.passed) o' := by
  obtain ⟨step, seat, calls, outcome⟩ := op
  cases step with
  | init =>
    obtain ⟨rfl, rfl, rfl⟩ := OpenerStep.of_runs_init hrun
    exact h.of_idle h.mode rfl
  | prepare s =>
    obtain ⟨rfl, rfl, rfl⟩ := OpenerStep.of_runs_prepare hrun
    exact h.of_idle h.mode rfl
  | exchange =>
    obtain ⟨r, hexchange, rfl⟩ := hrun.of_bind_pure
    obtain ⟨hcalls, hmode, hunchecked⟩ := hexchange.of_ensures (ensures_exchange_hash h.mode)
    cases r with
    | ok _ =>
      have hpassed : decide (1 < calls.length) = false := decide_eq_false (Nat.not_lt_of_le hcalls)
      change Remembers (log.advance [] (decide (1 < calls.length))) o'
      rw [hpassed]
      exact h.of_idle hmode hunchecked
    | error e => exact h.of_idle hmode hunchecked
  | finalize =>
    obtain ⟨rfl, rfl, rfl⟩ := OpenerStep.of_runs_finalize hrun
    exact h.step_finalize hvalid
  | check =>
    obtain ⟨r, hcheck, rfl⟩ := hrun.of_bind_pure
    obtain ⟨hmode, hunchecked⟩ := hcheck.of_ensures ensures_check_hash
    cases r with
    | ok _ =>
      refine ⟨hmode.trans h.mode, ?_⟩
      rw [hunchecked]
      exact (OpeningLog.unverified_advance_true []).symm
    | error e => exact h.of_idle (hmode.trans h.mode) hunchecked

variable {party : Nat} {ops : List (Operation (OpenerStep (ReplicatedShare R)) (Option R))}

/-- Whatever was done with an opener in hash mode, it remembers what awaits verification. -/
theorem remembers_of_history (h : History OpenerStep.act (create party .hash) ops o) :
    Remembers (hashLog ops) o := by
  induction h with
  | start => exact ⟨rfl, rfl⟩
  | next hops hop ih =>
    rw [hashLog_append_singleton]
    exact ih.step (advances_hashLog.valid _) hop

/-- What was taken in hash mode is accounted for. -/
theorem accounted (h : History OpenerStep.act (create party .hash) ops o) :
    Accounted hashLog ops o (List.range (returned ops).length) := by
  have hremembers := remembers_of_history h
  have hpending : Opener.pendingChecks o = 0 ↔ o.unchecked = #[] := by
    change (if o.unchecked.isEmpty then 0 else 1) = 0 ↔ _
    simp
  refine .of_unverified advances_hashLog (fun place hplace => ?_) ?_ fun hnone hfresh => ?_
  · rwa [entries_hashLog, ← List.mem_range]
  · rw [hpending, ← hremembers.unchecked]
    simp
  · have hunchecked : o.hasUnchecked = false := by simpa [Opener.discardFault?] using hnone
    have hpoisoned : o.poisoned = false := hfresh
    rw [hpending]
    simpa [hasUnchecked, hpoisoned] using hunchecked

end ReplicatedOpener

/-- No opening disappears unverified. After any history of an opener of authenticated shares, and of
one of replicated shares in hash mode, discarding it fails, or it is poisoned, or every value that
was ever handed out was covered by a check that has passed; and it has no pending checks exactly if
all that was exchanged, or taken in hash mode, was covered. -/
theorem Opener.accounted_of_history :
    (∀ (party : Nat) (key : R) (config : ProtocolConfig) (rng : ChaCha)
      (ops : List (Operation (OpenerStep (MacShare R)) (Option R))) (o : MacOpener R),
      History OpenerStep.act (MacOpener.create party key config rng) ops o →
        List.Forall₂ (Reads (MacLedger.after party ops).log) (returned ops)
          (MacLedger.after party ops).taken ∧
        Accounted (fun ops => (MacLedger.after party ops).log) ops o
          (MacLedger.after party ops).taken) ∧
    ∀ (party : Nat) (ops : List (Operation (OpenerStep (ReplicatedShare R)) (Option R)))
      (o : ReplicatedOpener R),
      History OpenerStep.act (ReplicatedOpener.create party .hash) ops o →
        (hashLog ops).entries = returned ops ∧
        Accounted hashLog ops o (List.range (returned ops).length) :=
  ⟨fun _ _ _ _ _ _ h => ⟨(MacOpener.keeps_of_history h).taken, MacOpener.accounted h⟩,
    fun _ _ _ h => ⟨entries_hashLog _, ReplicatedOpener.accounted h⟩⟩

section Example

/-- A network on which every broadcast is answered with what was sent and a zero, and the encoding of
two is passed on. -/
private def zeroAndTwo : Answers := fun _ c =>
  match c with
  | .send .. => .ok ()
  | .receive _ => .ok []
  | .broadcast payload => .ok [payload, encodeValues [(CodedRing.ofWord 0 : Mersenne61)]]
  | .pass .. => .ok (encodeValues [(⟨2⟩ : Word64)])

/-- An authenticated value is opened at the second attempt and taken. -/
private def takenFive : List (Operation (OpenerStep (MacShare Mersenne61)) (Option Mersenne61)) ×
    MacOpener Mersenne61 :=
  History.carryOut OpenerStep.act ⟨0, 2⟩
    [(.prepare ⟨CodedRing.ofWord 5, CodedRing.ofWord 5⟩, zeroAndTwo),
      (.exchange, fun _ _ => .error (.receive 1)), (.exchange, zeroAndTwo), (.finalize, zeroAndTwo)]
    (MacOpener.create 0 (CodedRing.ofWord 1) { checkThreshold := 2 } (.ofWord 0))

/-- A replicated value is opened at the second attempt and taken. -/
private def takenSeven : List (Operation (OpenerStep (ReplicatedShare Word64)) (Option Word64)) ×
    ReplicatedOpener Word64 :=
  History.carryOut OpenerStep.act ⟨0, 3⟩
    [(.prepare ⟨⟨3⟩, ⟨2⟩⟩, zeroAndTwo), (.exchange, fun _ _ => .error (.receive 1)),
      (.exchange, zeroAndTwo), (.finalize, zeroAndTwo)] (ReplicatedOpener.create 0 .hash)

/-- A check in which the others send the same digest. -/
private def agreedCheck : Operation (OpenerStep (ReplicatedShare Word64)) (Option Word64) where
  step := .check
  seat := ⟨0, 3⟩
  calls := [⟨.broadcast takenSeven.2.digest, .ok (List.replicate 3 takenSeven.2.digest)⟩]
  outcome := .ok none

/-- Before any check the five is not covered and its opener may not be discarded; after a check that
passes the seven is covered. -/
theorem accounted_of_five_and_seven :
    (returned takenFive.1 = [CodedRing.ofWord 5] ∧ (Opener.discardFault? takenFive.2).isSome = true ∧
      ¬ Covered Operation.passed (fun ops => (MacLedger.after 0 ops).log) takenFive.1 0) ∧
    returned takenSeven.1 = [⟨7⟩] ∧
      Covered Operation.passed hashLog (takenSeven.1 ++ [agreedCheck]) 0 := by
  have hfive := (Opener.accounted_of_history.1 _ _ _ _ _ _ (History.of_carryOut _ _ _ _ :
    History OpenerStep.act (MacOpener.create 0 (CodedRing.ofWord 1) _ _) takenFive.1 takenFive.2)).2
  have hcheck : Action.Runs agreedCheck.step.act agreedCheck.seat takenSeven.2 agreedCheck.calls
      { takenSeven.2 with unchecked := #[] } agreedCheck.outcome := by
    have hequal : ReplicatedOpener.allEqual (List.replicate 3 takenSeven.2.digest) = true := by
      simp [ReplicatedOpener.allEqual]
    have hruns := ReplicatedOpener.runs_check (o := takenSeven.2) (by decide +kernel)
      (by decide +kernel) ⟨0, 3⟩ (List.replicate 3 takenSeven.2.digest)
    rw [if_pos hequal, if_pos hequal] at hruns
    exact Action.Runs.bind hruns (Action.Runs.of_done rfl)
  have hseven := (Opener.accounted_of_history.2 _ _ _ ((History.of_carryOut _ _ _ _ :
    History OpenerStep.act (ReplicatedOpener.create 0 .hash) takenSeven.1 takenSeven.2).next hcheck)).2
  refine ⟨⟨by decide +kernel, by decide +kernel, fun h => ?_⟩, by decide +kernel, ?_⟩
  · have hall : ∀ place < (MacLedger.after 0 takenFive.1).log.entries.length, Covered
        Operation.passed (fun ops => (MacLedger.after 0 ops).log) takenFive.1 place := by
      have hone : (MacLedger.after 0 takenFive.1).log.entries.length = 1 := by decide +kernel
      intro place hplace
      obtain rfl : place = 0 := by omega
      exact h
    exact absurd (hfive.pending.2 hall) (by decide +kernel)
  · exact hseven.pending.1 rfl 0 (by decide +kernel)

end Example

end Multiparty
