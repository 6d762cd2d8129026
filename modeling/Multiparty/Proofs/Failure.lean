import Multiparty.Opening.MacCheck
import Multiparty.Opening.Replicated
import Multiparty.Opening.Threshold
import Multiparty.Proofs.Transcript

/-!
# What protocol steps fail with

Which errors an action may fail with is told by its structure: the network adds transport errors, and
everything else comes from the outcomes that are computed. What the payloads of the other parties can
cause are mismatches and malformed payloads. A misuse is never caused by them.

## Main definitions

* `FailsWith`, `Action.FailsWith`: every error of an outcome or of an action has a property.
* `ProtocolError.External`: the errors that the other parties and the network can cause.

## Main results

* `MacOpener.failsWith_check`, `ReplicatedOpener.failsWith_check`: no check fails with a misuse.
* `MacOpener.failsWith_exchange` and its companions: nor does an exchange, but for a wrong number of
  players.
-/

namespace Multiparty

open Multiparty.Action (Ensures)

variable {σ τ α β : Type} {P Q : ProtocolError → Prop}

/-- The outcome, if it is an error, is one with the property. -/
def FailsWith (P : ProtocolError → Prop) (r : Except ProtocolError α) : Prop :=
  ∀ e, r = .error e → P e

namespace FailsWith

theorem ok (a : α) : FailsWith P (.ok a) := nofun

theorem error {e : ProtocolError} (h : P e) : FailsWith P (.error e : Except ProtocolError α) :=
  fun _ he => Except.error.inj he ▸ h

/-- Nothing but the error matters. -/
theorem of_error {e : ProtocolError} (h : FailsWith P (.error e : Except ProtocolError α)) :
    FailsWith P (.error e : Except ProtocolError β) :=
  error (h e rfl)

theorem mono {r : Except ProtocolError α} (h : FailsWith P r) (hPQ : ∀ e, P e → Q e) :
    FailsWith Q r :=
  fun e he => hPQ e (h e he)

theorem map {r : Except ProtocolError α} (h : FailsWith P r) (f : α → β) : FailsWith P (r.map f) := by
  cases r with
  | ok a => exact ok (f a)
  | error e => exact h.of_error

theorem bind {r : Except ProtocolError α} {f : α → Except ProtocolError β} (h : FailsWith P r)
    (hf : ∀ a, FailsWith P (f a)) : FailsWith P (r >>= f) := by
  cases r with
  | ok a => exact hf a
  | error e => exact h.of_error

theorem mapM {f : α → Except ProtocolError β} (hf : ∀ a, FailsWith P (f a)) (as : List α) :
    FailsWith P (as.mapM f) := by
  induction as with
  | nil => exact ok []
  | cons a as ih =>
    rw [List.mapM_cons]
    exact (hf a).bind fun b => ih.bind fun bs => ok (b :: bs)

theorem foldlM {f : β → α → Except ProtocolError β} (hf : ∀ b a, FailsWith P (f b a)) (as : List α)
    (b : β) : FailsWith P (as.foldlM f b) := by
  induction as generalizing b with
  | nil => exact ok b
  | cons a as ih =>
    rw [List.foldlM_cons]
    exact (hf b a).bind ih

end FailsWith

/-- Whatever the network answers, the errors of the action have the property. -/
def Action.FailsWith (P : ProtocolError → Prop) (m : Action σ α) : Prop :=
  ∀ seat s, Ensures m seat s fun _ _ r => Multiparty.FailsWith P r

namespace Action.FailsWith

variable {m : Action σ α} {f : α → Action σ β}

theorem mono (h : Action.FailsWith P m) (hPQ : ∀ e, P e → Q e) : Action.FailsWith Q m :=
  fun seat s => (h seat s).mono fun _ _ _ hr => hr.mono hPQ

protected theorem pure (a : α) : Action.FailsWith P (pure a : Action σ α) :=
  fun _ _ => Ensures.pure (.ok a)

protected theorem throw {e : ProtocolError} (h : P e) :
    Action.FailsWith P (throw e : Action σ α) :=
  fun _ _ => Ensures.throw (.error h)

protected theorem modify (f : σ → σ) : Action.FailsWith P (modify f) :=
  fun _ _ => Ensures.modify (.ok ())

protected theorem call (h : ∀ e, P (.transport e)) (c : Call) :
    Action.FailsWith P (Action.call c : Action σ c.Reply) :=
  fun _ _ => Ensures.call .ok fun e => .error (h e)

protected theorem ofExcept {r : Except ProtocolError α} (h : Multiparty.FailsWith P r) :
    Action.FailsWith P (Action.ofExcept r : Action σ α) :=
  fun _ _ => Ensures.ofExcept h

protected theorem ofAttempt {f : Attempt σ α} (h : ∀ s, Multiparty.FailsWith P (f s).1) :
    Action.FailsWith P (Action.ofAttempt f) :=
  fun _ s => Ensures.ofAttempt (h s)

protected theorem bind (h : Action.FailsWith P m) (hf : ∀ a, Action.FailsWith P (f a)) :
    Action.FailsWith P (m >>= f) := by
  refine fun seat s => Ensures.bind ((h seat s).mono ?_)
  rintro t s' (e | a) hr
  · exact hr.of_error
  · exact (hf a seat s').mono fun _ _ _ => id

protected theorem get_bind {f : σ → Action σ β} (h : ∀ s, Action.FailsWith P (f s)) :
    Action.FailsWith P (get >>= f) :=
  fun seat s => Ensures.get_bind (h s seat s)

protected theorem seat_bind {f : Seat → Action σ β} (h : ∀ seat, Action.FailsWith P (f seat)) :
    Action.FailsWith P (Action.seat >>= f) :=
  fun seat s => Ensures.seat_bind (h seat seat s)

protected theorem zoom {get : σ → τ} {put : τ → σ → σ} {m : Action τ α}
    (h : Action.FailsWith P m) : Action.FailsWith P (m.zoom get put) :=
  fun seat s => Ensures.zoom (h seat (get s))

/-- What is done about the outcome of an action need consider its errors only. -/
protected theorem attempt_bind {f : Except ProtocolError α → Action σ β} (h : Action.FailsWith P m)
    (hf : ∀ r, Multiparty.FailsWith P r → Action.FailsWith P (f r)) :
    Action.FailsWith P (m.attempt >>= f) := by
  refine fun seat s => Ensures.bind (Ensures.attempt ((h seat s).mono fun t s' r hr => ?_))
  exact (hf r hr seat s').mono fun _ _ _ => id

end Action.FailsWith

/-! ### Errors that others can cause -/

/-- The errors that the payloads of the other parties and the network can cause. -/
inductive ProtocolError.External : ProtocolError → Prop where
  | macFail : External .macFail
  | invalidShareSet (fault : ShareSetFault) : External (.invalidShareSet fault)
  | transport (error : TransportError) : External (.transport error)

theorem ProtocolError.External.ne_misuse {e : ProtocolError} (h : e.External) (m : Misuse) :
    e ≠ .misuse m := by
  rintro rfl
  cases h

theorem failsWith_decodeValues {R : Type} [CodedRing R] (payload : Bytes) (expected : Option Nat) :
    FailsWith ProtocolError.External (decodeValues (R := R) payload expected) := by
  have hpieces (pieces : List Bytes) :
      FailsWith ProtocolError.External (decodePieces (R := R) pieces) := by
    refine .mapM (fun piece => ?_) pieces
    split
    · exact .ok _
    · exact .error (.invalidShareSet _)
  rw [decodeValues]
  dsimp only
  split
  · exact .error (.invalidShareSet _)
  split
  · split
    · exact .error (.invalidShareSet _)
    · exact hpieces _
  · exact hpieces _

section Commitment

variable {G : Type} [WordSource G]

private theorem failsWith_drawBytes (n : Nat) :
    Action.FailsWith ProtocolError.External (drawBytes n : Action G Bytes) :=
  .ofAttempt fun _ => .ok _

private theorem failsWith_verifyOpenings (openings commitments : List Bytes) :
    FailsWith ProtocolError.External (verifyOpenings openings commitments) := by
  refine .mapM ?_ _
  rintro ⟨⟨opening, committed⟩, party⟩
  change FailsWith _ (verifyOpening party opening committed)
  rw [verifyOpening]
  split
  · exact .error (.invalidShareSet _)
  split
  · exact .error .macFail
  · exact .ok _

private theorem failsWith_commitAndOpen (payload : Bytes) :
    Action.FailsWith ProtocolError.External (commitAndOpen payload : Action G (List Bytes)) :=
  .bind (failsWith_drawBytes _) fun _ => .bind (.call .transport _) fun _ =>
    .bind (.call .transport _) fun _ => .ofExcept (failsWith_verifyOpenings _ _)

private theorem failsWith_sharedSeed :
    Action.FailsWith ProtocolError.External (sharedSeed : Action G Bytes) := by
  refine .bind (failsWith_drawBytes _) fun _ => .bind (failsWith_commitAndOpen _) fun _ =>
    .ofExcept (.foldlM (fun seed c => ?_) _ _)
  split
  · exact .ok _
  · exact .error (.invalidShareSet _)

end Commitment

/-! ### Openers -/

namespace MacOpener

variable {R : Type} [CodedRing R]

private theorem failsWith_sumWithPeers (me : Nat) (own : List R) (payloads : List Bytes) :
    FailsWith ProtocolError.External (sumWithPeers me own payloads) := by
  refine .foldlM ?_ _ _
  rintro sums ⟨payload, party⟩
  dsimp only
  split
  · exact .ok sums
  · exact (failsWith_decodeValues _ _).bind fun _ => .ok _

private theorem failsWith_checkEach :
    Action.FailsWith ProtocolError.External (checkEach : Action (MacOpener R) Bool) :=
  .get_bind fun _ => .bind (.zoom (failsWith_commitAndOpen _)) fun _ =>
    .ofExcept ((failsWith_sumWithPeers _ _ _).map _)

private theorem failsWith_checkCombined :
    Action.FailsWith ProtocolError.External (checkCombined : Action (MacOpener R) Bool) :=
  .get_bind fun _ => .bind (.zoom failsWith_sharedSeed) fun _ =>
    .bind (.zoom (failsWith_commitAndOpen _)) fun _ => .ofExcept <| .map (.foldlM (fun _ _ =>
      (failsWith_decodeValues _ _).bind fun _ => .ok _) _ _) _

omit [CodedRing R] in
private theorem failsWith_fail {e : ProtocolError} (h : e.External) :
    Action.FailsWith ProtocolError.External (fail e : Action (MacOpener R) Unit) :=
  .bind (.modify _) fun _ => .throw h

omit [CodedRing R] in
/-- Both kinds of checks end with the same actions. -/
private theorem failsWith_verdict : ∀ r : Except ProtocolError Bool,
    FailsWith ProtocolError.External r → Action.FailsWith ProtocolError.External (match r with
      | .ok true => modify fun o => { o with pending := #[] }
      | .ok false => fail .macFail
      | .error e => fail e : Action (MacOpener R) Unit)
  | .ok true, _ => .modify _
  | .ok false, _ => failsWith_fail .macFail
  | .error e, h => failsWith_fail (h e rfl)

theorem failsWith_check :
    Action.FailsWith ProtocolError.External (check : Action (MacOpener R) Unit) := by
  refine .get_bind fun o => ?_
  split
  · exact .throw .macFail
  split
  · exact .pure ()
  split
  · exact .attempt_bind failsWith_checkEach failsWith_verdict
  · exact .attempt_bind failsWith_checkCombined failsWith_verdict

theorem failsWith_exchange :
    Action.FailsWith ProtocolError.External (exchange : Action (MacOpener R) Unit) := by
  refine .get_bind fun o => ?_
  split
  · exact .throw .macFail
  split
  · exact .pure ()
  refine .bind (.call .transport _) fun _ => .bind (.ofExcept (failsWith_sumWithPeers _ _ _))
    fun _ => .bind (.modify _) fun _ => .get_bind fun _ => ?_
  split
  · exact failsWith_check
  · exact .pure ()

end MacOpener

namespace ReplicatedOpener

variable {R : Type} [CodedRing R]

private theorem failsWith_secondCopies : Action.FailsWith ProtocolError.External
    (secondCopies : Action (ReplicatedOpener R) (List (Option R))) := by
  refine .get_bind fun o => ?_
  split
  · exact .bind (.call .transport _) fun _ => .bind (.ofExcept (failsWith_decodeValues _ _))
      fun _ => .pure _
  · exact .pure _

theorem failsWith_exchange :
    Action.FailsWith (fun e => e.External ∨ e = .misuse .notThreePlayers)
      (exchange : Action (ReplicatedOpener R) Unit) := by
  refine .get_bind fun o => .seat_bind fun seat => ?_
  split
  · exact .throw (.inl .macFail)
  split
  · exact .throw (.inr rfl)
  split
  · exact .pure ()
  refine .mono (P := ProtocolError.External) ?_ fun _ => .inl
  exact .bind (.call .transport _) fun _ => .bind (.ofExcept (failsWith_decodeValues _ _)) fun _ =>
    .bind failsWith_secondCopies fun _ => .modify _

theorem failsWith_check :
    Action.FailsWith ProtocolError.External (check : Action (ReplicatedOpener R) Unit) := by
  have hfail {e : ProtocolError} (h : e.External) :
      Action.FailsWith ProtocolError.External (fail e : Action (ReplicatedOpener R) Unit) :=
    .bind (.modify _) fun _ => .throw h
  refine .get_bind fun o => ?_
  split
  · exact .throw .macFail
  split
  · exact .pure ()
  refine .attempt_bind (.call .transport _) fun r hr => ?_
  split
  · exact hfail (hr _ rfl)
  split
  · exact .modify _
  · exact hfail .macFail

end ReplicatedOpener

namespace ThresholdOpener

variable {F : Type} [CodedField F]

private theorem failsWith_collect (o : ThresholdOpener F) (source : Nat) (columns : List (List F))
    (bytes : Bytes) : FailsWith ProtocolError.External (collect o source columns bytes) :=
  (failsWith_decodeValues _ _).bind fun _ => .ok _

private theorem failsWith_visit (o : ThresholdOpener F) (payload : Bytes) (offset : Nat)
    (columns : List (List F)) :
    Action.FailsWith ProtocolError.External (visit o payload offset columns) := by
  rw [visit]
  cases decide (o.party < o.senders) <;>
    cases decide ((o.party + o.parties - offset) % o.parties < o.senders)
  · exact .pure _
  · exact .bind (.call .transport _) fun _ => .ofExcept (failsWith_collect _ _ _ _)
  · exact .bind (.call .transport _) fun _ => .pure _
  · exact .bind (.call .transport _) fun _ => .ofExcept (failsWith_collect _ _ _ _)

private theorem failsWith_exchangeAt (o : ThresholdOpener F) (payload : Bytes) (offsets : List Nat)
    (columns : List (List F)) :
    Action.FailsWith ProtocolError.External (exchangeAt o payload offsets columns) := by
  induction offsets generalizing columns with
  | nil => exact .pure _
  | cons offset offsets ih => exact .bind (failsWith_visit o payload offset columns) ih

theorem failsWith_exchange :
    Action.FailsWith (fun e => e.External ∨ e = .misuse .playerCount)
      (exchange : Action (ThresholdOpener F) Unit) := by
  refine .get_bind fun o => .seat_bind fun seat => ?_
  split
  · exact .throw (.inl .macFail)
  split
  · exact .throw (.inr rfl)
  split
  · exact .pure ()
  refine .mono (P := ProtocolError.External) ?_ fun _ => .inl
  exact .bind (failsWith_exchangeAt _ _ _ _) fun _ => .modify _

end ThresholdOpener

end Multiparty
