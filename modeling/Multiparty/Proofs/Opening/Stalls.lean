import Multiparty.Processor
import Multiparty.Proofs.Failure

/-!
# What protocol steps do not fail with

A circuit that waits for nothing is refused with an error of its own. No step of a protocol fails with
that error, whatever the network answers, so whoever sees it knows that the circuit is to blame.

## Main definitions

* `Unstalled`: an outcome other than this error.
* `Opener.NeverStalls`: the openers whose steps do not fail with it.

## Main results

* `MacOpener.neverStalls`, `ReplicatedOpener.neverStalls`, `ThresholdOpener.neverStalls`: those of all
  schemes.
* `Opener.NeverStalls.openShares`, `Opener.NeverStalls.mul`: batches of openings and multiplications.
-/

namespace Multiparty

open Multiparty.Action (Ensures)

variable {σ τ α β : Type}

/-- The outcome is not the failure of a circuit that waits for nothing. -/
def Unstalled (r : Except ProtocolError α) : Prop := r ≠ .error (.misuse .stalled)

namespace Unstalled

theorem ok (a : α) : Unstalled (.ok a) := nofun

/-- Nothing but the error matters. -/
theorem error {e : ProtocolError} (h : Unstalled (.error e : Except ProtocolError α)) :
    Unstalled (.error e : Except ProtocolError β) :=
  fun hstalled => h (congrArg Except.error (Except.error.inj hstalled))

end Unstalled

/-! ### Actions and attempts -/

/-- Whatever the network answers, the action does not fail as a circuit that waits for nothing. -/
def Action.Unstalled (m : Action σ α) : Prop :=
  ∀ seat s, Ensures m seat s fun _ _ r => Multiparty.Unstalled r

namespace Action.Unstalled

variable {m : Action σ α} {f : α → Action σ β}

/-- Whoever fails with other errors only does not fail with this one. -/
theorem of_failsWith {P : ProtocolError → Prop} (h : Action.FailsWith P m)
    (hP : ∀ e, P e → e ≠ .misuse .stalled) : Action.Unstalled m :=
  fun seat s => (h seat s).mono fun _ _ _ hr hstalled => hP _ (hr _ hstalled) rfl

protected theorem pure (a : α) : Action.Unstalled (pure a : Action σ α) :=
  fun _ _ => Ensures.pure (.ok a)

protected theorem modify (f : σ → σ) : Action.Unstalled (modify f) :=
  fun _ _ => Ensures.modify (.ok ())

protected theorem ofAttempt {f : Attempt σ α} (h : ∀ s, Multiparty.Unstalled (f s).1) :
    Action.Unstalled (Action.ofAttempt f) :=
  fun _ s => Ensures.ofAttempt (h s)

protected theorem bind (h : Action.Unstalled m) (hf : ∀ a, Action.Unstalled (f a)) :
    Action.Unstalled (m >>= f) := by
  refine fun seat s => Ensures.bind ((h seat s).mono ?_)
  rintro t s' (e | a) hr
  · exact hr.error
  · exact (hf a seat s').mono fun _ _ _ => id

protected theorem get_bind {f : σ → Action σ β} (h : ∀ s, Action.Unstalled (f s)) :
    Action.Unstalled (get >>= f) :=
  fun seat s => Ensures.get_bind (h s seat s)

protected theorem zoom {get : σ → τ} {put : τ → σ → σ} {m : Action τ α} (h : Action.Unstalled m) :
    Action.Unstalled (m.zoom get put) :=
  fun seat s => Ensures.zoom (h seat (get s))

end Action.Unstalled

namespace Attempt

variable {f : Attempt σ α}

theorem unstalled_forEachOnto {f : β → Attempt σ α} (hf : ∀ b s, Unstalled (f b s).1) (bs : List β)
    (acc : List α) (s : σ) : Unstalled (forEachOnto f bs acc s).1 := by
  induction bs generalizing acc s with
  | nil => exact .ok _
  | cons b bs ih =>
    have hb := hf b s
    rw [forEachOnto]
    split
    · exact ih _ _
    · next h =>
      rw [h] at hb
      exact hb.error

theorem unstalled_timesOnto (hf : ∀ s, Unstalled (f s).1) (n : Nat) (acc : List α) (s : σ) :
    Unstalled (timesOnto f n acc s).1 := by
  induction n generalizing acc s with
  | zero => exact .ok _
  | succ n ih =>
    have hs := hf s
    rw [timesOnto]
    split
    · exact ih _ _
    · next h =>
      rw [h] at hs
      exact hs.error

end Attempt

/-! ### Openers -/

/-- The steps of the opener do not fail as a circuit that waits for nothing. -/
structure Opener.NeverStalls (O : Type) {S R : Type} [Opener O S R] : Prop where
  exchange : Action.Unstalled (Opener.exchange : Action O Unit)
  finalize : ∀ o : O, Unstalled (Opener.finalize o).1

theorem MacOpener.neverStalls (R : Type) [CodedRing R] : Opener.NeverStalls (MacOpener R) where
  exchange := .of_failsWith failsWith_exchange fun e h => h.ne_misuse _
  finalize o := by
    change Unstalled (MacOpener.finalize o).1
    rw [finalize]
    split
    · simp [Unstalled]
    · split <;> simp [Unstalled]

theorem ReplicatedOpener.neverStalls (R : Type) [CodedRing R] :
    Opener.NeverStalls (ReplicatedOpener R) where
  exchange := .of_failsWith failsWith_exchange fun e h => by
    rcases h with h | rfl
    · exact h.ne_misuse _
    · simp
  finalize o := by
    change Unstalled (ReplicatedOpener.finalize o).1
    rw [finalize]
    split
    · simp [Unstalled]
    split
    · simp [Unstalled]
    dsimp only
    split <;> simp [Unstalled]

theorem ThresholdOpener.neverStalls (F : Type) [CodedField F] :
    Opener.NeverStalls (ThresholdOpener F) where
  exchange := .of_failsWith failsWith_exchange fun e h => by
    rcases h with h | rfl
    · exact h.ne_misuse _
    · simp
  finalize o := by
    change Unstalled (ThresholdOpener.finalize o).1
    rw [finalize]
    split
    · simp [Unstalled]
    split
    · simp [Unstalled]
    dsimp only
    split <;> simp [Unstalled]

/-! ### Batches -/

namespace Opener.NeverStalls

variable {O S R K : Type} [Opener O S R]

theorem openBatch (h : NeverStalls O) (shares : List S) :
    Action.Unstalled (Opener.openBatch shares : Action O (List R)) :=
  .bind (.modify _) fun _ => .bind h.exchange fun _ =>
    .ofAttempt (Attempt.unstalled_timesOnto h.finalize _ _)

theorem openShares (h : NeverStalls O) (shares : List S) :
    Action.Unstalled (Processor.openShares shares : Action (Processor O S R K) (List R)) :=
  .zoom (h.openBatch shares)

private theorem takePair (h : NeverStalls O) (s : O × Multiplier S R K) :
    Unstalled (Multiplier.takePair s).1 := by
  have hfirst := h.finalize s.1
  rw [Multiplier.takePair]
  split
  · next hfinalize =>
    rw [hfinalize] at hfirst
    exact hfirst.error
  · next o _ =>
    have hsecond := h.finalize o
    split
    · next hfinalize =>
      rw [hfinalize] at hsecond
      exact hsecond.error
    · simp [Unstalled]

private theorem exchangeProducts (h : NeverStalls O) :
    Action.Unstalled (Processor.exchangeProducts : Action (Processor O S R K) Unit) := by
  have hexchange : Action.Unstalled (Multiplier.exchange : Action (O × Multiplier S R K) Unit) := by
    refine .get_bind fun (_, m) => ?_
    dsimp only
    split
    · exact .pure ()
    · exact .bind (.modify _) fun _ => .bind (.zoom h.exchange) fun _ => .bind (.modify _) fun _ =>
        .bind (.ofAttempt (Attempt.unstalled_timesOnto h.takePair _ _)) fun _ => .pure ()
  exact .zoom hexchange

variable [LinearShare S R K] [CodedRing R]

omit [Opener O S R] [CodedRing R] in
private theorem prepare (x y : S) (p : Processor O S R K) :
    Unstalled (Processor.tryMultiplier (Multiplier.prepare x y) p).1 := by
  change Unstalled (Multiplier.prepare x y p.multiplier).1
  rw [Multiplier.prepare, Multiplier.ofSupply, Attempt.zoom, Supply.triple]
  cases p.multiplier.supply.triples <;> simp [Unstalled]

private theorem finalizeProduct (p : Processor O S R K) : Unstalled (Processor.finalizeProduct p).1 := by
  change Unstalled (Multiplier.finalize p.opener p.multiplier).1
  rw [Multiplier.finalize]
  split
  · simp [Unstalled]
  · dsimp only
    split <;> simp [Unstalled]

theorem mul (h : NeverStalls O) (pairs : List (S × S)) :
    Action.Unstalled (Processor.mul pairs : Action (Processor O S R K) (List S)) :=
  .bind (.modify _) fun _ =>
    .bind (.ofAttempt (Attempt.unstalled_forEachOnto (fun (x, y) => prepare x y) _ _)) fun _ =>
      .bind h.exchangeProducts fun _ =>
        .ofAttempt (Attempt.unstalled_timesOnto finalizeProduct _ _)

end Opener.NeverStalls

end Multiparty
