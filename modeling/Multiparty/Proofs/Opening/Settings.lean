import Mathlib
import Multiparty.Proofs.Opening.Pending
import Multiparty.Proofs.Opening.Refusal
import Multiparty.Proofs.Opening.Steps

/-!
# What an opener keeps for good

The place, the key and the parameters of an opener are the same in all of its states. Every operation
leaves them alone, whether it succeeds or fails and whatever the network answers, so they are those
with which the opener was made.

## Main definitions

* `Attempt.Keeps`, `Action.Keeps`: attempts and actions that leave a view of the state alone.
* `Opener.Keeps`: openers all of whose operations do.
* `MacOpener.settings`, `ReplicatedOpener.settings`, `ThresholdOpener.settings`: what an opener of
  each scheme keeps.

## Main results

* `MacOpener.keeps_settings`, `ReplicatedOpener.keeps_settings`, `ThresholdOpener.keeps_settings`:
  they are kept.
* `Opener.Keeps.of_history`: after any history they are as at its start.
-/

namespace Multiparty

open Multiparty.Action (Ensures Passive Runs)

variable {σ τ α β γ : Type}

/-! ### Actions that leave a view alone -/

/-- Whether the attempt succeeds or fails, the view of the state is afterwards as before. -/
def Attempt.Keeps (view : σ → γ) (f : Attempt σ α) : Prop := ∀ s, view (f s).2 = view s

/-- Attempts one after another keep what each of them keeps. -/
theorem Attempt.Keeps.forEach {view : σ → γ} {f : β → Attempt σ α} (h : ∀ b, Keeps view (f b))
    (bs : List β) : Keeps view (Attempt.forEach f bs) := by
  have honto (acc : List α) : Keeps view (forEachOnto f bs acc) := by
    induction bs generalizing acc with
    | nil => exact fun _ => rfl
    | cons b bs ih =>
      intro s
      have hs := h b s
      rw [forEachOnto]
      split
      · next hstep =>
        rw [hstep] at hs
        exact (ih _ _).trans hs
      · next hstep =>
        rw [hstep] at hs
        exact hs
  exact honto []

theorem Attempt.Keeps.times {view : σ → γ} {f : Attempt σ α} (h : Keeps view f) (n : Nat) :
    Keeps view (Attempt.times f n) := by
  rw [times_eq_forEach]
  exact forEach (fun _ => h) _

/-- However the action goes, the view of the state is afterwards as before. -/
def Action.Keeps (view : σ → γ) (m : Action σ α) : Prop :=
  ∀ seat s, Ensures m seat s fun _ s' _ => view s' = view s

namespace Action.Keeps

variable {view : σ → γ} {m : Action σ α} {f : α → Action σ β}

protected theorem pure (a : α) : Keeps view (pure a) := fun _ _ => Ensures.pure rfl

protected theorem throw (e : ProtocolError) : Keeps view (throw e : Action σ α) :=
  fun _ _ => Ensures.throw rfl

protected theorem modify {g : σ → σ} (h : ∀ s, view (g s) = view s) : Keeps view (modify g) :=
  fun _ s => Ensures.modify (h s)

protected theorem ofAttempt {f : Attempt σ α} (h : Attempt.Keeps view f) :
    Keeps view (Action.ofAttempt f) :=
  fun _ s => Ensures.ofAttempt (h s)

protected theorem call (c : Call) : Keeps view (Action.call c) :=
  fun _ _ => Ensures.call (fun _ => rfl) fun _ => rfl

protected theorem bind (h : Keeps view m) (hf : ∀ a, Keeps view (f a)) : Keeps view (m >>= f) := by
  refine fun seat s => Ensures.bind ((h seat s).mono ?_)
  rintro t s' (e | a) hview
  · exact hview
  · exact (hf a seat s').mono fun _ _ _ hview' => hview'.trans hview

protected theorem get_bind {f : σ → Action σ β} (h : ∀ s, Keeps view (f s)) :
    Keeps view (get >>= f) :=
  fun seat s => Ensures.get_bind (h s seat s)

protected theorem seat_bind {f : Seat → Action σ β} (h : ∀ seat, Keeps view (f seat)) :
    Keeps view (Action.seat >>= f) :=
  fun seat s => Ensures.seat_bind (h seat seat s)

/-- An action on a part of the state keeps a view of this part. -/
protected theorem zoom {get : τ → σ} {put : σ → τ → τ} (hput : ∀ s t, get (put s t) = s)
    (h : Keeps view m) : Keeps (fun t => view (get t)) (m.zoom get put) :=
  fun seat t => Ensures.zoom ((h seat (get t)).mono fun _ _ _ hview =>
    (congrArg view (hput _ t)).trans hview)

end Action.Keeps

/-! ### Openers -/

/-- All operations of the opener leave the view alone. -/
structure Opener.Keeps {O S R : Type} [Opener O S R] (view : O → γ) : Prop where
  init : ∀ o : O, view (init o) = view o
  prepare : ∀ (s : S) (o : O), view (prepare s o) = view o
  exchange : Action.Keeps view (exchange : Action O Unit)
  finalize : Attempt.Keeps view (finalize : Attempt O R)
  check : Action.Keeps view (check : Action O Unit)

namespace Opener.Keeps

variable {O S R : Type} [Opener O S R] {view : O → γ}

theorem prepareAll (h : Keeps view) (shares : List S) (o : O) :
    view (Opener.prepareAll shares o) = view o := by
  refine Eq.trans ?_ (h.init o)
  rw [Opener.prepareAll]
  generalize Opener.init o = o'
  induction shares generalizing o' with
  | nil => rfl
  | cons s shares ih => exact (ih _).trans (h.prepare s o')

theorem act (h : Keeps view) (step : OpenerStep S) : Action.Keeps view (step.act : Action O _) := by
  cases step with
  | init => exact .bind (.modify h.init) fun _ => .pure _
  | prepare s => exact .bind (.modify (h.prepare s)) fun _ => .pure _
  | exchange => exact .bind h.exchange fun _ => .pure _
  | finalize => exact .bind (.ofAttempt h.finalize) fun _ => .pure _
  | check => exact .bind h.check fun _ => .pure _

/-- After any history the view is as at its start. -/
theorem of_history (h : Keeps view) {o o' : O} {ops : List (Operation (OpenerStep S) (Option R))}
    (hops : History OpenerStep.act o ops o') : view o' = view o := by
  induction hops with
  | start => rfl
  | next _ hop ih => exact (hop.of_ensures (h.act _ _ _)).trans ih

end Opener.Keeps

namespace MacOpener

variable {R : Type}

/-- The place, the share of the key and the thresholds of an opener of authenticated shares. -/
def settings (o : MacOpener R) : Nat × R × Nat × Nat :=
  (o.party, o.key, o.checkThreshold, o.smallCheckThreshold)

variable [CodedRing R]

theorem keeps_check : Action.Keeps (settings (R := R)) check := by
  refine fun seat o => ensures_check.mono fun t o' r h => ?_
  cases r with
  | ok _ =>
    obtain ⟨-, -, rng, rfl⟩ := h
    rfl
  | error e =>
    obtain ⟨rng, rfl⟩ := h
    rfl

theorem keeps_settings : Opener.Keeps (settings (R := R)) where
  init _ := rfl
  prepare _ _ := rfl
  exchange seat o := by
    refine ensures_exchange.mono fun t o' r h => ?_
    cases h with
    | refused => rfl
    | nothing => rfl
    | failed => rfl
    | deferred => rfl
    | checked _ _ _ _ hcheck => exact hcheck.of_ensures (keeps_check _ _)
  finalize o := by
    change settings (finalize o).2 = settings o
    rw [finalize]
    split
    · rfl
    · split <;> rfl
  check := keeps_check

end MacOpener

namespace ReplicatedOpener

variable {R : Type}

/-- The place of an opener of replicated shares and how it verifies. -/
def settings (o : ReplicatedOpener R) : Nat × ReplicatedCheck := (o.party, o.mode)

variable [CodedRing R]

private theorem keeps_exchange : Action.Keeps (settings (R := R)) exchange := by
  intro seat o
  refine Ensures.get_bind (Ensures.seat_bind ?_)
  split
  · exact Ensures.throw rfl
  split
  · exact Ensures.throw rfl
  split
  · exact Ensures.pure rfl
  exact Passive.bind_keeps (Passive.call _) fun _ => Passive.bind_keeps (Passive.ofExcept _)
    fun _ => Passive.bind_keeps passive_secondCopies fun _ => Ensures.modify rfl

private theorem keeps_check : Action.Keeps (settings (R := R)) check := by
  have hfail (e : ProtocolError) : Action.Keeps (settings (R := R)) (fail e : Action _ Unit) :=
    .bind (.modify fun _ => rfl) fun _ => .throw e
  refine .get_bind fun o => ?_
  split
  · exact .throw _
  split
  · exact .pure ()
  refine .bind (fun seat o => Ensures.attempt (Action.Keeps.call _ seat o)) fun outcome => ?_
  cases outcome with
  | error e => exact hfail e
  | ok digests =>
    dsimp only
    split
    · exact .modify fun _ => rfl
    · exact hfail .macFail

theorem keeps_settings : Opener.Keeps (settings (R := R)) where
  init _ := rfl
  prepare _ _ := rfl
  exchange := keeps_exchange
  finalize o := by
    change settings (finalize o).2 = settings o
    rw [finalize]
    split
    · rfl
    split
    · rfl
    dsimp only
    split
    · rfl
    · split <;> rfl
  check := keeps_check

end ReplicatedOpener

namespace ThresholdOpener

variable {F : Type}

/-- The place and the parameters of an opener of threshold shares, and its rows of coefficients. -/
def settings (o : ThresholdOpener F) : Nat × Nat × Nat × Bool × List (List F) :=
  (o.party, o.parties, o.threshold, o.malicious, o.rows)

variable [CodedField F]

private theorem keeps_exchange : Action.Keeps (settings (F := F)) exchange := by
  intro seat o
  refine Ensures.get_bind (Ensures.seat_bind ?_)
  split
  · exact Ensures.throw rfl
  split
  · exact Ensures.throw rfl
  split
  · exact Ensures.pure rfl
  exact Passive.bind_keeps (passive_exchangeAt _ _ _) fun _ => Ensures.modify rfl

omit [CodedField F] in
private theorem keeps_check : Action.Keeps (settings (F := F)) check := by
  refine .get_bind fun o => ?_
  split
  · exact .throw _
  · exact .pure ()

theorem keeps_settings : Opener.Keeps (settings (F := F)) where
  init _ := rfl
  prepare _ _ := rfl
  exchange := keeps_exchange
  finalize o := by
    change settings (finalize o).2 = settings o
    rw [finalize]
    split
    · rfl
    split
    · rfl
    dsimp only
    split <;> rfl
  check := keeps_check

end ThresholdOpener

end Multiparty
