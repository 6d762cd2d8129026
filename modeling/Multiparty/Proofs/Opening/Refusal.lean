import Mathlib
import Multiparty.Opening.Threshold
import Multiparty.Proofs.Opening.Pending
import Multiparty.Opening.Replicated

/-!
# Exchanges that are refused

If the first call of an exchange fails, nothing was sent, and the exchange ends there. Its shares
stay queued, and it can be tried again.

## Main definitions

* `Action.Passive`, `Action.Fragile`: actions that fail with a call of theirs.
* `Opener.Retries`: openers that a refused exchange leaves as they are.

## Main results

* `MacOpener.retries`, `ReplicatedOpener.retries`, `ThresholdOpener.retries`: those of all schemes.
-/

namespace Multiparty

open Multiparty.Action (Ensures Runs)

/-- An exchange whose only call fails leaves the opener as it is, and fails. -/
def Opener.Retries (O : Type) {S R : Type} [Opener O S R] : Prop :=
  ∀ {seat : Seat} {o o' : O} {e : Event} {r : Except ProtocolError Unit}, e.succeeded = false →
    Runs Opener.exchange seat o [e] o' r → o' = o ∧ ∃ error, r = .error error

/-- Only a check changes more than what an exchange has revealed, and it comes after its call. -/
theorem MacOpener.retries (R : Type) [CodedRing R] : Opener.Retries (MacOpener R) := by
  intro seat o o' e r hfailed hrun
  generalize hcalls : [e] = calls at hrun
  cases hrun.of_ensures MacOpener.ensures_exchange with
  | refused => cases hcalls
  | nothing => cases hcalls
  | failed => exact ⟨rfl, _, rfl⟩
  | deferred =>
    obtain rfl := List.singleton_inj.1 hcalls
    cases hfailed
  | checked =>
    obtain ⟨rfl, rfl⟩ := List.cons.inj hcalls
    cases hfailed

namespace Action

variable {σ α β : Type} {seat : Seat} {s : σ}

/-- The action leaves the state as it is, and it fails if a call of it fails. -/
def Passive (m : Action σ α) (seat : Seat) (s : σ) : Prop :=
  Ensures m seat s fun t s' r => s' = s ∧ ((∃ e ∈ t, e.succeeded = false) → ∃ error, r = .error error)

/-- If a call of the action fails, then so does the action, and the state is left as it is. -/
def Fragile (m : Action σ α) (seat : Seat) (s : σ) : Prop :=
  Ensures m seat s fun t s' r => (∃ e ∈ t, e.succeeded = false) → s' = s ∧ ∃ error, r = .error error

namespace Passive

variable {m : Action σ α} {f : α → Action σ β}

protected theorem pure (a : α) : Passive (pure a) seat s :=
  Ensures.pure ⟨rfl, by simp⟩

protected theorem ofExcept (result : Except ProtocolError α) :
    Passive (Action.ofExcept result) seat s :=
  Ensures.ofExcept ⟨rfl, by simp⟩

protected theorem call (c : Call) : Passive (Action.call c) seat s := by
  refine Ensures.call (fun reply => ⟨rfl, ?_⟩) fun e => ⟨rfl, fun _ => ⟨_, rfl⟩⟩
  rintro ⟨e, he, hfailed⟩
  obtain rfl := List.mem_singleton.1 he
  cases hfailed

protected theorem bind (h : Passive m seat s) (hf : ∀ a, Passive (f a) seat s) :
    Passive (m >>= f) seat s := by
  refine Ensures.bind (h.mono ?_)
  rintro t s' (error | a) ⟨rfl, hfailed⟩
  · exact ⟨rfl, fun _ => ⟨error, rfl⟩⟩
  · refine (hf a).mono ?_
    rintro t' s'' r ⟨rfl, hfailed'⟩
    refine ⟨rfl, ?_⟩
    rintro ⟨e, he, hbad⟩
    obtain he | he := List.mem_append.1 he
    · obtain ⟨error, herror⟩ := hfailed ⟨e, he, hbad⟩
      cases herror
    · exact hfailed' ⟨e, he, hbad⟩

/-- What comes after an action that leaves the state as it is may change it at its end. -/
theorem bind_fragile (h : Passive m seat s) (hf : ∀ a, Fragile (f a) seat s) :
    Fragile (m >>= f) seat s := by
  refine Ensures.bind (h.mono ?_)
  rintro t s' (error | a) ⟨rfl, hfailed⟩
  · exact fun _ => ⟨rfl, error, rfl⟩
  · refine (hf a).mono ?_
    rintro t' s'' r hfailed' ⟨e, he, hbad⟩
    obtain he | he := List.mem_append.1 he
    · obtain ⟨error, herror⟩ := hfailed ⟨e, he, hbad⟩
      cases herror
    · exact hfailed' ⟨e, he, hbad⟩

/-- What comes after an action that leaves the state as it is may keep a part of it only. -/
theorem bind_keeps {γ : Type} {view : σ → γ} (h : Passive m seat s)
    (hf : ∀ a, Ensures (f a) seat s fun _ s' _ => view s' = view s) :
    Ensures (m >>= f) seat s fun _ s' _ => view s' = view s := by
  refine Ensures.bind (h.mono ?_)
  rintro t s' (error | a) ⟨rfl, -⟩
  · rfl
  · exact hf a

end Passive

namespace Fragile

protected theorem pure (a : α) : Fragile (pure a) seat s := Ensures.pure (by simp)

protected theorem throw (e : ProtocolError) : Fragile (throw e : Action σ α) seat s :=
  Ensures.throw (by simp)

protected theorem modify (f : σ → σ) : Fragile (modify f : Action σ Unit) seat s :=
  Ensures.modify (by simp)

end Fragile

end Action

open Multiparty.Action (Passive Fragile)

/-- An exchange in which nothing changes before all calls have succeeded can be tried again. -/
theorem Opener.retries_of_fragile {O S R : Type} [Opener O S R]
    (h : ∀ seat (o : O), Fragile Opener.exchange seat o) : Opener.Retries O :=
  fun hfailed hrun => hrun.of_ensures (h _ _) ⟨_, List.mem_singleton_self _, hfailed⟩

namespace ReplicatedOpener

variable {R : Type} [CodedRing R] {seat : Seat} {o : ReplicatedOpener R}

theorem passive_secondCopies : Passive secondCopies seat o := by
  refine Ensures.get_bind ?_
  cases o.mode with
  | communication =>
    exact Passive.bind (Passive.call _) fun payload =>
      Passive.bind (Passive.ofExcept _) fun parts => Passive.pure _
  | semiHonest => exact Passive.pure _
  | hash => exact Passive.pure _

private theorem fragile_exchange (seat : Seat) (o : ReplicatedOpener R) :
    Fragile exchange seat o := by
  refine Ensures.get_bind (Ensures.seat_bind ?_)
  split
  · exact Fragile.throw _
  split
  · exact Fragile.throw _
  split
  · exact Fragile.pure _
  exact Passive.bind_fragile (Passive.call _) fun payload =>
    Passive.bind_fragile (Passive.ofExcept _) fun previous =>
      Passive.bind_fragile passive_secondCopies fun next => Fragile.modify _

theorem retries (R : Type) [CodedRing R] : Opener.Retries (ReplicatedOpener R) :=
  Opener.retries_of_fragile fragile_exchange

end ReplicatedOpener

namespace ThresholdOpener

variable {F : Type} [CodedField F] {seat : Seat} {o s : ThresholdOpener F}

private theorem passive_visit (payload : Bytes) (offset : Nat) (columns : List (List F)) :
    Passive (visit o payload offset columns) seat s := by
  rw [visit]
  cases decide (o.party < o.senders) <;>
    cases decide ((o.party + o.parties - offset) % o.parties < o.senders)
  · exact Passive.pure _
  · exact Passive.bind (Passive.call _) fun bytes => Passive.ofExcept _
  · exact Passive.bind (Passive.call _) fun _ => Passive.pure _
  · exact Passive.bind (Passive.call _) fun bytes => Passive.ofExcept _

theorem passive_exchangeAt (payload : Bytes) (offsets : List Nat) (columns : List (List F)) :
    Passive (exchangeAt o payload offsets columns) seat s := by
  induction offsets generalizing columns with
  | nil => exact Passive.pure _
  | cons offset offsets ih => exact Passive.bind (passive_visit payload offset columns) ih

private theorem fragile_exchange (seat : Seat) (o : ThresholdOpener F) :
    Fragile exchange seat o := by
  refine Ensures.get_bind (Ensures.seat_bind ?_)
  split
  · exact Fragile.throw _
  split
  · exact Fragile.throw _
  split
  · exact Fragile.pure _
  exact Passive.bind_fragile (passive_exchangeAt _ _ _) fun columns => Fragile.modify _

theorem retries (F : Type) [CodedField F] : Opener.Retries (ThresholdOpener F) :=
  Opener.retries_of_fragile fragile_exchange

end ThresholdOpener

end Multiparty
