import Mathlib
import Multiparty.Proofs.Opening.Poisoning

/-!
# Exchanges that fail

An exchange makes many calls and decodes what it hears of one party after the other, and any of that
may fail. Until all of it has succeeded nothing is recorded, so an exchange that fails leaves the
opener as it was. The one exception is a failure of the check with which an exchange of
authenticated shares may end: then the whole batch is recorded, and the opener is poisoned.

## Main definitions

* `Action.Atomic`: actions that change the state only if they succeed.
* `MacOpener.Caught`: an opener after the check at the end of an exchange has failed.

## Main results

* `MacOpener.unchanged_or_caught`: the two ways in which an exchange of authenticated shares fails.
* `Opener.PoisonRules.returned_eq_nil`: a poisoned opener hands out no value any more.
* `Opener.failed_exchange`: the openers of all schemes.
-/

namespace Multiparty

open Multiparty.Action (Ensures Passive Runs)

namespace Action

variable {σ α β : Type} {seat : Seat} {s : σ}

/-- If the action fails, it leaves the state as it is. -/
def Atomic (m : Action σ α) (seat : Seat) (s : σ) : Prop :=
  Ensures m seat s fun _ s' r => ∀ e, r = .error e → s' = s

namespace Atomic

protected theorem pure (a : α) : Atomic (pure a) seat s := Ensures.pure nofun

protected theorem throw (e : ProtocolError) : Atomic (throw e : Action σ α) seat s :=
  Ensures.throw fun _ _ => rfl

protected theorem modify (f : σ → σ) : Atomic (modify f : Action σ Unit) seat s :=
  Ensures.modify nofun

end Atomic

/-- Before a change that cannot fail, anything may be done that changes nothing. -/
theorem Passive.bind_atomic {m : Action σ α} {f : α → Action σ β} (h : Passive m seat s)
    (hf : ∀ a, Atomic (f a) seat s) : Atomic (m >>= f) seat s := by
  refine Ensures.bind (h.mono ?_)
  rintro t s' (error | a) ⟨rfl, -⟩
  · exact fun _ _ => rfl
  · exact hf a

end Action

open Multiparty.Action (Atomic)

/-- A poisoned opener hands out no value, whatever is done with it. -/
theorem Opener.PoisonRules.returned_eq_nil {O S R : Type} [Opener O S R]
    {Notices : O → Operation (OpenerStep S) (Option R) → Prop} (h : PoisonRules Notices) {o o' : O}
    {later : List (Operation (OpenerStep S) (Option R))} (hpoisoned : isPoisoned o = true)
    (hlater : History OpenerStep.act o later o') : returned later = [] := by
  induction hlater with
  | start => rfl
  | @next ops op o₁ o₂ hops hop ih =>
    have hrefused := (h.absorbs (h.absorbing hpoisoned hops).1 hop).2.2
    have hnone : op.value? = none := by
      obtain ⟨step, seat, calls, outcome⟩ := op
      cases step with
      | init => exact Operation.value?_of_ok (OpenerStep.of_runs_init hop).2.2
      | prepare s => exact Operation.value?_of_ok (OpenerStep.of_runs_prepare hop).2.2
      | exchange => exact Operation.value?_of_error ⟨_, (hrefused trivial).2⟩
      | finalize => exact Operation.value?_of_error ⟨_, (hrefused trivial).2⟩
      | check => exact Operation.value?_of_error ⟨_, (hrefused trivial).2⟩
    rw [returned_append_singleton, ih, hnone]
    rfl

namespace MacOpener

variable {R : Type} [CodedRing R] {seat : Seat} {o o' : MacOpener R} {t : List Event}
  {e : ProtocolError}

/-- The exchange has revealed values, one for each queued share, and the check at its end has
failed. All of the values are recorded as opened and as pending, and none of them is ever handed
out. -/
structure Caught (seat : Seat) (o : MacOpener R) (values : List R) (t : List Event)
    (o' : MacOpener R) (e : ProtocolError) : Prop where
  revealed : ∃ payload payloads later, t = ⟨.broadcast payload, .ok payloads⟩ :: later ∧
    sumWithPeers o.party (o.batch.toList.map (·.value)) payloads = .ok values ∧
    o.checkThreshold ≤ (record values o).pending.size ∧
    Runs check seat (record values o) later o' (.error e)
  length : values.length = o.batch.size
  batch : o'.batch = #[]
  opened : o'.opened.toList = o.opened.toList ++ values
  pending : o'.pending.toList = o.pending.toList ++
    List.zipWith (fun s v => (⟨v, s.mac⟩ : PendingCheck R)) o.batch.toList values
  poisoned : o'.poisoned = true
  withheld : ∀ later o'', History OpenerStep.act o' later o'' → returned later = []

/-- A check that fails leaves everything that is recorded and poisons the opener. -/
private theorem caught_of_check {payload : Bytes} {payloads : List Bytes} {values : List R}
    (hsums : sumWithPeers o.party (o.batch.toList.map (·.value)) payloads = .ok values)
    (hthreshold : o.checkThreshold ≤ (record values o).pending.size)
    (hcheck : Runs check seat (record values o) t o' (.error e)) :
    Caught seat o values (⟨.broadcast payload, .ok payloads⟩ :: t) o' e := by
  obtain ⟨rng, hafter⟩ := hcheck.of_ensures ensures_check
  have hpoisoned : o'.poisoned = true := by rw [hafter]
  exact {
    revealed := ⟨payload, payloads, t, rfl, hsums, hthreshold, hcheck⟩
    length := (length_of_sumWithPeers hsums).trans (by simp)
    batch := by rw [hafter, record]
    opened := by rw [hafter, record, Queue.toList_appendList]
    pending := by
      rw [hafter, record]
      exact Array.toList_append
    poisoned := hpoisoned
    withheld := fun _ _ => poisonRules.returned_eq_nil hpoisoned }

/-- An exchange that fails before its check changes nothing. -/
theorem unchanged_or_caught (hrun : Runs exchange seat o t o' (.error e)) :
    (o' = o ∧ ¬ Notices o ⟨.exchange, seat, t, .error e⟩) ∨
      ∃ values, Caught seat o values t o' e := by
  generalize hr : (Except.error e : Except ProtocolError Unit) = r at hrun
  cases hrun.of_ensures ensures_exchange with
  | refused =>
    refine .inl ⟨rfl, ?_⟩
    rintro ⟨-, -, _, _, _, _, hcalls, -⟩
    cases hcalls
  | nothing => cases hr
  | failed payload hanswer =>
    refine .inl ⟨rfl, ?_⟩
    rintro ⟨-, -, _, payloads, _, values, hcalls, hsums, -⟩
    obtain ⟨hevent, -⟩ := List.cons.inj hcalls
    cases hevent
    exact hanswer payloads values rfl hsums
  | deferred => cases hr
  | checked payload _ hsums hthreshold hcheck =>
    exact .inr ⟨_, caught_of_check hsums hthreshold (hr ▸ hcheck)⟩

end MacOpener

namespace ReplicatedOpener

variable {R : Type} [CodedRing R]

/-- The second copies are asked for before anything is recorded. -/
theorem atomic_exchange (seat : Seat) (o : ReplicatedOpener R) : Atomic exchange seat o := by
  refine Ensures.get_bind (Ensures.seat_bind ?_)
  split
  · exact Atomic.throw _
  split
  · exact Atomic.throw _
  split
  · exact Atomic.pure _
  exact Passive.bind_atomic (Passive.call _) fun payload =>
    Passive.bind_atomic (Passive.ofExcept _) fun previous =>
      Passive.bind_atomic passive_secondCopies fun next => Atomic.modify _

end ReplicatedOpener

namespace ThresholdOpener

variable {F : Type} [CodedField F]

/-- All other parties are visited before anything is recorded. -/
theorem atomic_exchange (seat : Seat) (o : ThresholdOpener F) : Atomic exchange seat o := by
  refine Ensures.get_bind (Ensures.seat_bind ?_)
  split
  · exact Atomic.throw _
  split
  · exact Atomic.throw _
  split
  · exact Atomic.pure _
  exact Passive.bind_atomic (passive_exchangeAt _ _ _) fun columns => Atomic.modify _

end ThresholdOpener

/-- **Failed exchanges.** Let an exchange fail, in any state of the opener and with any answers of
the network. An opener of replicated or of threshold shares is left exactly as it was. So is one of
authenticated shares, unless the exchange has revealed its batch and the check at its end has
failed. Then the whole batch is recorded as opened and as pending, and the opener is poisoned and
hands out no value any more. -/
theorem Opener.failed_exchange :
    (∀ (R : Type) [CodedRing R] (seat : Seat) (o o' : MacOpener R) (t : List Event)
      (e : ProtocolError), Runs Opener.exchange seat o t o' (.error e) →
        (o' = o ∧ ¬ MacOpener.Notices o ⟨.exchange, seat, t, .error e⟩) ∨
          ∃ values, MacOpener.Caught seat o values t o' e) ∧
    (∀ (R : Type) [CodedRing R] (seat : Seat) (o o' : ReplicatedOpener R) (t : List Event)
      (e : ProtocolError), Runs Opener.exchange seat o t o' (.error e) → o' = o) ∧
    ∀ (F : Type) [CodedField F] (seat : Seat) (o o' : ThresholdOpener F) (t : List Event)
      (e : ProtocolError), Runs Opener.exchange seat o t o' (.error e) → o' = o :=
  ⟨fun _ _ _ _ _ _ _ => MacOpener.unchanged_or_caught,
    fun _ _ seat o _ _ e hrun => hrun.of_ensures (ReplicatedOpener.atomic_exchange seat o) e rfl,
    fun _ _ seat o _ _ e hrun => hrun.of_ensures (ThresholdOpener.atomic_exchange seat o) e rfl⟩

section Example

/-- The first of two parties with a share queued, which verifies everything at once. -/
private def wary : MacOpener Mersenne61 :=
  { MacOpener.create 0 (CodedRing.ofWord 1) { checkThreshold := 1 } (.ofWord 0) with
    batch := #[⟨CodedRing.ofWord 5, CodedRing.ofWord 7⟩] }

/-- A network that answers the first call only. -/
private def breaking : Answers := fun k c =>
  if k = 0 then
    match c with
    | .send .. => .ok ()
    | .receive _ => .ok []
    | .broadcast payload => .ok [payload, encodeValues [(CodedRing.ofWord 1 : Mersenne61)]]
    | .pass .. => .ok []
  else .error (.receive 1)

/-- The value 6 is revealed, and the network breaks down in the check. It stays in the opener for
good. -/
theorem failed_exchange_breaking :
    let after := (Opener.exchange.run ⟨0, 2⟩ wary).under breaking
    after.2 = .error (.transport (.receive 1)) ∧ after.1.opened.toList = [CodedRing.ofWord 6] ∧
      ∀ later o, History OpenerStep.act after.1 later o → returned later = [] := by
  intro after
  have hfailed : after.2 = .error (.transport (.receive 1)) := by decide +kernel
  have hpoisoned : after.1.poisoned = true := by decide +kernel
  have hopened : after.1.opened.toList = [CodedRing.ofWord 6] := by decide +kernel
  refine ⟨hfailed, hopened, ?_⟩
  obtain ⟨hsame, -⟩ | ⟨values, hcaught⟩ := Opener.failed_exchange.1 Mersenne61 ⟨0, 2⟩ wary after.1 _
    _ ⟨breaking, rfl, Prod.ext rfl hfailed⟩
  · rw [hsame] at hpoisoned
    cases hpoisoned
  · exact hcaught.withheld

end Example

end Multiparty
