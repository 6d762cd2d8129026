import Mathlib
import Multiparty.Proofs.Failure
import Multiparty.Proofs.Joint.Threshold
import Multiparty.Proofs.Opening.Refusal

/-!
# Poisoned openers

An opener that has noticed a fault refuses everything that could reveal or verify a value. It notices
a fault in a check that fails with something to verify, and besides in whatever else its scheme
verifies: the check at the end of an exchange, or the redundant copies of a value that is taken. No
other failure makes it unusable, neither a misuse nor an exchange that fails before its check.

## Main definitions

* `Opener.CheckFails`: a check with something to verify has failed.
* `MacOpener.Notices`, `ReplicatedOpener.Notices`, `ThresholdOpener.Notices`: what else each kind of
  opener notices.
* `Opener.PoisonRules`: what each operation does to openers of one kind.
* `Opener.PoisonedExactly`: when an opener is poisoned, and that it stays so.

## Main results

* `MacOpener.poisonRules`, `ReplicatedOpener.poisonRules`, `ThresholdOpener.poisonRules`: the rules
  of each scheme.
* `Opener.PoisonRules.poisons`, `Opener.PoisonRules.absorbs`: one operation.
* `Opener.PoisonRules.exactly`: a whole history.
* `Opener.poisoned_exactly`: the openers of all schemes.
-/

namespace Multiparty

open Multiparty.Action (Ensures Passive Runs)

/-- The operation reveals or verifies something, so that it may fail. -/
def OpenerStep.Fallible {α : Type} : OpenerStep α → Prop
  | .init | .prepare _ => False
  | .exchange | .finalize | .check => True

namespace Opener

variable {O S R : Type} [Opener O S R]

/-- The operation is a check that fails although there was something to verify. -/
structure CheckFails (o : O) (op : Operation (OpenerStep S) (Option R)) : Prop where
  step : op.step = .check
  pending : pendingChecks o ≠ 0
  failed : ∃ e, op.outcome = .error e

variable (Notices : O → Operation (OpenerStep S) (Option R) → Prop)

/-- What each of the operations does to openers that notice faults by other operations than checks
too. -/
structure PoisonRules : Prop where
  init : ∀ o : O, isPoisoned (init o) = isPoisoned o ∧ pendingChecks (init o) = pendingChecks o
  prepare : ∀ (s : S) (o : O),
    isPoisoned (prepare s o) = isPoisoned o ∧ pendingChecks (prepare s o) = pendingChecks o
  exchange : ∀ {seat : Seat} {o o' : O} {t : List Event} {r : Except ProtocolError Unit},
    isPoisoned o = false → Runs exchange seat o t o' r →
      (isPoisoned o' = true ↔ Notices o ⟨.exchange, seat, t, r.map fun _ => none⟩) ∧
        (isPoisoned o' = true → ∃ e, r = .error e ∧ e.External)
  finalize : ∀ {o : O}, isPoisoned o = false → ∀ seat,
    (isPoisoned (finalize o).2 = true ↔ Notices o ⟨.finalize, seat, [], (finalize o).1.map some⟩) ∧
      (isPoisoned (finalize o).2 = true → (finalize o).1 = .error .macFail)
  check : ∀ {seat : Seat} {o o' : O} {t : List Event} {r : Except ProtocolError Unit},
    isPoisoned o = false → Runs check seat o t o' r →
      (isPoisoned o' = true ↔ pendingChecks o ≠ 0 ∧ ∃ e, r = .error e) ∧
        (isPoisoned o' = true → ∃ e, r = .error e ∧ e.External)
  notices : ∀ {o : O} {op : Operation (OpenerStep S) (Option R)}, Notices o op →
    op.step = .exchange ∨ op.step = .finalize
  refusedExchange : ∀ {o : O}, isPoisoned o = true → ∀ seat,
    Opener.exchange.run seat o = .done o (.error .macFail)
  refusedFinalize : ∀ {o : O}, isPoisoned o = true → Opener.finalize o = (.error .macFail, o)
  refusedCheck : ∀ {o : O}, isPoisoned o = true → ∀ seat,
    Opener.check.run seat o = .done o (.error .macFail)

/-- One of the operations that have led from `o₀` to `o` has noticed a fault. -/
def Detected (o₀ : O) (ops : List (Operation (OpenerStep S) (Option R))) (o : O) : Prop :=
  ∃ before op after o₁ o₂, ops = before ++ op :: after ∧ History OpenerStep.act o₀ before o₁ ∧
    Runs op.step.act op.seat o₁ op.calls o₂ op.outcome ∧ History OpenerStep.act o₂ after o ∧
    (CheckFails o₁ op ∨ Notices o₁ op)

/-- Of all openers that are reached from a fresh one, those are poisoned after whose history
something was noticed. Once poisoned they stay so, and everything that could reveal or verify a value
is refused without a call. -/
structure PoisonedExactly (fresh : O) : Prop where
  becomes : ∀ {ops o op o'}, History OpenerStep.act fresh ops o → isPoisoned o = false →
    Runs op.step.act op.seat o op.calls o' op.outcome →
      (isPoisoned o' = true ↔ CheckFails o op ∨ Notices o op) ∧
        (isPoisoned o' = true → ∃ e, op.outcome = .error e ∧ e.External)
  isPoisoned_iff : ∀ {ops o}, History OpenerStep.act fresh ops o →
    (isPoisoned o = true ↔ Detected Notices fresh ops o)
  absorbing : ∀ {ops o later o'}, History OpenerStep.act fresh ops o → isPoisoned o = true →
    History OpenerStep.act o later o' →
      isPoisoned o' = true ∧ pendingChecks o' = pendingChecks o ∧
        ∀ op ∈ later, op.step.Fallible → op.calls = [] ∧ op.outcome = .error .macFail

variable {Notices}

namespace PoisonRules

variable {fresh o o' : O} {op : Operation (OpenerStep S) (Option R)}
  {ops later : List (Operation (OpenerStep S) (Option R))}

/-- A usable opener is poisoned by what it notices and by nothing else, and for a reason that lies
with the others. -/
theorem poisons (h : PoisonRules Notices) (husable : isPoisoned o = false)
    (hrun : Runs op.step.act op.seat o op.calls o' op.outcome) :
    (isPoisoned o' = true ↔ CheckFails o op ∨ Notices o op) ∧
      (isPoisoned o' = true → ∃ e, op.outcome = .error e ∧ e.External) := by
  have hunnoticed (hexchange : op.step ≠ .exchange) (hfinalize : op.step ≠ .finalize) :
      ¬ Notices o op := fun hnotices => (h.notices hnotices).elim hexchange hfinalize
  have hsame {p : Prop} (hsame : isPoisoned o' = isPoisoned o) (hp : ¬ p) :
      (isPoisoned o' = true ↔ p) ∧
        (isPoisoned o' = true → ∃ e, op.outcome = .error e ∧ e.External) := by
    have husable' := ne_true_of_eq_false (hsame.trans husable)
    exact ⟨iff_of_false husable' hp, fun hpoisoned => absurd hpoisoned husable'⟩
  obtain ⟨step, seat, calls, outcome⟩ := op
  cases step with
  | init =>
    obtain ⟨-, rfl, -⟩ := OpenerStep.of_runs_init hrun
    refine hsame (h.init o).1 ?_
    rintro (⟨hstep, -, -⟩ | hnotices)
    · cases hstep
    · exact hunnoticed nofun nofun hnotices
  | prepare s =>
    obtain ⟨-, rfl, -⟩ := OpenerStep.of_runs_prepare hrun
    refine hsame (h.prepare s o).1 ?_
    rintro (⟨hstep, -, -⟩ | hnotices)
    · cases hstep
    · exact hunnoticed nofun nofun hnotices
  | exchange =>
    obtain ⟨r, hexchange, rfl⟩ := hrun.of_bind_pure
    obtain ⟨hiff, hexternal⟩ := h.exchange husable hexchange
    refine ⟨hiff.trans ⟨.inr, ?_⟩, fun hpoisoned => ?_⟩
    · rintro (⟨hstep, -, -⟩ | hnotices)
      · cases hstep
      · exact hnotices
    · obtain ⟨e, rfl, he⟩ := hexternal hpoisoned
      exact ⟨e, rfl, he⟩
  | finalize =>
    obtain ⟨rfl, rfl, rfl⟩ := OpenerStep.of_runs_finalize hrun
    obtain ⟨hiff, hfailed⟩ := h.finalize husable seat
    refine ⟨hiff.trans ⟨.inr, ?_⟩, fun hpoisoned => ⟨.macFail, ?_, .macFail⟩⟩
    · rintro (⟨hstep, -, -⟩ | hnotices)
      · cases hstep
      · exact hnotices
    · exact congrArg (Except.map some) (hfailed hpoisoned)
  | check =>
    obtain ⟨r, hcheck, rfl⟩ := hrun.of_bind_pure
    obtain ⟨hiff, hexternal⟩ := h.check husable hcheck
    refine ⟨hiff.trans ⟨?_, ?_⟩, fun hpoisoned => ?_⟩
    · rintro ⟨hpending, e, rfl⟩
      exact .inl ⟨rfl, hpending, e, rfl⟩
    · rintro (⟨-, hpending, e, he⟩ | hnotices)
      · cases r with
        | ok _ => cases he
        | error e' => exact ⟨hpending, e', rfl⟩
      · exact absurd hnotices (hunnoticed nofun nofun)
    · obtain ⟨e, rfl, he⟩ := hexternal hpoisoned
      exact ⟨e, rfl, he⟩

/-- A poisoned opener stays so and makes no calls. -/
theorem absorbs (h : PoisonRules Notices) (hpoisoned : isPoisoned o = true)
    (hrun : Runs op.step.act op.seat o op.calls o' op.outcome) :
    isPoisoned o' = true ∧ pendingChecks o' = pendingChecks o ∧
      (op.step.Fallible → op.calls = [] ∧ op.outcome = .error .macFail) := by
  obtain ⟨step, seat, calls, outcome⟩ := op
  cases step with
  | init =>
    obtain ⟨-, rfl, -⟩ := OpenerStep.of_runs_init hrun
    exact ⟨(h.init o).1.trans hpoisoned, (h.init o).2, False.elim⟩
  | prepare s =>
    obtain ⟨-, rfl, -⟩ := OpenerStep.of_runs_prepare hrun
    exact ⟨(h.prepare s o).1.trans hpoisoned, (h.prepare s o).2, False.elim⟩
  | exchange =>
    obtain ⟨r, hexchange, rfl⟩ := hrun.of_bind_pure
    obtain ⟨rfl, rfl, rfl⟩ := hexchange.eq_of_done (h.refusedExchange hpoisoned seat)
    exact ⟨hpoisoned, rfl, fun _ => ⟨rfl, rfl⟩⟩
  | finalize =>
    obtain ⟨rfl, rfl, rfl⟩ := OpenerStep.of_runs_finalize hrun
    rw [h.refusedFinalize hpoisoned]
    exact ⟨hpoisoned, rfl, fun _ => ⟨rfl, rfl⟩⟩
  | check =>
    obtain ⟨r, hcheck, rfl⟩ := hrun.of_bind_pure
    obtain ⟨rfl, rfl, rfl⟩ := hcheck.eq_of_done (h.refusedCheck hpoisoned seat)
    exact ⟨hpoisoned, rfl, fun _ => ⟨rfl, rfl⟩⟩

/-- A poisoned opener stays so whatever is done with it. -/
theorem absorbing (h : PoisonRules Notices) (hpoisoned : isPoisoned o = true)
    (hlater : History OpenerStep.act o later o') :
    isPoisoned o' = true ∧ pendingChecks o' = pendingChecks o ∧
      ∀ op ∈ later, op.step.Fallible → op.calls = [] ∧ op.outcome = .error .macFail := by
  induction hlater with
  | start => exact ⟨hpoisoned, rfl, fun op hop => by cases hop⟩
  | next _ hop ih =>
    obtain ⟨hpoisoned₁, hpending₁, hall⟩ := ih
    obtain ⟨hpoisoned₂, hpending₂, hlast⟩ := h.absorbs hpoisoned₁ hop
    refine ⟨hpoisoned₂, hpending₂.trans hpending₁, fun op' hop' => ?_⟩
    obtain hop' | hop' := List.mem_append.1 hop'
    · exact hall op' hop'
    · obtain rfl := List.mem_singleton.1 hop'
      exact hlast

/-- An opener is poisoned exactly if something was noticed since it was fresh. -/
theorem isPoisoned_iff (h : PoisonRules Notices) (hfresh : isPoisoned fresh = false)
    (hhistory : History OpenerStep.act fresh ops o) :
    isPoisoned o = true ↔ Detected Notices fresh ops o := by
  constructor
  · induction hhistory with
    | start => exact fun hpoisoned => absurd hpoisoned (ne_true_of_eq_false hfresh)
    | @next ops op o₁ o₂ hops hop ih =>
      intro hpoisoned
      cases hbefore : isPoisoned o₁ with
      | true =>
        obtain ⟨before, op', after, o', o'', rfl, hbefore', hop', hafter, hdetects⟩ := ih hbefore
        exact ⟨before, op', after ++ [op], o', o'', by simp, hbefore', hop', hafter.next hop,
          hdetects⟩
      | false =>
        exact ⟨ops, op, [], o₁, o₂, rfl, hops, hop, .start, (h.poisons hbefore hop).1.1 hpoisoned⟩
  · rintro ⟨before, op, after, o₁, o₂, rfl, -, hop, hafter, hdetects⟩
    have hafterwards : isPoisoned o₂ = true := by
      cases hbefore : isPoisoned o₁ with
      | true => exact (h.absorbs hbefore hop).1
      | false => exact (h.poisons hbefore hop).1.2 hdetects
    exact (h.absorbing hafterwards hafter).1

theorem exactly (h : PoisonRules Notices) (hfresh : isPoisoned fresh = false) :
    PoisonedExactly Notices fresh where
  becomes _ := h.poisons
  isPoisoned_iff := h.isPoisoned_iff hfresh
  absorbing _ := h.absorbing

end PoisonRules

end Opener

/-! ### Authenticated shares -/

namespace MacOpener

variable {R : Type} [CodedRing R]

/-- Besides in checks that were asked for, an opener of authenticated shares notices a fault in an
exchange that fails although the payloads of the others were decoded, and that has revealed so much
that it ends with a check. -/
def Notices (o : MacOpener R) (op : Operation (OpenerStep (MacShare R)) (Option R)) : Prop :=
  op.step = .exchange ∧ (∃ e, op.outcome = .error e) ∧ ∃ payload payloads later values,
    op.calls = ⟨.broadcast payload, .ok payloads⟩ :: later ∧
    sumWithPeers o.party (o.batch.toList.map (·.value)) payloads = .ok values ∧
    o.checkThreshold ≤ (record values o).pending.size

variable {seat : Seat} {o o' : MacOpener R} {t : List Event} {r : Except ProtocolError Unit}

/-- A check poisons the opener exactly if it fails. -/
private theorem poisoned_check_iff (husable : o.poisoned = false) (hrun : Runs check seat o t o' r) :
    o'.poisoned = true ↔ ∃ e, r = .error e := by
  have hcheck := hrun.of_ensures ensures_check
  cases r with
  | ok _ =>
    obtain ⟨-, -, rng, rfl⟩ := hcheck
    simp [husable]
  | error e =>
    obtain ⟨rng, rfl⟩ := hcheck
    simp

/-- A check fails only if there is something to verify. -/
private theorem pending_ne_zero_of_check (husable : o.poisoned = false) {e : ProtocolError}
    (hrun : Runs check seat o t o' (.error e)) : o.pending.size ≠ 0 := by
  intro hzero
  obtain ⟨-, -, hok⟩ := hrun.eq_of_done (run_check_nil seat o husable (by simpa using hzero))
  cases hok

private theorem poisoned_exchange_iff (husable : o.poisoned = false)
    (hrun : Runs exchange seat o t o' r) :
    o'.poisoned = true ↔ Notices o ⟨.exchange, seat, t, r.map fun _ => none⟩ := by
  have hsame {p : Prop} (hp : ¬ p) : o.poisoned = true ↔ p :=
    iff_of_false (ne_true_of_eq_false husable) hp
  cases hrun.of_ensures ensures_exchange with
  | refused hpoisoned => exact absurd hpoisoned (ne_true_of_eq_false husable)
  | nothing => exact hsame fun ⟨_, ⟨e, he⟩, _⟩ => by cases he
  | failed payload hanswer =>
    refine hsame ?_
    rintro ⟨-, -, _, payloads, _, values, hcalls, hsums, -⟩
    obtain ⟨hevent, -⟩ := List.cons.inj hcalls
    cases hevent
    exact hanswer payloads values rfl hsums
  | deferred payload => exact hsame fun ⟨_, ⟨e, he⟩, _⟩ => by cases he
  | @checked _ values _ _ _ payload _ hsums hle hcheck =>
    have hrecorded : (record values o).poisoned = false := husable
    rw [poisoned_check_iff hrecorded hcheck]
    constructor
    · rintro ⟨e, rfl⟩
      exact ⟨rfl, ⟨e, rfl⟩, _, _, _, _, rfl, hsums, hle⟩
    · rintro ⟨-, ⟨e, he⟩, -⟩
      cases r with
      | ok _ => cases he
      | error e' => exact ⟨e', rfl⟩

private theorem run_exchange_poisoned (hpoisoned : o.poisoned = true) (seat : Seat) :
    exchange.run seat o = .done o (.error .macFail) := by
  rw [exchange, Action.run_get_bind, if_pos hpoisoned]
  rfl

private theorem run_check_poisoned (hpoisoned : o.poisoned = true) (seat : Seat) :
    check.run seat o = .done o (.error .macFail) := by
  rw [check, Action.run_get_bind, if_pos hpoisoned]
  rfl

theorem poisonRules : Opener.PoisonRules (Notices (R := R)) where
  init _ := ⟨rfl, rfl⟩
  prepare _ _ := ⟨rfl, rfl⟩
  exchange {seat o o' t r} husable hrun := by
    have hiff := poisoned_exchange_iff husable hrun
    refine ⟨hiff, fun hpoisoned => ?_⟩
    obtain ⟨-, ⟨e, he⟩, -⟩ := hiff.1 hpoisoned
    cases r with
    | ok _ => cases he
    | error e' => exact ⟨e', rfl, hrun.of_ensures (failsWith_exchange seat o) e' rfl⟩
  finalize {o} husable seat := by
    have hunchanged : ¬ o.poisoned = true := ne_true_of_eq_false husable
    have hkeeps : ¬ (MacOpener.finalize o).2.poisoned = true := by
      rw [MacOpener.finalize, if_neg hunchanged]
      cases o.opened.dequeue? <;> exact hunchanged
    exact ⟨iff_of_false hkeeps fun h => (by cases h.1), fun hpoisoned => absurd hpoisoned hkeeps⟩
  check {seat o o' t r} husable hrun := by
    have hiff := poisoned_check_iff husable hrun
    refine ⟨hiff.trans ⟨?_, And.right⟩, fun hpoisoned => ?_⟩
    · rintro ⟨e, rfl⟩
      exact ⟨pending_ne_zero_of_check husable hrun, e, rfl⟩
    · obtain ⟨e, rfl⟩ := hiff.1 hpoisoned
      exact ⟨e, rfl, hrun.of_ensures (failsWith_check seat o) e rfl⟩
  notices h := .inl h.1
  refusedExchange := run_exchange_poisoned
  refusedFinalize {o} hpoisoned := if_pos hpoisoned
  refusedCheck := run_check_poisoned

end MacOpener

/-! ### Replicated shares -/

namespace ReplicatedOpener

variable {R : Type} [CodedRing R]

/-- An opener of replicated shares notices that the two copies of a missing part differ, when it is
asked for the value. -/
def Notices (o : ReplicatedOpener R) (op : Operation (OpenerStep (ReplicatedShare R)) (Option R)) :
    Prop :=
  op.step = .finalize ∧ ∃ opening rest second, o.received.dequeue? = some (opening, rest) ∧
    opening.fromNext = some second ∧ second ≠ opening.fromPrevious

variable {seat : Seat} {o o' : ReplicatedOpener R} {t : List Event} {r : Except ProtocolError Unit}

private theorem ensures_exchange_poisoned (seat : Seat) (o : ReplicatedOpener R) :
    Ensures exchange seat o fun _ o' _ => o'.poisoned = o.poisoned := by
  refine Ensures.get_bind (Ensures.seat_bind ?_)
  split
  · exact Ensures.throw rfl
  split
  · exact Ensures.throw rfl
  split
  · exact Ensures.pure rfl
  exact Passive.bind_keeps (Passive.call _) fun _ => Passive.bind_keeps (Passive.ofExcept _)
    fun _ => Passive.bind_keeps passive_secondCopies fun _ => Ensures.modify rfl

/-- A check poisons the opener exactly if it fails, and it fails only if there is something to
verify. -/
private theorem ensures_check_poisoned (husable : o.poisoned = false) : Ensures check seat o
    fun _ o' r => o'.poisoned = true ↔ o.unchecked.isEmpty = false ∧ ∃ e, r = .error e := by
  have hunchanged : ¬ o.poisoned = true := ne_true_of_eq_false husable
  refine Ensures.get_bind ?_
  rw [if_neg hunchanged]
  cases hempty : o.unchecked.isEmpty with
  | true => exact Ensures.pure (iff_of_false hunchanged nofun)
  | false =>
    have hbroadcast : Ensures (Action.broadcast o.digest).attempt seat o
        fun _ o' r => o' = o ∧ ∃ answer, r = .ok answer :=
      Ensures.attempt (Ensures.call (fun _ => ⟨rfl, _, rfl⟩) fun _ => ⟨rfl, _, rfl⟩)
    refine Ensures.bind (hbroadcast.mono ?_)
    rintro t o' _ ⟨rfl, answer, rfl⟩
    have hfail (e : ProtocolError) : Ensures (fail e : Action (ReplicatedOpener R) Unit) seat o'
        fun _ o'' r => o''.poisoned = true ↔ false = false ∧ ∃ e, r = .error e :=
      Ensures.bind (Ensures.modify (Ensures.throw (iff_of_true rfl ⟨rfl, e, rfl⟩)))
    cases answer with
    | error e => exact hfail e
    | ok digests =>
      dsimp only
      split
      · exact Ensures.modify (iff_of_false hunchanged nofun)
      · exact hfail .macFail

/-- The copies of the missing part of the next value to be taken differ. -/
private theorem notices_finalize_iff {opening : ReplicatedOpening R}
    {rest : Queue (ReplicatedOpening R)} (hnext : o.received.dequeue? = some (opening, rest))
    (seat : Seat) (r : Except ProtocolError (Option R)) :
    Notices o ⟨.finalize, seat, [], r⟩ ↔
      opening.fromNext.any (· ≠ opening.fromPrevious) = true := by
  constructor
  · rintro ⟨-, opening', rest', second, hnext', hsecond, hne⟩
    obtain ⟨rfl, rfl⟩ := Prod.mk.inj (Option.some.inj (hnext.symm.trans hnext'))
    rw [hsecond, Option.any_some]
    exact decide_eq_true hne
  · intro hdiffer
    cases hsecond : opening.fromNext with
    | none =>
      rw [hsecond] at hdiffer
      cases hdiffer
    | some second =>
      rw [hsecond, Option.any_some] at hdiffer
      exact ⟨rfl, opening, rest, second, hnext, hsecond, of_decide_eq_true hdiffer⟩

private theorem finalize_poisoned (husable : o.poisoned = false) (seat : Seat) :
    ((finalize o).2.poisoned = true ↔ Notices o ⟨.finalize, seat, [], (finalize o).1.map some⟩) ∧
      ((finalize o).2.poisoned = true → (finalize o).1 = .error .macFail) := by
  have hunchanged : ¬ o.poisoned = true := ne_true_of_eq_false husable
  rw [finalize, if_neg hunchanged]
  cases hnext : o.received.dequeue? with
  | none =>
    refine ⟨iff_of_false hunchanged ?_, fun hpoisoned => absurd hpoisoned hunchanged⟩
    rintro ⟨-, opening, rest, -, htaken, -⟩
    rw [hnext] at htaken
    cases htaken
  | some next =>
    obtain ⟨opening, rest⟩ := next
    dsimp only
    rw [notices_finalize_iff hnext]
    split
    · next hdiffer => exact ⟨iff_of_true rfl hdiffer, fun _ => rfl⟩
    · next hsame =>
      have hkeeps : ¬ (if o.mode = ReplicatedCheck.hash then { o with
          received := rest
          unchecked := o.unchecked.push (opening.localSum + opening.fromPrevious) }
          else { o with received := rest }).poisoned = true := by
        split <;> exact hunchanged
      exact ⟨iff_of_false hkeeps hsame, fun hpoisoned => absurd hpoisoned hkeeps⟩

private theorem run_exchange_poisoned (hpoisoned : o.poisoned = true) (seat : Seat) :
    exchange.run seat o = .done o (.error .macFail) := by
  rw [exchange, Action.run_get_bind, Action.run_seat_bind, if_pos hpoisoned]
  rfl

private theorem run_check_poisoned (hpoisoned : o.poisoned = true) (seat : Seat) :
    check.run seat o = .done o (.error .macFail) := by
  rw [check, Action.run_get_bind, if_pos hpoisoned]
  rfl

theorem poisonRules : Opener.PoisonRules (Notices (R := R)) where
  init _ := ⟨rfl, rfl⟩
  prepare _ _ := ⟨rfl, rfl⟩
  exchange {seat o o' t r} husable hrun := by
    have hkeeps : ¬ o'.poisoned = true := by
      rw [hrun.of_ensures (ensures_exchange_poisoned seat o)]
      exact ne_true_of_eq_false husable
    exact ⟨iff_of_false hkeeps fun h => (by cases h.1), fun hpoisoned => absurd hpoisoned hkeeps⟩
  finalize husable := finalize_poisoned husable
  check {seat o o' t r} husable hrun := by
    have hiff := hrun.of_ensures (ensures_check_poisoned husable)
    have hpending : o.unchecked.isEmpty = false ↔ Opener.pendingChecks o ≠ 0 := by
      change _ ↔ (if o.unchecked.isEmpty = true then 0 else 1) ≠ 0
      cases o.unchecked.isEmpty <;> decide
    refine ⟨hiff.trans (and_congr_left' hpending), fun hpoisoned => ?_⟩
    obtain ⟨-, e, rfl⟩ := hiff.1 hpoisoned
    exact ⟨e, rfl, hrun.of_ensures (failsWith_check seat o) e rfl⟩
  notices h := .inr h.1
  refusedExchange := run_exchange_poisoned
  refusedFinalize hpoisoned := if_pos hpoisoned
  refusedCheck := run_check_poisoned

end ReplicatedOpener

/-! ### Threshold shares -/

namespace ThresholdOpener

variable {F : Type} [CodedField F]

/-- An opener of threshold shares that asks for redundant evaluations notices that they do not lead
to one value, when it is asked for the value. -/
def Notices (o : ThresholdOpener F) (op : Operation (OpenerStep (ThresholdShare F)) (Option F)) :
    Prop :=
  op.step = .finalize ∧ ∃ evaluations rest, o.received.dequeue? = some (evaluations, rest) ∧
    o.malicious = true ∧ ∃ row ∈ o.rows.tail,
      CodedRing.weightedSum row evaluations ≠ CodedRing.weightedSum (o.rows.headD []) evaluations

variable {seat : Seat} {o o' : ThresholdOpener F} {t : List Event} {r : Except ProtocolError Unit}

private theorem ensures_exchange_poisoned (seat : Seat) (o : ThresholdOpener F) :
    Ensures exchange seat o fun _ o' _ => o'.poisoned = o.poisoned := by
  refine Ensures.get_bind (Ensures.seat_bind ?_)
  split
  · exact Ensures.throw rfl
  split
  · exact Ensures.throw rfl
  split
  · exact Ensures.pure rfl
  exact Passive.bind_keeps (passive_exchangeAt _ _ _) fun _ => Ensures.modify rfl

/-- The evaluations do not lead to one value. -/
private theorem reconstruct?_eq_none_iff {evaluations : List F} :
    o.reconstruct? evaluations = none ↔ o.malicious = true ∧ ∃ row ∈ o.rows.tail,
      CodedRing.weightedSum row evaluations ≠
        CodedRing.weightedSum (o.rows.headD []) evaluations := by
  rw [reconstruct?]
  simp

private theorem finalize_poisoned (husable : o.poisoned = false) (seat : Seat) :
    ((finalize o).2.poisoned = true ↔ Notices o ⟨.finalize, seat, [], (finalize o).1.map some⟩) ∧
      ((finalize o).2.poisoned = true → (finalize o).1 = .error .macFail) := by
  have hunchanged : ¬ o.poisoned = true := ne_true_of_eq_false husable
  rw [finalize, if_neg hunchanged]
  cases hnext : o.received.dequeue? with
  | none =>
    refine ⟨iff_of_false hunchanged ?_, fun hpoisoned => absurd hpoisoned hunchanged⟩
    rintro ⟨-, evaluations, rest, htaken, -⟩
    rw [hnext] at htaken
    cases htaken
  | some next =>
    obtain ⟨evaluations, rest⟩ := next
    have hnotices (r : Except ProtocolError (Option F)) : Notices o ⟨.finalize, seat, [], r⟩ ↔
        reconstruct? { o with received := rest } evaluations = none := by
      rw [reconstruct?_eq_none_iff]
      constructor
      · rintro ⟨-, evaluations', rest', htaken, hdiffer⟩
        obtain ⟨rfl, -⟩ := Prod.mk.inj (Option.some.inj (hnext.symm.trans htaken))
        exact hdiffer
      · exact fun hdiffer => ⟨rfl, evaluations, rest, hnext, hdiffer⟩
    dsimp only
    rw [hnotices]
    cases hvalue : reconstruct? { o with received := rest } evaluations with
    | some value =>
      exact ⟨iff_of_false hunchanged (Option.some_ne_none value),
        fun hpoisoned => absurd hpoisoned hunchanged⟩
    | none => exact ⟨iff_of_true rfl rfl, fun _ => rfl⟩

private theorem run_exchange_poisoned (hpoisoned : o.poisoned = true) (seat : Seat) :
    exchange.run seat o = .done o (.error .macFail) := by
  rw [exchange, Action.run_get_bind, Action.run_seat_bind, if_pos hpoisoned]
  rfl

omit [CodedField F] in
private theorem run_check (seat : Seat) :
    check.run seat o = .done o (if o.poisoned then .error .macFail else .ok ()) := by
  rw [check, Action.run_bind, Action.run_get, Session.bind_done]
  dsimp only
  split <;> rfl

theorem poisonRules : Opener.PoisonRules (Notices (F := F)) where
  init _ := ⟨rfl, rfl⟩
  prepare _ _ := ⟨rfl, rfl⟩
  exchange {seat o o' t r} husable hrun := by
    have hkeeps : ¬ o'.poisoned = true := by
      rw [hrun.of_ensures (ensures_exchange_poisoned seat o)]
      exact ne_true_of_eq_false husable
    exact ⟨iff_of_false hkeeps fun h => (by cases h.1), fun hpoisoned => absurd hpoisoned hkeeps⟩
  finalize husable := finalize_poisoned husable
  check {seat o o' t r} husable hrun := by
    have hunchanged : ¬ o.poisoned = true := ne_true_of_eq_false husable
    obtain ⟨-, rfl, -⟩ := hrun.eq_of_done (run_check seat)
    exact ⟨iff_of_false hunchanged fun h => h.1 rfl, fun hpoisoned => absurd hpoisoned hunchanged⟩
  notices h := .inr h.1
  refusedExchange := run_exchange_poisoned
  refusedFinalize hpoisoned := if_pos hpoisoned
  refusedCheck hpoisoned seat := (run_check seat).trans (congrArg _ (if_pos hpoisoned))

end ThresholdOpener

/-! ### All schemes -/

/-- A fresh opener of any scheme is poisoned exactly by what it notices, whatever the network answers:
a check that fails with something to verify, or another fault that the scheme looks for. A misuse
never poisons it, nor does an exchange that fails before its check. Once poisoned it stays so, with
the same number of pending checks, and refuses every exchange, value and check without a call. -/
theorem Opener.poisoned_exactly :
    (∀ (R : Type) [CodedRing R] (party : Nat) (key : R) (config : ProtocolConfig) (rng : ChaCha),
      PoisonedExactly MacOpener.Notices (MacOpener.create party key config rng)) ∧
    (∀ (R : Type) [CodedRing R] (party : Nat) (mode : ReplicatedCheck),
      PoisonedExactly ReplicatedOpener.Notices (ReplicatedOpener.create (R := R) party mode)) ∧
    ∀ (F : Type) [CodedField F] (party parties threshold : Nat) (malicious : Bool)
      (o : ThresholdOpener F), ThresholdOpener.create party parties threshold malicious = .ok o →
        PoisonedExactly ThresholdOpener.Notices o := by
  refine ⟨fun R _ party key config rng => MacOpener.poisonRules.exactly rfl,
    fun R _ party mode => ReplicatedOpener.poisonRules.exactly rfl,
    fun F _ party parties threshold malicious o ho => ThresholdOpener.poisonRules.exactly ?_⟩
  obtain ⟨rows, -, -, rfl⟩ := ThresholdOpener.exists_of_create ho
  rfl

section Example

/-- An opener of the first of three parties, for threshold one with redundant evaluations. -/
private def watchful : ThresholdOpener Mersenne61 :=
  ⟨0, 3, 1, true, [[2, 2305843009213693950], [3, 2305843009213693948, 1]].map
    (·.map CodedRing.ofWord), #[], .empty, false⟩

/-- A network on which the evaluations of the other two parties do not fit together. -/
private def deceiving : Answers := fun _ c =>
  match c with
  | .send .. => .ok ()
  | .receive _ => .ok []
  | .broadcast _ => .ok []
  | .pass offset _ =>
    .ok (encodeValues [(CodedRing.ofWord (if offset = 1 then 9 else 7) : Mersenne61)])

/-- A value is opened and asked for. -/
private def deceived :
    List (Operation (OpenerStep (ThresholdShare Mersenne61)) (Option Mersenne61)) ×
      ThresholdOpener Mersenne61 :=
  History.carryOut OpenerStep.act ⟨0, 3⟩
    [(.prepare ⟨CodedRing.ofWord 6⟩, deceiving), (.exchange, deceiving), (.finalize, deceiving)]
    watchful

/-- The opener has noticed that the evaluations do not fit together, and refuses everything from then
on. -/
theorem poisoned_exactly_deceived :
    Opener.Detected ThresholdOpener.Notices watchful deceived.1 deceived.2 ∧
      ∀ later o, History OpenerStep.act deceived.2 later o → ∀ op ∈ later, op.step.Fallible →
        op.calls = [] ∧ op.outcome = .error .macFail := by
  have hcreate : ThresholdOpener.create 0 3 1 true = .ok watchful :=
    ThresholdOpener.create_eq_ok (by decide) (by decide) (by decide) (by decide +kernel)
  have hexactly := Opener.poisoned_exactly.2.2 Mersenne61 0 3 1 true watchful hcreate
  have hhistory : History OpenerStep.act watchful deceived.1 deceived.2 :=
    History.of_carryOut _ _ _ _
  have hpoisoned : Opener.isPoisoned deceived.2 = true := by decide +kernel
  exact ⟨(hexactly.isPoisoned_iff hhistory).1 hpoisoned,
    fun later o hlater => (hexactly.absorbing hhistory hpoisoned hlater).2.2⟩

end Example

end Multiparty
