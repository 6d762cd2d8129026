import Mathlib
import Multiparty.Processor
import Multiparty.Proofs.Failure
import Multiparty.Proofs.Opening.Settings

/-!
# Batches and what earlier ones have left over

A batch that fails on its way leaves shares, masks, triples and opened values in the queues of the
opener and of the multiplier. The next batch starts by forgetting them. So from two states that differ
in such leftovers only, it makes the same calls, takes the answers in the same way and ends with the
same result, and the states stay alike.

## Main definitions

* `Action.Sees`: actions that see of the state no more than a view.
* `Processor.unburdened`: a processor without leftovers.
* `Opener.Isolates`: openers of which a batch takes over only what they carry on purpose.
* `ProcessorStep`: the operations of a processor.
* `Processor.Alike`: processors from which the next batch goes in the same way.

## Main results

* `Processor.openShares_congr`, `Processor.mul_congr`: batches from processors without leftovers
  between them.
* `Processor.ensures_mul`: a multiplication that lacks triples.
* `Processor.alike_of_histories`: the processors of all schemes after any histories.
-/

namespace Multiparty

open Multiparty.Action (Ensures Runs)

variable {σ τ α β γ δ : Type}

/-! ### Actions that see only a part of the state -/

namespace Session

/-- Computations that look alike go on alike if their continuations do. -/
theorem mapState_bind_congr {view : σ → γ} {c c' : Session σ α} {f : σ → α → Session σ β}
    (hc : mapState view c = mapState view c')
    (hf : ∀ s s' a, view s = view s' → mapState view (f s a) = mapState view (f s' a)) :
    mapState view (bind f c) = mapState view (bind f c') := by
  induction c generalizing c' with
  | done s a =>
    cases c' with
    | done s' a' =>
      obtain ⟨hs, rfl⟩ := Session.done.inj hc
      exact hf s s' a hs
    | wait s' call' resume' => cases hc
  | wait s call resume ih =>
    cases c' with
    | done s' a' => cases hc
    | wait s' call' resume' =>
      obtain ⟨hs, rfl, hresume⟩ := Session.wait.inj hc
      simp only [bind_wait, mapState, hs]
      congr 1
      funext reply
      exact ih reply (congrFun (eq_of_heq hresume) reply)

end Session

/-- The attempt sees of the state no more than the view. -/
def Attempt.Sees (view : σ → γ) (f : Attempt σ α) : Prop :=
  ∀ s s', view s = view s' → (f s).1 = (f s').1 ∧ view (f s).2 = view (f s').2

namespace Attempt.Sees

variable {view : σ → γ}

theorem forEach {f : β → Attempt σ α} (h : ∀ b, Sees view (f b)) (bs : List β) :
    Sees view (Attempt.forEach f bs) := by
  have honto (acc : List α) : Sees view (forEachOnto f bs acc) := by
    induction bs generalizing acc with
    | nil => exact fun s s' hs => ⟨rfl, hs⟩
    | cons b bs ih =>
      intro s s' hs
      obtain ⟨hresult, hstate⟩ := h b s s' hs
      rw [forEachOnto, forEachOnto]
      rcases hb : f b s with ⟨e | a, s₁⟩ <;> rcases hb' : f b s' with ⟨e' | a', s₁'⟩ <;>
        rw [hb, hb'] at hresult hstate
      · obtain rfl : e = e' := Except.error.inj hresult
        exact ⟨rfl, hstate⟩
      · cases hresult
      · cases hresult
      · obtain rfl : a = a' := Except.ok.inj hresult
        exact ih _ _ _ hstate
  exact honto []

theorem times {f : Attempt σ α} (h : Sees view f) (n : Nat) : Sees view (Attempt.times f n) := by
  rw [times_eq_forEach]
  exact forEach (fun _ => h) _

end Attempt.Sees

/-- The action sees of the state no more than the view: from states that look alike it makes the same
calls, takes the answers in the same way and ends with the same result, and the states on its way and
at its end look alike. -/
def Action.Sees (view : σ → γ) (m : Action σ α) : Prop :=
  ∀ seat s s', view s = view s' →
    Session.mapState view (m.run seat s) = Session.mapState view (m.run seat s')

namespace Action.Sees

variable {view : σ → γ} {m : Action σ α} {f : α → Action σ β}

protected theorem bind (h : Sees view m) (hf : ∀ a, Sees view (f a)) : Sees view (m >>= f) := by
  intro seat s s' hs
  rw [run_bind, run_bind]
  refine Session.mapState_bind_congr (h seat s s' hs) fun s s' r hs => ?_
  cases r with
  | ok a => exact hf a seat s s' hs
  | error e => exact congrArg (Session.done · _) hs

protected theorem ofAttempt {f : Attempt σ α} (h : Attempt.Sees view f) :
    Sees view (Action.ofAttempt f) := by
  intro seat s s' hs
  obtain ⟨hresult, hstate⟩ := h s s' hs
  rw [run_ofAttempt, run_ofAttempt, Session.mapState, Session.mapState, hresult, hstate]

end Action.Sees

/-! ### Batches of a processor -/

namespace Processor

variable {O S R K : Type} [Opener O S R]

/-- The processor without anything that was left over: nothing queued, opened or under way. -/
def unburdened (p : Processor O S R K) : Processor O S R K :=
  ⟨Opener.init p.opener, p.multiplier.init⟩

theorem unburdened_eq_iff {p p' : Processor O S R K} : p.unburdened = p'.unburdened ↔
    Opener.init p.opener = Opener.init p'.opener ∧ p.multiplier.supply = p'.multiplier.supply := by
  simp [unburdened, Multiplier.init]

/-- An opening forgets first what the opener has left over. -/
theorem openShares_congr (shares : List S) :
    Action.Sees unburdened (openShares shares : Action (Processor O S R K) (List R)) := by
  intro seat p p' hp
  obtain ⟨hopener, hsupply⟩ := unburdened_eq_iff.1 hp
  have hrun : (Opener.openBatch shares : Action O (List R)).run seat p.opener =
      (Opener.openBatch shares).run seat p'.opener := by
    rw [Opener.openBatch, Action.run_bind, Action.run_bind, Action.run_modify, Action.run_modify,
      Opener.prepareAll, Opener.prepareAll, hopener]
  rw [openShares, withOpener, Action.run_zoom, Action.run_zoom, Session.mapState_mapState,
    Session.mapState_mapState, hrun]
  simp only [Function.comp_def, unburdened, Multiplier.init, hsupply]

/-- The processor with everything that the multiplier holds, but nothing left over in the opener. -/
private def reopened (p : Processor O S R K) : Processor O S R K := ⟨Opener.init p.opener, p.multiplier⟩

private theorem reopened_eq_iff {p p' : Processor O S R K} : reopened p = reopened p' ↔
    Opener.init p.opener = Opener.init p'.opener ∧ p.multiplier = p'.multiplier := by
  simp [reopened]

/-- The round of the multiplications forgets first what the opener has left over, unless there is
nothing to be done. -/
private theorem sees_exchangeProducts :
    Action.Sees reopened (exchangeProducts : Action (Processor O S R K) Unit) := by
  rintro seat ⟨o, m⟩ ⟨o', m'⟩ hp
  obtain ⟨hopener, hmultiplier⟩ := reopened_eq_iff.1 hp
  dsimp only at hopener hmultiplier
  subst hmultiplier
  rw [exchangeProducts, Action.run_zoom, Action.run_zoom, Session.mapState_mapState,
    Session.mapState_mapState]
  rw [Multiplier.exchange, Action.run_get_bind, Action.run_get_bind]
  dsimp only
  split
  · exact congrArg (Session.done · _) hp
  · rw [Action.run_bind, Action.run_bind, Action.run_modify, Action.run_modify]
    dsimp only
    rw [Opener.prepareAll, Opener.prepareAll, hopener]

variable [LinearShare S R K] [CodedRing R]

omit [CodedRing R] in
private theorem sees_prepare (x y : S) :
    Attempt.Sees reopened
      (tryMultiplier (Multiplier.prepare x y) : Attempt (Processor O S R K) Unit) := by
  rintro ⟨o, m⟩ ⟨o', m'⟩ hp
  obtain ⟨hopener, hmultiplier⟩ := reopened_eq_iff.1 hp
  dsimp only at hopener hmultiplier
  subst hmultiplier
  exact ⟨rfl, reopened_eq_iff.2 ⟨hopener, rfl⟩⟩

private theorem sees_finalizeProduct
    (hconstant : ∀ (o : O) (v : R), Opener.constant (Opener.init o) v = Opener.constant o v) :
    Attempt.Sees reopened (finalizeProduct : Attempt (Processor O S R K) S) := by
  rintro ⟨o, m⟩ ⟨o', m'⟩ hp
  obtain ⟨hopener, hmultiplier⟩ := reopened_eq_iff.1 hp
  dsimp only at hopener hmultiplier
  subst hmultiplier
  have hfinalize : (Multiplier.finalize o : Attempt (Multiplier S R K) S) =
      Multiplier.finalize o' := by
    funext m
    have hsame (v : R) : Opener.constant o v = Opener.constant o' v := by
      rw [← hconstant o, ← hconstant o', hopener]
    simp only [Multiplier.finalize, hsame]
  rw [finalizeProduct, finalizeProduct, hfinalize]
  exact ⟨rfl, reopened_eq_iff.2 ⟨hopener, rfl⟩⟩

/-- A batch of multiplications forgets first what the multiplier has left over. -/
theorem mul_congr
    (hconstant : ∀ (o : O) (v : R), Opener.constant (Opener.init o) v = Opener.constant o v)
    (pairs : List (S × S)) :
    Action.Sees unburdened (mul pairs : Action (Processor O S R K) (List S)) := by
  intro seat p p' hp
  obtain ⟨hopener, hsupply⟩ := unburdened_eq_iff.1 hp
  have hrest := Action.Sees.bind (.ofAttempt (.forEach (fun xy : S × S =>
      sees_prepare (O := O) (R := R) (K := K) xy.1 xy.2) pairs)) fun _ =>
    .bind sees_exchangeProducts fun _ =>
      .ofAttempt (.times (sees_finalizeProduct hconstant) pairs.length)
  -- the opener still has its leftovers here; the exchange drops them, if there is anything to exchange
  have hstart := hrest seat { p with multiplier := p.multiplier.init }
    { p' with multiplier := p'.multiplier.init }
    (reopened_eq_iff.2 ⟨hopener, by simp only [Multiplier.init, hsupply]⟩)
  have hforget := congrArg
    (Session.mapState fun p => (⟨p.opener, p.multiplier.init⟩ : Processor O S R K)) hstart
  rw [Session.mapState_mapState, Session.mapState_mapState] at hforget
  exact hforget

end Processor

/-! ### Multiplications that lack triples -/

/-- The error is not one of exhausted material. -/
def ProtocolError.IsStocked (e : ProtocolError) : Prop := ∀ material, e ≠ .insufficient material

theorem ProtocolError.External.isStocked {e : ProtocolError} (h : e.External) : e.IsStocked := by
  rintro material rfl
  cases h

theorem ProtocolError.isStocked_misuse (m : Misuse) : (misuse m).IsStocked := nofun

theorem ProtocolError.isStocked_of_external_or_misuse {e : ProtocolError} {m : Misuse}
    (h : e.External ∨ e = misuse m) : e.IsStocked :=
  h.elim External.isStocked fun he => he ▸ isStocked_misuse m

theorem FailsWith.times {P : ProtocolError → Prop} {f : Attempt σ α}
    (h : ∀ s, FailsWith P (f s).1) (n : Nat) (s : σ) : FailsWith P (Attempt.times f n s).1 := by
  rw [Attempt.times]
  generalize ([] : List α) = acc
  induction n generalizing acc s with
  | zero => exact .ok _
  | succ n ih =>
    have hs := h s
    rw [Attempt.timesOnto]
    split
    · exact ih _ _
    · next hstep =>
      rw [hstep] at hs
      exact hs.of_error

namespace Processor

variable {O S R K : Type} [Opener O S R]

private theorem failsWith_takePair (hfinalize : ∀ o : O, FailsWith ProtocolError.IsStocked
    (Opener.finalize o).1) (s : O × Multiplier S R K) :
    FailsWith ProtocolError.IsStocked (Multiplier.takePair s).1 := by
  have hfirst := hfinalize s.1
  rw [Multiplier.takePair]
  split
  · next hstep =>
    rw [hstep] at hfirst
    exact hfirst.of_error
  · next o _ =>
    have hsecond := hfinalize o
    split
    · next hstep =>
      rw [hstep] at hsecond
      exact hsecond.of_error
    · exact .ok ()

private theorem failsWith_exchangeProducts
    (hexchange : Action.FailsWith ProtocolError.IsStocked (Opener.exchange : Action O Unit))
    (hfinalize : ∀ o : O, FailsWith ProtocolError.IsStocked (Opener.finalize o).1) :
    Action.FailsWith ProtocolError.IsStocked
      (exchangeProducts : Action (Processor O S R K) Unit) := by
  refine .zoom (.get_bind fun (_, m) => ?_)
  dsimp only
  split
  · exact .pure ()
  · exact .bind (.modify _) fun _ => .bind (.zoom hexchange) fun _ => .bind (.modify _) fun _ =>
      .bind (.ofAttempt (.times (failsWith_takePair hfinalize) _)) fun _ => .pure ()

variable [LinearShare S R K] [CodedRing R]

private theorem failsWith_finalizeProduct (p : Processor O S R K) :
    FailsWith ProtocolError.IsStocked (finalizeProduct p).1 := by
  change FailsWith _ (Multiplier.finalize p.opener p.multiplier).1
  rw [Multiplier.finalize]
  split
  · exact .error (ProtocolError.isStocked_misuse _)
  · dsimp only
    split
    · exact .error (ProtocolError.isStocked_misuse _)
    · exact .ok _

/-- Triples are taken before anything else happens. So where they do not suffice nothing is sent, and
the opener is as before. -/
theorem ensures_mul
    (hexchange : Action.FailsWith ProtocolError.IsStocked (Opener.exchange : Action O Unit))
    (hfinalize : ∀ o : O, FailsWith ProtocolError.IsStocked (Opener.finalize o).1)
    (seat : Seat) (p : Processor O S R K) (pairs : List (S × S)) :
    Ensures (mul pairs) seat p fun t p' r =>
      ∀ material, r = .error (.insufficient material) → t = [] ∧ p'.opener = p.opener := by
  have hrest : Action.FailsWith ProtocolError.IsStocked (do
      exchangeProducts
      Action.ofAttempt (Attempt.times finalizeProduct pairs.length) :
        Action (Processor O S R K) (List S)) :=
    .bind (failsWith_exchangeProducts hexchange hfinalize) fun _ =>
      .ofAttempt (.times failsWith_finalizeProduct _)
  have hprepared := Attempt.Keeps.forEach
    (fun (xy : S × S) (p : Processor O S R K) =>
      (rfl : (tryMultiplier (Multiplier.prepare xy.1 xy.2) p).2.opener = p.opener))
    pairs { p with multiplier := p.multiplier.init }
  -- after the triples are taken no error is one of exhausted material
  refine Ensures.bind (Ensures.modify (Ensures.bind (Ensures.ofAttempt ?_)))
  split
  · exact (hrest _ _).mono fun _ _ r hr material hlacks => absurd rfl (hr _ hlacks material)
  · exact fun _ _ => ⟨rfl, hprepared⟩

end Processor

/-! ### Openers -/

/-- What an opener keeps for good and what it carries over on purpose is all that a batch takes over
from earlier ones, but for the refusals of a poisoned opener. -/
structure Opener.Isolates {O S R : Type} [Opener O S R] (settings : O → γ) (carried : O → δ) :
    Prop where
  keeps : Opener.Keeps settings
  init_congr : ∀ {o o' : O}, settings o = settings o' → carried o = carried o' →
    isPoisoned o = isPoisoned o' → init o = init o'
  constant_init : ∀ (o : O) (v : R), constant (init o) v = constant o v
  exchange : Action.FailsWith ProtocolError.IsStocked (Opener.exchange : Action O Unit)
  finalize : ∀ o : O, FailsWith ProtocolError.IsStocked (Opener.finalize o).1

/-- Authenticated shares: the generator and the values that await a check are carried over. -/
theorem MacOpener.isolates (R : Type) [CodedRing R] :
    Opener.Isolates (settings (R := R)) fun o => (o.rng, o.pending) where
  keeps := keeps_settings
  init_congr {o o'} hsettings hcarried hpoisoned := by
    cases o
    cases o'
    simp only [settings, Prod.mk.injEq, Opener.isPoisoned] at hsettings hcarried hpoisoned
    obtain ⟨rfl, rfl, rfl, rfl⟩ := hsettings
    obtain ⟨rfl, rfl⟩ := hcarried
    rw [hpoisoned]
    rfl
  constant_init _ _ := rfl
  exchange := failsWith_exchange.mono fun _ h => h.isStocked
  finalize o := by
    change FailsWith _ (MacOpener.finalize o).1
    rw [MacOpener.finalize]
    split
    · exact .error ProtocolError.External.macFail.isStocked
    · split
      · exact .ok _
      · exact .error (ProtocolError.isStocked_misuse _)

/-- Replicated shares: the values that await a check are carried over. -/
theorem ReplicatedOpener.isolates (R : Type) [CodedRing R] :
    Opener.Isolates (settings (R := R)) fun o => o.unchecked where
  keeps := keeps_settings
  init_congr {o o'} hsettings hcarried hpoisoned := by
    cases o
    cases o'
    simp only [settings, Prod.mk.injEq, Opener.isPoisoned] at hsettings hcarried hpoisoned
    obtain ⟨rfl, rfl⟩ := hsettings
    rw [hcarried, hpoisoned]
    rfl
  constant_init _ _ := rfl
  exchange := failsWith_exchange.mono fun _ h => ProtocolError.isStocked_of_external_or_misuse h
  finalize o := by
    change FailsWith _ (ReplicatedOpener.finalize o).1
    rw [ReplicatedOpener.finalize]
    split
    · exact .error ProtocolError.External.macFail.isStocked
    split
    · exact .error (ProtocolError.isStocked_misuse _)
    dsimp only
    split
    · exact .error ProtocolError.External.macFail.isStocked
    · exact .ok _

/-- Threshold shares: nothing is carried over. -/
theorem ThresholdOpener.isolates (F : Type) [CodedField F] :
    Opener.Isolates (settings (F := F)) fun _ => () where
  keeps := keeps_settings
  init_congr {o o'} hsettings _ hpoisoned := by
    cases o
    cases o'
    simp only [settings, Prod.mk.injEq, Opener.isPoisoned] at hsettings hpoisoned
    obtain ⟨rfl, rfl, rfl, rfl, rfl⟩ := hsettings
    rw [hpoisoned]
    rfl
  constant_init _ _ := rfl
  exchange := failsWith_exchange.mono fun _ h => ProtocolError.isStocked_of_external_or_misuse h
  finalize o := by
    change FailsWith _ (ThresholdOpener.finalize o).1
    rw [ThresholdOpener.finalize]
    split
    · exact .error ProtocolError.External.macFail.isStocked
    split
    · exact .error (ProtocolError.isStocked_misuse _)
    dsimp only
    split
    · exact .ok _
    · exact .error ProtocolError.External.macFail.isStocked

/-! ### Histories of a processor -/

/-- An operation of a processor. -/
inductive ProcessorStep (S R : Type) where
  | openShares (shares : List S)
  | mul (pairs : List (S × S))
  | input (values : List R)
  | randomBits (n : Nat)
  | check

section Histories

variable {O S R K : Type} [Opener O S R] [LinearShare S R K] [CodedRing R]

/-- Carries out an operation. What it hands out does not matter here. -/
def ProcessorStep.act : ProcessorStep S R → Action (Processor O S R K) Unit
  | openShares shares => do
    let _ ← Processor.openShares shares
    pure ()
  | mul pairs => do
    let _ ← Processor.mul pairs
    pure ()
  | input values => do
    let _ ← Processor.input values
    pure ()
  | randomBits n => do
    let _ ← Action.ofAttempt (Processor.randomBits n)
    pure ()
  | check => Processor.check

namespace Processor

omit [LinearShare S R K] [CodedRing R] in
private theorem keeps_exchangeProducts {view : O → γ} (h : Opener.Keeps view) :
    Action.Keeps (fun p => view p.opener) (exchangeProducts : Action (Processor O S R K) Unit) := by
  have htake : Attempt.Keeps (fun s : O × Multiplier S R K => view s.1) Multiplier.takePair := by
    intro s
    have hfirst := h.finalize s.1
    rw [Multiplier.takePair]
    split
    · next hstep =>
      rw [hstep] at hfirst
      exact hfirst
    · next o hstep =>
      rw [hstep] at hfirst
      have hsecond := h.finalize o
      split
      all_goals
        next hstep =>
        rw [hstep] at hsecond
        exact hsecond.trans hfirst
  have hexchange : Action.Keeps (fun s => view s.1)
      (Multiplier.exchange : Action (O × Multiplier S R K) Unit) := by
    refine .get_bind fun (_, m) => ?_
    dsimp only
    split
    · exact .pure ()
    · exact .bind (.modify fun _ => h.prepareAll _ _) fun _ =>
        .bind (.zoom (fun _ _ => rfl) h.exchange) fun _ => .bind (.modify fun _ => rfl) fun _ =>
          .bind (.ofAttempt (htake.times _)) fun _ => .pure ()
  exact fun seat p => Ensures.zoom (hexchange seat (p.opener, p.multiplier))

private theorem keeps_maskInput (view : O → γ) (me : Nat) (value : R) :
    Attempt.Keeps (fun p : Processor O S R K => view p.opener) (maskInput me value) := by
  intro p
  rw [maskInput]
  split
  all_goals
    next hmask => exact congrArg (fun step => view step.2.opener) hmask.symm

omit [CodedRing R] in
private theorem keeps_unmaskInput (view : O → γ) (owner : Nat) (delta : R) :
    Attempt.Keeps (fun p : Processor O S R K => view p.opener) (unmaskInput owner delta) := by
  intro p
  rw [unmaskInput]
  split
  all_goals
    next hmask => exact congrArg (fun step => view step.2.opener) hmask.symm

private theorem keeps_sharesOfOwner (view : O → γ) (me : Nat) (own : List S) (payload : Bytes)
    (owner : Nat) : Attempt.Keeps (fun p : Processor O S R K => view p.opener)
      (sharesOfOwner me own payload owner) := by
  intro p
  rw [sharesOfOwner]
  split
  · rfl
  split
  · rfl
  · exact Attempt.Keeps.forEach (keeps_unmaskInput view owner) _ p

/-- No operation changes what the operations of the opener keep. -/
theorem keeps_act {view : O → γ} (h : Opener.Keeps view) (step : ProcessorStep S R) :
    Action.Keeps (fun p => view p.opener) (step.act : Action (Processor O S R K) Unit) := by
  have hzoom {α : Type} {m : Action O α} (hm : Action.Keeps view m) :
      Action.Keeps (fun p => view p.opener) (withOpener m : Action (Processor O S R K) α) :=
    .zoom (fun _ _ => rfl) hm
  cases step with
  | openShares shares =>
    refine .bind (hzoom ?_) fun _ => .pure ()
    exact .bind (.modify (h.prepareAll shares)) fun _ => .bind h.exchange fun _ =>
      .ofAttempt (.times h.finalize _)
  | mul pairs =>
    refine .bind ?_ fun _ => .pure ()
    exact .bind (.modify fun _ => rfl) fun _ =>
      .bind (.ofAttempt (.forEach (fun _ _ => rfl) pairs)) fun _ =>
        .bind (keeps_exchangeProducts h) fun _ =>
          .ofAttempt (.times (fun _ => rfl) _)
  | input values =>
    refine .bind ?_ fun _ => .pure ()
    exact .seat_bind fun seat => .bind (.ofAttempt (.forEach (keeps_maskInput view seat.me) _))
      fun _ => .bind (.call _) fun _ => .ofAttempt (.forEach (fun _ => keeps_sharesOfOwner view _ _ _ _) _)
  | randomBits n =>
    exact .bind (.ofAttempt (.times (fun _ => rfl) n)) fun _ => .pure ()
  | check => exact hzoom h.check

/-- After any history the opener has what it keeps for good as at the start. -/
theorem keeps_of_history {view : O → γ} (h : Opener.Keeps view) {p p' : Processor O S R K}
    {ops : List (Operation (ProcessorStep S R) Unit)} (hops : History ProcessorStep.act p ops p') :
    view p'.opener = view p.opener := by
  induction hops with
  | start => rfl
  | next _ hop ih => exact (hop.of_ensures (keeps_act h _ _ _)).trans ih

/-- The next batch goes in the same way from two processors: with the same calls, whatever the
answers, and with the same result, and without their leftovers the processors are the same throughout.
And a multiplication that lacks triples makes no call and leaves the opener exactly as it was. -/
structure Alike (p p' : Processor O S R K) : Prop where
  openShares : ∀ seat (shares : List S),
    Session.mapState unburdened ((openShares shares : Action _ (List R)).run seat p) =
      Session.mapState unburdened ((openShares shares : Action _ (List R)).run seat p')
  mul : ∀ seat (pairs : List (S × S)),
    Session.mapState unburdened ((mul pairs).run seat p) =
      Session.mapState unburdened ((mul pairs).run seat p')
  lacking : ∀ seat (pairs : List (S × S)) t p₁ material,
    Runs (Processor.mul pairs) seat p t p₁ (.error (.insufficient material)) →
      t = [] ∧ p₁.opener = p.opener

/-- Whatever has been done with two processors, the next batch goes in the same way from both as soon
as they have the same material left and their openers carry the same over. -/
theorem alike_of_isolates {settings : O → γ} {carried : O → δ}
    (h : Opener.Isolates settings carried) {p₀ p₀' p p' : Processor O S R K}
    {ops ops' : List (Operation (ProcessorStep S R) Unit)}
    (hstart : settings p₀.opener = settings p₀'.opener) (hops : History ProcessorStep.act p₀ ops p)
    (hops' : History ProcessorStep.act p₀' ops' p')
    (hpoisoned : Opener.isPoisoned p.opener = Opener.isPoisoned p'.opener)
    (hsupply : p.multiplier.supply = p'.multiplier.supply)
    (hcarried : carried p.opener = carried p'.opener) : Alike p p' := by
  have hsettings : settings p.opener = settings p'.opener :=
    (keeps_of_history h.keeps hops).trans (hstart.trans (keeps_of_history h.keeps hops').symm)
  have hview : p.unburdened = p'.unburdened :=
    unburdened_eq_iff.2 ⟨h.init_congr hsettings hcarried hpoisoned, hsupply⟩
  exact {
    openShares := fun seat shares => openShares_congr shares seat p p' hview
    mul := fun seat pairs => mul_congr h.constant_init pairs seat p p' hview
    lacking := fun seat pairs _ _ material hrun =>
      hrun.of_ensures (ensures_mul h.exchange h.finalize seat p pairs) material rfl }

end Processor

end Histories

/-- **Isolated batches.** Take two processors with the same place, key and parameters, whatever has
been done with them: openings, multiplications, inputs, random bits and checks in any order, that may
have succeeded or failed at any point, whatever the network has answered. If neither is poisoned, the
next opening or multiplication depends on nothing but the batch, the answers of the network, the
remaining material and what the opener carries over on purpose: for authenticated shares the generator
and the values that await a check, for replicated shares the hashed values, for threshold shares
nothing. From two processors that agree in that it makes the same calls, takes all answers in the same
way, and ends with the same result, and a multiplication that lacks triples sends nothing and leaves
the opener exactly as it was. -/
theorem Processor.alike_of_histories :
    (∀ (R : Type) [CodedRing R] {p₀ p₀' p p' : Processor (MacOpener R) (MacShare R) R R}
      {ops ops' : List (Operation (ProcessorStep (MacShare R) R) Unit)},
      p₀.opener.settings = p₀'.opener.settings → History ProcessorStep.act p₀ ops p →
      History ProcessorStep.act p₀' ops' p' → p.opener.poisoned = false → p'.opener.poisoned = false →
      p.multiplier.supply = p'.multiplier.supply → p.opener.rng = p'.opener.rng →
      p.opener.pending = p'.opener.pending → Alike p p') ∧
    (∀ (R : Type) [CodedRing R]
      {p₀ p₀' p p' : Processor (ReplicatedOpener R) (ReplicatedShare R) R Unit}
      {ops ops' : List (Operation (ProcessorStep (ReplicatedShare R) R) Unit)},
      p₀.opener.settings = p₀'.opener.settings → History ProcessorStep.act p₀ ops p →
      History ProcessorStep.act p₀' ops' p' → p.opener.poisoned = false → p'.opener.poisoned = false →
      p.multiplier.supply = p'.multiplier.supply → p.opener.unchecked = p'.opener.unchecked →
      Alike p p') ∧
    ∀ (F : Type) [CodedField F]
      {p₀ p₀' p p' : Processor (ThresholdOpener F) (ThresholdShare F) F Unit}
      {ops ops' : List (Operation (ProcessorStep (ThresholdShare F) F) Unit)},
      p₀.opener.settings = p₀'.opener.settings → History ProcessorStep.act p₀ ops p →
      History ProcessorStep.act p₀' ops' p' → p.opener.poisoned = false → p'.opener.poisoned = false →
      p.multiplier.supply = p'.multiplier.supply → Alike p p' := by
  refine ⟨fun R _ p₀ p₀' p p' ops ops' hstart hops hops' hgood hgood' hsupply hrng hpending => ?_,
    fun R _ p₀ p₀' p p' ops ops' hstart hops hops' hgood hgood' hsupply hunchecked => ?_,
    fun F _ p₀ p₀' p p' ops ops' hstart hops hops' hgood hgood' hsupply => ?_⟩
  · exact alike_of_isolates (MacOpener.isolates R) hstart hops hops' (hgood.trans hgood'.symm) hsupply
      (Prod.ext hrng hpending)
  · exact alike_of_isolates (ReplicatedOpener.isolates R) hstart hops hops'
      (hgood.trans hgood'.symm) hsupply hunchecked
  · exact alike_of_isolates (ThresholdOpener.isolates F) hstart hops hops' (hgood.trans hgood'.symm)
      hsupply rfl

section Example

/-- The share that everybody holds of a public value. -/
private def shareOf (w : UInt64) : ReplicatedShare Word64 := ReplicatedShare.constant ⟨w⟩ 0

/-- The first of three parties, with a number of triples of zeros. -/
private def holder (triples : Nat) :
    Processor (ReplicatedOpener Word64) (ReplicatedShare Word64) Word64 Unit :=
  .create (.create 0 .hash) ⟨3, 0, (), List.replicate triples ⟨0, 0, 0⟩, [], [], []⟩

/-- A multiplication with the last triple to which nobody answers. -/
private def deserted :=
  History.carryOut ProcessorStep.act ⟨0, 3⟩
    [(.mul [(shareOf 5, shareOf 7)], fun _ _ => .error (.receive 2))] (holder 1)

/-- An opening that is answered by too short a payload. -/
private def garbled :=
  History.carryOut ProcessorStep.act ⟨0, 3⟩
    [(.openShares [shareOf 9], fun _ c => match c with
      | .send .. => .ok ()
      | .receive _ => .ok []
      | .broadcast _ => .ok []
      | .pass .. => .ok [1, 2, 3])] (holder 0)

/-- One processor is left with a masked pair and its triple, the other with a queued share. The next
batches go in the same way from both. -/
theorem Processor.alike_of_histories_failed :
    deserted.2.multiplier.masked.length = 1 ∧ deserted.2.multiplier.triples.length = 1 ∧
      garbled.2.multiplier.masked.length = 0 ∧ garbled.2.opener.batch = #[shareOf 9] ∧
      Alike deserted.2 garbled.2 := by
  refine ⟨by decide +kernel, by decide +kernel, by decide +kernel, by decide +kernel, ?_⟩
  have hstart : (holder 1).opener.settings = (holder 0).opener.settings := rfl
  exact Processor.alike_of_histories.2.1 Word64 hstart (History.of_carryOut _ _ _ _)
    (History.of_carryOut _ _ _ _) (by decide +kernel) (by decide +kernel) (by decide +kernel)
    (by decide +kernel)

end Example

end Multiparty
