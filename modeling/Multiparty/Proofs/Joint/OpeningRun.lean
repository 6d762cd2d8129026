import Mathlib
import Multiparty.Proofs.Joint.FreshOpeners
import Multiparty.Proofs.Network.InOrder
import Multiparty.Proofs.Opening.Steps

/-!
# Values in the order of preparation

All parties carry out the same operations of their openers in the same order, over channels that
deliver in order. They need not wait for each other, and they may take values while others are
queued, exchange a batch in parts, or exchange nothing at all. What an opener hands out does not
depend on the scheme: it is what was prepared and exchanged since the batch was started, in the
order of preparation, and each value once.

## Main definitions

* `OpenBatch`, `OpenBatch.step`: what was exchanged since a batch was started, and what is queued.
* `handedOut`: what an opener has handed out since its batch was started.
* `OpenBatch.Allows`: the results that an operation may have.
* `OpeningRun`: a run of the openers of all parties, over channels that deliver in order.

## Main results

* `JointOpening.Tracks.step`: an operation of all parties.
* `JointOpening.Tracks.run`: what a run comes to.
* `JointOpening.Tracks.exists_requests`: there is a run of any operations.
* `Suite.FreshOpeners.handedOut_in_order`: the values that the openers of a scheme hand out.
-/

namespace Multiparty

open Multiparty.Action (Runs Succeed)

/-- The values that were exchanged since a batch was started, and those that are queued for the next
exchange, in the order of preparation. -/
structure OpenBatch (R : Type) where
  exchanged : List R
  queued : List R

namespace OpenBatch

variable {α R : Type}

/-- The batch before anything was prepared. -/
def blank : OpenBatch R := ⟨[], []⟩

/-- An operation with values in place of shares. -/
def step (batch : OpenBatch R) : OpenerStep R → OpenBatch R
  | .init => blank
  | .prepare value => { batch with queued := batch.queued ++ [value] }
  | .exchange => ⟨batch.exchanged ++ batch.queued, []⟩
  | .finalize | .check => batch

/-- The results that an operation may have if the values `taken` of the batch were handed out before:
the next value as long as there is one, and success for everything else. -/
structure Allows (batch : OpenBatch R) (taken : List R) (step : OpenerStep α)
    (result : Except ProtocolError (Option R)) : Prop where
  success : step ≠ .finalize → result = .ok none
  misuse : step = .finalize →
    (result = .error (.misuse .nothingOpened) ↔ taken = batch.exchanged)
  value : step = .finalize → taken ≠ batch.exchanged →
    ∃ v, result = .ok (some v) ∧ taken ++ [v] <+: batch.exchanged

end OpenBatch

/-- What an opener has handed out since its batch was started, after one more operation. -/
def collectValue {α R : Type} (taken : List R) :
    OpenerStep α → Except ProtocolError (Option R) → List R
  | .init, _ => []
  | _, .ok value => taken ++ value.toList
  | _, .error _ => taken

theorem collectValue_map {α β R : Type} (f : α → β) (taken : List R) (step : OpenerStep α)
    (result : Except ProtocolError (Option R)) :
    collectValue taken (step.map f) result = collectValue taken step result := by
  cases step <;> cases result <;> rfl

/-- The values that an opener has handed out since its batch was started, oldest first. -/
def handedOut {S R : Type} (ops : List (Operation (OpenerStep S) (Option R))) : List R :=
  ops.foldl (fun taken op => collectValue taken op.step op.outcome) []

section OpeningRun

variable {O S R K : Type} [LinearShare S R K] [CodedRing R] {n : Nat} {V : Sharing S n}

/-- An operation that all parties carry out, each with its own shares. -/
structure OpeningOperation (V : Sharing S n) where
  step : OpenerStep V.Shared
  parties : Fin n → Operation (OpenerStep S) (Option R)

namespace OpeningOperation

/-- The operation on the shared values. -/
def onValues (op : OpeningOperation V) : OpenerStep R := op.step.map (·.value)

/-- Everyone carries out the operation with its own shares and from its seat, and every call is
answered. -/
structure Regular (op : OpeningOperation V) : Prop where
  step : ∀ i : Fin n, (op.parties i).step = op.step.map (·.shares i)
  seat : ∀ i : Fin n, (op.parties i).seat = ⟨i, n⟩
  answered : ∀ i : Fin n, Answered n i (op.parties i).calls

end OpeningOperation

/-- What all parties have exchanged and queued since the batch was started. -/
def batchOf (run : List (OpeningOperation V)) : OpenBatch R :=
  run.foldl (fun batch op => batch.step op.onValues) .blank

/-- The calls of a party in a run. -/
def callsOf (run : List (OpeningOperation V)) (i : Fin n) : List Event :=
  run.flatMap fun op => (op.parties i).calls

variable [Opener O S R]

/-- All parties have carried out the operations `run`, which have led from the openers `o` to the
openers `final`. Every call was answered, and every party has heard of the others what they have
sent, in order. -/
structure OpeningRun (V : Sharing S n) (o : Fin n → O) (run : List (OpeningOperation V))
    (final : Fin n → O) : Prop where
  regular : ∀ op ∈ run, op.Regular
  history : ∀ i, History OpenerStep.act (o i) (run.map (·.parties i)) (final i)
  delivered : DeliveredInOrder Finset.univ (callsOf run)

namespace OpeningRun

/-- Carries out operations of all parties, each of which comes with the answers that its parties
get. -/
def carryOut : List (OpenerStep V.Shared × (Fin n → Answers)) → (Fin n → O) →
    List (OpeningOperation V) × (Fin n → O)
  | [], o => ([], o)
  | (step, answers) :: rest, o =>
    let session (i : Fin n) := (step.map (·.shares i)).act.run ⟨i, n⟩ (o i)
    let op (i : Fin n) : Operation (OpenerStep S) (Option R) :=
      ⟨step.map (·.shares i), ⟨i, n⟩, (session i).transcript (answers i),
        ((session i).under (answers i)).2⟩
    let (run, final) := carryOut rest fun i => ((session i).under (answers i)).1
    (⟨step, op⟩ :: run, final)

variable (requests : List (OpenerStep V.Shared × (Fin n → Answers))) (o : Fin n → O)

private theorem history_of_carryOut (i : Fin n) : History OpenerStep.act (o i)
    ((carryOut requests o).1.map (·.parties i)) ((carryOut requests o).2 i) := by
  induction requests generalizing o with
  | nil => exact .start
  | cons request requests ih =>
    obtain ⟨step, answers⟩ := request
    let session (i : Fin n) := (step.map (·.shares i)).act.run ⟨i, n⟩ (o i)
    have hfirst : History OpenerStep.act (o i) [⟨step.map (·.shares i), ⟨i, n⟩,
        (session i).transcript (answers i), ((session i).under (answers i)).2⟩]
        ((session i).under (answers i)).1 := .next .start ⟨answers i, rfl, rfl⟩
    exact hfirst.append (ih fun i => ((session i).under (answers i)).1)

private theorem regular_of_carryOut
    (hanswered : ∀ op ∈ (carryOut requests o).1, ∀ i : Fin n, Answered n i (op.parties i).calls) :
    ∀ op ∈ (carryOut requests o).1, op.Regular := by
  induction requests generalizing o with
  | nil => exact fun op hop => by cases hop
  | cons request requests ih =>
    intro op hop
    obtain rfl | hop := List.mem_cons.1 hop
    · exact ⟨fun _ => rfl, fun _ => rfl, hanswered _ List.mem_cons_self⟩
    · exact ih _ (fun op' hop' => hanswered op' (List.mem_cons_of_mem _ hop')) op hop

/-- Whatever the parties ask for, there is a run of it if the network behaves. -/
theorem of_carryOut
    (hanswered : ∀ op ∈ (carryOut requests o).1, ∀ i : Fin n, Answered n i (op.parties i).calls)
    (hdelivered : DeliveredInOrder Finset.univ (callsOf (carryOut requests o).1)) :
    OpeningRun V o (carryOut requests o).1 (carryOut requests o).2 :=
  ⟨regular_of_carryOut requests o hanswered, history_of_carryOut requests o, hdelivered⟩

end OpeningRun

end OpeningRun

namespace JointOpening

variable {O S R K : Type} [Opener O S R] [LinearShare S R K] [CodedRing R] {n : Nat}

/-- The openers of all parties hold the queued shares of a batch, and of its exchanged values those
that come after the values `taken`. -/
def Tracks (J : JointOpening O n) (o : Fin n → O) (batch : OpenBatch R) (taken : List R) : Prop :=
  ∃ left, J.Holds o batch.queued left ∧ taken ++ left = batch.exchanged

namespace Tracks

variable {J : JointOpening O n} {o o' : Fin n → O} {batch : OpenBatch R} {taken : List R}

/-- After an operation of all parties the openers hold the batch after it, and all parties have the
same result. -/
private def After (J : JointOpening O n) (batch : OpenBatch R) (taken : List R)
    (step : OpenerStep J.toSharing.Shared) (o' : Fin n → O)
    (results : Fin n → Except ProtocolError (Option R)) : Prop :=
  ∃ result, results = (fun _ => result) ∧ batch.Allows taken step result ∧
    J.Tracks o' (batch.step (step.map (·.value))) (collectValue taken step result)

/-- Everything but taking a value succeeds. -/
private theorem after_of_success {step : OpenerStep J.toSharing.Shared} (hstep : step ≠ .finalize)
    {left : List R} (h : J.Holds o' (batch.step (step.map (·.value))).queued left)
    (hleft : collectValue taken step (.ok none) ++ left =
      (batch.step (step.map (·.value))).exchanged) :
    After J batch taken step o' fun _ => .ok none :=
  ⟨.ok none, rfl, ⟨fun _ => rfl, fun hfinalize => absurd hfinalize hstep,
    fun hfinalize => absurd hfinalize hstep⟩, left, h, hleft⟩

/-- What all parties can do with their openers, they can do as an operation without a value. -/
private theorem lockstep_of_succeed {step : OpenerStep J.toSharing.Shared} (hstep : step ≠ .finalize)
    {m : Action O Unit} {left : List R}
    (hact : ∀ i, (step.map (·.shares i)).act = do m; pure none)
    (hm : Succeed (fun _ => m) o fun o' _ =>
      J.Holds o' (batch.step (step.map (·.value))).queued left)
    (hleft : collectValue taken step (.ok none) ++ left =
      (batch.step (step.map (·.value))).exchanged) :
    Lockstep (fun i => (step.map (·.shares i)).act.run ⟨i, n⟩ (o i))
      (After J batch taken step) := by
  simp only [hact]
  refine Lockstep.mono (Succeed.bind hm fun o' _ h' => Succeed.pure
    (Q := fun o' a => J.Holds o' _ left ∧ a = fun _ => none) ⟨h', rfl⟩) ?_
  rintro o' _ ⟨_, rfl, h', rfl⟩
  exact after_of_success hstep h' hleft

omit [CodedRing R] in
private theorem run_finalize {seat : Seat} {s s' : O} {r : Except ProtocolError R}
    (h : Opener.finalize s = (r, s')) :
    (OpenerStep.finalize : OpenerStep S).act.run seat s = .done s' (r.map some) := by
  rw [OpenerStep.act, Action.run_bind, Action.run_ofAttempt, Session.bind_done, h]
  cases r <;> rfl

/-- Every operation of all parties runs in lockstep, and does to the batch what it does to values. -/
private theorem lockstep (hidles : J.Idles) (h : J.Tracks o batch taken)
    (step : OpenerStep J.toSharing.Shared) :
    Lockstep (fun i => (step.map (·.shares i)).act.run ⟨i, n⟩ (o i)) (After J batch taken step) := by
  obtain ⟨left, hholds, hleft⟩ := h
  have hsame : taken ++ [] ++ left = batch.exchanged := by rwa [List.append_nil]
  cases step with
  | init => exact Lockstep.done (after_of_success (by simp) (J.init hholds) rfl)
  | prepare x => exact Lockstep.done (after_of_success (by simp) (J.prepare hholds x.valid) hsame)
  | exchange =>
    refine lockstep_of_succeed (by simp) (fun _ => rfl) (J.exchange hholds) ?_
    exact (List.append_assoc ..).symm.trans (congrArg (· ++ batch.queued) hsame)
  | check => exact lockstep_of_succeed (by simp) (fun _ => rfl) (J.check hholds) hsame
  | finalize =>
    cases left with
    | nil =>
      have hall : taken = batch.exchanged := by rwa [List.append_nil] at hleft
      have hrun (i : Fin n) : (OpenerStep.finalize : OpenerStep S).act.run ⟨i, n⟩ (o i) =
          .done (o i) (.error (.misuse .nothingOpened)) := run_finalize (hidles.finalize hholds i)
      simp only [OpenerStep.map, hrun]
      refine Lockstep.done ⟨_, rfl, ⟨by simp, fun _ => ?_, fun _ hne => absurd hall hne⟩, [], hholds,
        hleft⟩
      exact ⟨fun _ => hall, fun _ => rfl⟩
    | cons v left =>
      obtain ⟨o', hfinalize, h'⟩ := J.finalize hholds
      have hrun (i : Fin n) : (OpenerStep.finalize : OpenerStep S).act.run ⟨i, n⟩ (o i) =
          .done (o' i) (.ok (some v)) := run_finalize (hfinalize i)
      have hnext : taken ++ [v] ++ left = batch.exchanged := by
        rwa [List.append_assoc, List.singleton_append]
      simp only [OpenerStep.map, hrun]
      refine Lockstep.done ⟨_, rfl, ⟨by simp, fun _ => ⟨by simp, fun hall => ?_⟩, fun _ _ => ?_⟩,
        left, h', hnext⟩
      · rw [hall, List.append_right_eq_self] at hleft
        cases hleft
      · exact ⟨v, rfl, left, hnext⟩

variable {op : OpeningOperation J.toSharing} {ops : List (OpeningOperation J.toSharing)}
  {rest : Fin n → List Event}

/-- An operation of all parties does to the batch what it does to values, with the results that it
may have. Whatever the parties do afterwards may be under way already. -/
theorem step (hidles : J.Idles) (h : J.Tracks o batch taken) (hop : op.Regular)
    (hruns : ∀ i, Runs (op.parties i).step.act (op.parties i).seat (o i) (op.parties i).calls (o' i)
      (op.parties i).outcome)
    (hinOrder : ∀ i j : Fin n, i ≠ j → heardFrom n i j ((op.parties i).calls ++ rest i) <+:
      sentTo n j i ((op.parties j).calls ++ rest j)) :
    (∃ taken', (∀ i, collectValue taken (op.parties i).step (op.parties i).outcome = taken') ∧
      J.Tracks o' (batch.step op.onValues) taken') ∧
    (∀ i, batch.Allows taken op.step (op.parties i).outcome) ∧
      ∀ i j : Fin n, i ≠ j → heardFrom n i j (rest i) <+: sentTo n j i (rest j) := by
  simp only [hop.step, hop.seat] at hruns
  obtain ⟨⟨result, hresult, hallows, h'⟩, hlater⟩ :=
    (h.lockstep hidles op.step).of_runs hruns hop.answered hinOrder
  have houtcome (i : Fin n) : (op.parties i).outcome = result := congrFun hresult i
  refine ⟨⟨_, fun i => ?_, h'⟩, fun i => ?_, hlater⟩
  · rw [hop.step, houtcome, collectValue_map]
  · rw [houtcome]
    exact hallows

/-- With nothing queued an exchange makes no calls and changes nothing, and neither does a check with
nothing to verify. -/
theorem silent (hidles : J.Idles) (h : J.Tracks o batch taken) (hop : op.Regular)
    (hruns : ∀ i, Runs (op.parties i).step.act (op.parties i).seat (o i) (op.parties i).calls (o' i)
      (op.parties i).outcome) :
    (op.step = .exchange → batch.queued = [] → ∀ i, (op.parties i).calls = [] ∧ o' i = o i) ∧
      (op.step = .check → ∀ i, Opener.pendingChecks (o i) = 0 →
        (op.parties i).calls = [] ∧ o' i = o i) := by
  obtain ⟨left, hholds, -⟩ := h
  simp only [hop.step, hop.seat] at hruns
  refine ⟨fun hstep hqueued i => ?_, fun hstep i hpending => ?_⟩
  · rw [hqueued] at hholds
    simp only [hstep, OpenerStep.map] at hruns
    obtain ⟨r, hexchange, -⟩ := (hruns i).of_bind_pure
    obtain ⟨hcalls, hsame, -⟩ := hexchange.eq_of_done (hidles.exchange hholds i)
    exact ⟨hcalls, hsame⟩
  · simp only [hstep, OpenerStep.map] at hruns
    obtain ⟨r, hcheck, -⟩ := (hruns i).of_bind_pure
    obtain ⟨hcalls, hsame, -⟩ := hcheck.eq_of_done (hidles.check hholds i hpending)
    exact ⟨hcalls, hsame⟩

/-- A run of all parties does to the batch what its operations do to values, and all parties are
handed out the same. -/
theorem run (hidles : J.Idles) (h : J.Tracks o batch taken) (hregular : ∀ op ∈ ops, op.Regular)
    (hhistory : ∀ i, History OpenerStep.act (o i) (ops.map (·.parties i)) (o' i))
    (hinOrder : ∀ i j : Fin n, i ≠ j → heardFrom n i j (callsOf ops i ++ rest i) <+:
      sentTo n j i (callsOf ops j ++ rest j)) :
    (∃ taken', (∀ i, (ops.map (·.parties i)).foldl
        (fun taken op => collectValue taken op.step op.outcome) taken = taken') ∧
      J.Tracks o' (ops.foldl (fun batch op => batch.step op.onValues) batch) taken') ∧
    ∀ i j : Fin n, i ≠ j → heardFrom n i j (rest i) <+: sentTo n j i (rest j) := by
  induction ops generalizing o batch taken with
  | nil =>
    obtain rfl : o' = o := funext fun i => (hhistory i).of_nil
    exact ⟨⟨taken, fun _ => rfl, h⟩, hinOrder⟩
  | cons op ops ih =>
    choose o₁ hfirst hlater using fun i => (hhistory i).of_cons
    simp only [callsOf, List.flatMap_cons, List.append_assoc] at hinOrder
    obtain ⟨⟨taken₁, htaken, h₁⟩, -, hinOrder₁⟩ :=
      h.step hidles (hregular op List.mem_cons_self) hfirst hinOrder
    simp only [List.map_cons, List.foldl_cons, htaken]
    exact ih h₁ (fun op' hop' => hregular op' (List.mem_cons_of_mem _ hop')) hlater hinOrder₁

/-- Whatever operations the parties want to carry out, the network can answer all of them so that
every party hears of every other one all that this one sends. -/
theorem exists_requests (hidles : J.Idles) (h : J.Tracks o batch taken)
    (steps : List (OpenerStep J.toSharing.Shared)) :
    ∃ requests : List (OpenerStep J.toSharing.Shared × (Fin n → Answers)),
      (OpeningRun.carryOut requests o).1.map (·.step) = steps ∧
      (∀ op ∈ (OpeningRun.carryOut requests o).1, ∀ i : Fin n, Answered n i (op.parties i).calls) ∧
      ∀ i j : Fin n, i ≠ j → heardFrom n i j (callsOf (OpeningRun.carryOut requests o).1 i) =
        sentTo n j i (callsOf (OpeningRun.carryOut requests o).1 j) := by
  induction steps generalizing o batch taken with
  | nil => exact ⟨[], rfl, fun op hop => (by cases hop), fun _ _ _ => rfl⟩
  | cons step steps ih =>
    obtain ⟨answers, ⟨result, -, -, h₁⟩, hanswered, hheard⟩ :=
      (h.lockstep hidles step).exists_answers
    obtain ⟨requests, hsteps, hrest, hall⟩ := ih h₁
    refine ⟨(step, answers) :: requests, congrArg (step :: ·) hsteps, fun op hop => ?_,
      fun i j hij => ?_⟩
    · obtain rfl | hop := List.mem_cons.1 hop
      · exact hanswered
      · exact hrest op hop
    · change heardFrom n i j (_ ++ callsOf (OpeningRun.carryOut requests _).1 i) =
        sentTo n j i (_ ++ callsOf (OpeningRun.carryOut requests _).1 j)
      rw [heardFrom_append, sentTo_append, hall i j hij]
      exact congrArg (· ++ _) (hheard i j hij)

end Tracks

end JointOpening

namespace Suite.FreshOpeners

/-- Let all parties start with openers of one scheme, and carry out the same operations on valid
sharings over channels that deliver in order. They can do so, whatever the operations are. At every
party the values handed out since the batch was started are then the first ones of those prepared and
exchanged since, in the order of preparation. Whoever takes a value gets the next one, and is told of
a misuse exactly if all of them were handed out before. Every other operation succeeds, and so does
every check. An exchange of an empty batch makes no calls and changes nothing, and neither does a
check with nothing to verify. -/
theorem handedOut_in_order {X : Suite} {n : Nat} {openers : Fin n → X.O} {V : Sharing X.S n}
    (hfresh : X.FreshOpeners openers V) :
    (∀ steps : List (OpenerStep V.Shared), ∃ run final, run.map (·.step) = steps ∧
      OpeningRun V openers run final) ∧
    ∀ (run : List (OpeningOperation V)) (final : Fin n → X.O), OpeningRun V openers run final →
      (∃ taken, (∀ i, handedOut (run.map (·.parties i)) = taken) ∧
        taken <+: (batchOf run).exchanged) ∧
      ∀ before op after (o o' : Fin n → X.O), run = before ++ op :: after →
        (∀ i, History OpenerStep.act (openers i) (before.map (·.parties i)) (o i)) →
        (∀ i, Runs (op.parties i).step.act (op.parties i).seat (o i) (op.parties i).calls (o' i)
          (op.parties i).outcome) →
        (∀ i, (batchOf before).Allows (handedOut (before.map (·.parties i))) op.step
          (op.parties i).outcome) ∧
        (op.step = .exchange → (batchOf before).queued = [] →
          ∀ i, (op.parties i).calls = [] ∧ o' i = o i) ∧
        (op.step = .check → ∀ i, Opener.pendingChecks (o i) = 0 →
          (op.parties i).calls = [] ∧ o' i = o i) := by
  obtain ⟨-, -, -, J, rfl, hholds, hidles⟩ := hfresh.exists_idles
  have hstart : J.Tracks openers .blank [] := ⟨[], hholds, rfl⟩
  refine ⟨fun steps => ?_, fun run final hrun => ⟨?_, ?_⟩⟩
  · obtain ⟨requests, hsteps, hanswered, hheard⟩ := hstart.exists_requests hidles steps
    refine ⟨_, _, hsteps, OpeningRun.of_carryOut requests openers hanswered fun i _ j _ hij => ?_⟩
    rw [hheard i j hij]
  · have hinOrder (i j : Fin n) (hij : i ≠ j) :
        heardFrom n i j (callsOf run i ++ []) <+: sentTo n j i (callsOf run j ++ []) := by
      rw [List.append_nil, List.append_nil]
      exact hrun.delivered i (Finset.mem_univ i) j (Finset.mem_univ j) hij
    obtain ⟨⟨taken, htaken, left, -, hleft⟩, -⟩ :=
      hstart.run hidles hrun.regular hrun.history hinOrder
    exact ⟨taken, htaken, left, hleft⟩
  · rintro before op after o o' rfl hbefore hop
    have hinOrder (i j : Fin n) (hij : i ≠ j) :=
      hrun.delivered i (Finset.mem_univ i) j (Finset.mem_univ j) hij
    have hregular : op.Regular := hrun.regular op (by simp)
    simp only [callsOf, List.flatMap_append, List.flatMap_cons] at hinOrder
    obtain ⟨⟨taken, htaken, htracks⟩, hlater⟩ := hstart.run hidles
      (fun op' hop' => hrun.regular op' (List.mem_append_left _ hop')) hbefore hinOrder
    obtain ⟨-, hallows, -⟩ := htracks.step hidles hregular hop hlater
    refine ⟨fun i => ?_, htracks.silent hidles hregular hop⟩
    have hsame : handedOut (before.map (·.parties i)) = taken := htaken i
    rw [hsame]
    exact hallows i

section Example

/-- A public value as a shared one. -/
private def known (v : Word64) : (ReplicatedShare.sharing (R := Word64)).Shared :=
  ⟨fun i => ReplicatedShare.constant v i, v, ReplicatedShare.valid_constant v⟩

/-- A network on which party one gets a value from both of its neighbours, and the others zeros. -/
private def telling (v : Word64) : Fin 3 → Answers := fun i _ c =>
  match c with
  | .send .. => .ok ()
  | .receive _ => .ok []
  | .broadcast payload => .ok [payload]
  | .pass .. => .ok (encodeValues [if i.val = 1 then v else 0])

/-- Two values are opened. The second one is queued before the first one is taken, and an exchange
of nothing comes after its own one. -/
private def fiveAndSeven :
    List (OpenerStep (ReplicatedShare.sharing (R := Word64)).Shared × (Fin 3 → Answers)) :=
  [(.init, telling ⟨0⟩), (.prepare (known ⟨5⟩), telling ⟨0⟩), (.exchange, telling ⟨5⟩),
    (.prepare (known ⟨7⟩), telling ⟨0⟩), (.finalize, telling ⟨0⟩), (.exchange, telling ⟨7⟩),
    (.exchange, telling ⟨0⟩), (.finalize, telling ⟨0⟩), (.finalize, telling ⟨0⟩),
    (.check, telling ⟨0⟩)]

private def threeOpeners (i : Fin 3) : ReplicatedOpener Word64 := .create i .communication

/-- What the parties have done, and their openers afterwards. -/
private def fiveAndSevenRun :
    List (OpeningOperation (ReplicatedShare.sharing (R := Word64))) ×
      (Fin 3 → ReplicatedOpener Word64) :=
  OpeningRun.carryOut fiveAndSeven threeOpeners

/-- Both values are handed out, in the order of their preparation. -/
theorem handedOut_in_order_fiveAndSeven :
    (Suite.replicated Word64).FreshOpeners threeOpeners (ReplicatedShare.sharing (R := Word64)) ∧
      OpeningRun (ReplicatedShare.sharing (R := Word64)) threeOpeners fiveAndSevenRun.1
        fiveAndSevenRun.2 ∧
      ∀ i, handedOut (fiveAndSevenRun.1.map (·.parties i)) = [⟨5⟩, ⟨7⟩] := by
  have hfresh : (Suite.replicated Word64).FreshOpeners threeOpeners
      (ReplicatedShare.sharing (R := Word64)) := .replicated Word64 .communication
  have hrun := OpeningRun.of_carryOut fiveAndSeven threeOpeners (by decide +kernel)
    (by decide +kernel)
  obtain ⟨⟨taken, htaken, hfirst⟩, -⟩ := (handedOut_in_order hfresh).2 _ _ hrun
  have hlength : taken.length = 2 := by
    rw [← htaken 0]
    decide +kernel
  have hexchanged : (batchOf fiveAndSevenRun.1).exchanged = [⟨5⟩, ⟨7⟩] := by decide +kernel
  have hsame : taken = [⟨5⟩, ⟨7⟩] :=
    (hfirst.eq_of_length (hlength.trans (congrArg List.length hexchanged).symm)).trans hexchanged
  exact ⟨hfresh, hrun, fun i => (htaken i).trans hsame⟩

end Example

end Suite.FreshOpeners

end Multiparty
