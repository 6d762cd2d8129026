import Mathlib
import Multiparty.Proofs.Joint.FreshOpeners
import Multiparty.Proofs.Joint.Multiplication
import Multiparty.Proofs.Multiplication.Queues
import Multiparty.Proofs.Network.InOrder

/-!
# Products under any interleaving

All parties carry out the same operations of their multipliers in the same order, in whatever way
preparations, exchanges and products alternate. Neither do they wait for each other, nor must an
exchange succeed: it may be refused before anything is sent, and tried again. The multiplications
under way stay aligned over all parties, and so every product belongs to the pair that was prepared
for it.

## Main definitions

* `JointOperation`, `JointOperation.Regular`: an operation of all parties.
* `JointRun`: a run of all parties, over channels that deliver in order.
* `products`, `preparedPairs`: what is handed out and what is prepared since the multiplications were
  last forgotten.
* `Multiplier.Tracks`: multipliers and openers of all parties with the multiplications under way.
* `Multiplier.JointOutcome`: what an operation does to the multiplications under way.

## Main results

* `Multiplier.Tracks.step`: an operation of all parties.
* `Multiplier.products_valid`: the products of a run, and the queues of a multiplier.
-/

namespace Multiparty

open Multiparty.Action (Ensures Runs Succeed)

/-- The calls of some operations that were not answered by errors, oldest first. -/
def traffic {ι α : Type} (ops : List (Operation ι α)) : List Event :=
  ops.flatMap fun op => op.calls.filter Event.succeeded

/-- What a multiplier has handed out since its multiplications were last forgotten, after one more
operation. -/
def collectProduct {S : Type} (zs : List S) (op : Operation (MultiplierStep S) (Option S)) : List S :=
  match op.step with
  | .init => []
  | _ => zs ++ op.value?.toList

/-- The shares that a multiplier has handed out since its multiplications were last forgotten. -/
def products {S : Type} (ops : List (Operation (MultiplierStep S) (Option S))) : List S :=
  ops.foldl collectProduct []

section JointRun

variable {O S R K : Type} [LinearShare S R K] [CodedRing R] {n : Nat}

/-- An operation that all parties carry out, each with its own shares. -/
structure JointOperation (V : Sharing S n) where
  step : MultiplierStep V.Shared
  /-- Whether it fails at every party before anything is sent. -/
  refused : Bool
  parties : Fin n → Operation (MultiplierStep S) (Option S)

/-- The calls of all parties are answered, unless the first one of each fails and is the last one. -/
def JointOperation.Carried {V : Sharing S n} (op : JointOperation V) : Prop :=
  ∀ i : Fin n, if op.refused then (op.parties i).calls.map Event.succeeded = [false]
    else Answered n i (op.parties i).calls

instance {V : Sharing S n} {op : JointOperation V} : Decidable op.Carried :=
  inferInstanceAs (Decidable (∀ _ : Fin n, if op.refused then _ else _))

/-- Everyone carries out the operation with its own shares and from its seat. -/
structure JointOperation.Regular {V : Sharing S n} (op : JointOperation V) : Prop where
  step : ∀ i : Fin n, (op.parties i).step = op.step.map (·.shares i)
  seat : ∀ i : Fin n, (op.parties i).seat = ⟨i, n⟩
  carried : op.Carried

/-- What all parties have prepared since the multiplications were last forgotten, after one more
operation. -/
def collectPair {V : Sharing S n} (pairs : List (V.Shared × V.Shared)) (op : JointOperation V) :
    List (V.Shared × V.Shared) :=
  match op.step with
  | .init => []
  | .prepare x y => if ∀ i, (op.parties i).outcome.isOk = true then pairs ++ [(x, y)] else pairs
  | _ => pairs

/-- The pairs that all parties have prepared since the multiplications were last forgotten. -/
def preparedPairs {V : Sharing S n} (run : List (JointOperation V)) : List (V.Shared × V.Shared) :=
  run.foldl collectPair []

variable [Opener O S R]

/-- All parties have carried out the operations `run`, which have led from the states `s` to the
states `final`, and every party has heard of the others what they have sent, in order. -/
structure JointRun (V : Sharing S n) (s : Fin n → O × Multiplier S R K)
    (run : List (JointOperation V)) (final : Fin n → O × Multiplier S R K) : Prop where
  regular : ∀ op ∈ run, op.Regular
  history : ∀ i, History MultiplierStep.act (s i) (run.map (·.parties i)) (final i)
  delivered : DeliveredInOrder Finset.univ fun i => traffic (run.map (·.parties i))

namespace JointRun

variable {V : Sharing S n}

/-- Carries out operations of all parties, each of which comes with the answers that its parties get,
and with whether it is meant to be refused. -/
def carryOut : List (MultiplierStep V.Shared × Bool × (Fin n → Answers)) →
    (Fin n → O × Multiplier S R K) → List (JointOperation V) × (Fin n → O × Multiplier S R K)
  | [], s => ([], s)
  | (step, refused, answers) :: rest, s =>
    let session (i : Fin n) := (step.map (·.shares i)).act.run ⟨i, n⟩ (s i)
    let op (i : Fin n) : Operation (MultiplierStep S) (Option S) :=
      ⟨step.map (·.shares i), ⟨i, n⟩, (session i).transcript (answers i),
        ((session i).under (answers i)).2⟩
    let (run, final) := carryOut rest fun i => ((session i).under (answers i)).1
    (⟨step, refused, op⟩ :: run, final)

private theorem regular_of_carryOut
    (requests : List (MultiplierStep V.Shared × Bool × (Fin n → Answers)))
    (s : Fin n → O × Multiplier S R K) (hcarried : ∀ op ∈ (carryOut requests s).1, op.Carried) :
    ∀ op ∈ (carryOut requests s).1, op.Regular := by
  induction requests generalizing s with
  | nil => exact fun op hop => by cases hop
  | cons request requests ih =>
    intro op hop
    obtain rfl | hop := List.mem_cons.1 hop
    · exact ⟨fun _ => rfl, fun _ => rfl, hcarried _ List.mem_cons_self⟩
    · exact ih _ (fun op' hop' => hcarried op' (List.mem_cons_of_mem _ hop')) op hop

private theorem history_of_carryOut
    (requests : List (MultiplierStep V.Shared × Bool × (Fin n → Answers)))
    (s : Fin n → O × Multiplier S R K) (i : Fin n) : History MultiplierStep.act (s i)
      ((carryOut requests s).1.map (·.parties i)) ((carryOut requests s).2 i) := by
  induction requests generalizing s with
  | nil => exact .start
  | cons request requests ih =>
    obtain ⟨step, refused, answers⟩ := request
    let session (i : Fin n) := (step.map (·.shares i)).act.run ⟨i, n⟩ (s i)
    have hfirst : History MultiplierStep.act (s i) [⟨step.map (·.shares i), ⟨i, n⟩,
        (session i).transcript (answers i), ((session i).under (answers i)).2⟩]
        ((session i).under (answers i)).1 := .next .start ⟨answers i, rfl, rfl⟩
    exact hfirst.append (ih fun i => ((session i).under (answers i)).1)

/-- Whatever the parties ask for, there is a run of it if the network behaves. -/
theorem of_carryOut (requests : List (MultiplierStep V.Shared × Bool × (Fin n → Answers)))
    (s : Fin n → O × Multiplier S R K) (hcarried : ∀ op ∈ (carryOut requests s).1, op.Carried)
    (hdelivered : DeliveredInOrder Finset.univ fun i =>
      traffic ((carryOut requests s).1.map (·.parties i))) :
    JointRun V s (carryOut requests s).1 (carryOut requests s).2 :=
  ⟨regular_of_carryOut requests s hcarried, history_of_carryOut requests s, hdelivered⟩

end JointRun

end JointRun

section Traffic

variable {ι α : Type} {op : Operation ι α} {ops : List (Operation ι α)}

theorem traffic_cons : traffic (op :: ops) = op.calls.filter Event.succeeded ++ traffic ops :=
  List.flatMap_cons

theorem Answered.filter_succeeded {players me : Nat} {t : List Event} (h : Answered players me t) :
    t.filter Event.succeeded = t :=
  List.filter_eq_self.2 fun e he => (h e he).1

end Traffic

namespace Multiplier

variable {O S R K : Type} [Opener O S R] [LinearShare S R K] [CodedRing R] {n : Nat}

/-- The openers and multipliers of all parties, where the multiplications `prepared` wait for an
exchange, and those in `exchanged` can be finished. -/
structure Tracks (J : JointOpening O n) (s : Fin n → O × Multiplier S R K) (count : Nat)
    (prepared exchanged : List J.toSharing.Masking) : Prop where
  openers : ∃ q vs, J.Holds (fun i => (s i).1) q vs
  multipliers : Joint J.toSharing (fun i => (s i).2) count prepared exchanged

/-- What an operation of all parties does to the multiplications under way. -/
inductive JointOutcome {V : Sharing S n} (op : JointOperation V) :
    (prepared exchanged prepared' exchanged' : List V.Masking) → Prop where
  | forgotten {prepared exchanged} : op.step = .init → JointOutcome op prepared exchanged [] []
  | prepared {prepared exchanged} {x y : V.Shared} (p : V.Masking) : op.step = .prepare x y →
      (∀ i, (op.parties i).outcome = .ok none) → p.x = x.value → p.y = y.value →
      JointOutcome op prepared exchanged (prepared ++ [p]) exchanged
  | exhausted {prepared exchanged} {x y : V.Shared} : op.step = .prepare x y →
      (∀ i, ∃ e, (op.parties i).outcome = .error e) →
      JointOutcome op prepared exchanged prepared exchanged
  | exchanged {prepared exchanged} : op.step = .exchange →
      (∀ i, (op.parties i).outcome = .ok none) →
      JointOutcome op prepared exchanged [] (exchanged ++ prepared)
  | refused {prepared exchanged} : op.step = .exchange →
      (∀ i, ∃ e, (op.parties i).outcome = .error e) →
      JointOutcome op prepared exchanged prepared exchanged
  | finished {prepared exchanged} {p : V.Masking} (z : Fin n → S) : op.step = .finalize →
      (∀ i, (op.parties i).outcome = .ok (some (z i))) → V.Valid z (p.x * p.y) →
      JointOutcome op prepared (p :: exchanged) prepared exchanged
  | idle {prepared} : op.step = .finalize → (∀ i, ∃ e, (op.parties i).outcome = .error e) →
      JointOutcome op prepared [] prepared []

namespace Tracks

variable {J : JointOpening O n} {s s' : Fin n → O × Multiplier S R K} {count : Nat}
  {prepared exchanged : List J.toSharing.Masking} {r : Fin n → Except ProtocolError Unit}

/-- An exchange of all parties whose calls are answered opens everything prepared, and everything
that is sent in it is heard. What the parties do afterwards may be under way already. -/
theorem exchange (h : Tracks J s count prepared exchanged) {calls rest : Fin n → List Event}
    (hruns : ∀ i : Fin n, Runs Multiplier.exchange ⟨i, n⟩ (s i) (calls i) (s' i) (r i))
    (hanswered : ∀ i : Fin n, Answered n i (calls i))
    (hinOrder : ∀ i j : Fin n, i ≠ j →
      heardFrom n i j (calls i ++ rest i) <+: sentTo n j i (calls j ++ rest j)) :
    (∀ i, r i = .ok ()) ∧ Tracks J s' count [] (exchanged ++ prepared) ∧
      ∀ i j : Fin n, i ≠ j → heardFrom n i j (calls i) = sentTo n j i (calls j) := by
  obtain ⟨q, vs, hopeners⟩ := h.openers
  choose answers hcalls hunder using hruns
  simp only [← hcalls] at hanswered hinOrder
  obtain ⟨⟨units, hunits, hopeners', hmultipliers⟩, hheard⟩ :=
    Lockstep.of_inOrder (h.multipliers.exchange hopeners) hanswered hinOrder
  have hstate (i : Fin n) : ((Multiplier.exchange.run ⟨i, n⟩ (s i)).under (answers i)).1 = s' i := by
    rw [hunder]
  have hresult (i : Fin n) : ((Multiplier.exchange.run ⟨i, n⟩ (s i)).under (answers i)).2 = r i := by
    rw [hunder]
  simp only [hstate] at hopeners' hmultipliers
  refine ⟨fun i => ?_, ⟨hopeners', hmultipliers⟩, fun i j hij => ?_⟩
  · rw [← hresult]
    exact congrFun hunits i
  · rw [← hcalls, ← hcalls]
    exact hheard i j hij

/-- An exchange that is refused at every party leaves everything prepared. -/
theorem refused (hretries : Opener.Retries O) (h : Tracks J s count prepared exchanged)
    (hruns : ∀ i : Fin n, ∃ e, Runs Multiplier.exchange ⟨i, n⟩ (s i) [e] (s' i) (r i) ∧
      e.succeeded = false) :
    (∀ i, ∃ e, r i = .error e) ∧ Tracks J s' count prepared exchanged := by
  obtain ⟨q, vs, hopeners⟩ := h.openers
  have hsame (i : Fin n) : s' i = (Opener.prepareAll (s i).2.maskedShares (s i).1, (s i).2) ∧
      ∃ e, r i = .error e := by
    obtain ⟨e, hrun, hfailed⟩ := hruns i
    generalize s' i = after at hrun ⊢
    generalize r i = outcome at hrun ⊢
    cases hrun.of_ensures ensures_exchange with
    | refused hmasked hround =>
      obtain ⟨rfl, -⟩ := hretries hfailed hround
      exact ⟨rfl, _, rfl⟩
    | opened hmasked hround hle heq =>
      obtain ⟨-, e', herror⟩ := hretries hfailed hround
      cases herror
  refine ⟨fun i => (hsame i).2, ?_, ?_⟩
  · simp only [hsame]
    exact ⟨_, _, h.multipliers.holds_prepareAll hopeners⟩
  · simp only [hsame]
    exact h.multipliers

section Step

variable {op : JointOperation J.toSharing} {rest : Fin n → List Event}

/-- The multiplications under way are aligned over all parties in the states `s'` too. -/
private def Aligned (s' : Fin n → O × Multiplier S R K) (op : JointOperation J.toSharing)
    (prepared exchanged : List J.toSharing.Masking) : Prop :=
  ∃ count' prepared' exchanged', JointOutcome op prepared exchanged prepared' exchanged' ∧
    Tracks J s' count' prepared' exchanged'

/-- Whoever has changed no opener has changed only the multipliers. -/
private theorem of_fst_eq (h : Tracks J s count prepared exchanged)
    {m' : Fin n → Multiplier S R K} {count' : Nat} {prepared' exchanged' : List J.toSharing.Masking}
    (hstate : ∀ i, s' i = ((s i).1, m' i))
    (hmultipliers : Joint J.toSharing m' count' prepared' exchanged') :
    Tracks J s' count' prepared' exchanged' := by
  obtain rfl : s' = fun i => ((s i).1, m' i) := funext hstate
  exact ⟨h.openers, hmultipliers⟩

private theorem aligned_prepare (h : Tracks J s count prepared exchanged) {x y : J.toSharing.Shared}
    (hstep : op.step = .prepare x y)
    (hstate : ∀ i, s' i = ((s i).1, (Multiplier.prepare (x.shares i) (y.shares i) (s i).2).2))
    (houtcome : ∀ i, (op.parties i).outcome =
      (Multiplier.prepare (x.shares i) (y.shares i) (s i).2).1.map fun _ => none) :
    Aligned s' op prepared exchanged := by
  cases count with
  | zero =>
    have hnone (i : Fin n) := h.multipliers.prepare_eq_error (x.shares i) (y.shares i) i
    simp only [hnone] at hstate houtcome
    exact ⟨0, prepared, exchanged, .exhausted hstep fun i => ⟨_, houtcome i⟩,
      h.of_fst_eq hstate h.multipliers⟩
  | succ count =>
    obtain ⟨m', p, hprepare, hx, hy, hmultipliers⟩ := h.multipliers.prepare x.valid y.valid
    simp only [hprepare] at hstate houtcome
    exact ⟨count, prepared ++ [p], exchanged, .prepared p hstep houtcome hx hy,
      h.of_fst_eq hstate hmultipliers⟩

private theorem aligned_finalize [LawfulRing R] (h : Tracks J s count prepared exchanged)
    (hstep : op.step = .finalize)
    (hstate : ∀ i, s' i = ((s i).1, (Multiplier.finalize (s i).1 (s i).2).2))
    (houtcome : ∀ i, (op.parties i).outcome = (Multiplier.finalize (s i).1 (s i).2).1.map some) :
    Aligned s' op prepared exchanged := by
  cases exchanged with
  | nil =>
    have hnone (i : Fin n) := h.multipliers.finalize_eq_error (s i).1 i
    simp only [hnone] at hstate houtcome
    exact ⟨count, prepared, [], .idle hstep fun i => ⟨_, houtcome i⟩,
      h.of_fst_eq hstate h.multipliers⟩
  | cons p exchanged =>
    obtain ⟨q, vs, hopeners⟩ := h.openers
    obtain ⟨m', z, hfinalize, hz, hmultipliers⟩ := h.multipliers.finalize hopeners
    simp only [hfinalize] at hstate houtcome
    exact ⟨count, prepared, exchanged, .finished z hstep houtcome hz,
      h.of_fst_eq hstate hmultipliers⟩

private theorem aligned_exchange (hretries : Opener.Retries O)
    (h : Tracks J s count prepared exchanged) (hop : op.Regular) (hstep : op.step = .exchange)
    (hruns : ∀ i : Fin n,
      Runs Multiplier.exchange ⟨i, n⟩ (s i) (op.parties i).calls (s' i) (r i))
    (houtcome : ∀ i, (op.parties i).outcome = (r i).map fun _ => none)
    (hinOrder : ∀ i j : Fin n, i ≠ j →
      heardFrom n i j ((op.parties i).calls.filter Event.succeeded ++ rest i) <+:
        sentTo n j i ((op.parties j).calls.filter Event.succeeded ++ rest j)) :
    Aligned s' op prepared exchanged ∧
      ∀ i j : Fin n, i ≠ j → heardFrom n i j (rest i) <+: sentTo n j i (rest j) := by
  have hcarried := hop.carried
  rw [JointOperation.Carried] at hcarried
  cases hrefused : op.refused with
  | true =>
    simp only [hrefused, if_true, List.map_eq_singleton_iff] at hcarried
    have hsilent (i : Fin n) : (op.parties i).calls.filter Event.succeeded = [] := by
      obtain ⟨e, hcalls, hfailed⟩ := hcarried i
      rw [hcalls, List.filter_singleton, hfailed]
      rfl
    obtain ⟨herror, htracks⟩ := h.refused hretries fun i => by
      obtain ⟨e, hcalls, hfailed⟩ := hcarried i
      exact ⟨e, hcalls ▸ hruns i, hfailed⟩
    simp only [hsilent, List.nil_append] at hinOrder
    refine ⟨⟨count, prepared, exchanged, .refused hstep fun i => ?_, htracks⟩, hinOrder⟩
    obtain ⟨e, he⟩ := herror i
    exact ⟨e, by rw [houtcome, he]; rfl⟩
  | false =>
    simp only [hrefused, Bool.false_eq_true, if_false] at hcarried
    have hall (i : Fin n) := (hcarried i).filter_succeeded
    simp only [hall] at hinOrder
    obtain ⟨hok, htracks, hheard⟩ := h.exchange hruns hcarried hinOrder
    refine ⟨⟨count, [], exchanged ++ prepared, .exchanged hstep fun i => ?_, htracks⟩,
      fun i j hij => ?_⟩
    · rw [houtcome, hok]
      rfl
    · have hprefix := hinOrder i j hij
      rwa [heardFrom_append, sentTo_append, hheard i j hij, List.prefix_append_right_inj] at hprefix

/-- After an operation of all parties the multiplications under way are still aligned over all of
them. Whatever the parties do afterwards may be under way already. -/
theorem step [LawfulRing R] (hretries : Opener.Retries O)
    (h : Tracks J s count prepared exchanged) (hop : op.Regular)
    (hruns : ∀ i, Runs (op.parties i).step.act (op.parties i).seat (s i) (op.parties i).calls (s' i)
      (op.parties i).outcome)
    (hinOrder : ∀ i j : Fin n, i ≠ j →
      heardFrom n i j ((op.parties i).calls.filter Event.succeeded ++ rest i) <+:
        sentTo n j i ((op.parties j).calls.filter Event.succeeded ++ rest j)) :
    (∃ count' prepared' exchanged', JointOutcome op prepared exchanged prepared' exchanged' ∧
      Tracks J s' count' prepared' exchanged') ∧
      ∀ i j : Fin n, i ≠ j → heardFrom n i j (rest i) <+: sentTo n j i (rest j) := by
  simp only [hop.step, hop.seat] at hruns
  cases hstep : op.step with
  | init =>
    simp only [hstep, MultiplierStep.map] at hruns
    choose hcalls hstate houtcome using fun i => MultiplierStep.of_runs_init (hruns i)
    simp only [hcalls, List.filter_nil, List.nil_append] at hinOrder
    exact ⟨⟨count, [], [], .forgotten hstep, h.of_fst_eq hstate h.multipliers.init⟩, hinOrder⟩
  | prepare x y =>
    simp only [hstep, MultiplierStep.map] at hruns
    choose hcalls hstate houtcome using fun i => MultiplierStep.of_runs_prepare (hruns i)
    simp only [hcalls, List.filter_nil, List.nil_append] at hinOrder
    exact ⟨h.aligned_prepare hstep hstate houtcome, hinOrder⟩
  | exchange =>
    simp only [hstep, MultiplierStep.map] at hruns
    choose r hexchange houtcome using fun i => (hruns i).of_bind_pure
    exact h.aligned_exchange hretries hop hstep hexchange houtcome hinOrder
  | finalize =>
    simp only [hstep, MultiplierStep.map] at hruns
    choose hcalls hstate houtcome using fun i => MultiplierStep.of_runs_finalize (hruns i)
    simp only [hcalls, List.filter_nil, List.nil_append] at hinOrder
    exact ⟨h.aligned_finalize hstep hstate houtcome, hinOrder⟩

end Step

end Tracks

/-- The products `zs` belong to the first of the pairs, and the multiplications under way to the
others, in the same order. -/
def Owing {V : Sharing S n} (zs : List (Fin n → S)) (pairs : List (V.Shared × V.Shared))
    (underway : List V.Masking) : Prop :=
  ∃ finished left, pairs = finished ++ left ∧
    List.Forall₂ (fun z (p : V.Shared × V.Shared) => V.Valid z (p.1.value * p.2.value)) zs finished ∧
    List.Forall₂ (fun m (p : V.Shared × V.Shared) => m.x = p.1.value ∧ m.y = p.2.value) underway left

/-- Products are owed to the pairs in the order of their preparation, whatever the next operation. -/
theorem JointOutcome.owing {V : Sharing S n} (hn : 0 < n) {op : JointOperation V}
    {prepared exchanged prepared' exchanged' : List V.Masking} {zs : List (Fin n → S)}
    {pairs : List (V.Shared × V.Shared)} (hop : op.Regular)
    (h : JointOutcome op prepared exchanged prepared' exchanged')
    (howing : Owing zs pairs (exchanged ++ prepared)) :
    ∃ zs', (∀ i, collectProduct (zs.map (· i)) (op.parties i) = zs'.map (· i)) ∧
      Owing zs' (collectPair pairs op) (exchanged' ++ prepared') := by
  obtain ⟨finished, left, rfl, hfinished, hleft⟩ := howing
  have hkeep (hstep : op.step ≠ .init) (hnone : ∀ i, (op.parties i).value? = none) (i : Fin n) :
      collectProduct (zs.map (· i)) (op.parties i) = zs.map (· i) := by
    rw [collectProduct, hop.step, hnone]
    cases hcases : op.step with
    | init => exact absurd hcases hstep
    | prepare x y => exact List.append_nil _
    | exchange => exact List.append_nil _
    | finalize => exact List.append_nil _
  cases h with
  | forgotten hstep =>
    refine ⟨[], fun i => ?_, [], [], ?_, .nil, .nil⟩
    · rw [collectProduct, hop.step, hstep]
      rfl
    · rw [collectPair, hstep]
      rfl
  | @prepared _ x y p hstep hok hx hy =>
    refine ⟨zs, hkeep (by simp [hstep]) fun i => Operation.value?_of_ok (hok i), finished,
      left ++ [(x, y)], ?_, hfinished, ?_⟩
    · rw [collectPair, hstep]
      dsimp only
      rw [if_pos fun i => by rw [hok]; rfl, List.append_assoc]
    · rw [← List.append_assoc]
      exact List.rel_append hleft (.cons ⟨hx, hy⟩ .nil)
  | exhausted hstep herror =>
    refine ⟨zs, hkeep (by simp [hstep]) fun i => Operation.value?_of_error (herror i), finished, left,
      ?_, hfinished, hleft⟩
    obtain ⟨e, he⟩ := herror ⟨0, hn⟩
    rw [collectPair, hstep]
    exact if_neg fun hok => by simpa [he, Except.isOk, Except.toBool] using hok ⟨0, hn⟩
  | exchanged hstep hok =>
    refine ⟨zs, hkeep (by simp [hstep]) fun i => Operation.value?_of_ok (hok i), finished, left,
      ?_, hfinished, ?_⟩
    · rw [collectPair, hstep]
    · rw [List.append_nil]
      exact hleft
  | refused hstep herror =>
    refine ⟨zs, hkeep (by simp [hstep]) fun i => Operation.value?_of_error (herror i), finished, left,
      ?_, hfinished, hleft⟩
    rw [collectPair, hstep]
  | finished z hstep hok hz =>
    obtain ⟨pair, left, ⟨hx, hy⟩, hrest, rfl⟩ := List.forall₂_cons_left_iff.1 hleft
    refine ⟨zs ++ [z], fun i => ?_, finished ++ [pair], left, ?_,
      List.rel_append hfinished (.cons ?_ .nil), hrest⟩
    · rw [collectProduct, hop.step, hstep, Operation.value?_of_ok (hok i), List.map_append]
      rfl
    · rw [collectPair, hstep, List.append_assoc]
      rfl
    · rwa [hx, hy] at hz
  | idle hstep herror =>
    refine ⟨zs, hkeep (by simp [hstep]) fun i => Operation.value?_of_error (herror i), finished, left,
      ?_, hfinished, hleft⟩
    rw [collectPair, hstep]

/-- A run of all parties keeps the multiplications under way aligned, and products are owed to the
pairs in the order of their preparation. -/
theorem Tracks.run [LawfulRing R] {J : JointOpening O n} (hretries : Opener.Retries O) (hn : 0 < n)
    {s final : Fin n → O × Multiplier S R K} {run : List (JointOperation J.toSharing)} {count : Nat}
    {prepared exchanged : List J.toSharing.Masking} {zs : List (Fin n → S)}
    {pairs : List (J.toSharing.Shared × J.toSharing.Shared)}
    (h : Tracks J s count prepared exchanged) (howing : Owing zs pairs (exchanged ++ prepared))
    (hrun : JointRun J.toSharing s run final) :
    ∃ count' prepared' exchanged' zs', Tracks J final count' prepared' exchanged' ∧
      (∀ i, (run.map (·.parties i)).foldl collectProduct (zs.map (· i)) = zs'.map (· i)) ∧
      Owing zs' (run.foldl collectPair pairs) (exchanged' ++ prepared') := by
  obtain ⟨hregular, hhistory, hdelivered⟩ := hrun
  replace hdelivered (i j : Fin n) (hij : i ≠ j) :=
    hdelivered i (Finset.mem_univ i) j (Finset.mem_univ j) hij
  induction run generalizing s count prepared exchanged zs pairs with
  | nil =>
    obtain rfl : final = s := funext fun i => (hhistory i).of_nil
    exact ⟨count, prepared, exchanged, zs, h, fun _ => rfl, howing⟩
  | cons op run ih =>
    choose s₁ hfirst hrest using fun i => (hhistory i).of_cons
    simp only [List.map_cons, traffic_cons] at hdelivered
    have hop := hregular op List.mem_cons_self
    obtain ⟨⟨count₁, prepared₁, exchanged₁, houtcome, h₁⟩, hlater⟩ :=
      h.step hretries hop hfirst hdelivered
    obtain ⟨zs₁, hzs₁, howing₁⟩ := houtcome.owing hn hop howing
    simp only [List.map_cons, List.foldl_cons, hzs₁]
    exact ih h₁ howing₁ (fun op' hop' => hregular op' (List.mem_cons_of_mem _ hop')) hrest hlater

/-- The contract of multipliers. Let all parties start with openers of one scheme and with supplies of
valid triples, and carry out the same operations over channels that deliver in order, where some
exchanges may be refused before anything is sent. Then the products that they hand out are valid
sharings of the products of the pairs, in the order in which those were prepared, and everything else
that was prepared is still under way. Moreover, whatever the network and the opener of one party do,
its multiplier has a triple for everything that is masked or opened, and no others unless an opened
value was refused in an exchange; so an exchanged multiplication never lacks its triple, and a misuse
changes nothing. -/
theorem products_valid {X : Suite} {n : Nat} {openers : Fin n → X.O} {V : Sharing X.S n}
    (hfresh : X.FreshOpeners openers V) :
    (∀ (supply : Fin n → Supply X.S X.R X.K) (count : Nat) (run : List (JointOperation V))
        (final : Fin n → X.O × Multiplier X.S X.R X.K), V.Stocked supply count →
      JointRun V (fun i => (openers i, create (supply i))) run final →
      ∃ zs : List (Fin n → X.S), (∀ i, products (run.map (·.parties i)) = zs.map (· i)) ∧
        List.Forall₂ (fun z (p : V.Shared × V.Shared) => V.Valid z (p.1.value * p.2.value)) zs
          ((preparedPairs run).take zs.length) ∧
        ∀ i, zs.length + (final i).2.opened.length + (final i).2.masked.length =
          (preparedPairs run).length) ∧
    ∀ (o : X.O) (supply : Supply X.S X.R X.K)
        (ops : List (Operation (MultiplierStep X.S) (Option X.S)))
        (s : X.O × Multiplier X.S X.R X.K),
      History MultiplierStep.act (o, create supply) ops s →
      s.2.Enough ∧
        (s.2.Exact ∨ ∃ before op after s₁, ops = before ++ op :: after ∧
          History MultiplierStep.act (o, create supply) before s₁ ∧ TakingFailed s₁ op ∧
          ∀ op' ∈ after, op'.step ≠ .init) ∧
        ∀ o' : X.O, (Multiplier.finalize o' s.2).1 ≠ .error (.misuse .nothingPrepared) ∧
          ∀ u, (Multiplier.finalize o' s.2).1 = .error (.misuse u) →
            (Multiplier.finalize o' s.2).2 = s.2 := by
  refine ⟨fun supply count run final hstocked hrun => ?_, fun o supply ops s hhistory => ?_⟩
  · obtain ⟨hn, hlawful, hretries, J, rfl, hholds⟩ := hfresh.exists_joint
    have hstart : Tracks J (fun i => (openers i, create (supply i))) count [] [] :=
      ⟨⟨[], [], hholds⟩, .create hstocked⟩
    have howing : Owing ([] : List (Fin n → X.S)) ([] : List (J.toSharing.Shared × J.toSharing.Shared))
        [] := ⟨[], [], rfl, .nil, .nil⟩
    obtain ⟨_, prepared, exchanged, zs, htracks, hproducts, finished, left, hpairs, hfinished,
      hleft⟩ := hstart.run hretries hn howing hrun
    have hlength := hfinished.length_eq
    have hpairs' : preparedPairs run = finished ++ left := hpairs
    refine ⟨zs, hproducts, ?_, fun i => ?_⟩
    · rwa [hpairs', hlength, List.take_left]
    · rw [hpairs', List.length_append, ← hlength, ← hleft.length_eq, List.length_append,
        ← Queue.length_toList, htracks.multipliers.opened, ← Queue.length_toList,
        htracks.multipliers.masked, List.length_map, List.length_map, Nat.add_assoc]
  · obtain ⟨henough, hexact⟩ := enough_of_history hhistory
    refine ⟨henough, hexact, fun o' => ?_⟩
    obtain ⟨-, hfinalize⟩ | ⟨z, opened, triples, hfinalize, -⟩ := henough.finalize o'
    · rw [hfinalize]
      exact ⟨by simp, fun _ _ => rfl⟩
    · rw [hfinalize]
      exact ⟨by simp, by simp⟩

section Example

/-- A public value as a shared one. -/
private def publicly (v : Word64) : (ReplicatedShare.sharing (R := Word64)).Shared :=
  ⟨fun i => ReplicatedShare.constant v i, v, ReplicatedShare.valid_constant v⟩

/-- A network that refuses everything. -/
private def refusing : Fin 3 → Answers := fun _ _ _ => .error (.receive 0)

/-- A network on which the party after the first one gets some values, and the others as many
zeros. -/
private def passing (values : List Word64) : Fin 3 → Answers := fun i _ c =>
  match c with
  | .send .. => .ok ()
  | .receive _ => .ok []
  | .broadcast payload => .ok [payload]
  | .pass .. => .ok (encodeValues (values.map fun v => if i.val = 1 then v else 0))

/-- Two multiplications are prepared, one before and one after an exchange that is refused at first,
and one of them is finished. -/
private def fiveTimesSeven :
    List (MultiplierStep (ReplicatedShare.sharing (R := Word64)).Shared × Bool × (Fin 3 → Answers)) :=
  [(.prepare (publicly ⟨5⟩) (publicly ⟨7⟩), false, refusing), (.exchange, true, refusing),
    (.exchange, false, passing [⟨5⟩, ⟨7⟩]),
    (.prepare (publicly ⟨2⟩) (publicly ⟨3⟩), false, refusing), (.finalize, false, refusing)]

/-- A supply of two triples of zeros. -/
private def zeroSupply : Supply (ReplicatedShare Word64) Word64 Unit :=
  ⟨3, 0, (), [⟨0, 0, 0⟩, ⟨0, 0, 0⟩], [], [], []⟩

private def threeMultipliers (i : Fin 3) :
    ReplicatedOpener Word64 × Multiplier (ReplicatedShare Word64) Word64 Unit :=
  (.create i .semiHonest, create zeroSupply)

private def fiveTimesSevenRun : List (JointOperation (ReplicatedShare.sharing (R := Word64))) :=
  (JointRun.carryOut fiveTimesSeven threeMultipliers).1

/-- The product that is handed out belongs to the first pair. -/
theorem products_valid_fiveTimesSeven : ∃ z : Fin 3 → ReplicatedShare Word64,
    (∀ i, products (fiveTimesSevenRun.map (·.parties i)) = [z i]) ∧
      ReplicatedShare.Valid z ⟨35⟩ := by
  have hstocked : (ReplicatedShare.sharing (R := Word64)).Stocked (fun _ => zeroSupply) 2 := by
    refine ⟨List.replicate 2 fun _ => ⟨0, 0, 0⟩, rfl, fun t ht => ?_, fun _ => rfl⟩
    obtain rfl := List.eq_of_mem_replicate ht
    exact ⟨0, 0, Sharing.zero _, Sharing.zero _, Sharing.zero _⟩
  have hrun := JointRun.of_carryOut fiveTimesSeven threeMultipliers (by decide +kernel)
    (by decide +kernel)
  obtain ⟨zs, hzs, hvalid, -⟩ := (products_valid (.replicated Word64 .semiHonest)).1 _ _ _ _
    hstocked hrun
  have hone : zs.length = 1 := by
    rw [← List.length_map, ← hzs 0]
    decide +kernel
  obtain ⟨z, rfl⟩ := List.length_eq_one_iff.1 hone
  obtain ⟨p, hp, hvalue⟩ : ∃ p, (preparedPairs fiveTimesSevenRun).take 1 = [p] ∧
      p.1.value * p.2.value = ⟨35⟩ := List.map_eq_singleton_iff.1 (by decide +kernel)
  have hproducts : List.Forall₂ (fun z p => ReplicatedShare.Valid z (p.1.value * p.2.value)) [z]
      ((preparedPairs fiveTimesSevenRun).take 1) := hvalid
  rw [hp] at hproducts
  refine ⟨z, hzs, ?_⟩
  rw [← hvalue]
  exact (List.forall₂_cons.1 hproducts).1

end Example

end Multiplier

end Multiparty
