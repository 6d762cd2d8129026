import Multiparty.Proofs.Circuit.Polling
import Multiparty.Proofs.Opening.Stalls
import Multiparty.Ring.Mersenne
import Multiparty.Scheduler

/-!
# Running circuits one after another

Between two circuits nothing is requested, and every answer of the last round has been claimed. This
is so from the beginning, and every run leaves it so, even one in which a round has failed. Hence a
poll finds the answers to the requests of the poll before, and nothing else, and every round serves
what a whole round of the schedule of the circuit asks for.

## Main definitions

* `RoundBuffer.Offers`, `Buffers.Offers`: the answers that may be claimed between two polls.
* `Processor.Serves`: a processor has served some rounds.
* `Scheduler.Reachable`: schedulers with any past.
* `Scheduler.Outcome`: how a circuit is carried through, or how far it was carried.

## Main results

* `Scheduler.outcome_of_offers`: a run of a circuit that waits for the answers at hand.
* `Scheduler.Reachable.offers`: no past leaves anything behind.
* `Scheduler.run_outcome`: runs of circuits on schedulers with any past.
-/

namespace Multiparty

open Multiparty.Action (Ensures Runs)

/-! ### Between two rounds -/

namespace RoundBuffer

variable {T A : Type} {b b' : RoundBuffer T A} {as : List A} {queued : List T}

/-- No request is queued, and exactly these answers have yet to be claimed. -/
structure Offers (b : RoundBuffer T A) (as : List A) : Prop where
  requests : b.requests = #[]
  bound : b.nextClaim ≤ b.answers.size
  unclaimed : b.unclaimed = as.map some

theorem offers_create : (create : RoundBuffer T A).Offers [] := ⟨rfl, Nat.le_refl _, rfl⟩

namespace Offers

/-- Once all answers are claimed, none is left. -/
theorem nextClaim_eq (h : b.Offers as) (hmoves : b.Moves b' as queued) :
    b'.nextClaim = b'.answers.size := by
  have hlen : as.length = b.answers.size - b.nextClaim := by
    rw [← List.length_map, ← h.unclaimed, RoundBuffer.unclaimed, List.length_drop,
      Array.length_toList]
  rw [hmoves.nextClaim, hmoves.size, hlen]
  exact Nat.add_sub_cancel' h.bound

theorem take (h : b.Offers as) (hmoves : b.Moves b' as queued) : b'.take.2.Offers [] where
  requests := rfl
  bound := (h.nextClaim_eq hmoves).le
  unclaimed := List.drop_of_length_le (h.nextClaim_eq hmoves).ge

theorem take_fst (h : b.Offers as) (hmoves : b.Moves b' as queued) : b'.take.1 = queued := by
  rw [RoundBuffer.take, hmoves.requests, h.requests]
  rfl

/-- The answers to what was queued are at hand for the next poll. -/
theorem resolve (h : b.Offers as) (hmoves : b.Moves b' as queued) (answers : List A) :
    ∃ b'', b'.take.2.resolve answers = (.ok (), b'') ∧ b''.Offers answers ∧
      b''.nextTicket = b.freshTicket := by
  refine ⟨_, if_neg (not_not_intro (h.nextClaim_eq hmoves)), ⟨rfl, Nat.zero_le _, ?_⟩, ?_⟩
  · simp [RoundBuffer.unclaimed]
  · simp [nextTicket, freshTicket, RoundBuffer.take, hmoves.round, h.requests]

/-- A poll that queues nothing leaves nothing behind. -/
theorem settled (h : b.Offers as) (hmoves : b.Moves b' as []) : b'.Offers [] where
  requests := by
    rw [← Array.toList_inj, hmoves.requests, h.requests]
    rfl
  bound := (h.nextClaim_eq hmoves).le
  unclaimed := List.drop_of_length_le (h.nextClaim_eq hmoves).ge

end Offers

end RoundBuffer

namespace Buffers

variable {S R : Type} {b b' : Buffers S R} {ps : List S} {vs : List R} {muls : List (S × S)}
  {opens : List S}

/-- No request is queued, and exactly these products and values have yet to be claimed. -/
structure Offers (b : Buffers S R) (ps : List S) (vs : List R) : Prop where
  muls : b.muls.Offers ps
  opens : b.opens.Offers vs

theorem offers_create : (create : Buffers S R).Offers [] [] :=
  ⟨RoundBuffer.offers_create, RoundBuffer.offers_create⟩

namespace Offers

theorem take_fst (h : b.Offers ps vs) (hmuls : b.muls.Moves b'.muls ps muls)
    (hopens : b.opens.Moves b'.opens vs opens) : b'.take.1 = (muls, opens) :=
  Prod.ext (h.muls.take_fst hmuls) (h.opens.take_fst hopens)

theorem take (h : b.Offers ps vs) (hmuls : b.muls.Moves b'.muls ps muls)
    (hopens : b.opens.Moves b'.opens vs opens) : b'.take.2.Offers [] [] :=
  ⟨h.muls.take hmuls, h.opens.take hopens⟩

theorem pending_eq_zero (h : b.Offers ps vs) : b.pending = 0 := by
  rw [Buffers.pending, h.muls.requests, h.opens.requests]
  rfl

/-- What is queued counts. -/
theorem pending (h : b.Offers ps vs) (hmuls : b.muls.Moves b'.muls ps muls)
    (hopens : b.opens.Moves b'.opens vs opens) : b'.pending = muls.length + opens.length := by
  rw [Buffers.pending, ← Array.length_toList, ← Array.length_toList]
  exact congrArg₂ (·.length + ·.length) (h.muls.take_fst hmuls) (h.opens.take_fst hopens)

theorem pending_ne_zero (h : b.Offers ps vs) (hmuls : b.muls.Moves b'.muls ps muls)
    (hopens : b.opens.Moves b'.opens vs opens) (hsome : muls ≠ [] ∨ opens ≠ []) : b'.pending ≠ 0 := by
  rw [h.pending hmuls hopens]
  simpa only [ne_eq, Nat.add_eq_zero_iff, List.length_eq_zero_iff, not_and_or] using hsome

theorem resolve (h : b.Offers ps vs) (hmuls : b.muls.Moves b'.muls ps muls)
    (hopens : b.opens.Moves b'.opens vs opens) (ps' : List S) (vs' : List R) :
    ∃ b'', b'.take.2.resolve ps' vs' = (.ok (), b'') ∧ b''.Offers ps' vs' ∧
      b''.muls.nextTicket = b.muls.freshTicket ∧ b''.opens.nextTicket = b.opens.freshTicket := by
  obtain ⟨m, hresolve, hoffers, hticket⟩ := h.muls.resolve hmuls ps'
  obtain ⟨o, hresolve', hoffers', hticket'⟩ := h.opens.resolve hopens vs'
  refine ⟨⟨m, o⟩, ?_, ⟨hoffers, hoffers'⟩, hticket, hticket'⟩
  rw [Buffers.resolve]
  change b'.take.2.muls.resolve ps' = _ at hresolve
  change b'.take.2.opens.resolve vs' = _ at hresolve'
  simp only [hresolve, hresolve']

variable {α : Type} {f f' c : Future S R α}

/-- A poll of a circuit that waits for the answers at hand claims all of them. -/
theorem poll (h : b.Offers ps vs) (hf : f.Resumes b.muls.nextTicket b.opens.nextTicket ps vs c) :
    ∃ f' b' muls opens, f.poll b = (.ok f', b') ∧ b.muls.Moves b'.muls ps muls ∧
      b.opens.Moves b'.opens vs opens ∧
      Future.Polled b.muls.freshTicket b.opens.freshTicket c muls opens f' :=
  hf.poll (h.muls.unclaimed.trans (List.append_nil _).symm)
    (h.opens.unclaimed.trans (List.append_nil _).symm)

/-- A circuit that has to wait after a poll has gone on. -/
theorem later (h : b.Offers ps vs) (hmuls : b.muls.Moves b'.muls ps muls)
    (hopens : b.opens.Moves b'.opens vs opens) (hpoll : f.poll b = (.ok f', b'))
    (hsome : muls ≠ [] ∨ opens ≠ []) : Future.Later f' f :=
  (Future.poll_progress hpoll).resolve_right fun hstays =>
    h.pending_ne_zero hmuls hopens hsome (hstays.2.trans h.pending_eq_zero)

end Offers

end Buffers

/-! ### One round -/

namespace Action

variable {σ α β : Type} {seat : Seat} {s : σ}

/-- The results of an action are those of its last part. -/
private theorem ensures_last {m : Action σ α} {f : α → Action σ β} {P : β → Prop}
    (h : ∀ a s, Ensures (f a) seat s fun _ _ r => ∀ b, r = .ok b → P b) :
    Ensures (m >>= f) seat s fun _ _ r => ∀ b, r = .ok b → P b := by
  refine Ensures.bind fun answers => ?_
  dsimp only
  split
  · exact h _ _
  · exact nofun

end Action

namespace Attempt

variable {σ α : Type} {f : Attempt σ α}

/-- There are as many results as times. -/
private theorem length_times {n : Nat} {s : σ} {as : List α} (h : (times f n s).1 = .ok as) :
    as.length = n :=
  (of_times (fun _ => True) (fun _ _ _ _ => trivial) trivial h).2

end Attempt

namespace Processor

variable {O S R K : Type} [Opener O S R] [LinearShare S R K] [CodedRing R]

private theorem length_mulIfAny (muls : List (S × S)) (seat : Seat) (p : Processor O S R K) :
    Ensures (mulIfAny muls) seat p fun _ _ r => ∀ ps, r = .ok ps → ps.length = muls.length := by
  rw [mulIfAny]
  split
  · next hempty =>
    obtain rfl := List.isEmpty_iff.1 hempty
    exact Ensures.pure fun _ h => Except.ok.inj h ▸ rfl
  · exact Action.ensures_last fun _ _ => Action.ensures_last fun _ _ =>
      Action.ensures_last fun _ _ => Ensures.ofAttempt fun _ => Attempt.length_times

omit [LinearShare S R K] [CodedRing R] in
private theorem length_openIfAny (opens : List S) (seat : Seat) (p : Processor O S R K) :
    Ensures (openIfAny opens) seat p fun _ _ r => ∀ vs, r = .ok vs → vs.length = opens.length := by
  rw [openIfAny]
  split
  · next hempty =>
    obtain rfl := List.isEmpty_iff.1 hempty
    exact Ensures.pure fun _ h => Except.ok.inj h ▸ rfl
  · have hbatch : Ensures (Opener.openBatch opens) seat p.opener fun _ _ r =>
        ∀ vs, r = .ok vs → vs.length = opens.length :=
      Action.ensures_last fun _ _ => Action.ensures_last fun _ _ =>
        Ensures.ofAttempt fun _ => Attempt.length_times
    exact Ensures.zoom hbatch

/-- A round that is served has an answer to every request. -/
theorem length_serve (muls : List (S × S)) (opens : List S) (seat : Seat) (p : Processor O S R K) :
    Ensures (serve muls opens) seat p fun _ _ r =>
      ∀ ps vs, r = .ok (ps, vs) → ps.length = muls.length ∧ vs.length = opens.length := by
  refine Ensures.bind ((length_mulIfAny muls seat p).mono ?_)
  rintro _ p' (e | ps) hps
  · exact nofun
  refine Ensures.bind ((length_openIfAny opens seat p').mono ?_)
  rintro _ _ (e | vs) hvs
  · exact nofun
  refine Ensures.pure ?_
  rintro _ _ ⟨⟩
  exact ⟨hps ps rfl, hvs vs rfl⟩

/-- A round does not fail as a circuit that waits for nothing. -/
theorem unstalled_serve (hO : Opener.NeverStalls O) (muls : List (S × S)) (opens : List S) :
    Action.Unstalled (serve muls opens : Action (Processor O S R K) (List S × List R)) := by
  have hmuls : Action.Unstalled (mulIfAny muls : Action (Processor O S R K) (List S)) := by
    rw [mulIfAny]
    split
    · exact .pure []
    · exact hO.mul muls
  have hopens : Action.Unstalled (openIfAny opens : Action (Processor O S R K) (List R)) := by
    rw [openIfAny]
    split
    · exact .pure []
    · exact hO.openShares opens
  exact .bind hmuls fun _ => .bind hopens fun _ => .pure _

/-- The processor has served rounds one after another. Every request of a round has got the answer in
its place. -/
inductive Serves (seat : Seat) : Processor O S R K → List (AnsweredBatch S R) → List Event →
    Processor O S R K → Prop where
  | nil (p : Processor O S R K) : Serves seat p [] [] p
  | cons {p p' p'' : Processor O S R K} {r : AnsweredBatch S R} {rs : List (AnsweredBatch S R)}
      {t t' : List Event}
      (hround : Runs (serve (r.muls.map (·.1)) (r.opens.map (·.1))) seat p t p'
        (.ok (r.muls.map (·.2), r.opens.map (·.2))))
      (hrest : Serves seat p' rs t' p'') : Serves seat p (r :: rs) (t ++ t') p''

end Processor

/-! ### Whole circuits -/

namespace Scheduler

variable {O S R K α : Type} [Opener O S R] [LinearShare S R K] [CodedRing R]

section Poll

variable {f f' : Future S R α} {seat : Seat} {x : Scheduler O S R K} {b : Buffers S R}

/-- A circuit that becomes ready is over. -/
theorem run_of_ready {a : α} (hpoll : f.poll x.buffers = (.ok (.ready a), b)) :
    run f seat x = .done { x with buffers := b } (.ok a) := by
  rw [run]
  split
  · next h =>
    rw [hpoll] at h
    cases h
  · next h =>
    rw [hpoll] at h
    cases h
    rfl
  · next hready h =>
    rw [hpoll] at h
    cases h
    exact (hready _ rfl).elim

/-- A circuit that waits is polled again after a round. -/
theorem run_of_waits (hpoll : f.poll x.buffers = (.ok f', b)) (hwaits : ∀ a, f' ≠ .ready a)
    (hpending : b.pending ≠ 0) : run f seat x =
      (((Processor.serve b.take.1.1 b.take.1.2).run seat x.processor).mapState fun p =>
        ⟨p, b.take.2, x.rounds⟩).bind fun x' served =>
          match served with
          | .error e => .done x' (.error (.protocol e))
          | .ok (products, values) =>
            match b.take.2.resolve products values with
            | (.error e, b') => .done { x' with buffers := b' } (.error e)
            | (.ok (), b') => run f' seat ⟨x'.processor, b', x.rounds + 1⟩ := by
  rw [run]
  split
  · next h =>
    rw [hpoll] at h
    cases h
  · next a b' h =>
    rw [hpoll] at h
    cases h
    exact (hwaits a rfl).elim
  · next hready h =>
    rw [hpoll] at h
    cases h
    rw [dif_neg hpending]
    congr 1
    funext x' served
    cases served with
    | error e => rfl
    | ok answers =>
      dsimp only
      split <;> next h => rw [h]

end Poll

/-- How a run goes on a circuit with a certain trace and result, the calls on the network, the
scheduler in the end and the outcome. -/
inductive Outcome (seat : Seat) (x : Scheduler O S R K) (trace : AnsweredTrace S R) (a : α) :
    List Event → Scheduler O S R K → Except CircuitFault α → Prop where
  /-- All rounds of the schedule are served, and no others. -/
  | finished {t : List Event} {x' : Scheduler O S R K}
      (hserves : Processor.Serves seat x.processor trace.schedule t x'.processor)
      (hrounds : x'.rounds = x.rounds + trace.schedule.length) :
      Outcome seat x trace a t x' (.ok a)
  /-- Some rounds of the schedule are served, and the next one fails. -/
  | failed {t t' : List Event} {p : Processor O S R K} {x' : Scheduler O S R K}
      {before after : List (AnsweredBatch S R)} {r : AnsweredBatch S R} {e : ProtocolError}
      (hschedule : trace.schedule = before ++ r :: after)
      (hserves : Processor.Serves seat x.processor before t p)
      (hfails : Runs (Processor.serve (r.muls.map (·.1)) (r.opens.map (·.1))) seat p t' x'.processor
        (.error e))
      (hstalls : e ≠ .misuse .stalled) (hrounds : x'.rounds = x.rounds + before.length) :
      Outcome seat x trace a (t ++ t') x' (.error (.protocol e))

/-- A round was served before all others. -/
private theorem Outcome.cons {seat : Seat} {x x' : Scheduler O S R K} {p : Processor O S R K}
    {b : Buffers S R} {trace rest : AnsweredTrace S R} {a : α} {r : AnsweredBatch S R}
    {t t' : List Event} {result : Except CircuitFault α}
    (h : Outcome seat ⟨p, b, x.rounds + 1⟩ rest a t' x' result)
    (hround : Runs (Processor.serve (r.muls.map (·.1)) (r.opens.map (·.1))) seat x.processor t p
      (.ok (r.muls.map (·.2), r.opens.map (·.2))))
    (hschedule : trace.schedule = r :: rest.schedule) :
    Outcome seat x trace a (t ++ t') x' result := by
  cases h with
  | finished hserves hrounds =>
    refine .finished (hschedule ▸ .cons hround hserves) ?_
    rw [hrounds, hschedule, List.length_cons, Nat.add_assoc, Nat.add_comm 1]
  | failed hrest hserves hfails hstalls hrounds =>
    rw [← List.append_assoc]
    rw [hrest, ← List.cons_append] at hschedule
    refine .failed hschedule (.cons hround hserves) hfails hstalls ?_
    rw [hrounds, List.length_cons, Nat.add_assoc, Nat.add_comm 1]

/-- A run of a circuit that waits for the answers at hand. -/
theorem outcome_of_offers (hO : Opener.NeverStalls O) {f c : Future S R α} {x : Scheduler O S R K}
    {ps : List S} {vs : List R} (hx : x.buffers.Offers ps vs)
    (hf : f.Resumes x.buffers.muls.nextTicket x.buffers.opens.nextTicket ps vs c) (seat : Seat)
    (answers : Answers) :
    ((run f seat x).under answers).1.buffers.Offers [] [] ∧
      ∃ trace a, c.Executes trace a ∧
        Outcome seat x trace a ((run f seat x).transcript answers)
          ((run f seat x).under answers).1 ((run f seat x).under answers).2 := by
  induction f using Future.wellFounded_step.transGen.induction generalizing x ps vs c answers with
  | _ f ih =>
  obtain ⟨f', b, muls, opens, hpoll, hmuls, hopens, hpolled⟩ := hx.poll hf
  by_cases hready : ∃ a, f' = .ready a
  · obtain ⟨a, rfl⟩ := hready
    obtain ⟨rfl, rfl⟩ := hpolled.eq_nil_of_ready
    obtain ⟨trace, he, -, hnone⟩ :=
      hpolled.executes (.ready (t := ⟨0, 0⟩) (u := ⟨0, 0⟩) a) (.ready a)
    rw [run_of_ready hpoll]
    refine ⟨⟨hx.muls.settled hmuls, hx.opens.settled hopens⟩, trace, a, he, .finished ?_ ?_⟩
    · rw [hnone a rfl]
      exact .nil _
    · rw [hnone a rfl]
      rfl
  have hwaits (a : α) : f' ≠ .ready a := fun h => hready ⟨a, h⟩
  have hsome := hpolled.ne_nil_of_waits hwaits
  have hpending := hx.pending_ne_zero hmuls hopens hsome
  rw [run_of_waits hpoll hwaits hpending, hx.take_fst hmuls hopens, Session.under_bind,
    Session.transcript_bind, Session.under_mapState, Session.transcript_mapState]
  have hlength := Processor.length_serve muls opens seat x.processor answers
  have hstalls := Processor.unstalled_serve hO muls opens seat x.processor answers
  have hruns : Runs (Processor.serve muls opens) seat x.processor _ _ _ := ⟨answers, rfl, rfl⟩
  generalize ((Processor.serve muls opens).run seat x.processor).under answers = out at *
  obtain ⟨p, e | ⟨ps', vs'⟩⟩ := out
  · refine ⟨hx.take hmuls hopens, ?_⟩
    -- The rest of the schedule does not matter, so the requests may have any answers.
    have : Inhabited S := ⟨0⟩
    have : Inhabited R := ⟨0⟩
    let ps' : List S := List.replicate muls.length default
    let vs' : List R := List.replicate opens.length default
    have hps' : ps'.length = muls.length := List.length_replicate
    have hvs' : vs'.length = opens.length := List.length_replicate
    obtain ⟨d, hd⟩ := hpolled.resumes hf.plain hps' hvs'
    obtain ⟨rest, a, he⟩ := hd.plain.exists_executes
    obtain ⟨trace, hexecutes, hschedule, -⟩ := hpolled.executes hd he
    have hfirst : trace.schedule = [] ++ ⟨muls.zip ps', opens.zip vs'⟩ :: rest.schedule :=
      hschedule hwaits
    rw [Session.transcript_done, List.append_nil, ← List.nil_append (Session.transcript _ _)]
    refine ⟨trace, a, hexecutes, .failed hfirst (.nil _) ?_
      (fun he => hstalls (congrArg Except.error he)) rfl⟩
    rw [List.map_fst_zip hps'.ge, List.map_fst_zip hvs'.ge]
    exact hruns
  · obtain ⟨hps', hvs'⟩ := hlength ps' vs' rfl
    obtain ⟨b', hresolve, hoffers, ht, hu⟩ := hx.resolve hmuls hopens ps' vs'
    obtain ⟨d, hd⟩ := hpolled.resumes hf.plain hps' hvs'
    rw [← ht, ← hu] at hd
    simp only [hresolve]
    obtain ⟨hoffers', rest, a, he, houtcome⟩ :=
      ih f' (hx.later hmuls hopens hpoll hsome) (x := ⟨p, b', x.rounds + 1⟩) hoffers hd
        (answers.drop _)
    obtain ⟨trace, hexecutes, hschedule, -⟩ := hpolled.executes hd he
    refine ⟨hoffers', trace, a, hexecutes, houtcome.cons ?_ (hschedule hwaits)⟩
    rw [List.map_fst_zip hps'.ge, List.map_fst_zip hvs'.ge, List.map_snd_zip hps'.le,
      List.map_snd_zip hvs'.le]
    exact hruns

/-- Schedulers with any past: circuits have been run, some of them successfully and some not, and the
processor was used in between. -/
inductive Reachable : Scheduler O S R K → Prop where
  | create (p : Processor O S R K) : Reachable (create p)
  | run {α : Type} {x : Scheduler O S R K} (hx : Reachable x) {f : Future S R α} (hf : f.Plain)
      (seat : Seat) (answers : Answers) : Reachable ((run f seat x).under answers).1
  | process {x : Scheduler O S R K} (hx : Reachable x) (p : Processor O S R K) :
      Reachable { x with processor := p }

/-- No past leaves a request or an answer behind. -/
theorem Reachable.offers (hO : Opener.NeverStalls O) {x : Scheduler O S R K} (hx : x.Reachable) :
    x.buffers.Offers [] [] := by
  induction hx with
  | create p => exact Buffers.offers_create
  | run _ hf seat answers ih => exact (outcome_of_offers hO ih (hf.resumes _ _) seat answers).1
  | process _ _ ih => exact ih

/-- Running circuits with any past. However the network answers, a circuit comes to an end, with a
result or with the error of a round that could not be served. Every request has got the answer that
was computed for it, and joined branches have given their results in their order: this is how the
result of the circuit is made. The rounds are those of its schedule, in which the shape of the circuit
alone determines the order of the requests, and there are as many of them as requests along a longest
path. -/
theorem run_outcome (hO : Opener.NeverStalls O) {x : Scheduler O S R K} (hx : x.Reachable)
    {f : Future S R α} (hf : f.Plain) (seat : Seat) (answers : Answers) :
    ∃ trace a, f.Executes trace a ∧
      Outcome seat x trace a ((run f seat x).transcript answers) ((run f seat x).under answers).1
        ((run f seat x).under answers).2 ∧
      trace.schedule.map (Batch.map (some ∘ .inl) (some ∘ .inr)) =
        trace.shape.order.map (Batch.map trace.get? trace.get?) ∧
      IsGreatest {k | ∃ p, trace.IsPath p ∧ p.length = k} trace.schedule.length := by
  obtain ⟨-, trace, a, he, houtcome⟩ :=
    outcome_of_offers hO (hx.offers hO) (hf.resumes _ _) seat answers
  exact ⟨trace, a, he, houtcome, trace.schedule_eq_order, trace.isGreatest_length_schedule⟩

section Example

/-- A share of a small number when there is one party only. -/
private def loneShare (n : UInt64) : ThresholdShare Mersenne61 := ⟨CodedRing.ofWord n⟩

/-- Two products side by side, whose sum is opened. -/
private def sumOfProducts : Future (ThresholdShare Mersenne61) Mersenne61 Mersenne61 :=
  .both (.mul (loneShare 2) (loneShare 3) .ready) (.mul (loneShare 4) (loneShare 5) .ready)
    fun p q => .reveal (p + q) .ready

/-- A single party with four triples of zeros. -/
private def lone : Scheduler (ThresholdOpener Mersenne61) (ThresholdShare Mersenne61) Mersenne61 Unit :=
  create ⟨⟨0, 1, 0, false, [[CodedRing.ofWord 1]], #[], .empty, false⟩,
    .create ⟨1, 0, (), List.replicate 4 ⟨0, 0, 0⟩, [], [], []⟩⟩

/-- All calls fail. -/
private def unanswered : Answers := fun _ _ => .error (.send 0)

/-- The scheduler after a run that is refused because there is another player. -/
private def refused : Scheduler (ThresholdOpener Mersenne61) (ThresholdShare Mersenne61) Mersenne61 Unit :=
  ((run sumOfProducts ⟨0, 2⟩ lone).under unanswered).1

/-- After a run that has failed, three requests take two rounds. -/
theorem run_outcome_sumOfProducts :
    ((run sumOfProducts ⟨0, 2⟩ lone).under unanswered).2 =
      .error (.protocol (.misuse .playerCount)) ∧
    ∃ trace a, sumOfProducts.Executes trace a ∧ trace.schedule.length = 2 ∧
      Outcome ⟨0, 1⟩ refused trace a ((run sumOfProducts ⟨0, 1⟩ refused).transcript unanswered)
        ((run sumOfProducts ⟨0, 1⟩ refused).under unanswered).1
        ((run sumOfProducts ⟨0, 1⟩ refused).under unanswered).2 := by
  have hplain : sumOfProducts.Plain := ⟨fun _ => trivial, fun _ => trivial, fun _ _ _ => trivial⟩
  have hrefused : refused.Reachable := (Reachable.create _).run hplain ⟨0, 2⟩ unanswered
  refine ⟨by unfold run; rfl, ?_⟩
  obtain ⟨trace, a, he, houtcome, -⟩ :=
    run_outcome (ThresholdOpener.neverStalls Mersenne61) hrefused hplain ⟨0, 1⟩ unanswered
  refine ⟨trace, a, he, ?_, houtcome⟩
  cases he with
  | both hfirst hsecond hrest =>
    cases hfirst with
    | mul hfirst =>
      cases hsecond with
      | mul hsecond =>
        cases hrest with
        | reveal hrest =>
          cases hfirst
          cases hsecond
          cases hrest
          rfl

end Example

end Scheduler

end Multiparty
