import Mathlib
import Multiparty.Proofs.History
import Multiparty.Proofs.Opening.MacCheck
import Multiparty.Proofs.Opening.Steps

/-!
# The values that await a check

An opener of authenticated shares records what an exchange has revealed before it decides whether to
check it, and the record outlives the batch: it is neither reset with the batch nor touched by an
operation that fails. A ledger that is kept from the operations and the answers of the network alone
tells what it holds after any history.

## Main definitions

* `MacLedger`, `MacLedger.step`: what is queued, revealed, verified and taken.
* `MacOpener.Exchanged`: the ways in which an exchange may go.

## Main results

* `MacOpener.ensures_exchange`: there are no others.
* `MacOpener.Keeps.step`: an operation changes the opener as it changes the ledger.
* `MacOpener.pending_eq_unverified`: the pending values after any history.
-/

namespace Multiparty

open Multiparty.Action (Ensures Runs)

/-- What is queued and revealed according to a history. Values are named by their places in the
log. -/
structure MacLedger (R : Type) where
  queued : List (MacShare R)
  log : OpeningLog (PendingCheck R)
  /-- Places of the values that are not yet taken. -/
  opened : List Nat
  /-- Places of the values that were taken. -/
  taken : List Nat

namespace MacLedger

variable {R : Type}

/-- Nothing has been done yet. -/
def blank : MacLedger R := ⟨[], .blank, [], []⟩

variable [CodedRing R] (party : Nat)

/-- What an exchange reveals if its payloads can be decoded: every sum of the shares of a value,
with the own share of the authentication code of the share that was queued for it. -/
def revealed (ledger : MacLedger R) (op : Operation (OpenerStep (MacShare R)) (Option R)) :
    List (PendingCheck R) :=
  match op.step, op.calls with
  | .exchange, ⟨.broadcast _, .ok payloads⟩ :: _ =>
    match MacOpener.sumWithPeers party (ledger.queued.map (·.value)) payloads with
    | .ok values => List.zipWith (fun s v => ⟨v, s.mac⟩) ledger.queued values
    | .error _ => []
  | _, _ => []

/-- The ledger after an operation. -/
def step (ledger : MacLedger R) (op : Operation (OpenerStep (MacShare R)) (Option R)) :
    MacLedger R where
  queued :=
    match op.step with
    | .init => []
    | .prepare s => ledger.queued ++ [s]
    | .exchange => if (ledger.revealed party op).isEmpty then ledger.queued else []
    | _ => ledger.queued
  log := ledger.log.advance (ledger.revealed party op) op.passed
  opened :=
    match op.step, op.outcome with
    | .init, _ => []
    | .exchange, _ => ledger.opened ++
        List.range' ledger.log.entries.length (ledger.revealed party op).length
    | .finalize, .ok _ => ledger.opened.tail
    | _, _ => ledger.opened
  taken :=
    match op.step, op.outcome with
    | .finalize, .ok _ => ledger.taken ++ ledger.opened.head?.toList
    | _, _ => ledger.taken

/-- The ledger after a history. -/
def after (ops : List (Operation (OpenerStep (MacShare R)) (Option R))) : MacLedger R :=
  ops.foldl (step party) blank

@[simp] theorem after_append_singleton (ops : List (Operation (OpenerStep (MacShare R)) (Option R)))
    (op : Operation (OpenerStep (MacShare R)) (Option R)) :
    after party (ops ++ [op]) = (after party ops).step party op := by
  rw [after, List.foldl_append]
  rfl

/-- An operation that reveals nothing, verifies nothing and hands out nothing changes nothing, unless
it fills or starts a batch. -/
theorem step_eq_self {ledger : MacLedger R} {op : Operation (OpenerStep (MacShare R)) (Option R)}
    (hmore : ledger.revealed party op = []) (hpassed : op.passed = false)
    (hstep : op.step = .exchange ∨ op.step = .check ∨
      op.step = .finalize ∧ ∃ e, op.outcome = .error e) : ledger.step party op = ledger := by
  have hlog : ledger.log.advance (ledger.revealed party op) op.passed = ledger.log := by
    rw [hmore, hpassed, OpeningLog.advance_nil_false]
  rw [step, hlog, hmore]
  obtain hstep | hstep | ⟨hstep, e, herror⟩ := hstep
  · simp [hstep]
  · simp [hstep]
  · simp [hstep, herror]

/-- An exchange that reveals something empties the batch. -/
theorem step_exchange {ledger : MacLedger R} {op : Operation (OpenerStep (MacShare R)) (Option R)}
    {more : List (PendingCheck R)} (hstep : op.step = .exchange)
    (hmore : ledger.revealed party op = more) (hne : more ≠ []) : ledger.step party op =
      { queued := []
        log := ledger.log.advance more op.passed
        opened := ledger.opened ++ List.range' ledger.log.entries.length more.length
        taken := ledger.taken } := by
  rw [step, hmore]
  simp [hstep, hne]

/-- The log advances with every operation. -/
theorem advances :
    Advances Operation.passed fun ops => (after party ops : MacLedger R).log where
  start := rfl
  next ops op := ⟨_, congrArg log (after_append_singleton party ops op)⟩

end MacLedger

/-- A value is the one revealed at a place of a log. -/
def Reads {R : Type} (log : OpeningLog (PendingCheck R)) (value : R) (place : Nat) : Prop :=
  log.entries[place]?.map (·.value) = some value

namespace Reads

variable {R : Type} {log : OpeningLog (PendingCheck R)} {value : R} {place : Nat}

theorem lt_length (h : Reads log value place) : place < log.entries.length := by
  obtain ⟨entry, hentry, -⟩ := Option.map_eq_some_iff.1 h
  exact (List.getElem?_eq_some_iff.1 hentry).1

/-- What is read from a log stays there. -/
theorem advance (h : Reads log value place) (more : List (PendingCheck R)) (passed : Bool) :
    Reads (log.advance more passed) value place := by
  rw [Reads, OpeningLog.advance, List.getElem?_append_left h.lt_length]
  exact h

theorem lt_length_of_mem {values : List R} {places : List Nat}
    (h : List.Forall₂ (Reads log) values places) : ∀ place ∈ places, place < log.entries.length :=
  ((List.forall₂_and_left _ _).1 (h.flip.imp fun _ _ hread => ⟨Reads.lt_length hread, hread⟩)).1

theorem forall₂_advance {values : List R} {places : List Nat}
    (h : List.Forall₂ (Reads log) values places) (more : List (PendingCheck R)) (passed : Bool) :
    List.Forall₂ (Reads (log.advance more passed)) values places :=
  h.imp fun _ _ hread => hread.advance more passed

/-- More entries are read at the next places. -/
theorem forall₂_range' (log : OpeningLog (PendingCheck R)) (more : List (PendingCheck R))
    (passed : Bool) : List.Forall₂ (Reads (log.advance more passed)) (more.map (·.value))
      (List.range' log.entries.length more.length) := by
  refine List.forall₂_iff_get.2 ⟨by simp, fun k hk hk' => ?_⟩
  rw [List.length_map] at hk
  simp [Reads, OpeningLog.advance, hk]

end Reads

namespace MacOpener

variable {R : Type} [CodedRing R] {seat : Seat} {o o' : MacOpener R} {t : List Event}

/-! ### The outcome of a check -/

private theorem ensures_commitAndOpen {G : Type} [WordSource G] {rng : G} (payload : Bytes) :
    Ensures (commitAndOpen payload) seat rng fun t _ _ => t ≠ [] :=
  Ensures.bind (Ensures.ofAttempt (Ensures.call_bind
    (fun _ _ => List.cons_ne_nil _ _) fun _ => List.cons_ne_nil _ _))

private theorem ensures_sharedSeed {G : Type} [WordSource G] {rng : G} :
    Ensures sharedSeed seat rng fun t _ _ => t ≠ [] := by
  refine Ensures.bind (Ensures.ofAttempt (Ensures.bind ((ensures_commitAndOpen _).mono ?_)))
  rintro t rng (e | contributions) ht
  · exact ht
  · exact fun _ => List.append_ne_nil_of_left_ne_nil ht _

omit [CodedRing R] in
/-- A computation on the generator changes nothing else. -/
private theorem ensures_withRng {α : Type} {m : Action ChaCha α}
    (h : Ensures m seat o.rng fun t _ _ => t ≠ []) :
    Ensures (withRng m) seat o fun t o' _ => t ≠ [] ∧ ∃ rng, o' = { o with rng := rng } :=
  Ensures.zoom (h.mono fun _ rng _ ht => ⟨ht, rng, rfl⟩)

private theorem ensures_checkEach : Ensures checkEach seat o
    fun t o' _ => t ≠ [] ∧ ∃ rng, o' = { o with rng := rng } := by
  refine Ensures.get_bind (Ensures.bind ((ensures_withRng (ensures_commitAndOpen _)).mono ?_))
  rintro t o' (e | payloads) h
  · exact h
  · exact Ensures.ofExcept ⟨List.append_ne_nil_of_left_ne_nil h.1 _, h.2⟩

private theorem ensures_checkCombined : Ensures checkCombined seat o
    fun t o' _ => t ≠ [] ∧ ∃ rng, o' = { o with rng := rng } := by
  refine Ensures.get_bind (Ensures.bind ((ensures_withRng ensures_sharedSeed).mono ?_))
  rintro t o' (e | seed) ⟨ht, rng, rfl⟩
  · exact ⟨ht, rng, rfl⟩
  · refine Ensures.bind ((ensures_withRng (ensures_commitAndOpen _)).mono ?_)
    rintro t' o' (e | payloads) ⟨-, rng, rfl⟩
    · exact ⟨List.append_ne_nil_of_left_ne_nil ht _, rng, rfl⟩
    · exact Ensures.ofExcept ⟨List.append_ne_nil_of_left_ne_nil ht _, rng, rfl⟩

/-- A check forgets the pending values if it succeeds, which takes calls unless there are none. If
it fails, it leaves them, and the opener is poisoned. -/
theorem ensures_check : Ensures check seat o fun t o' r =>
    match r with
    | .ok _ => o.poisoned = false ∧ (o.pending.isEmpty = false → t ≠ []) ∧
        ∃ rng, o' = { o with pending := #[], rng := rng }
    | .error _ => ∃ rng, o' = { o with poisoned := true, rng := rng } := by
  by_cases hpoisoned : o.poisoned = true
  · refine Ensures.get_bind ?_
    dsimp only
    rw [if_pos hpoisoned]
    exact Ensures.throw ⟨o.rng, by rw [← hpoisoned]⟩
  have hfresh : o.poisoned = false := by simpa using hpoisoned
  intro answers
  by_cases hempty : o.pending.isEmpty = true
  · have hnone : o.pending = #[] := by simpa using hempty
    rw [run_check_nil seat o hfresh hempty, Session.under_done]
    exact ⟨hfresh, fun h => absurd h (by simp [hempty]), o.rng, by rw [← hnone]⟩
  have hverdict : Ensures (if o.pending.size < o.smallCheckThreshold then checkEach
      else checkCombined) seat o fun t o' _ => t ≠ [] ∧ ∃ rng, o' = { o with rng := rng } := by
    split
    · exact ensures_checkEach
    · exact ensures_checkCombined
  obtain ⟨ht, rng, ho'⟩ := hverdict answers
  rw [run_check seat o hfresh (by simpa using hempty), Session.transcript_bind, Session.under_bind,
    ho']
  match ((if o.pending.size < o.smallCheckThreshold then checkEach
    else checkCombined).run seat o |>.under answers).2 with
  | .ok true => exact ⟨hfresh, fun _ => List.append_ne_nil_of_left_ne_nil ht _, rng, rfl⟩
  | .ok false => exact ⟨rng, rfl⟩
  | .error e => exact ⟨rng, rfl⟩

/-! ### The outcome of an exchange -/

/-- The ways in which an exchange may go. -/
inductive Exchanged (seat : Seat) (o : MacOpener R) :
    List Event → MacOpener R → Except ProtocolError Unit → Prop where
  /-- The opener is unusable. -/
  | refused : o.poisoned = true → Exchanged seat o [] o (.error .macFail)
  /-- Nothing is queued. -/
  | nothing : o.batch.toList = [] → Exchanged seat o [] o (.ok ())
  /-- The payloads of the others did not arrive or cannot be decoded. -/
  | failed {answer : Except TransportError (List Bytes)} {e : ProtocolError} (payload : Bytes) :
      (∀ payloads values, answer = .ok payloads →
        sumWithPeers o.party (o.batch.toList.map (·.value)) payloads ≠ .ok values) →
      Exchanged seat o [⟨.broadcast payload, answer⟩] o (.error e)
  /-- The values are recorded, and too few await a check. -/
  | deferred {payloads : List Bytes} {values : List R} (payload : Bytes) : o.batch.toList ≠ [] →
      sumWithPeers o.party (o.batch.toList.map (·.value)) payloads = .ok values →
      (record values o).pending.size < o.checkThreshold →
      Exchanged seat o [⟨.broadcast payload, .ok payloads⟩] (record values o) (.ok ())
  /-- The values are recorded, and a check follows. -/
  | checked {payloads : List Bytes} {values : List R} {t : List Event} {o' : MacOpener R}
      {r : Except ProtocolError Unit} (payload : Bytes) : o.batch.toList ≠ [] →
      sumWithPeers o.party (o.batch.toList.map (·.value)) payloads = .ok values →
      o.checkThreshold ≤ (record values o).pending.size →
      Runs check seat (record values o) t o' r →
      Exchanged seat o (⟨.broadcast payload, .ok payloads⟩ :: t) o' r

/-- Whatever the network does, an exchange goes in one of these ways. -/
theorem ensures_exchange : Ensures exchange seat o (Exchanged seat o) := by
  refine Ensures.get_bind ?_
  dsimp only
  by_cases hpoisoned : o.poisoned = true
  · rw [if_pos hpoisoned]
    exact Ensures.throw (.refused hpoisoned)
  rw [if_neg hpoisoned]
  by_cases hempty : o.batch.isEmpty = true
  · rw [if_pos hempty]
    exact Ensures.pure (.nothing (by simpa using hempty))
  rw [if_neg hempty]
  have hqueued : o.batch.toList ≠ [] := by simpa using hempty
  refine Ensures.call_bind (fun payloads => Ensures.ofExcept_bind (fun values hvalues => ?_)
    fun e he => ?_) fun e => .failed _ fun _ _ h => by cases h
  · refine Ensures.bind (Ensures.modify (Ensures.get_bind ?_))
    by_cases hthreshold : (record values o).pending.size ≥ (record values o).checkThreshold
    · rw [if_pos hthreshold]
      exact fun answers => .checked _ hqueued hvalues hthreshold ⟨answers, rfl, rfl⟩
    · rw [if_neg hthreshold]
      exact Ensures.pure (.deferred _ hqueued hvalues (Nat.lt_of_not_le hthreshold))
  · refine .failed _ fun payloads' values h => ?_
    obtain rfl := Except.ok.inj h
    simp [he]

/-! ### The opener and the ledger -/

/-- An opener of a party holds what the ledger tells, and has handed out the given values. -/
structure Keeps (party threshold : Nat) (ledger : MacLedger R) (values : List R)
    (o : MacOpener R) : Prop where
  party : o.party = party
  threshold : o.checkThreshold = threshold
  batch : o.batch.toList = ledger.queued
  pending : o.pending.toList = ledger.log.unverified
  opened : List.Forall₂ (Reads ledger.log) o.opened.toList ledger.opened
  taken : List.Forall₂ (Reads ledger.log) values ledger.taken

variable {party threshold : Nat} {ledger : MacLedger R} {values : List R}
  {op : Operation (OpenerStep (MacShare R)) (Option R)}

/-- If too few payloads arrive or they cannot be decoded, nothing is revealed. -/
private theorem revealed_eq_nil {payload : Bytes} {answer : Except TransportError (List Bytes)}
    (hcalls : op.calls = [⟨.broadcast payload, answer⟩])
    (hanswer : ∀ payloads values, answer = .ok payloads →
      sumWithPeers party (ledger.queued.map (·.value)) payloads ≠ .ok values) :
    ledger.revealed party op = [] := by
  rw [MacLedger.revealed, hcalls]
  cases answer with
  | error e => cases op.step <;> rfl
  | ok payloads =>
    cases hsums : sumWithPeers party (ledger.queued.map (·.value)) payloads with
    | ok values => exact absurd hsums (hanswer payloads values rfl)
    | error e => cases op.step <;> simp [hsums]

omit [CodedRing R] in
/-- As many items are recorded as shares are queued. -/
private theorem recorded_ne_nil {queued : List (MacShare R)} {sums : List R} (hqueued : queued ≠ [])
    (hlength : sums.length = queued.length) :
    List.zipWith (fun s v => (⟨v, s.mac⟩ : PendingCheck R)) queued sums ≠ [] := by
  refine List.ne_nil_of_length_pos ?_
  rw [List.length_zipWith, hlength, Nat.min_self]
  exact List.length_pos_of_ne_nil hqueued

/-- After a batch was recorded, something awaits a check. -/
private theorem pending_record_isEmpty {payloads : List Bytes} {sums : List R}
    (hqueued : o.batch.toList ≠ [])
    (hsums : sumWithPeers o.party (o.batch.toList.map (·.value)) payloads = .ok sums) :
    (record sums o).pending.isEmpty = false := by
  have hlength := (length_of_sumWithPeers hsums).trans (List.length_map _)
  have hne : (record sums o).pending.toList ≠ [] := by
    rw [record, Array.toList_append]
    exact List.append_ne_nil_of_right_ne_nil _ (recorded_ne_nil hqueued hlength)
  simpa using hne

/-- The sums that are recorded are revealed with the authentication shares of the queued shares. -/
private theorem revealed_eq {payload : Bytes} {payloads : List Bytes} {sums : List R}
    {t : List Event} (hstep : op.step = .exchange)
    (hcalls : op.calls = ⟨.broadcast payload, .ok payloads⟩ :: t)
    (hsums : sumWithPeers party (ledger.queued.map (·.value)) payloads = .ok sums) :
    ledger.revealed party op = List.zipWith (fun s v => ⟨v, s.mac⟩) ledger.queued sums := by
  rw [MacLedger.revealed, hstep, hcalls]
  dsimp only
  rw [hsums]

omit [CodedRing R] in
/-- The generator is not in the ledger, nor is whether the opener is usable. -/
private theorem Keeps.with_rest (h : Keeps party threshold ledger values o) (rng : ChaCha)
    (poisoned : Bool) :
    Keeps party threshold ledger values { o with rng := rng, poisoned := poisoned } :=
  { h with }

/-- An operation that reveals nothing, verifies nothing and hands out nothing keeps what is known. -/
private theorem Keeps.of_idle (h : Keeps party threshold ledger values o)
    (hmore : ledger.revealed party op = []) (hpassed : op.passed = false) (hvalue : op.value? = none)
    (hstep : op.step = .exchange ∨ op.step = .check ∨
      op.step = .finalize ∧ ∃ e, op.outcome = .error e) :
    Keeps party threshold (ledger.step party op) (values ++ op.value?.toList) o := by
  rw [MacLedger.step_eq_self party hmore hpassed hstep, hvalue]
  simpa using h

/-- An exchange that reveals something changes the opener as it changes the ledger, if the pending
values are forgotten exactly when a check has passed. -/
private theorem Keeps.of_recorded (h : Keeps party threshold ledger values o)
    (hvalid : ledger.log.Valid) {sums : List R}
    {payload : Bytes} {payloads : List Bytes} {t : List Event} (hstep : op.step = .exchange)
    (hcalls : op.calls = ⟨.broadcast payload, .ok payloads⟩ :: t) (hvalue : op.value? = none)
    (hqueued : o.batch.toList ≠ [])
    (hsums : sumWithPeers o.party (o.batch.toList.map (·.value)) payloads = .ok sums)
    {rng : ChaCha} {poisoned : Bool} {pending : Array (PendingCheck R)}
    (hpending : pending = if op.passed then #[] else (record sums o).pending) :
    Keeps party threshold (ledger.step party op) (values ++ op.value?.toList)
      { record sums o with pending := pending, rng := rng, poisoned := poisoned } := by
  have hlength : sums.length = o.batch.toList.length := by
    rw [length_of_sumWithPeers hsums, List.length_map]
  let more := List.zipWith (fun s v => (⟨v, s.mac⟩ : PendingCheck R)) ledger.queued sums
  have hmore : ledger.revealed party op = more := by
    rw [h.party, h.batch] at hsums
    exact revealed_eq hstep hcalls hsums
  rw [h.batch] at hlength hqueued
  have hne : more ≠ [] := recorded_ne_nil hqueued hlength
  have hvalues : more.map (·.value) = sums := calc
    more.map (·.value) = (ledger.queued.zip sums).map Prod.snd := by
      rw [List.map_zipWith, List.zip, List.map_zipWith]
    _ = sums := List.map_snd_zip hlength.le
  rw [MacLedger.step_exchange party hstep hmore hne, hvalue]
  refine ⟨h.party, h.threshold, rfl, ?_, ?_, ?_⟩
  · rw [hpending]
    cases op.passed with
    | true => exact (OpeningLog.unverified_advance_true more).symm
    | false =>
      rw [hvalid.unverified_advance_false, ← h.pending]
      simp [record, more, h.batch]
  · rw [record, Queue.toList_appendList, ← hvalues]
    exact List.rel_append (Reads.forall₂_advance h.opened more _) (Reads.forall₂_range' _ more _)
  · rw [Option.toList_none, List.append_nil]
    exact Reads.forall₂_advance h.taken more _

private theorem Keeps.step_finalize (h : Keeps party threshold ledger values o) (seat : Seat) :
    let op : Operation (OpenerStep (MacShare R)) (Option R) :=
      ⟨.finalize, seat, [], (finalize o).1.map some⟩
    Keeps party threshold (ledger.step party op) (values ++ op.value?.toList) (finalize o).2 := by
  dsimp only
  rw [finalize]
  by_cases hpoisoned : o.poisoned = true
  · rw [if_pos hpoisoned]
    exact h.of_idle rfl rfl rfl (.inr (.inr ⟨rfl, _, rfl⟩))
  rw [if_neg hpoisoned]
  cases hdequeue : o.opened.dequeue? with
  | none => exact h.of_idle rfl rfl rfl (.inr (.inr ⟨rfl, _, rfl⟩))
  | some next =>
    obtain ⟨v, rest⟩ := next
    have hopened := h.opened
    rw [Queue.toList_of_dequeue? hdequeue] at hopened
    cases hplaces : ledger.opened with
    | nil =>
      rw [hplaces] at hopened
      cases hopened
    | cons place places =>
      rw [hplaces] at hopened
      obtain ⟨hread, hreads⟩ := List.forall₂_cons.1 hopened
      change Keeps party threshold ⟨ledger.queued, ledger.log.advance [] false, ledger.opened.tail,
        ledger.taken ++ ledger.opened.head?.toList⟩ (values ++ [v]) { o with opened := rest }
      rw [OpeningLog.advance_nil_false, hplaces]
      exact { h with
        opened := hreads
        taken := List.rel_append h.taken (.cons hread .nil) }

/-- Whatever the network does, an operation changes the opener as it changes the ledger. -/
theorem Keeps.step (h : Keeps party threshold ledger values o) (hvalid : ledger.log.Valid)
    (hrun : Runs op.step.act op.seat o op.calls o' op.outcome) :
    Keeps party threshold (ledger.step party op) (values ++ op.value?.toList) o' := by
  obtain ⟨step, seat, calls, outcome⟩ := op
  have hlog : ledger.log.advance [] false = ledger.log := OpeningLog.advance_nil_false
  cases step with
  | init =>
    obtain ⟨rfl, rfl, rfl⟩ := OpenerStep.of_runs_init hrun
    change Keeps party threshold ⟨[], ledger.log.advance [] false, [], ledger.taken⟩ (values ++ []) _
    rw [hlog, List.append_nil]
    exact { h with batch := rfl, opened := .nil }
  | prepare s =>
    obtain ⟨rfl, rfl, rfl⟩ := OpenerStep.of_runs_prepare hrun
    change Keeps party threshold ⟨ledger.queued ++ [s], ledger.log.advance [] false, ledger.opened,
      ledger.taken⟩ (values ++ []) _
    rw [hlog, List.append_nil]
    exact { h with batch := by simp [Opener.prepare, h.batch] }
  | exchange =>
    obtain ⟨r, hexchange, rfl⟩ := hrun.of_bind_pure
    cases hexchange.of_ensures ensures_exchange with
    | refused hpoisoned => exact h.of_idle rfl rfl rfl (.inl rfl)
    | nothing hqueued => exact h.of_idle rfl rfl rfl (.inl rfl)
    | failed payload hfailed =>
      rw [h.party, h.batch] at hfailed
      exact h.of_idle (revealed_eq_nil rfl hfailed) rfl rfl (.inl rfl)
    | deferred payload hqueued hsums hthreshold =>
      exact h.of_recorded hvalid rfl rfl rfl hqueued hsums rfl
    | checked payload hqueued hsums hthreshold hcheck =>
      have hchecked := hcheck.of_ensures ensures_check
      cases r with
      | ok _ =>
        obtain ⟨-, hcalls, rng, rfl⟩ := hchecked
        have hmore := hcalls (pending_record_isEmpty hqueued hsums)
        exact h.of_recorded hvalid rfl rfl rfl hqueued hsums (if_pos (decide_eq_true
          (Nat.succ_lt_succ (List.length_pos_of_ne_nil hmore)))).symm
      | error e =>
        obtain ⟨rng, rfl⟩ := hchecked
        exact h.of_recorded hvalid rfl rfl rfl hqueued hsums rfl
  | finalize =>
    obtain ⟨rfl, rfl, rfl⟩ := OpenerStep.of_runs_finalize hrun
    exact h.step_finalize seat
  | check =>
    obtain ⟨r, hcheck, rfl⟩ := hrun.of_bind_pure
    have hchecked := hcheck.of_ensures ensures_check
    cases r with
    | ok _ =>
      obtain ⟨-, -, rng, rfl⟩ := hchecked
      change Keeps party threshold ⟨ledger.queued, ledger.log.advance [] true, ledger.opened,
        ledger.taken⟩ (values ++ []) _
      rw [List.append_nil]
      exact
        { h with
          pending := (OpeningLog.unverified_advance_true []).symm
          opened := Reads.forall₂_advance h.opened _ _
          taken := Reads.forall₂_advance h.taken _ _ }
    | error e =>
      obtain ⟨rng, rfl⟩ := hchecked
      exact (h.with_rest rng true).of_idle rfl rfl rfl (.inr (.inl rfl))

variable {key : R} {config : ProtocolConfig} {rng : ChaCha}
  {ops : List (Operation (OpenerStep (MacShare R)) (Option R))}

/-- Whatever was done with an opener, it holds what the ledger tells. -/
theorem keeps_of_history (h : History OpenerStep.act (create party key config rng) ops o) :
    Keeps party config.checkThreshold (MacLedger.after party ops) (returned ops) o := by
  induction h with
  | start =>
    exact
      { party := rfl
        threshold := rfl
        batch := rfl
        pending := rfl
        opened := .nil
        taken := .nil }
  | next hops hop ih =>
    rw [MacLedger.after_append_singleton, returned_append_singleton]
    exact ih.step ((MacLedger.advances party).valid _) hop

/-- After any history the pending values are exactly those that were revealed and not yet verified.
After an exchange of a batch that succeeds they are too few for a check. -/
theorem pending_eq_unverified (h : History OpenerStep.act (create party key config rng) ops o) :
    o.pending.toList = (MacLedger.after party ops).log.unverified ∧
      ∀ before op, ops = before ++ [op] → op.step = .exchange → op.outcome = .ok none →
        (MacLedger.after party before).queued ≠ [] →
        o.pending.size < max config.checkThreshold 1 := by
  refine ⟨(keeps_of_history h).pending, ?_⟩
  rintro before ⟨_, seat, calls, _⟩ rfl rfl rfl hqueued
  obtain ⟨o₁, hbefore, hrun⟩ := h.of_append_singleton
  obtain ⟨r, hexchange, hr⟩ := hrun.of_bind_pure
  have hkeeps := keeps_of_history hbefore
  cases hexchange.of_ensures ensures_exchange with
  | refused hpoisoned => cases hr
  | nothing hnone =>
    rw [hkeeps.batch] at hnone
    exact absurd hnone hqueued
  | failed payload hfailed => cases hr
  | deferred payload hbatch hsums hthreshold =>
    rw [hkeeps.threshold] at hthreshold
    exact hthreshold.trans_le (Nat.le_max_left _ _)
  | checked payload hbatch hsums hthreshold hcheck =>
    cases r with
    | ok _ =>
      obtain ⟨-, -, rng, rfl⟩ := hcheck.of_ensures ensures_check
      exact Nat.zero_lt_one.trans_le (Nat.le_max_right _ _)
    | error e => cases hr

section Example

/-- A network on which a peer answers every broadcast with the encoding of a number. -/
private def alongside (n : UInt64) : Answers := fun _ c =>
  match c with
  | .send .. => .ok ()
  | .receive _ => .ok []
  | .broadcast payload => .ok [payload, encodeValues [(CodedRing.ofWord n : Mersenne61)]]
  | .pass .. => .ok []

/-- A network on which every call fails. -/
private def silent : Answers := fun _ _ => .error (.receive 1)

private def shareOf (value mac : UInt64) : MacShare Mersenne61 :=
  ⟨CodedRing.ofWord value, CodedRing.ofWord mac⟩

/-- A batch is opened at the second attempt and not taken, one is thrown away, and one is opened. -/
private def threeBatches : List (OpenerStep (MacShare Mersenne61) × Answers) :=
  [(.prepare (shareOf 5 7), silent), (.exchange, silent), (.exchange, alongside 1), (.init, silent),
    (.prepare (shareOf 8 9), silent), (.init, silent), (.prepare (shareOf 2 3), silent),
    (.exchange, alongside 4)]

private def freshOpener : MacOpener Mersenne61 :=
  create 0 (CodedRing.ofWord 1) { checkThreshold := 3 } (.ofWord 0)

theorem pending_eq_unverified_threeBatches :
    let run := History.carryOut OpenerStep.act ⟨0, 2⟩ threeBatches freshOpener
    run.2.pending.toList = [⟨CodedRing.ofWord 6, CodedRing.ofWord 7⟩,
      ⟨CodedRing.ofWord 6, CodedRing.ofWord 3⟩] ∧ run.2.pending.size < 3 := by
  intro run
  have hne : run.1 ≠ [] := List.cons_ne_nil _ _
  obtain ⟨hpending, hsize⟩ := pending_eq_unverified
    (History.of_carryOut OpenerStep.act ⟨0, 2⟩ threeBatches freshOpener)
  refine ⟨?_, hsize _ _ (List.dropLast_append_getLast hne).symm rfl ?_ ?_⟩
  · rw [hpending]
    decide +kernel
  · rfl
  · decide +kernel

end Example

end MacOpener

end Multiparty
