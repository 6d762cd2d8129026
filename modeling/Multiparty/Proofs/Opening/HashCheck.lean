import Mathlib
import Multiparty.Proofs.Opening.Replicated
import Multiparty.Proofs.Opening.Steps

/-!
# Checking openings of replicated shares by a hash

In hash mode the part that an honest party misses is sent by one party only. If that is the one
that deviates, the party may take any values. The other honest party hears its missing parts of an
honest one, so it takes the right values as long as both do the same; and what the two of them have
taken is compared by a check.

## Main definitions

* `ReplicatedOpener.outgoing`: what a party sends in a step.
* `ReplicatedOpener.Tracks`: an opener that is as the ledger tells, up to the values.
* `ReplicatedOpener.Faithful`: the values are those of the ledger, too.

## Main results

* `ReplicatedOpener.ensures_perform`: an operation with an arbitrary network.
* `ReplicatedOpener.exists_of_certify_ok`: the digests of two honest parties at a check.
* `ReplicatedOpener.certify_next_to_deviating`: a passed check certifies the values.
-/

namespace Multiparty

open Multiparty.Action (Ensures Runs)

namespace ReplicatedOpener

variable {R : Type} [CodedRing R]

-- The places on the ring below name this instance, whatever else is imported.
private theorem ring_neZero : NeZero 3 := inferInstance

attribute [local instance] ring_neZero

/-- A sharing with the value that it stands for. -/
abbrev Dealt (R : Type) : Type := (Fin 3 → ReplicatedShare R) × R

/-- What party `i` sends to party `j` in a step if it is still in play. `values` are those that it
has taken since the last check. -/
def outgoing (ledger : OpenerLedger (Dealt R)) (i j : Fin 3) (values : List R) :
    OpenerStep (Dealt R) → List Bytes
  | .exchange => if j = i + 1 ∧ ledger.queued ≠ [] then
      [encodeValues (ledger.queued.map fun x => (x.1 i).own)] else []
  | .check => if values = [] then [] else [Sha3.hash256 (encodeValues values)]
  | _ => []

/-- The opener of party `i` is as the ledger tells, up to the values. It holds the openings
`readings` that are not yet taken, and remembers the values taken since the last check. -/
structure Tracks (i : Fin 3) (ledger : OpenerLedger (Dealt R)) (values readings : List R)
    (o : ReplicatedOpener R) : Prop where
  mode : o.mode = .hash
  fresh : o.poisoned = false
  batch : o.batch.toList = ledger.queued.map (·.1 i)
  received : o.received.toList.map ReplicatedOpening.value? = readings.map some
  unchecked : o.unchecked.toList = values
  opened : readings.length = ledger.opened.length
  taken : values.length = ledger.taken.length

/-- The openings and the values are those of the ledger. -/
structure Faithful (c : Fin 3) (ledger : OpenerLedger (Dealt R)) (values readings : List R) :
    Prop where
  queued : ∀ x ∈ ledger.queued, ReplicatedShare.Consistent c x.1 x.2
  opened : readings = ledger.opened.map Prod.snd
  taken : values = ledger.taken.map Prod.snd

theorem tracks_create (i : Fin 3) :
    Tracks i OpenerLedger.blank [] [] (create i .hash : ReplicatedOpener R) where
  mode := rfl
  fresh := rfl
  batch := rfl
  received := by simp [create]
  unchecked := rfl
  opened := rfl
  taken := rfl

section Operations

variable {i : Fin 3} {o : ReplicatedOpener R} {ledger : OpenerLedger (Dealt R)}
  {values readings : List R}

theorem Tracks.init (h : Tracks i ledger values readings o) :
    Tracks i (ledger.step .init) values [] (Opener.init o) where
  mode := h.mode
  fresh := h.fresh
  batch := rfl
  received := by simp [Opener.init]
  unchecked := h.unchecked
  opened := rfl
  taken := h.taken

theorem Tracks.prepare (h : Tracks i ledger values readings o) (x : Dealt R) :
    Tracks i (ledger.step (.prepare x)) values readings (Opener.prepare (x.1 i) o) where
  mode := h.mode
  fresh := h.fresh
  batch := by simp [Opener.prepare, OpenerLedger.step, h.batch]
  received := h.received
  unchecked := h.unchecked
  opened := h.opened
  taken := h.taken

/-- The values of openings without second copies. -/
private theorem map_value?_openings {batch : List (ReplicatedShare R)} {previous : List R}
    (hlength : previous.length = batch.length) :
    (List.zipWith (fun (s, p) n => (⟨s.sum, p, n⟩ : ReplicatedOpening R)) (batch.zip previous)
      (List.replicate batch.length none)).map ReplicatedOpening.value? =
        (List.zipWith (fun s p => s.sum + p) batch previous).map some := by
  refine List.ext_getElem (by simp [hlength]) fun k hk _ => ?_
  simp [ReplicatedOpening.value?]

theorem Tracks.exchange (h : Tracks i ledger values readings o) {t : List Event} {previous : List R}
    {next : List (Option R)} {o' : ReplicatedOpener R}
    (hexchanged : Exchanged o i t previous next o') :
    Tracks i (ledger.step .exchange) values (readings ++
      List.zipWith (fun x p => (x.1 i).sum + p) ledger.queued previous) o' := by
  have hsize : o.batch.size = ledger.queued.length := by
    rw [← Array.length_toList, h.batch, List.length_map]
  obtain ⟨queue, hrest⟩ := hexchanged.rest
  have hcopies := hexchanged.copies
  rw [if_neg (by simp [h.mode])] at hcopies
  have hlength : previous.length = o.batch.toList.length := hexchanged.length
  have hreceived := hexchanged.queue
  rw [hcopies.1, ← Array.length_toList] at hreceived
  exact
    { mode := by rw [hrest]; exact h.mode
      fresh := by rw [hrest]; exact h.fresh
      batch := by rw [hrest]; rfl
      received := by
        rw [hreceived, List.map_append, h.received, map_value?_openings hlength, ← List.map_append,
          h.batch, List.zipWith_map_left]
      unchecked := by rw [hrest]; exact h.unchecked
      opened := by simp [OpenerLedger.step, h.opened, hexchanged.length, hsize]
      taken := h.taken }

/-- A value is taken only if there is an opening. -/
theorem Tracks.finalize (h : Tracks i ledger values readings o) {v : R}
    (hv : (finalize o).1 = .ok v) : ∃ rest, readings = v :: rest ∧
      Tracks i (ledger.step .finalize) (values ++ [v]) rest (finalize o).2 := by
  cases hreceived : o.received.toList with
  | nil =>
    rw [ReplicatedOpener.finalize, if_neg (by simp [h.fresh]),
      (Queue.dequeue?_eq_none_iff _).2 hreceived] at hv
    cases hv
  | cons opening openings =>
    obtain ⟨queue, hdequeue, hqueue⟩ := Queue.exists_dequeue? hreceived
    have hreadings := h.received
    rw [hreceived, List.map_cons] at hreadings
    obtain ⟨reading, rest, rfl, hvalue, hrest⟩ := List.map_eq_cons_iff.1 hreadings.symm
    obtain ⟨item, items, hitems⟩ : ∃ item items, ledger.opened = item :: items :=
      List.exists_cons_of_length_pos (by rw [← h.opened]; exact Nat.succ_pos _)
    rw [ReplicatedOpening.value?] at hvalue
    split_ifs at hvalue with hagree
    have hfinalize : ReplicatedOpener.finalize o = (.ok reading,
        { o with received := queue, unchecked := o.unchecked.push reading }) := by
      rw [ReplicatedOpener.finalize, if_neg (by simp [h.fresh]), hdequeue]
      dsimp only
      rw [if_neg hagree, if_pos h.mode, Option.some.inj hvalue]
    rw [hfinalize] at hv ⊢
    obtain rfl : reading = v := by simpa using hv
    have hopened := h.opened
    exact ⟨rest, rfl,
      { mode := h.mode
        fresh := h.fresh
        batch := h.batch
        received := by rw [hqueue, hrest]
        unchecked := by simp [h.unchecked]
        opened := by simpa [OpenerLedger.step, hitems] using hopened
        taken := by simp [OpenerLedger.step, hitems, h.taken] }⟩

theorem Tracks.check (h : Tracks i ledger values readings o) :
    Tracks i (ledger.step .check) [] readings { o with unchecked := #[] } where
  mode := h.mode
  fresh := h.fresh
  batch := h.batch
  received := h.received
  unchecked := rfl
  opened := h.opened
  taken := rfl

namespace Faithful

variable {c : Fin 3}

theorem init (h : Faithful c ledger values readings) : Faithful c (ledger.step .init) values [] where
  queued := by simp [OpenerLedger.step]
  opened := rfl
  taken := h.taken

theorem prepare (h : Faithful c ledger values readings) {x : Dealt R}
    (hx : ReplicatedShare.Consistent c x.1 x.2) :
    Faithful c (ledger.step (.prepare x)) values readings where
  queued := List.forall_mem_append.2 ⟨h.queued, List.forall_mem_singleton.2 hx⟩
  opened := h.opened
  taken := h.taken

/-- The parts that the previous party holds complete those of party `c + 2`. -/
theorem exchange [LawfulRing R] (h : Faithful c ledger values readings) :
    Faithful c (ledger.step .exchange) values (readings ++ List.zipWith
      (fun x p => (x.1 (c + 2)).sum + p) ledger.queued (ledger.queued.map fun x => (x.1 (c + 1)).own))
    where
  queued := by simp [OpenerLedger.step]
  opened := by
    rw [OpenerLedger.step, List.map_append, h.opened, List.zipWith_map_right, List.zipWith_self]
    refine congrArg _ (List.map_congr_left fun x hx => ?_)
    have hsum := (h.queued x hx).sum_add_missing (h := c + 2) (by simp)
    rwa [ReplicatedShare.missing, if_neg (by simp)] at hsum
  taken := h.taken

theorem finalize {v : R} {rest : List R} (h : Faithful c ledger values (v :: rest)) :
    Faithful c (ledger.step .finalize) (values ++ [v]) rest := by
  obtain ⟨item, items, hitems, rfl, rfl⟩ := List.map_eq_cons_iff.1 h.opened.symm
  exact
    { queued := h.queued
      opened := by simp [OpenerLedger.step, hitems]
      taken := by simp [OpenerLedger.step, hitems, h.taken] }

theorem check (h : Faithful c ledger values readings) :
    Faithful c (ledger.step .check) [] readings where
  queued := h.queued
  opened := h.opened
  taken := rfl

end Faithful

private theorem allEqual_eq {payloads : List Bytes} (h : allEqual payloads = true) {b b' : Bytes}
    (hb : b ∈ payloads) (hb' : b' ∈ payloads) : b = b' := by
  cases payloads with
  | nil => cases hb
  | cons first rest =>
    have hfirst : ∀ b ∈ first :: rest, b = first := by simpa [allEqual] using h
    rw [hfirst b hb, hfirst b' hb']

/-- A check sends the digest to both of the others, unless there is nothing to check. It passes only
if both of them have sent the same one. -/
theorem Tracks.ensures_check (h : Tracks i ledger values readings o) :
    Ensures ReplicatedOpener.check ⟨i, 3⟩ o fun t o' r =>
    (∀ j ≠ i, sentTo 3 i j t = outgoing ledger i j values .check) ∧
    (r = .ok () → o' = { o with unchecked := #[] } ∧ ((∀ e ∈ t, e.Sound 3 i) →
      ∀ j ≠ i, heardFrom 3 i j t = outgoing ledger i j values .check)) := by
  have hdigest : o.digest = Sha3.hash256 (encodeValues values) := by rw [digest, h.unchecked]
  refine Ensures.get_bind ?_
  rw [if_neg (by simp [h.fresh])]
  by_cases hempty : o.unchecked = #[]
  · have hvalues : values = [] := by rw [← h.unchecked, hempty]
    rw [if_pos (by simp [hempty])]
    exact Ensures.pure
      ⟨by simp [outgoing, hvalues], fun _ => ⟨by rw [← hempty], by simp [outgoing, hvalues]⟩⟩
  have hvalues : values ≠ [] := by rwa [← h.unchecked, ne_eq, Array.toList_eq_nil_iff]
  have hsent (answer : Except TransportError (List Bytes)) : ∀ j : Fin 3, j ≠ i →
      sentTo 3 i j [⟨.broadcast o.digest, answer⟩] = outgoing ledger i j values .check := by
    intro j hj
    have hj' : (j : Nat) ≠ i := fun h => hj (Fin.ext h)
    simp [Event.sentTo, Call.sends, outgoing, hvalues, hj', hdigest]
  rw [if_neg (by simpa using hempty)]
  refine Ensures.bind (Ensures.attempt (Ensures.call (fun digests => ?_) fun e => ?_))
  · dsimp only
    by_cases hequal : allEqual digests = true
    · rw [if_pos hequal]
      refine Ensures.modify ⟨hsent _, fun _ => ⟨rfl, fun hsound j hj => ?_⟩⟩
      obtain ⟨hlength, hown⟩ : digests.length = 3 ∧ digests[(i : Nat)]? = some o.digest :=
        hsound _ (List.mem_singleton_self _)
      have hj' : (j : Nat) ≠ i := fun h => hj (Fin.ext h)
      have hpeer : digests[(j : Nat)]? = some o.digest := by
        have hlt : (j : Nat) < digests.length := j.isLt.trans_eq hlength.symm
        rw [List.getElem?_eq_getElem hlt, allEqual_eq hequal (List.getElem_mem hlt)
          (List.mem_of_getElem? hown)]
      simp [Event.heardFrom, Turn.gets, outgoing, hvalues, hj', hpeer, hdigest]
    · rw [if_neg hequal]
      exact Ensures.bind (Ensures.modify (Ensures.throw ⟨hsent _, by simp⟩))
  · exact Ensures.bind (Ensures.modify (Ensures.throw ⟨hsent _, by simp⟩))

/-- An exchange in hash mode: the own parts go to the next party, and those of the previous party
arrive. -/
theorem Tracks.ensures_exchange [LawfulRing R] (h : Tracks i ledger values readings o) :
    Ensures ReplicatedOpener.exchange ⟨i, 3⟩ o fun t o' r =>
      (∀ j ≠ i, sentTo 3 i j t = outgoing ledger i j values .exchange) ∧
      (r = .ok () → ∃ previous : List R, previous.length = ledger.queued.length ∧
        heardFrom 3 i (i + 1 : Fin 3) t = [] ∧ heardFrom 3 i (i + 2 : Fin 3) t =
          (if ledger.queued = [] then [] else [encodeValues previous]) ∧
        Tracks i (ledger.step .exchange) values (readings ++
          List.zipWith (fun x p => (x.1 i).sum + p) ledger.queued previous) o') := by
  have hsize : o.batch.size = ledger.queued.length := by
    rw [← Array.length_toList, h.batch, List.length_map]
  have hempty : o.batch.size = 0 ↔ ledger.queued = [] := by rw [hsize, List.length_eq_zero_iff]
  refine ReplicatedOpener.ensures_exchange.mono ?_
  rintro t o' r ⟨hnext, hprevious, hresult⟩
  refine ⟨fun j hj => ?_, fun hok => ?_⟩
  · obtain rfl | rfl := eq_or_eq_of_ne hj
    · rw [hnext, h.batch]
      simp [outgoing, h.fresh, hempty, Function.comp_def, ite_not]
    · have hnone : sentTo 3 i (i + 2 : Fin 3) t = [] :=
        List.eq_nil_iff_forall_not_mem.2 fun b hb => by simpa [h.mode] using (hprevious b hb).1
      simp [outgoing, hnone]
  · subst hok
    obtain ⟨previous, next, hexchanged⟩ := hresult
    have hcopies := hexchanged.copies
    rw [if_neg (by simp [h.mode])] at hcopies
    refine ⟨previous, hexchanged.length.trans hsize, hcopies.2, ?_, h.exchange hexchanged⟩
    rw [hexchanged.heard, if_congr hempty rfl rfl]

/-- What an operation that succeeds leaves behind. As much is heard of the others as they should
have sent. If the previous party has sent what it should, the openings and the values stay right. -/
structure Performed (i : Fin 3) (ledger : OpenerLedger (Dealt R)) (step : OpenerStep (Dealt R))
    (values readings : List R) (t : List Event) (values' readings' : List R)
    (o' : ReplicatedOpener R) : Prop where
  tracks : Tracks i (ledger.step step) values' readings' o'
  heard : ∀ j ≠ i, (heardFrom 3 i j t).length = (outgoing ledger j i values step).length
  faithful : ∀ c, i = c + 2 → (∀ x, step = .prepare x → ReplicatedShare.Consistent c x.1 x.2) →
    ∀ peer, heardFrom 3 i (i + 2 : Fin 3) t = outgoing ledger (i + 2) i peer step →
      Faithful c ledger values readings → Faithful c (ledger.step step) values' readings'

private theorem performed_exchange [LawfulRing R] {t : List Event} {previous : List R}
    (hlength : previous.length = ledger.queued.length)
    (hnext : heardFrom 3 i (i + 1 : Fin 3) t = [])
    (hprevious : heardFrom 3 i (i + 2 : Fin 3) t =
      if ledger.queued = [] then [] else [encodeValues previous]) {o' : ReplicatedOpener R}
    (h' : Tracks i (ledger.step .exchange) values (readings ++
      List.zipWith (fun x p => (x.1 i).sum + p) ledger.queued previous) o') :
    Performed i ledger .exchange values readings t values (readings ++
      List.zipWith (fun x p => (x.1 i).sum + p) ledger.queued previous) o' := by
  have hring : ∀ i : Fin 3, i ≠ i + 1 + 1 ∧ i = i + 2 + 1 := by decide
  have hnone (peer : List R) : outgoing ledger (i + 1) i peer .exchange = [] :=
    if_neg fun hplace => (hring i).1 hplace.1
  have hparts (peer : List R) : outgoing ledger (i + 2) i peer .exchange =
      if ledger.queued = [] then []
      else [encodeValues (ledger.queued.map fun x => (x.1 (i + 2)).own)] := by
    rw [outgoing, if_congr (and_iff_right (hring i).2) rfl rfl, ite_not]
  refine ⟨h', fun j hj => ?_, fun c hc _ peer hdelivered hfaithful => ?_⟩
  · obtain rfl | rfl := eq_or_eq_of_ne hj
    · rw [hnext, hnone]
    · rw [hprevious, hparts]
      split <;> rfl
  · have hright : previous = ledger.queued.map fun x => (x.1 (i + 2)).own := by
      by_cases hqueued : ledger.queued = []
      · rw [hqueued] at hlength ⊢
        exact List.length_eq_zero_iff.1 hlength
      · rw [hprevious, hparts, if_neg hqueued, if_neg hqueued, List.singleton_inj] at hdelivered
        exact encodeValues_injective hdelivered
    have hplace : ∀ c : Fin 3, c + 2 + 2 = c + 1 := by decide
    rw [hright, hc, hplace c]
    exact hfaithful.exchange

/-- An operation sends what it should, whatever the network does. -/
theorem ensures_perform [LawfulRing R] (h : Tracks i ledger values readings o)
    (step : OpenerStep (Dealt R)) :
    Ensures (OpenerStep.perform values (step.map (·.1 i))) ⟨i, 3⟩ o fun t o' r =>
      (∀ j ≠ i, sentTo 3 i j t = outgoing ledger i j values step) ∧
      ∀ values', r = .ok values' → (∀ e ∈ t, e.Sound 3 i) →
        ∃ readings', Performed i ledger step values readings t values' readings' o' := by
  cases step with
  | init =>
    refine Ensures.bind (Ensures.modify (Ensures.pure ⟨fun _ _ => rfl, ?_⟩))
    rintro _ ⟨⟩ -
    exact ⟨[], h.init, fun _ _ => rfl, fun c _ _ _ _ hfaithful => hfaithful.init⟩
  | prepare x =>
    refine Ensures.bind (Ensures.modify (Ensures.pure ⟨fun _ _ => rfl, ?_⟩))
    rintro _ ⟨⟩ -
    exact ⟨readings, h.prepare x, fun _ _ => rfl,
      fun c _ hx _ _ hfaithful => hfaithful.prepare (hx x rfl)⟩
  | exchange =>
    refine Ensures.bind (h.ensures_exchange.mono ?_)
    rintro t o' (e | _) ⟨hsent, hexchanged⟩
    · exact ⟨hsent, by rintro _ ⟨⟩⟩
    · refine Ensures.pure ?_
      rw [List.append_nil]
      refine ⟨hsent, ?_⟩
      rintro _ ⟨⟩ -
      obtain ⟨previous, hlength, hnext, hprevious, h'⟩ := hexchanged rfl
      exact ⟨_, performed_exchange hlength hnext hprevious h'⟩
  | finalize =>
    refine Ensures.bind (Ensures.ofAttempt ?_)
    cases hresult : (Opener.finalize o).1 with
    | error e => exact ⟨fun _ _ => rfl, by rintro _ ⟨⟩⟩
    | ok v =>
      obtain ⟨rest, rfl, h'⟩ := h.finalize hresult
      refine Ensures.pure ⟨fun _ _ => rfl, ?_⟩
      rintro _ ⟨⟩ -
      exact ⟨rest, h', fun _ _ => rfl, fun c _ _ _ _ hfaithful => hfaithful.finalize⟩
  | check =>
    refine Ensures.bind (h.ensures_check.mono ?_)
    rintro t o' (e | _) ⟨hsent, hpassed⟩
    · exact ⟨hsent, by rintro _ ⟨⟩⟩
    · obtain ⟨rfl, hheard⟩ := hpassed rfl
      refine Ensures.pure ?_
      rw [List.append_nil]
      refine ⟨hsent, ?_⟩
      rintro _ ⟨⟩ hsound
      exact ⟨readings, h.check, fun j hj => congrArg List.length (hheard hsound j hj),
        fun c _ _ _ _ hfaithful => hfaithful.check⟩

/-- The outcome of a check at the end, which never fails. -/
theorem ensures_certify_nil (h : Tracks i ledger values readings o) :
    Ensures (Opener.certify values []) ⟨i, 3⟩ o fun t _ r => ∃ outcome, r = .ok (values, outcome) ∧
      (∀ j ≠ i, sentTo 3 i j t = outgoing ledger i j values .check) ∧
      (outcome = .ok () → (∀ e ∈ t, e.Sound 3 i) →
        ∀ j ≠ i, heardFrom 3 i j t = outgoing ledger i j values .check) := by
  refine Ensures.bind (Ensures.attempt (h.ensures_check.mono ?_))
  rintro t o' outcome ⟨hsent, hpassed⟩
  refine Ensures.pure ⟨outcome, rfl, ?_, ?_⟩
  · rwa [List.append_nil]
  · rw [List.append_nil]
    exact fun hok => (hpassed hok).2

end Operations

section Runs

variable {c i j : Fin 3} {ledger : OpenerLedger (Dealt R)}

private theorem length_outgoing {values values' : List R} (h : values.length = values'.length)
    (step : OpenerStep (Dealt R)) :
    (outgoing ledger i j values step).length = (outgoing ledger i j values' step).length := by
  cases step with
  | check =>
    have hempty : values = [] ↔ values' = [] := by
      rw [← List.length_eq_zero_iff, h, List.length_eq_zero_iff]
    rw [outgoing, outgoing, if_congr hempty rfl rfl, apply_ite List.length, apply_ite List.length]
    rfl
  | _ => rfl

private theorem eq_and_prefix_of_append {l₁ l₂ m₁ m₂ : List Bytes} (h : l₁ ++ l₂ <+: m₁ ++ m₂)
    (hlength : l₁.length = m₁.length) : l₁ = m₁ ∧ l₂ <+: m₂ := by
  obtain ⟨rest, hrest⟩ := h
  rw [List.append_assoc] at hrest
  obtain ⟨hfirst, hsecond⟩ := List.append_inj hrest hlength
  exact ⟨hfirst, rest, hsecond⟩

variable [LawfulRing R]

/-- An operation that succeeds next to a peer whose payloads arrive in order. -/
private theorem exists_tracks (hij : j ≠ i) {values readings peer values' : List R}
    {o o' : ReplicatedOpener R} (h : Tracks i ledger values readings o)
    (hpeer : peer.length = ledger.taken.length) {step : OpenerStep (Dealt R)} {t t' : List Event}
    (hruns : Runs (OpenerStep.perform values (step.map (·.1 i))) ⟨i, 3⟩ o t o' (.ok values'))
    (hsound : ∀ e ∈ t, e.Sound 3 i) {later : List Bytes}
    (hheard : heardFrom 3 i j (t ++ t') <+: outgoing ledger j i peer step ++ later) :
    heardFrom 3 i j t' <+: later ∧ ∃ readings', Tracks i (ledger.step step) values' readings' o' ∧
      (i = c + 2 → j = i + 2 → (∀ x, step = .prepare x → ReplicatedShare.Consistent c x.1 x.2) →
        Faithful c ledger values readings → Faithful c (ledger.step step) values' readings') := by
  obtain ⟨-, hok⟩ := hruns.of_ensures (ensures_perform h step)
  obtain ⟨readings', hperformed⟩ := hok values' rfl hsound
  rw [heardFrom_append] at hheard
  obtain ⟨hfirst, hlater⟩ := eq_and_prefix_of_append hheard
    ((hperformed.heard j hij).trans (length_outgoing (h.taken.trans hpeer.symm) step))
  exact ⟨hlater, readings', hperformed.tracks,
    fun hi hj hx => hperformed.faithful c hi hx peer (hj ▸ hfirst)⟩

/-- A party takes as many values as the ledger tells, and a check of some value needs an answer of
every other party. -/
theorem of_certify_ok {steps : List (OpenerStep (Dealt R))}
    {start values readings : List R} {o o' : ReplicatedOpener R} {t : List Event}
    (h : Tracks i ledger start readings o)
    (hruns : Runs (Opener.certify start (steps.map (·.map (·.1 i)))) ⟨i, 3⟩ o t o'
      (.ok (values, .ok ())))
    (hsound : ∀ e ∈ t, e.Sound 3 i) :
    values.length = (steps.foldl OpenerLedger.step ledger).taken.length ∧
      (values ≠ [] → ∀ j ≠ i, heardFrom 3 i j t ≠ []) := by
  induction steps generalizing ledger start readings o t with
  | nil =>
    obtain ⟨outcome, hresult, -, hheard⟩ := hruns.of_ensures (ensures_certify_nil h)
    obtain ⟨rfl, rfl⟩ : values = start ∧ .ok () = outcome := by simpa using hresult
    refine ⟨h.taken, fun hvalues j hj => ?_⟩
    rw [hheard rfl hsound j hj, outgoing, if_neg hvalues]
    exact List.cons_ne_nil _ _
  | cons step steps ih =>
    obtain ⟨t₁, o₁, values₁, t₂, hfirst, hrest, rfl⟩ | ⟨e, he, -⟩ := Runs.of_bind hruns
    · obtain ⟨-, hok⟩ := hfirst.of_ensures (ensures_perform h step)
      obtain ⟨hsound₁, hsound₂⟩ := List.forall_mem_append.1 hsound
      obtain ⟨readings₁, hperformed⟩ := hok values₁ rfl hsound₁
      obtain ⟨hlength, hheard⟩ := ih hperformed.tracks hrest hsound₂
      refine ⟨hlength, fun hvalues j hj hnothing => hheard hvalues j hj ?_⟩
      rw [heardFrom_append] at hnothing
      exact (List.append_eq_nil_iff.1 hnothing).2
    · cases he

/-- If a party passes a check of some value, the other honest party has come to the check too and has
the same digest, and one of the two has taken the right values. -/
theorem exists_of_certify_ok {steps : List (OpenerStep (Dealt R))}
    {start start' readings readings' values : List R} {o o' o₁ o₁' : ReplicatedOpener R}
    {t t' : List Event} {r : Except ProtocolError (List R × Except ProtocolError Unit)}
    (hi : i ≠ c) (hj : j ≠ c) (hij : j ≠ i)
    (hsteps : ∀ x, .prepare x ∈ steps → ReplicatedShare.Consistent c x.1 x.2)
    (h : Tracks i ledger start readings o) (h' : Tracks j ledger start' readings' o')
    (hfaithful : i = c + 2 → Faithful c ledger start readings)
    (hfaithful' : j = c + 2 → Faithful c ledger start' readings')
    (hruns : Runs (Opener.certify start (steps.map (·.map (·.1 i)))) ⟨i, 3⟩ o t o₁
      (.ok (values, .ok ())))
    (hruns' : Runs (Opener.certify start' (steps.map (·.map (·.1 j)))) ⟨j, 3⟩ o' t' o₁' r)
    (hsound : ∀ e ∈ t, e.Sound 3 i) (hsound' : ∀ e ∈ t', e.Sound 3 j)
    (hheard : heardFrom 3 i j t <+: sentTo 3 j i t')
    (hheard' : heardFrom 3 j i t' <+: sentTo 3 i j t) (hvalues : values ≠ []) :
    ∃ values' outcome, r = .ok (values', outcome) ∧
      Sha3.hash256 (encodeValues values) = Sha3.hash256 (encodeValues values') ∧
      (values = (steps.foldl OpenerLedger.step ledger).taken.map Prod.snd ∨
        values' = (steps.foldl OpenerLedger.step ledger).taken.map Prod.snd) := by
  induction steps generalizing ledger start start' readings readings' o o' t t' with
  | nil =>
    obtain ⟨outcome, hresult, -, hpassed⟩ := hruns.of_ensures (ensures_certify_nil h)
    obtain ⟨rfl, rfl⟩ : values = start ∧ .ok () = outcome := by simpa using hresult
    obtain ⟨outcome', rfl, hsent, -⟩ := hruns'.of_ensures (ensures_certify_nil h')
    refine ⟨start', outcome', rfl, ?_, ?_⟩
    · rw [hpassed rfl hsound j hij, hsent i hij.symm, outgoing, outgoing, if_neg hvalues] at hheard
      split_ifs at hheard
      · exact absurd (List.prefix_nil.1 hheard) (List.cons_ne_nil _ _)
      · exact List.singleton_inj.1 (hheard.eq_of_length rfl)
    · have hreader : ∀ c i j : Fin 3, i ≠ c → j ≠ c → j ≠ i → i = c + 2 ∨ j = c + 2 := by decide
      exact (hreader c i j hi hj hij).imp (fun hi => (hfaithful hi).taken)
        fun hj => (hfaithful' hj).taken
  | cons step steps ih =>
    have hother : ∀ c i j : Fin 3, j ≠ c → j ≠ i → i = c + 2 → j = i + 2 := by decide
    have hstep : ∀ x, step = .prepare x → ReplicatedShare.Consistent c x.1 x.2 :=
      fun x hx => hsteps x (hx ▸ List.mem_cons_self)
    obtain ⟨t₁, o₂, values₁, t₂, hfirst, hrest, rfl⟩ | ⟨e, he, -⟩ := Runs.of_bind hruns
    swap
    · cases he
    obtain ⟨hsound₁, hsound₂⟩ := List.forall_mem_append.1 hsound
    have hsent := (hfirst.of_ensures (ensures_perform h step)).1 j hij
    obtain ⟨t₁', o₂', values₁', t₂', hfirst', hrest', rfl⟩ | ⟨e, -, hfailed⟩ := Runs.of_bind hruns'
    · obtain ⟨hsound₁', hsound₂'⟩ := List.forall_mem_append.1 hsound'
      have hsent' := (hfirst'.of_ensures (ensures_perform h' step)).1 i hij.symm
      rw [sentTo_append, hsent'] at hheard
      rw [sentTo_append, hsent] at hheard'
      obtain ⟨hlater, readings₁, htracks, hfaithful₁⟩ :=
        exists_tracks hij h h'.taken hfirst hsound₁ hheard
      obtain ⟨hlater', readings₁', htracks', hfaithful₁'⟩ :=
        exists_tracks hij.symm h' h.taken hfirst' hsound₁' hheard'
      exact ih (fun x hx => hsteps x (List.mem_cons_of_mem _ hx)) htracks htracks'
        (fun hc => hfaithful₁ hc (hother c i j hj hij hc) hstep (hfaithful hc))
        (fun hc => hfaithful₁' hc (hother c j i hi hij.symm hc) hstep (hfaithful' hc))
        hrest hrest' hsound₂ hsound₂' hlater hlater'
    · -- the other party stops here, so nothing of it would be heard at the check
      have hsent' := (hfailed.of_ensures (ensures_perform h' step)).1 i hij.symm
      rw [hsent', ← List.append_nil (outgoing ..)] at hheard
      obtain ⟨hnothing, readings₁, htracks, -⟩ :=
        exists_tracks (c := c) hij h h'.taken hfirst hsound₁ hheard
      exact absurd (List.prefix_nil.1 hnothing)
        ((of_certify_ok htracks hrest hsound₂).2 hvalues j hij)

/-- **A passed check next to a deviating party.** In hash mode let one party deviate, in any way,
and let the honest ones carry out the same operations, each of them up to its first error, with a
check at the end. If an honest party passes it, then the values that it has taken since the check
before are the right ones, and unless there are none, the other honest party has come to the check
with the same values. -/
theorem certify_next_to_deviating {c : Fin 3} {steps : List (OpenerStep (Dealt R))}
    (hsteps : ∀ x, .prepare x ∈ steps → ReplicatedShare.Consistent c x.1 x.2)
    {t : Fin 3 → List Event} {o : Fin 3 → ReplicatedOpener R}
    {r : Fin 3 → Except ProtocolError (List R × Except ProtocolError Unit)}
    (hruns : ∀ i ≠ c, Runs (Opener.certify [] (steps.map (·.map (·.1 i)))) ⟨i, 3⟩ (create i .hash)
      (t i) (o i) (r i))
    (hsound : ∀ i ≠ c, ∀ e ∈ t i, e.Sound 3 i) (hdelivered : DeliveredInOrder {c}ᶜ t)
    (hinj : Set.InjOn Sha3.hash256
      {b | ∃ i ≠ c, ∃ values outcome, r i = .ok (values, outcome) ∧ b = encodeValues values})
    {i : Fin 3} (hi : i ≠ c) {values : List R} (hok : r i = .ok (values, .ok ())) :
    values = (steps.foldl OpenerLedger.step OpenerLedger.blank).taken.map Prod.snd ∧
      (values ≠ [] → ∀ j ≠ c, ∃ outcome, r j = .ok (values, outcome)) := by
  have hrun := hruns i hi
  rw [hok] at hrun
  obtain ⟨hlength, -⟩ := of_certify_ok (tracks_create i) hrun (hsound i hi)
  by_cases hvalues : values = []
  · rw [hvalues, List.length_nil, eq_comm, List.length_eq_zero_iff] at hlength
    exact ⟨by rw [hvalues, hlength, List.map_nil], fun h => absurd hvalues h⟩
  have hpeer (j : Fin 3) (hj : j ≠ c) (hij : j ≠ i) : (∃ outcome, r j = .ok (values, outcome)) ∧
      values = (steps.foldl OpenerLedger.step OpenerLedger.blank).taken.map Prod.snd := by
    have hblank : Faithful c OpenerLedger.blank [] ([] : List R) :=
      ⟨by simp [OpenerLedger.blank], rfl, rfl⟩
    have hdelivered' {i j : Fin 3} (hi : i ≠ c) (hj : j ≠ c) (hij : i ≠ j) :
        heardFrom 3 i j (t i) <+: sentTo 3 j i (t j) :=
      hdelivered i (by simpa using hi) j (by simpa using hj) hij
    obtain ⟨values', outcome, hresult, hdigest, hfaithful⟩ := exists_of_certify_ok hi hj hij hsteps
      (tracks_create i) (tracks_create j) (fun _ => hblank) (fun _ => hblank) hrun (hruns j hj)
      (hsound i hi) (hsound j hj) (hdelivered' hi hj hij.symm) (hdelivered' hj hi hij) hvalues
    obtain rfl : values = values' := encodeValues_injective
      (hinj ⟨i, hi, _, _, hok, rfl⟩ ⟨j, hj, _, _, hresult, rfl⟩ hdigest)
    exact ⟨⟨outcome, hresult⟩, hfaithful.elim id id⟩
  have hother : ∀ c i : Fin 3, i ≠ c → ∃ j, j ≠ c ∧ j ≠ i := by decide
  obtain ⟨j, hj, hij⟩ := hother c i hi
  refine ⟨(hpeer j hj hij).2, fun _ k hk => ?_⟩
  by_cases hki : k = i
  · exact ⟨.ok (), hki ▸ hok⟩
  · exact (hpeer k hk hki).1

end Runs

/-- How a check runs if the others send digests. -/
theorem runs_check {o : ReplicatedOpener R} (hfresh : o.poisoned = false)
    (hunchecked : o.unchecked ≠ #[]) (seat : Seat) (digests : List Bytes) :
    Runs check seat o [⟨.broadcast o.digest, .ok digests⟩]
      (if allEqual digests then { o with unchecked := #[] } else { o with poisoned := true })
      (if allEqual digests then .ok () else .error .macFail) := by
  have hlater : ¬ o.unchecked.isEmpty = true := by simpa using hunchecked
  refine Runs.bind (t := []) (Runs.of_done rfl) ?_
  rw [if_neg (by simp [hfresh]), if_neg hlater]
  refine Runs.bind (u := []) (Runs.attempt (Runs.call (c := .broadcast _) digests)) ?_
  dsimp only
  split
  · exact Runs.of_done rfl
  · exact Runs.of_done rfl

section Example

/-- A sharing of seven. -/
private def seven : Dealt Word64 := (![⟨⟨3⟩, ⟨2⟩⟩, ⟨⟨2⟩, ⟨2⟩⟩, ⟨⟨2⟩, ⟨3⟩⟩], ⟨7⟩)

private def openSeven : List (OpenerStep (Dealt Word64)) := [.prepare seven, .exchange, .finalize]

private def sevenDigest : Bytes := Sha3.hash256 (encodeValues [(⟨7⟩ : Word64)])

/-- The digests that a party hears: the last party sends a wrong one to the second party. -/
private def sevenDigests (i : Fin 3) : List Bytes :=
  [sevenDigest, sevenDigest, if i = 0 then sevenDigest else 0 :: sevenDigest]

private def sevenEvents (i : Fin 3) : List Event :=
  [⟨.pass 1 (encodeValues [(seven.1 i).own]), .ok (encodeValues [(seven.1 (i + 2)).own])⟩,
    ⟨.broadcast sevenDigest, .ok (sevenDigests i)⟩]

private def sevenResult (i : Fin 3) :
    Except ProtocolError (List Word64 × Except ProtocolError Unit) :=
  .ok ([⟨7⟩], if allEqual (sevenDigests i) then .ok () else .error .macFail)

/-- The opener of a party before the check. -/
private def sevenTaken (i : Fin 3) : ReplicatedOpener Word64 :=
  { create i .hash with unchecked := #[⟨7⟩] }

private theorem eq_zero_or_eq_one : ∀ {i : Fin 3}, i ≠ 2 → i = 0 ∨ i = 1 := by decide

private theorem runs_seven {i : Fin 3} (hi : i ≠ 2) :
    Runs (Opener.certify [] (openSeven.map (·.map (·.1 i)))) ⟨i, 3⟩ (create i .hash) (sevenEvents i)
      (if allEqual (sevenDigests i) then { sevenTaken i with unchecked := #[] }
        else { sevenTaken i with poisoned := true }) (sevenResult i) := by
  have htaken : Runs ((openSeven.map (·.map (·.1 i))).foldlM OpenerStep.perform []) ⟨i, 3⟩
      (create i .hash) [⟨.pass 1 (encodeValues [(seven.1 i).own]),
        .ok (encodeValues [(seven.1 (i + 2)).own])⟩] (sevenTaken i) (.ok [⟨7⟩]) := by
    refine ⟨fun _ c =>
      match c with
      | .pass .. => .ok (encodeValues [(seven.1 (i + 2)).own])
      | _ => .error (.send 0), ?_⟩
    obtain rfl | rfl := eq_zero_or_eq_one hi
    · exact ⟨rfl, rfl⟩
    · exact ⟨rfl, rfl⟩
  rw [Opener.certify_eq]
  exact Runs.bind htaken (Runs.bind (u := []) (Runs.attempt
    (runs_check rfl (by simp [sevenTaken]) _ (sevenDigests i))) (Runs.of_done rfl))

/-- The first party passes the check, the second one does not, and both have taken seven. -/
theorem certify_next_to_deviating_seven :
    (∀ x, .prepare x ∈ openSeven → ReplicatedShare.Consistent 2 x.1 x.2) ∧
      (∀ i : Fin 3, i ≠ 2 → ∃ o : ReplicatedOpener Word64,
        Runs (Opener.certify [] (openSeven.map (·.map (·.1 i)))) ⟨i, 3⟩ (create i .hash)
          (sevenEvents i) o (sevenResult i)) ∧
      (∀ i ≠ 2, ∀ e ∈ sevenEvents i, e.Sound 3 i) ∧ DeliveredInOrder {2}ᶜ sevenEvents ∧
      sevenResult 0 = .ok ([⟨7⟩], .ok ()) ∧ sevenResult 1 = .ok ([⟨7⟩], .error .macFail) ∧
      [⟨7⟩] = (openSeven.foldl OpenerLedger.step OpenerLedger.blank).taken.map Prod.snd ∧
      ∀ j ≠ 2, ∃ outcome, sevenResult j = .ok ([⟨7⟩], outcome) := by
  have hsteps : ∀ x, .prepare x ∈ openSeven → ReplicatedShare.Consistent 2 x.1 x.2 := by
    intro x hx
    obtain rfl : x = seven := by simpa [openSeven] using hx
    exact ⟨by decide +kernel, by decide +kernel⟩
  have hsound : ∀ i ≠ 2, ∀ e ∈ sevenEvents i, e.Sound 3 i := by
    intro i hi e he
    obtain rfl | rfl := eq_zero_or_eq_one hi
    all_goals
      obtain rfl | rfl := List.mem_pair.1 he
      · decide
      · exact ⟨rfl, rfl⟩
  have hdelivered : DeliveredInOrder {2}ᶜ sevenEvents := by
    intro i hi j hj hij
    obtain rfl | rfl := eq_zero_or_eq_one (by simpa using hi) <;>
      obtain rfl | rfl := eq_zero_or_eq_one (by simpa using hj)
    · exact absurd rfl hij
    · exact List.prefix_rfl
    · exact List.prefix_rfl
    · exact absurd rfl hij
  have hinj : Set.InjOn Sha3.hash256 {b | ∃ i ≠ 2, ∃ values outcome,
      sevenResult i = .ok (values, outcome) ∧ b = encodeValues values} := by
    rintro _ ⟨i, -, values, outcome, hr, rfl⟩ _ ⟨j, -, values', outcome', hr', rfl⟩ -
    obtain ⟨rfl, -⟩ := Prod.mk.inj (Except.ok.inj hr)
    obtain ⟨rfl, -⟩ := Prod.mk.inj (Except.ok.inj hr')
    rfl
  have hfirst : sevenResult 0 = .ok ([⟨7⟩], .ok ()) := by
    simp [sevenResult, sevenDigests, allEqual]
  have hsecond : sevenResult 1 = .ok ([⟨7⟩], .error .macFail) := by
    simp [sevenResult, sevenDigests, allEqual]
  obtain ⟨hfaithful, hothers⟩ := certify_next_to_deviating hsteps (fun i hi => runs_seven hi) hsound
    hdelivered hinj (by decide) hfirst
  exact ⟨hsteps, fun i hi => ⟨_, runs_seven hi⟩, hsound, hdelivered, hfirst, hsecond, hfaithful,
    hothers (List.cons_ne_nil _ _)⟩

end Example

end ReplicatedOpener

end Multiparty
