import Mathlib
import Multiparty.Opening.Replicated
import Multiparty.Opening.Threshold
import Multiparty.Proofs.Codec
import Multiparty.Proofs.Opening.Residual
import Multiparty.Proofs.Payloads

/-!
# How long the payloads of openers are

An exchange of openers sends the values of all queued shares in one payload. Openers of authenticated
shares send one more payload for each check, which holds the residuals of everything that is pending
if these are few. The payloads of large checks, of hash checks and of commitments are short.

## Main definitions

* `OpenerMeter`: the contract of the payloads of an opener.
* `MacOpener.residualLengths`: the long payload of a check.
* `MacOpener.meter`, `ReplicatedOpener.meter`, `ThresholdOpener.meter`: the openers of the schemes.

## Main results

* `MacOpener.sends_check`, `MacOpener.sends_exchange`, `ReplicatedOpener.sends_exchange`,
  `ThresholdOpener.sends_exchange`: the payloads of the operations.
-/

namespace Multiparty

open Multiparty.Action (Sends)

/-- The contract of the payloads of an opener `O` at a seat: `Holds o queued pending` says how many
shares the opener has queued and how many opened values it has still to verify. -/
structure OpenerMeter (O : Type) {S R : Type} [Opener O S R] (talks : Prop) (short : Nat)
    (seat : Seat) where
  Holds : O → (queued pending : Nat) → Prop
  /-- The lengths of the long payloads of an exchange. -/
  exchanged : (queued pending : Nat) → List Nat
  /-- How many values are still to be verified after an exchange. -/
  left : (queued pending : Nat) → Nat
  /-- The lengths of the long payloads of a check. -/
  checked : (pending : Nat) → List Nat
  idle : ∀ p, exchanged 0 p = [] ∧ left 0 p = p
  init : ∀ {o q p}, Holds o q p → Holds (Opener.init o) 0 p
  prepare : ∀ {o q p} (s : S), Holds o q p → Holds (Opener.prepare s o) (q + 1) p
  finalize : ∀ {o q p}, Holds o q p → Holds (Opener.finalize o).2 q p
  exchange : ∀ {o q p}, Holds o q p →
    Sends talks short Opener.exchange seat o (exchanged q p) fun o' _ => Holds o' 0 (left q p)
  check : ∀ {o q p}, Holds o q p →
    Sends talks short Opener.check seat o (checked p) fun _ _ => True

/-- How long the payload is that holds one element of each item of a batch. -/
private theorem length_encodeValues_map {α R : Type} [CodedRing R] [LawfulRing R] (f : α → R)
    (batch : Array α) : (encodeValues (batch.toList.map f)).length = batch.size * CodedRing.width R := by
  rw [length_encodeValues, List.length_map, Array.length_toList]

variable {talks : Prop} {short : Nat} {seat : Seat}

namespace MacOpener

variable {R : Type} [CodedRing R] [LawfulRing R] {o : MacOpener R}

/-- The long payload of a check of so many values: a nonce and their residuals, if these are few. -/
def residualLengths (width smallCheckThreshold pending : Nat) : List Nat :=
  if pending < smallCheckThreshold then [seedSize + pending * width] else []

omit [CodedRing R] [LawfulRing R] in
/-- A computation on the generator sends what it sends, and changes nothing else. -/
private theorem sends_withRng {α : Type} {m : Action ChaCha α} {lengths : List Nat}
    (h : Sends talks short m seat o.rng lengths fun _ _ => True) :
    Sends talks short (withRng m) seat o lengths fun o' _ => ∃ rng, o' = { o with rng := rng } :=
  Sends.zoom (h.mono fun rng _ _ => ⟨rng, rfl⟩)

private theorem sends_checkEach (hshort : seedSize ≤ short) (htalks : talks → 1 < seat.players) :
    Sends talks short checkEach seat o [seedSize + o.pending.size * CodedRing.width R]
      fun o' _ => ∃ rng, o' = { o with rng := rng } := by
  refine Sends.get_bind ?_
  rw [← length_encodeValues_map (residual o.key)]
  exact Sends.bind (v := []) (sends_withRng (sends_commitAndOpen hshort htalks _))
    fun _ _ h => .ofExcept fun _ _ => h

private theorem sends_checkCombined
    (hshort : seedSize + seedSize ≤ short ∧ seedSize + CodedRing.width R ≤ short)
    (htalks : talks → 1 < seat.players) :
    Sends talks short checkCombined seat o [] fun o' _ => ∃ rng, o' = { o with rng := rng } := by
  refine Sends.get_bind (Sends.bind (u := []) (v := [])
    (sends_withRng (sends_sharedSeed hshort.1 htalks)) ?_)
  rintro _ seed ⟨rng, rfl⟩
  dsimp only
  refine Sends.congr (u := [_] ++ []) (Sends.bind
    (sends_withRng (sends_commitAndOpen (Nat.le_of_add_right_le hshort.1) htalks _))
    fun _ _ ⟨rng, h⟩ => .ofExcept fun _ _ => ⟨rng, h⟩) fun l hlong => ?_
  rw [List.append_nil, List.mem_singleton, length_encodeValues]
  simp only [List.length_singleton, one_mul, List.not_mem_nil, iff_false]
  omega

omit [CodedRing R] [LawfulRing R] in
/-- Both kinds of checks end with the same actions, which send nothing. -/
private theorem sends_verdict {lengths : List Nat} {m : Action (MacOpener R) Bool}
    (h : Sends talks short m seat o lengths fun o' _ => ∃ rng, o' = { o with rng := rng }) :
    Sends talks short (m.attempt >>= fun outcome =>
      match outcome with
      | .ok true => modify fun o => { o with pending := #[] }
      | .ok false => fail .macFail
      | .error e => fail e) seat o lengths
      fun o' _ => ∃ rng, o' = { o with pending := #[], rng := rng } := by
  rw [← List.append_nil lengths]
  refine Sends.attempt_bind h ?_ fun o' e => ⟨_, _, rfl⟩
  rintro _ verdict ⟨rng, rfl⟩
  cases verdict
  · exact Sends.modify_bind Sends.throw
  · exact Sends.modify ⟨rng, rfl⟩

/-- A check sends the residuals of all pending values if these are few. -/
theorem sends_check (hshort : seedSize + seedSize ≤ short ∧ seedSize + CodedRing.width R ≤ short)
    (htalks : talks → 1 < seat.players) :
    Sends talks short check seat o
      (residualLengths (CodedRing.width R) o.smallCheckThreshold o.pending.size)
      fun o' _ => ∃ rng, o' = { o with pending := #[], rng := rng } := by
  refine Sends.get_bind ?_
  dsimp only
  split
  · exact Sends.throw
  split
  · next hempty =>
    have hnone : o.pending = #[] := by simpa using hempty
    refine Sends.congr (u := []) (.pure ⟨o.rng, by rw [← hnone]⟩) fun l hlong => ?_
    simp only [residualLengths, hnone, List.not_mem_nil, false_iff]
    split <;> simp
    omega
  rw [residualLengths]
  split
  · exact sends_verdict (sends_checkEach (Nat.le_of_add_right_le hshort.1) htalks)
  · exact sends_verdict (sends_checkCombined hshort htalks)

/-- The long payloads of an exchange: the queued values, and those of a check if enough is pending
then. -/
def exchangedLengths (width checkThreshold smallCheckThreshold queued pending : Nat) : List Nat :=
  if queued = 0 then []
  else [queued * width] ++
    if checkThreshold ≤ pending + queued then
      residualLengths width smallCheckThreshold (pending + queued)
    else []

/-- How many values are pending after an exchange. -/
def pendingAfter (checkThreshold queued pending : Nat) : Nat :=
  if queued ≠ 0 ∧ checkThreshold ≤ pending + queued then 0 else pending + queued

theorem sends_exchange (hshort : seedSize + seedSize ≤ short ∧ seedSize + CodedRing.width R ≤ short)
    (htalks : talks → 1 < seat.players) :
    Sends talks short exchange seat o (exchangedLengths (CodedRing.width R) o.checkThreshold
      o.smallCheckThreshold o.batch.size o.pending.size) fun o' _ =>
        o'.batch.size = 0 ∧ o'.pending.size = pendingAfter o.checkThreshold o.batch.size o.pending.size ∧
          o'.checkThreshold = o.checkThreshold ∧
          o'.smallCheckThreshold = o.smallCheckThreshold := by
  refine Sends.get_bind ?_
  dsimp only
  split
  · exact Sends.throw
  split
  · next hempty =>
    have hnone : o.batch.size = 0 := by simpa [Array.isEmpty] using hempty
    rw [exchangedLengths, pendingAfter, if_pos hnone, if_neg fun h => h.1 hnone, hnone]
    exact Sends.pure ⟨hnone, rfl, rfl, rfl⟩
  next hempty =>
    have hsome : o.batch.size ≠ 0 := by simpa [Array.isEmpty] using hempty
    rw [exchangedLengths, pendingAfter, if_neg hsome, ← length_encodeValues_map (·.value)]
    refine Sends.bind (Q := fun o' _ => o = o') (.broadcast _ htalks fun _ => rfl) ?_
    rintro _ payloads rfl
    refine Sends.ofExcept_bind fun values hvalues => Sends.modify_bind (Sends.get_bind ?_)
    have hsize : (record values o).pending.size = o.pending.size + o.batch.size := by
      have hvalues := (length_of_sumWithPeers hvalues).trans (List.length_map _)
      simp [record, hvalues]
    rw [hsize]
    change Sends talks short (if o.checkThreshold ≤ _ then _ else _) _ _ _ _
    by_cases hthreshold : o.checkThreshold ≤ o.pending.size + o.batch.size
    · rw [if_pos hthreshold, if_pos hthreshold, if_pos ⟨hsome, hthreshold⟩, ← hsize]
      refine (sends_check hshort htalks).mono ?_
      rintro _ _ ⟨rng, rfl⟩
      exact ⟨rfl, rfl, rfl, rfl⟩
    · rw [if_neg hthreshold, if_neg hthreshold, if_neg fun h => hthreshold h.2]
      exact Sends.pure ⟨rfl, hsize, rfl, rfl⟩

/-- The payloads of openers with given thresholds. -/
def meter (checkThreshold smallCheckThreshold : Nat)
    (hshort : seedSize + seedSize ≤ short ∧ seedSize + CodedRing.width R ≤ short)
    (htalks : talks → 1 < seat.players) : OpenerMeter (MacOpener R) talks short seat where
  Holds o queued pending := o.batch.size = queued ∧ o.pending.size = pending ∧
    o.checkThreshold = checkThreshold ∧ o.smallCheckThreshold = smallCheckThreshold
  exchanged := exchangedLengths (CodedRing.width R) checkThreshold smallCheckThreshold
  left := pendingAfter checkThreshold
  checked := residualLengths (CodedRing.width R) smallCheckThreshold
  idle _ := ⟨rfl, if_neg fun h => h.1 rfl⟩
  init h := ⟨rfl, h.2⟩
  prepare s h := ⟨(Array.size_push _).trans (congrArg (· + 1) h.1), h.2⟩
  finalize {o q p} h := by
    have hrest : ∃ opened, (Opener.finalize o).2 = { o with opened := opened } := by
      change ∃ opened, (MacOpener.finalize o).2 = _
      rw [MacOpener.finalize]
      split
      · exact ⟨_, rfl⟩
      · split <;> exact ⟨_, rfl⟩
    obtain ⟨opened, hrest⟩ := hrest
    rw [hrest]
    exact h
  exchange := by
    rintro o _ _ ⟨rfl, rfl, rfl, rfl⟩
    exact sends_exchange hshort htalks
  check := by
    rintro o _ _ ⟨rfl, rfl, rfl, rfl⟩
    exact (sends_check hshort htalks).mono fun _ _ _ => trivial

end MacOpener

/-- The long payload of an exchange without a check. -/
def openedLengths (width queued : Nat) : List Nat := if queued = 0 then [] else [queued * width]

namespace ReplicatedOpener

variable {R : Type} [CodedRing R] [LawfulRing R] {o : ReplicatedOpener R}

/-- In communication mode the second copies are as long as the first ones. -/
private theorem sends_secondCopies (hplayers : seat.players = replicatedParties) :
    ∃ lengths ⊆ [o.batch.size * CodedRing.width R],
      Sends talks short secondCopies seat o lengths fun o' _ => o' = o := by
  by_cases hmode : o.mode = .communication
  · refine ⟨_, List.Subset.refl _, Sends.get_bind ?_⟩
    simp only [hmode]
    rw [← length_encodeValues_map (·.next)]
    refine Sends.bind (Q := fun o' _ => o' = o) (u := [_]) (v := []) (Sends.call (c := .pass 2 _)
      (fun _ => ⟨_, Nat.mod_lt _ (by rw [hplayers]; decide), if_pos rfl⟩) fun _ => rfl) ?_
    rintro _ payload rfl
    exact Sends.ofExcept_bind fun _ _ => Sends.pure rfl
  · refine ⟨[], List.nil_subset _, Sends.get_bind ?_⟩
    cases hmode' : o.mode with
    | communication => exact absurd hmode' hmode
    | _ =>
      exact Sends.pure rfl

theorem sends_exchange : Sends talks short exchange seat o
    (openedLengths (CodedRing.width R) o.batch.size) fun o' _ => o'.batch.size = 0 := by
  refine Sends.get_bind (Sends.seat_bind ?_)
  split
  · exact Sends.throw
  split
  · exact Sends.throw
  next hplayers =>
    have hplayers : seat.players = replicatedParties := not_not.1 hplayers
    split
    · next hempty =>
      have hnone : o.batch.size = 0 := by simpa [Array.isEmpty] using hempty
      rw [openedLengths, if_pos hnone]
      exact Sends.pure hnone
    next hempty =>
      have hsome : o.batch.size ≠ 0 := by simpa [Array.isEmpty] using hempty
      obtain ⟨lengths, hsubset, hcopies⟩ : ∃ lengths ⊆ [o.batch.size * CodedRing.width R],
          Sends talks short secondCopies seat o lengths fun o' _ => o' = o := sends_secondCopies hplayers
      rw [openedLengths, if_neg hsome]
      refine Sends.congr (u := [(encodeValues (o.batch.toList.map (·.own))).length] ++
        (lengths ++ [])) (Sends.bind (Q := fun o' _ => o' = o) (Sends.call (c := .pass 1 _)
        (fun _ => ⟨_, Nat.mod_lt _ (by rw [hplayers]; decide), if_pos rfl⟩) fun _ => rfl) ?_) ?_
      · rintro _ payload rfl
        refine Sends.ofExcept_bind fun previous _ => Sends.bind hcopies ?_
        rintro _ next rfl
        exact Sends.modify rfl
      · intro l _
        rw [length_encodeValues_map, List.append_nil, List.mem_append, List.mem_singleton]
        exact or_iff_left_of_imp fun hl => List.mem_singleton.1 (hsubset hl)

/-- The payloads of openers in any mode. A check sends a hash. -/
def meter (hshort : seedSize ≤ short) : OpenerMeter (ReplicatedOpener R) talks short seat where
  Holds o queued _ := o.batch.size = queued
  exchanged queued _ := openedLengths (CodedRing.width R) queued
  left _ pending := pending
  checked _ := []
  idle _ := ⟨rfl, rfl⟩
  init _ := rfl
  prepare s h := (Array.size_push _).trans (congrArg (· + 1) h)
  finalize {o q p} h := by
    change (ReplicatedOpener.finalize o).2.batch.size = q
    rw [ReplicatedOpener.finalize]
    split
    · exact h
    · split
      · exact h
      · dsimp only
        split
        · exact h
        · dsimp only
          split <;> exact h
  exchange := by
    rintro o _ _ rfl
    exact sends_exchange
  check {o _ _} _ := by
    change Sends talks short check seat o _ _
    refine Sends.get_bind ?_
    split
    · exact Sends.throw
    split
    · exact Sends.pure trivial
    refine Sends.attempt_bind (Q := fun _ _ => True) (u := []) (v := [])
      (Sends.call_of_le (c := .broadcast _) ?_ fun _ => trivial) ?_ fun _ _ => ⟨_, _, rfl⟩
    · exact (Sha3.length_hash256_le _).trans hshort
    · intro _ digests _
      dsimp only
      split
      · exact Sends.modify trivial
      · exact Sends.modify_bind Sends.throw

end ReplicatedOpener

namespace ThresholdOpener

variable {F : Type} [CodedField F] [LawfulField F] {o s : ThresholdOpener F}

omit [LawfulField F] in
private theorem sends_visit (hsender : talks → o.party < o.senders)
    (hseat : talks → o.party = seat.me ∧ o.parties = seat.players ∧ 0 < seat.players)
    (payload : Bytes) (offset : Nat) (columns : List (List F)) :
    Sends talks short (visit o payload offset columns) seat s [payload.length]
      fun s' _ => s' = s := by
  have hof {h : talks} : (o.party + offset) % o.parties = (seat.me + offset) % seat.players := by
    rw [(hseat h).1, (hseat h).2.1]
  rw [visit]
  by_cases hparty : o.party < o.senders
  · rw [decide_eq_true hparty]
    cases decide ((o.party + o.parties - offset) % o.parties < o.senders) <;> dsimp only
    · refine Sends.bind (Q := fun s' _ => s' = s) (v := [])
        (Sends.call (c := .send ((o.party + offset) % o.parties) payload) (fun h => ?_) fun _ => rfl) ?_
      · rw [hof (h := h)]
        exact ⟨_, Nat.mod_lt _ (hseat h).2.2, if_pos rfl⟩
      · rintro _ _ rfl
        exact Sends.pure rfl
    · refine Sends.bind (Q := fun s' _ => s' = s) (v := []) (Sends.call (c := .pass offset payload)
        (fun h => ⟨_, Nat.mod_lt _ (hseat h).2.2, if_pos rfl⟩) fun _ => rfl) ?_
      rintro _ bytes rfl
      exact Sends.ofExcept fun _ _ => rfl
  · refine Sends.of_not_talks (u := []) ?_ (fun h => hparty (hsender h)) (List.nil_subset _)
    rw [decide_eq_false hparty]
    cases decide ((o.party + o.parties - offset) % o.parties < o.senders) <;> dsimp only
    · exact Sends.pure rfl
    · refine Sends.bind (Q := fun s' _ => s' = s) (u := []) (v := [])
        (Sends.call_of_le (c := .receive _) (Nat.zero_le _) fun _ => rfl) ?_
      rintro _ bytes rfl
      exact Sends.ofExcept fun _ _ => rfl

omit [LawfulField F] in
private theorem sends_exchangeAt (hsender : talks → o.party < o.senders)
    (hseat : talks → o.party = seat.me ∧ o.parties = seat.players ∧ 0 < seat.players)
    (payload : Bytes) (offsets : List Nat) (columns : List (List F)) :
    Sends talks short (exchangeAt o payload offsets columns) seat s
      (offsets.map fun _ => payload.length) fun s' _ => s' = s := by
  induction offsets generalizing columns with
  | nil => exact Sends.pure rfl
  | cons offset offsets ih =>
    rw [List.map_cons, ← List.singleton_append]
    refine Sends.bind (sends_visit hsender hseat payload offset columns) ?_
    rintro _ columns' rfl
    exact ih columns'

/-- An exchange sends the queued values to every other party, if the party is a sender. -/
theorem sends_exchange (hsender : talks → o.party < o.senders ∧ o.party = seat.me)
    (hplayers : talks → 1 < seat.players) : Sends talks short exchange seat o
      (openedLengths (CodedRing.width F) o.batch.size) fun o' _ =>
        o'.batch.size = 0 ∧ o'.party = o.party ∧ o'.senders = o.senders := by
  refine Sends.get_bind (Sends.seat_bind ?_)
  split
  · exact Sends.throw
  split
  · exact Sends.throw
  next hparties =>
    have hparties : seat.players = o.parties := not_not.1 hparties
    split
    · next hempty =>
      have hnone : o.batch.size = 0 := by simpa [Array.isEmpty] using hempty
      rw [openedLengths, if_pos hnone]
      exact Sends.pure ⟨hnone, rfl, rfl⟩
    next hempty =>
      have hsome : o.batch.size ≠ 0 := by simpa [Array.isEmpty] using hempty
      have hvisits (columns : List (List F)) : Sends talks short
          (exchangeAt o (encodeValues (o.batch.toList.map (·.value))) (List.range' 1 (o.parties - 1))
            columns >>= fun columns => modify (record columns)) seat o
          (((List.range' 1 (o.parties - 1)).map fun _ =>
            (encodeValues (o.batch.toList.map (·.value))).length) ++ [])
          fun o' _ => o'.batch.size = 0 ∧ o'.party = o.party ∧ o'.senders = o.senders := by
        refine Sends.bind (sends_exchangeAt (fun h => (hsender h).1) (fun h => ⟨(hsender h).2,
          hparties.symm, Nat.zero_lt_of_lt (hplayers h)⟩) _ _ _) ?_
        rintro _ columns' rfl
        exact Sends.modify ⟨rfl, rfl, rfl⟩
      rw [List.append_nil, length_encodeValues_map, List.map_const', List.length_range'] at hvisits
      rw [openedLengths, if_neg hsome]
      by_cases hothers : o.parties - 1 = 0
      · refine (hvisits _).of_not_talks (fun h => ?_) (List.replicate_subset_singleton _ _)
        have hmany := hplayers h
        omega
      · refine (hvisits _).congr fun l _ => ?_
        rw [List.mem_replicate, List.mem_singleton, and_iff_right hothers]

/-- The payloads of openers whose party is a sender if it talks. -/
def meter (hplayers : talks → 1 < seat.players) :
    OpenerMeter (ThresholdOpener F) talks short seat where
  Holds o queued _ := o.batch.size = queued ∧ (talks → o.party < o.senders ∧ o.party = seat.me)
  exchanged queued _ := openedLengths (CodedRing.width F) queued
  left _ pending := pending
  checked _ := []
  idle _ := ⟨rfl, rfl⟩
  init h := ⟨rfl, h.2⟩
  prepare s h := ⟨(Array.size_push _).trans (congrArg (· + 1) h.1), h.2⟩
  finalize {o q p} h := by
    have hrest : ∃ received poisoned,
        (Opener.finalize o).2 = { o with received := received, poisoned := poisoned } := by
      change ∃ received poisoned, (ThresholdOpener.finalize o).2 = _
      rw [ThresholdOpener.finalize]
      split
      · exact ⟨_, _, rfl⟩
      · split
        · exact ⟨_, _, rfl⟩
        · dsimp only
          split <;> exact ⟨_, _, rfl⟩
    obtain ⟨received, poisoned, hrest⟩ := hrest
    rw [hrest]
    exact h
  exchange := by
    rintro o _ _ ⟨rfl, hsender⟩
    refine (sends_exchange hsender hplayers).mono ?_
    rintro o' _ ⟨hbatch, hparty, hsenders⟩
    rw [hparty, hsenders]
    exact ⟨hbatch, hsender⟩
  check {o _ _} _ := by
    change Sends talks short check seat o _ _
    refine Sends.get_bind ?_
    split
    · exact Sends.throw
    · exact Sends.pure trivial

end ThresholdOpener

end Multiparty
