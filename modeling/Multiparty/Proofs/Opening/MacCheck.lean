import Mathlib
import Multiparty.Proofs.Commitment
import Multiparty.Proofs.Opening.Residual
import Multiparty.Proofs.Ring.BinaryField
import Multiparty.Proofs.Ring.Mersenne

/-!
# The check of a small batch at one party

A party that checks a small batch commits to its residuals, opens them, and accepts if the sums with
the residuals of its peers vanish. Its verdict is determined here for arbitrary replies of the
peers: what they recorded may differ from party to party, and what they send may be off.

## Main definitions

* `MacOpener.checkResult`: the result of a check, given how its two broadcasts are answered.
* `OpenedBatch`: valid shares, and how far off each party recorded the values.
* `OpenedBatch.Held`, `OpenedBatch.Received`: what a party holds, and what its peers sent.

## Main results

* `MacOpener.run_check`, `MacOpener.run_checkEach`: the course of a check.
* `MacOpener.checkResult_small`: its result in terms of the verified payloads.
* `OpenedBatch.check_small_batch`: the exact condition for a check to pass.
* `MacOpener.check_mirrored_iff`: what happens when the peer sends everything back.
-/

namespace Multiparty

namespace MacOpener

variable {R : Type} [CodedRing R]

/-- How a check ends, given its verdict: the pending values are forgotten, or the opener is
poisoned. -/
def conclude (o : MacOpener R) :
    Except ProtocolError Bool → Session (MacOpener R) (Except ProtocolError Unit)
  | .ok true => .done { o with pending := #[] } (.ok ())
  | .ok false => .done { o with poisoned := true } (.error .macFail)
  | .error e => .done { o with poisoned := true } (.error e)

variable (seat : Seat) (o : MacOpener R)

theorem run_check_nil (hfresh : o.poisoned = false) (hnil : o.pending.isEmpty = true) :
    check.run seat o = .done o (.ok ()) := by
  rw [check, Action.run_get_bind, if_neg (by simp [hfresh]), if_pos hnil]
  rfl

/-- A check of pending values reaches a verdict and concludes. -/
theorem run_check (hfresh : o.poisoned = false) (hne : o.pending.isEmpty = false) :
    check.run seat o = Session.bind conclude
      ((if o.pending.size < o.smallCheckThreshold then checkEach else checkCombined).run seat o) := by
  have hconclude (m : Action (MacOpener R) Bool) : (do
      match ← m.attempt with
      | .ok true => modify fun o => { o with pending := #[] }
      | .ok false => fail .macFail
      | .error e => fail e : Action (MacOpener R) Unit).run seat o =
        Session.bind conclude (m.run seat o) := by
    rw [Action.run_attempt_bind]
    congr 1
    funext o result
    match result with
    | .ok true => rfl
    | .ok false => rfl
    | .error e => rfl
  rw [check, Action.run_get_bind, if_neg (by simp [hfresh]), if_neg (by simp [hne])]
  split
  · exact hconclude checkEach
  · exact hconclude checkCombined

/-- Checking the items one by one is a committed broadcast of the residuals with a verdict on the
payloads. -/
theorem run_checkEach :
    checkEach.run seat o =
      Session.bind (fun o' payloads =>
        .done o' (payloads.bind (eachVerdict o.party (residuals o.key o.pending.toList))))
        (Session.mapState (fun rng => { o with rng := rng })
          ((commitAndOpen (encodeValues (residuals o.key o.pending.toList))).run seat o.rng)) := by
  rw [checkEach, Action.run_get_bind, Action.run_bind, withRng, Action.run_zoom]
  congr 1
  funext o' payloads
  cases payloads <;> rfl

/-- The result of a check whose broadcasts of a commitment and of an opening are answered as
given. There is none if the check does not go through these two rounds. -/
def checkResult (first second : BroadcastReply) : Option (Except ProtocolError Unit) :=
  ((check.run seat o).answered [first, second]).map (·.1.2)

/-- What a verdict means for the result of a check. -/
def resultOf : Except ProtocolError Bool → Except ProtocolError Unit
  | .ok true => .ok ()
  | .ok false => .error .macFail
  | .error e => .error e

theorem resultOf_eq_ok_iff (verdict : Except ProtocolError Bool) :
    resultOf verdict = .ok () ↔ verdict = .ok true := by
  match verdict with
  | .ok true => simp [resultOf]
  | .ok false => simp [resultOf]
  | .error e => simp [resultOf]

/-- The nonce of the next commitment. -/
def nextNonce : Bytes := (WordSource.bytes seedSize o.rng).1

variable {seat o}

theorem checkResult_nil (hfresh : o.poisoned = false) (hnil : o.pending.isEmpty = true)
    (first second : BroadcastReply) : checkResult seat o first second = some (.ok ()) := by
  rw [checkResult, run_check_nil seat o hfresh hnil, Session.answered_done]
  rfl

/-- The result of a small check is the verdict on the payloads of the verified openings. -/
theorem checkResult_small (hfresh : o.poisoned = false) (hne : o.pending.isEmpty = false)
    (hsmall : o.pending.size < o.smallCheckThreshold) (first second : BroadcastReply) :
    let own := residuals o.key o.pending.toList
    let nonce := o.nextNonce
    checkResult seat o first second = some (resultOf
      ((verifyOpenings (second (nonce ++ encodeValues own))
        (first (commitment nonce (encodeValues own)))).bind (eachVerdict o.party own))) := by
  intro own nonce
  rw [checkResult, run_check seat o hfresh hne, if_pos hsmall, run_checkEach,
    Session.answered_bind, Session.answered_bind, Session.answered_mapState, answered_commitAndOpen]
  change Option.map _ ((conclude _ ((verifyOpenings (second (nonce ++ encodeValues own))
    (first (commitment nonce (encodeValues own)))).bind (eachVerdict o.party own))).answered []) = _
  match (verifyOpenings (second (nonce ++ encodeValues own))
    (first (commitment nonce (encodeValues own)))).bind (eachVerdict o.party own) with
  | .ok true => rfl
  | .ok false => rfl
  | .error e => rfl

end MacOpener

/-- Valid authenticated shares of `k` secrets among `n` parties, with how far off each party
recorded the opened values. -/
structure OpenedBatch (R : Type) [CodedRing R] [LawfulRing R] (n k : Nat) where
  /-- The key share of a party. -/
  key : Fin n → R
  /-- The secret of an item. -/
  secret : Fin k → R
  /-- The share that a party holds of an item. -/
  share : Fin n → Fin k → MacShare R
  sum_value : ∀ j, ∑ p, (share p j).value = secret j
  sum_mac : ∀ j, ∑ p, (share p j).mac = secret j * ∑ p, key p
  /-- What a party recorded for an item, less the secret. -/
  offset : Fin n → Fin k → R

namespace OpenedBatch

open MacOpener

variable {R : Type} [CodedRing R] [LawfulRing R] {n k : Nat} (b : OpenedBatch R n k)

/-- What the parties check: the recorded values with the shares of the authentication codes. -/
def toPendingBatch : PendingBatch R n k where
  key := b.key
  item p j := ⟨b.secret j + b.offset p j, (b.share p j).mac⟩

/-- A usable opener of party `i` with everything of the batch pending, below the threshold for small
checks. -/
structure Held (i : Fin n) (o : MacOpener R) : Prop where
  party : o.party = i
  key : o.key = b.key i
  pending : o.pending.toList = b.toPendingBatch.pending i
  fresh : o.poisoned = false
  small : k < o.smallCheckThreshold

/-- The payloads that party `i` received encode residuals of its peers that sum to what the peers
would compute honestly plus the error `e`. -/
structure Received (i : Fin n) (payloads : List Bytes) (e : Fin k → R) : Prop where
  length : payloads.length = n
  decoded : ∃ theirs : Fin n → Fin k → R,
    (∀ p : Fin n, p ≠ i →
      decodeValues (payloads.get (p.cast length.symm)) (some k) = .ok (List.ofFn (theirs p))) ∧
    ∀ j, ∑ p ∈ Finset.univ.erase i, theirs p j =
      ∑ p ∈ Finset.univ.erase i, residual (b.key p) (b.toPendingBatch.item p j) + e j

/-- The defect of an item comes from the offsets alone. -/
theorem defect_eq (j : Fin k) : b.toPendingBatch.defect j = ∑ p, b.key p * b.offset p j := by
  calc ∑ p, ((b.secret j + b.offset p j) * b.key p - (b.share p j).mac)
      = ∑ p, (b.secret j * b.key p + b.key p * b.offset p j - (b.share p j).mac) :=
        Finset.sum_congr rfl fun p _ => by ring
    _ = b.secret j * ∑ p, b.key p + ∑ p, b.key p * b.offset p j - ∑ p, (b.share p j).mac := by
        rw [Finset.sum_sub_distrib, Finset.sum_add_distrib, Finset.mul_sum]
    _ = ∑ p, b.key p * b.offset p j := by
        rw [b.sum_mac]
        ring

/-- The sums that a party forms, item by item. -/
theorem sumWithPeers_received {i : Fin n} {payloads : List Bytes} {e : Fin k → R}
    (h : b.Received i payloads e) :
    sumWithPeers i (b.toPendingBatch.residualsOf i) payloads =
      .ok (List.ofFn fun j => ∑ p, b.key p * b.offset p j + e j) := by
  obtain ⟨hlen, theirs, hdecode, hsum⟩ := h
  have hown : b.toPendingBatch.residualsOf i =
      (List.finRange k).map fun j => residual (b.key i) (b.toPendingBatch.item i j) :=
    b.toPendingBatch.residualsOf_eq_map i
  rw [hown, sumWithPeers_eq i (List.finRange k) _ theirs payloads hlen, List.ofFn_eq_map]
  · congr 1
    refine List.map_congr_left fun j _ => ?_
    rw [hsum, ← add_assoc, Finset.add_sum_erase _
      (fun p => residual (b.key p) (b.toPendingBatch.item p j)) (Finset.mem_univ i), ← b.defect_eq]
    rfl
  · intro p hp
    rw [List.length_finRange, hdecode p hp, List.ofFn_eq_map]

/-- The verdict on what a party received. -/
theorem eachVerdict_received {i : Fin n} {payloads : List Bytes} {e : Fin k → R}
    (h : b.Received i payloads e) :
    eachVerdict i (b.toPendingBatch.residualsOf i) payloads = .ok true ↔
      ∀ j, ∑ p, b.key p * b.offset p j + e j = 0 := by
  rw [eachVerdict, b.sumWithPeers_received h, ← all_isZero_ofFn]
  exact iff_of_eq (Except.ok.injEq _ _)

/-- The honest openings of all parties under given nonces. -/
def openings (nonce : Fin n → Bytes) : List Bytes :=
  List.ofFn fun p => nonce p ++ encodeValues (b.toPendingBatch.residualsOf p)

/-- The commitments to the honest openings. -/
def commitments (nonce : Fin n → Bytes) : List Bytes :=
  List.ofFn fun p => commitment (nonce p) (encodeValues (b.toPendingBatch.residualsOf p))

theorem verifyOpenings_openings {nonce : Fin n → Bytes} (h : ∀ p, (nonce p).length = seedSize) :
    verifyOpenings (b.openings nonce) (b.commitments nonce) =
      .ok (List.ofFn fun p => encodeValues (b.toPendingBatch.residualsOf p)) :=
  verifyOpenings_honest nonce _ h

/-- What honest peers send has no error. -/
theorem received_honest (i : Fin n) :
    b.Received i (List.ofFn fun p => encodeValues (b.toPendingBatch.residualsOf p)) 0 where
  length := List.length_ofFn
  decoded := by
    refine ⟨fun p j => residual (b.key p) (b.toPendingBatch.item p j), fun p _ => ?_, fun j => ?_⟩
    · have h := decodeValues_encodeValues
        ((List.finRange k).map fun j => residual (b.key p) (b.toPendingBatch.item p j))
      rw [List.length_map, List.length_finRange] at h
      rw [List.get_ofFn, PendingBatch.residualsOf_eq_map]
      exact h.trans (congrArg Except.ok List.ofFn_eq_map.symm)
    · rw [Pi.zero_apply, add_zero]

variable {b}

theorem Held.size {i : Fin n} {o : MacOpener R} (h : b.Held i o) : o.pending.size = k := by
  rw [← Array.length_toList, h.pending, PendingBatch.pending, List.length_ofFn]

/-- The result of the check at a party, given the payloads of verified openings. -/
theorem Held.checkResult {i : Fin n} {o : MacOpener R} (h : b.Held i o) (hk : 0 < k) (seat : Seat)
    {commitments openings payloads : List Bytes}
    (hverify : verifyOpenings openings commitments = .ok payloads) :
    checkResult seat o (fun _ => commitments) (fun _ => openings) =
      some (resultOf (eachVerdict i (b.toPendingBatch.residualsOf i) payloads)) := by
  have hsize := h.size
  have hne : o.pending.isEmpty = false := by
    rw [Array.isEmpty, hsize]
    exact decide_eq_false (by omega)
  rw [checkResult_small h.fresh hne (by rw [hsize]; exact h.small), hverify, h.party, h.key,
    h.pending]
  rfl

/-- Whether the check at a party passes, in terms of the offsets and of the error in what it
received. -/
theorem Held.checkResult_eq_ok_iff {i : Fin n} {o : MacOpener R} (h : b.Held i o) (seat : Seat)
    {commitments openings payloads : List Bytes} {e : Fin k → R}
    (hverify : verifyOpenings openings commitments = .ok payloads)
    (hreceived : b.Received i payloads e) :
    MacOpener.checkResult seat o (fun _ => commitments) (fun _ => openings) = some (.ok ()) ↔
      ∀ j, ∑ p, b.key p * b.offset p j + e j = 0 := by
  rcases Nat.eq_zero_or_pos k with hk | hk
  · subst hk
    have hnil : o.pending.isEmpty = true := by
      rw [Array.isEmpty, h.size]
      rfl
    rw [checkResult_nil h.fresh hnil]
    exact iff_of_true rfl fun j => j.elim0
  · rw [h.checkResult hk seat hverify, ← b.eachVerdict_received hreceived, ← resultOf_eq_ok_iff,
      Option.some_inj]

/-- When everything is delivered unchanged, the result does not depend on the party. -/
theorem Held.checkResult_honest {i : Fin n} {o : MacOpener R} (h : b.Held i o) (seat : Seat)
    {nonce : Fin n → Bytes} (hnonce : ∀ p, (nonce p).length = seedSize) :
    MacOpener.checkResult seat o (fun _ => b.commitments nonce) (fun _ => b.openings nonce) =
      some (if k = 0 then .ok () else
        resultOf (.ok ((List.ofFn b.toPendingBatch.defect).all CodedRing.isZero))) := by
  rcases Nat.eq_zero_or_pos k with hk | hk
  · subst hk
    have hnil : o.pending.isEmpty = true := by
      rw [Array.isEmpty, h.size]
      rfl
    rw [checkResult_nil h.fresh hnil, if_pos rfl]
  · rw [h.checkResult hk seat (b.verifyOpenings_openings hnonce), eachVerdict,
      PendingBatch.sumWithPeers_residualsOf, if_neg (by omega)]
    rfl

section Field

variable {F : Type} [CodedField F] [LawfulField F]

/-- The exact condition for the check of a small batch to pass at a party: for every item the key
shares times the offsets of the recorded values, together with the error in the residuals that the
party received, sum to zero. So honest runs pass, all parties agree when everything is delivered
unchanged, and a party that recorded a wrong value passes under a single key share. -/
theorem check_small_batch (b : OpenedBatch F n k) :
    (∀ (i : Fin n) (seat : Seat) (o : MacOpener F) (commitments openings payloads : List Bytes)
      (e : Fin k → F), b.Held i o → verifyOpenings openings commitments = .ok payloads →
      b.Received i payloads e →
      (MacOpener.checkResult seat o (fun _ => commitments) (fun _ => openings) = some (.ok ()) ↔
        ∀ j, ∑ p, b.key p * b.offset p j + e j = 0)) ∧
    (∀ nonce : Fin n → Bytes, (∀ p, (nonce p).length = seedSize) →
      (b.offset = 0 → ∀ (i : Fin n) (seat : Seat) (o : MacOpener F), b.Held i o →
        MacOpener.checkResult seat o (fun _ => b.commitments nonce) (fun _ => b.openings nonce) =
          some (.ok ())) ∧
      ∀ (i i' : Fin n) (seat seat' : Seat) (o o' : MacOpener F), b.Held i o → b.Held i' o' →
        MacOpener.checkResult seat o (fun _ => b.commitments nonce) (fun _ => b.openings nonce) =
          MacOpener.checkResult seat' o' (fun _ => b.commitments nonce)
            (fun _ => b.openings nonce)) ∧
    (∀ (i p : Fin n) (j : Fin k) (e : Fin k → F), b.offset p j ≠ 0 → ∃ κ : F,
      ∀ b' : OpenedBatch F n k, b'.secret = b.secret → b'.offset = b.offset →
        (∀ q, q ≠ p → b'.key q = b.key q) →
        ∀ payloads, b'.Received i payloads e → ∃ sums,
          sumWithPeers i (b'.toPendingBatch.residualsOf i) payloads = .ok sums ∧
            (sums[j]? = some 0 ↔ b'.key p = κ)) := by
  refine ⟨fun i seat o _ _ _ e hheld hverify hreceived =>
    hheld.checkResult_eq_ok_iff seat hverify hreceived, fun nonce hnonce => ⟨?_, ?_⟩, ?_⟩
  · intro hoffset i seat o hheld
    refine (hheld.checkResult_eq_ok_iff seat
      (b.verifyOpenings_openings hnonce) (b.received_honest i)).2 fun j => ?_
    simp [hoffset]
  · intro i i' seat seat' o o' hheld hheld'
    rw [hheld.checkResult_honest seat hnonce, hheld'.checkResult_honest seat' hnonce]
  · intro i p j e hoffset
    -- the other parties and the error fix what the key share of `p` has to cancel
    refine ⟨-(∑ q ∈ Finset.univ.erase p, b.key q * b.offset q j + e j) / b.offset p j, ?_⟩
    intro b' _ hoffset' hkey payloads hreceived
    refine ⟨_, b'.sumWithPeers_received hreceived, ?_⟩
    have hothers : ∑ q ∈ Finset.univ.erase p, b'.key q * b'.offset q j =
        ∑ q ∈ Finset.univ.erase p, b.key q * b.offset q j :=
      Finset.sum_congr rfl fun q hq => by rw [hkey q (Finset.mem_erase.1 hq).1, hoffset']
    have hget : (List.ofFn fun j => ∑ q, b'.key q * b'.offset q j + e j)[j]? =
        some (∑ q, b'.key q * b'.offset q j + e j) := by simp
    rw [hget, Option.some_inj, ← Finset.add_sum_erase _ _ (Finset.mem_univ p), hothers, hoffset',
      eq_div_iff hoffset, eq_neg_iff_add_eq_zero, add_assoc]

/-- Two parties share the secret one; the second recorded one more. -/
def misrecorded : OpenedBatch Mersenne61 2 1 where
  key := ![0, 1]
  secret := ![1]
  share := ![![⟨1, 1⟩], ![⟨0, 0⟩]]
  sum_value := by decide
  sum_mac := by decide
  offset := ![![0], ![1]]

/-- The opener of the first of the two parties. -/
def misrecordedOpener : MacOpener Mersenne61 :=
  { create 0 0 { smallCheckThreshold := 2 } (.ofWord 0) with pending := #[⟨1, 1⟩] }

theorem check_small_batch_misrecorded :
    MacOpener.checkResult ⟨0, 2⟩ misrecordedOpener
      (fun _ => misrecorded.commitments fun _ => List.replicate seedSize 0)
      (fun _ => misrecorded.openings fun _ => List.replicate seedSize 0) ≠ some (.ok ()) := by
  intro h
  have hheld : misrecorded.Held 0 misrecordedOpener := ⟨rfl, rfl, rfl, rfl, by decide⟩
  have hnonce : ∀ _ : Fin 2, (List.replicate seedSize 0 : Bytes).length = seedSize :=
    fun _ => List.length_replicate
  have hverify := misrecorded.verifyOpenings_openings hnonce
  have := ((check_small_batch misrecorded).1 0 _ _ _ _ _ 0 hheld hverify
    (misrecorded.received_honest 0)).1 h 0
  exact absurd this (by decide)

end Field

end OpenedBatch

namespace MacOpener

/-! ### A peer that sends everything back -/

/-- The reply to a broadcast among two parties when the peer returns what it received. -/
def mirror : BroadcastReply := fun payload => [payload, payload]

section Ring

variable {R : Type} [CodedRing R] [LawfulRing R] {seat : Seat} {o : MacOpener R}

/-- A copied opening matches the copied commitment, so every residual is added to itself. -/
theorem checkResult_mirror (hparty : o.party < 2) (hfresh : o.poisoned = false)
    (hne : o.pending.isEmpty = false) (hsmall : o.pending.size < o.smallCheckThreshold) :
    checkResult seat o mirror mirror = some (resultOf (.ok ((o.pending.toList.map fun p =>
      residual o.key p + residual o.key p).all CodedRing.isZero))) := by
  let own := residuals o.key o.pending.toList
  have hverify : verifyOpenings (mirror (o.nextNonce ++ encodeValues own))
      (mirror (commitment o.nextNonce (encodeValues own))) =
        .ok [encodeValues own, encodeValues own] := by
    have h := verifyOpenings_honest (n := 2) (fun _ => o.nextNonce) (fun _ => encodeValues own)
      fun _ => ChaCha.length_bytes seedSize o.rng
    simpa [mirror] using h
  have hsums : sumWithPeers o.party own [encodeValues own, encodeValues own] =
      .ok (o.pending.toList.map fun p => residual o.key p + residual o.key p) := by
    have h := sumWithPeers_encodeValues (⟨o.party, hparty⟩ : Fin 2) o.pending.toList
      fun _ => residual o.key
    simp only [Fin.sum_univ_two] at h
    exact h
  rw [checkResult_small hfresh hne hsmall, hverify]
  change some (resultOf (eachVerdict o.party own [encodeValues own, encodeValues own])) = _
  rw [eachVerdict, hsums]
  rfl

end Ring

section Field

variable {F : Type} [CodedField F] [LawfulField F] {o : MacOpener F}

/-- Exactly if the field has characteristic two or the pending values are right, a check of a small
batch passes although the peer only returns what it received. -/
theorem check_mirrored_iff (seat : Seat) (hparty : o.party < 2) (hfresh : o.poisoned = false)
    (hne : o.pending.toList ≠ []) (hsmall : o.pending.size < o.smallCheckThreshold) :
    checkResult seat o mirror mirror = some (.ok ()) ↔
      (1 : F) + 1 = 0 ∨ ∀ p ∈ o.pending.toList, residual o.key p = 0 := by
  have hne' : o.pending.isEmpty = false := by
    rw [Array.isEmpty, ← Array.length_toList]
    exact decide_eq_false fun h => hne (List.eq_nil_of_length_eq_zero h)
  have hdouble (r : F) : r + r = 0 ↔ (1 : F) + 1 = 0 ∨ r = 0 := by
    rw [← mul_eq_zero, add_mul, one_mul]
  rw [checkResult_mirror hparty hfresh hne' hsmall, Option.some_inj, resultOf_eq_ok_iff,
    Except.ok.injEq, List.all_map, List.all_eq_true]
  constructor
  · intro h
    by_cases htwo : (1 : F) + 1 = 0
    · exact .inl htwo
    · refine .inr fun p hp => ((hdouble _).1 ?_).resolve_left htwo
      exact (CodedRing.isZero_iff _).1 (h p hp)
  · rintro h p hp
    exact (CodedRing.isZero_iff _).2 ((hdouble _).2 (h.imp_right fun h => h p hp))

/-- An opener with one pending value whose authentication share is one too small. -/
def tamperedOpener (F : Type) [CodedField F] : MacOpener F :=
  { create 0 1 { smallCheckThreshold := 2 } (.ofWord 0) with pending := #[⟨1, 0⟩] }

theorem check_mirrored_mersenne61 :
    checkResult ⟨0, 2⟩ (tamperedOpener Mersenne61) mirror mirror ≠ some (.ok ()) := fun h =>
  absurd ((check_mirrored_iff ⟨0, 2⟩ (by decide) rfl (by decide) (by decide)).1 h) (by decide)

/-- In the binary field a wrong value passes: its residual cancels against the copy. -/
theorem check_mirrored_binary64 :
    residual (tamperedOpener Binary64).key ⟨1, 0⟩ ≠ 0 ∧
      (tamperedOpener Binary64).pending.toList = [⟨1, 0⟩] ∧
      checkResult ⟨0, 2⟩ (tamperedOpener Binary64) mirror mirror = some (.ok ()) := by
  refine ⟨by decide +kernel, rfl, ?_⟩
  rw [checkResult_mirror (by decide) rfl rfl (by decide)]
  decide +kernel

end Field

end MacOpener

end Multiparty
