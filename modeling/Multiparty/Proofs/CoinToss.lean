import Mathlib
import Multiparty.Proofs.Commitment
import Multiparty.Random.Scripted

/-!
# Who can bias a coin toss

A party tosses a coin twice, with different contributions, while its peers behave the same: each of
their messages is fixed in advance, or a copy of what the party has sent in the same round. Messages
of honest peers are fixed in this sense, and so are copies of them, because they do not depend on the
party. As a commitment names no party, a peer that copies both messages of the party contributes what
the party does, and such contributions cancel in pairs.

## Main definitions

* `LawfulSource`: generators that yield as many bytes as they are asked for.
* `TossMessage`, `TossPeer`: what a peer does.
* `tossResult`: the result of a coin toss of one party among such peers.

## Main results

* `of_tossResult_eq_ok`: a seed is the exclusive or of what the openings contribute.
* `seeds_eq_iff`: exactly when two tosses give the same seed.
* `seeds_mirrored`: a single mirroring peer fixes the seed.
-/

namespace Multiparty

/-- A generator yields as many bytes as it is asked for. -/
class LawfulSource (G : Type) [WordSource G] : Prop where
  length_bytes : ∀ n (g : G), (WordSource.bytes n g).1.length = n

instance : LawfulSource ChaCha := ⟨ChaCha.length_bytes⟩

instance : LawfulSource Scripted where
  length_bytes n g := by
    have hwords (words : List UInt64) :
        (words.flatMap Bytes.ofUInt64).length = words.length * 8 := by
      induction words with
      | nil => rfl
      | cons w words ih =>
        rw [List.flatMap_cons, List.length_append, ih, List.length_cons, Nat.succ_mul, Nat.add_comm]
        rfl
    change ((WordSource.replicate Scripted.word ((n + 7) / 8) g).1.flatMap Bytes.ofUInt64
      |>.take n).length = n
    rw [List.length_take, hwords, WordSource.length_replicate]
    omega

/-! ### Exclusive or of byte strings -/

namespace Bytes

theorem length_xor (a b : Bytes) : (a.xor b).length = min a.length b.length := List.length_zipWith

theorem xor_comm (a b : Bytes) : a.xor b = b.xor a := List.zipWith_comm_of_comm UInt8.xor_comm

theorem xor_assoc (a b c : Bytes) : (a.xor b).xor c = a.xor (b.xor c) := by
  refine List.ext_getElem (by simp only [length_xor, min_assoc]) fun k hk hk' => ?_
  simp only [xor, List.getElem_zipWith, UInt8.xor_assoc]

instance : Std.Associative Bytes.xor := ⟨xor_assoc⟩

/-- A byte string added twice cancels. -/
theorem xor_xor_cancel {a b : Bytes} (h : a.length ≤ b.length) : (a.xor b).xor b = a := by
  refine List.ext_getElem (by simp only [length_xor]; omega) fun k hk hk' => ?_
  simp only [xor, List.getElem_zipWith, UInt8.xor_assoc, UInt8.xor_self, UInt8.xor_zero]

/-- Nothing changes exactly if the two byte strings added are equal. -/
theorem xor_xor_eq_self_iff {a b c : Bytes} (hb : b.length = a.length) (hc : c.length = a.length) :
    a.xor (b.xor c) = a ↔ b = c := by
  constructor
  · intro h
    refine List.ext_getElem (hb.trans hc.symm) fun k hk hk' => ?_
    have hk'' : k < a.length := hb ▸ hk
    have hget : (a.xor (b.xor c))[k]? = a[k]? := by rw [h]
    simpa [xor, List.getElem?_zipWith, hk, hk', hk'', UInt8.xor_eq_zero_iff] using hget
  · rintro rfl
    rw [← xor_assoc, xor_xor_cancel hb.ge]

/-- A byte string added first might as well be added last. -/
theorem foldl_xor_xor (a d : Bytes) (l : List Bytes) :
    l.foldl Bytes.xor (a.xor d) = (l.foldl Bytes.xor a).xor d := by
  rw [xor_comm a d, List.foldl_assoc, xor_comm]

theorem length_foldl_xor_le (a : Bytes) (l : List Bytes) :
    (l.foldl Bytes.xor a).length ≤ a.length := by
  induction l generalizing a with
  | nil => exact le_refl _
  | cons b l ih =>
    have h := ih (a.xor b)
    rw [length_xor] at h
    rw [List.foldl_cons]
    omega

/-- Two sums whose terms are fixed or copies, the copies being `c` in one of them and `c'` in the
other, are equal if the copies are even in number, and else differ by what `c` and `c'` do. -/
theorem foldl_xor_copies {c c' : Bytes} (h : c.length = c'.length) (terms : List (Option Bytes))
    (a : Bytes) : (terms.map (·.getD c')).foldl Bytes.xor a =
      if Even (terms.count none) then (terms.map (·.getD c)).foldl Bytes.xor a
      else ((terms.map (·.getD c)).foldl Bytes.xor a).xor (c.xor c') := by
  induction terms generalizing a with
  | nil => simp
  | cons term terms ih =>
    cases term with
    | some b => simpa using ih (a.xor b)
    | none =>
      have hc' : a.xor c' = (a.xor c).xor (c.xor c') := by
        rw [xor_assoc, xor_comm c (c.xor c'), xor_comm c c', xor_xor_cancel h.ge]
      have hcancel : (((terms.map (·.getD c)).foldl Bytes.xor (a.xor c)).xor (c.xor c')).xor
          (c.xor c') = (terms.map (·.getD c)).foldl Bytes.xor (a.xor c) := by
        refine xor_xor_cancel ?_
        have hlen := length_foldl_xor_le (a.xor c) (terms.map (·.getD c))
        rw [length_xor] at hlen ⊢
        omega
      simp only [List.map_cons, List.foldl_cons, Option.getD_none, List.count_cons_self,
        Nat.even_add_one]
      rw [hc', foldl_xor_xor, ih]
      by_cases heven : Even (terms.count none)
      · rw [if_pos heven, if_neg (not_not.2 heven)]
      · rw [if_neg heven, if_pos heven, hcancel]

end Bytes

/-! ### Coin tosses among peers that behave the same -/

/-- Contributions are combined if all of them have the right length, to their exclusive or, which has
this length as well. -/
theorem of_combineSeeds {contributions : List Bytes} {seed : Bytes}
    (h : combineSeeds contributions = .ok seed) :
    (∀ c ∈ contributions, c.length = seedSize) ∧ seed.length = seedSize ∧
      seed = contributions.foldl Bytes.xor (List.replicate seedSize 0) := by
  have hfrom (cs : List Bytes) : ∀ start : Bytes, start.length = seedSize →
      cs.foldlM (fun seed c => if c.length = seedSize then .ok (seed.xor c)
        else .error (.invalidShareSet .seedLength)) start = (.ok seed : Except ProtocolError Bytes) →
      (∀ c ∈ cs, c.length = seedSize) ∧ seed.length = seedSize ∧
        seed = cs.foldl Bytes.xor start := by
    induction cs with
    | nil =>
      intro start hstart h
      obtain rfl := Except.ok.inj h
      exact ⟨by simp, hstart, rfl⟩
    | cons c cs ih =>
      intro start hstart h
      rw [List.foldlM_cons] at h
      split at h
      · next hc =>
        obtain ⟨hcs, hseed⟩ := ih (start.xor c) (by rw [Bytes.length_xor, hstart, hc, min_self]) h
        exact ⟨List.forall_mem_cons.2 ⟨hc, hcs⟩, hseed⟩
      · cases h
  exact hfrom contributions _ List.length_replicate h

/-- Contributions of the right length combine to their exclusive or. -/
theorem combineSeeds_eq {contributions : List Bytes}
    (h : ∀ c ∈ contributions, c.length = seedSize) :
    combineSeeds contributions =
      .ok (contributions.foldl Bytes.xor (List.replicate seedSize 0)) := by
  have hfrom (start : Bytes) : contributions.foldlM (fun seed c =>
      if c.length = seedSize then .ok (seed.xor c) else .error (.invalidShareSet .seedLength))
        start = (.ok (contributions.foldl Bytes.xor start) : Except ProtocolError Bytes) := by
    induction contributions generalizing start with
    | nil => rfl
    | cons c cs ih =>
      rw [List.foldlM_cons, if_pos (h c List.mem_cons_self)]
      exact ih (fun c' hc' => h c' (List.mem_cons_of_mem _ hc')) _
  exact hfrom _

/-- Openings that are verified are opened commitments, and their payloads stand behind the
nonces. -/
theorem of_verifyOpenings {n : Nat} {opening committed : Fin n → Bytes} {payloads : List Bytes}
    (h : verifyOpenings (List.ofFn opening) (List.ofFn committed) = .ok payloads) :
    (∀ p, Sha3.hash256 (opening p) = committed p) ∧
      payloads = List.ofFn fun p => (opening p).drop seedSize := by
  obtain ⟨hlen, hget⟩ := List.forall₂_iff_get.1 (forall₂_of_mapM h)
  have hpayloads : payloads.length = n := by simpa using hlen.symm
  have hlt (p : Fin n) : p.val < payloads.length := p.isLt.trans_eq hpayloads.symm
  have hparty (p : Fin n) : Sha3.hash256 (opening p) = committed p ∧
      payloads.get ⟨p.val, hlt p⟩ = (opening p).drop seedSize := by
    have hp := hget p.val (by simp) (hlt p)
    simp only [List.get_eq_getElem, List.getElem_zipIdx, List.getElem_zip, List.getElem_ofFn,
      verifyOpening, commitment, List.take_append_drop] at hp
    split_ifs at hp with hshort hmatch
    exact ⟨not_not.1 hmatch, (Except.ok.inj hp).symm⟩
  refine ⟨fun p => (hparty p).1, List.ext_getElem (by simp [hpayloads]) fun k hk hk' => ?_⟩
  rw [List.getElem_ofFn]
  exact (hparty ⟨k, hpayloads ▸ hk⟩).2

/-- A message of a peer in one round. -/
inductive TossMessage where
  /-- It does not depend on the party. -/
  | fixed (message : Bytes)
  /-- It is what the party has sent in the same round. -/
  | copy
  deriving DecidableEq

/-- The message when the party has sent `own`. -/
def TossMessage.resolve (own : Bytes) : TossMessage → Bytes
  | fixed message => message
  | copy => own

/-- What a peer does in the two rounds of a coin toss. -/
structure TossPeer where
  commitment : TossMessage
  opening : TossMessage

section Toss

variable {n : Nat} (i : Fin n) (peers : Fin n → TossPeer) {G : Type} [WordSource G]

/-- What party `i` receives in a round, its own message included. -/
def tossReply (message : Fin n → TossMessage) : BroadcastReply := fun own =>
  List.ofFn fun p => if p = i then own else (message p).resolve own

/-- The result of a coin toss of party `i` that draws from the generator `g`. -/
def tossResult (seat : Seat) (g : G) : Option (Except ProtocolError Bytes) :=
  ((sharedSeed.run seat g).answered [tossReply i fun p => (peers p).commitment,
    tossReply i fun p => (peers p).opening]).map (·.1.2)

/-- What a party contributes to the seed. -/
def contribution (g : G) : Bytes := (WordSource.bytes seedSize g).1

/-- The nonce of a party that tosses a coin. -/
def tossNonce (g : G) : Bytes := (WordSource.bytes seedSize (WordSource.bytes seedSize g).2).1

/-- The peers that open with a copy. -/
def copiers : Finset (Fin n) := Finset.univ.filter fun p => p ≠ i ∧ (peers p).opening = .copy

/-- What every party contributes, unless it is what party `i` does. -/
def contributionTerms : List (Option Bytes) :=
  List.ofFn fun p => if p = i then none else
    match (peers p).opening with
    | .fixed message => some (message.drop seedSize)
    | .copy => none

variable {i peers}

/-- A toss verifies the openings and combines their payloads. -/
theorem tossResult_eq (seat : Seat) (g : G) : tossResult i peers seat g = some
    ((verifyOpenings (tossReply i (fun p => (peers p).opening) (tossNonce g ++ contribution g))
      (tossReply i (fun p => (peers p).commitment)
        (Sha3.hash256 (tossNonce g ++ contribution g)))).bind combineSeeds) := by
  have hrun : sharedSeed.run seat g = Session.bind (fun g' payloads =>
      .done g' (payloads.bind combineSeeds))
        ((commitAndOpen (contribution g)).run seat (WordSource.bytes seedSize g).2) := by
    rw [sharedSeed, Action.run_bind]
    change Session.bind _ ((commitAndOpen (contribution g)).run seat _) = _
    congr 1
    funext g' payloads
    cases payloads <;> rfl
  rw [tossResult, hrun, Session.answered_bind, answered_commitAndOpen]
  rfl

omit [WordSource G] in
/-- The contributions are copies in as many places as there are copiers, and in that of the party. -/
private theorem count_contributionTerms :
    (contributionTerms i peers).count none = (copiers i peers).card + 1 := by
  have hinsert : (Finset.univ.filter fun p => p = i ∨ (peers p).opening = .copy) =
      insert i (copiers i peers) := by
    ext p
    by_cases hp : p = i <;> simp [copiers, hp]
  have hcount : (contributionTerms i peers).count none =
      (Finset.univ.filter fun p => p = i ∨ (peers p).opening = .copy).card := by
    rw [contributionTerms, List.ofFn_eq_map, List.count_eq_countP, List.countP_map,
      List.countP_eq_length_filter, ← List.toFinset_card_of_nodup ((List.nodup_finRange n).filter _)]
    congr 1
    ext p
    simp only [List.mem_toFinset, List.mem_filter, List.mem_finRange, true_and, Finset.mem_filter,
      Finset.mem_univ, Function.comp_apply]
    by_cases hp : p = i
    · simp [hp]
    · cases (peers p).opening <;> simp [hp]
  rw [hcount, hinsert, Finset.card_insert_of_notMem (by simp [copiers])]

variable [LawfulSource G]

/-- A toss that succeeds: everybody's opening matches the commitment, the contribution of the party
has the right length, and the seed is the exclusive or of what the openings contribute. -/
theorem of_tossResult_eq_ok {seat : Seat} {g : G} {seed : Bytes}
    (h : tossResult i peers seat g = some (.ok seed)) :
    (∀ p ≠ i, Sha3.hash256 ((peers p).opening.resolve (tossNonce g ++ contribution g)) =
      (peers p).commitment.resolve (Sha3.hash256 (tossNonce g ++ contribution g))) ∧
    seed.length = seedSize ∧
    seed = ((contributionTerms i peers).map (·.getD (contribution g))).foldl Bytes.xor
      (List.replicate seedSize 0) := by
  rw [tossResult_eq, Option.some_inj] at h
  obtain ⟨payloads, hverify, hcombine⟩ := exists_of_bind_eq_ok h
  obtain ⟨hmatch, rfl⟩ := of_verifyOpenings hverify
  have hterms : (List.ofFn fun p => (if p = i then tossNonce g ++ contribution g else
      (peers p).opening.resolve (tossNonce g ++ contribution g)).drop seedSize) =
        (contributionTerms i peers).map (·.getD (contribution g)) := by
    rw [contributionTerms, List.map_ofFn]
    congr 1
    funext p
    have hown : (tossNonce g ++ contribution g).drop seedSize = contribution g :=
      List.drop_left' (LawfulSource.length_bytes seedSize _)
    by_cases hp : p = i
    · simp [hp, hown]
    · cases hopening : (peers p).opening <;> simp [hp, hopening, hown, TossMessage.resolve]
  rw [hterms] at hcombine
  refine ⟨fun p hp => ?_, (of_combineSeeds hcombine).2⟩
  have hp' := hmatch p
  rwa [if_neg hp, if_neg hp] at hp'

/-- **Exactly when a coin toss is biased.** Two tosses of a party among peers that behave the same
give the same seed exactly if the party contributes the same, or if the peers that open with a copy
are odd in number. If the digests of what the party opens do not collide, such a peer has to commit
with a copy, too. -/
theorem seeds_eq_iff {seat seat' : Seat} {g g' : G} {seed seed' : Bytes}
    (h : tossResult i peers seat g = some (.ok seed))
    (h' : tossResult i peers seat' g' = some (.ok seed')) :
    (seed = seed' ↔ contribution g = contribution g' ∨ Odd (copiers i peers).card) ∧
      (Set.InjOn Sha3.hash256 {tossNonce g ++ contribution g, tossNonce g' ++ contribution g'} →
        contribution g ≠ contribution g' →
          ∀ p ≠ i, (peers p).opening = .copy ↔ (peers p).commitment = .copy) := by
  obtain ⟨hmatch, hlen, hseed⟩ := of_tossResult_eq_ok h
  obtain ⟨hmatch', -, hseed'⟩ := of_tossResult_eq_ok h'
  have hc : (contribution g).length = seedSize := LawfulSource.length_bytes _ _
  have hc' : (contribution g').length = seedSize := LawfulSource.length_bytes _ _
  refine ⟨?_, fun hinj hne p hp => ?_⟩
  · rw [Bytes.foldl_xor_copies (hc.trans hc'.symm), ← hseed, count_contributionTerms] at hseed'
    simp only [Nat.even_add_one, Nat.not_even_iff_odd] at hseed'
    rw [hseed']
    by_cases hodd : Odd (copiers i peers).card
    · simp [hodd]
    · rw [if_neg hodd, eq_comm, Bytes.xor_xor_eq_self_iff (hc.trans hlen.symm) (hc'.trans hlen.symm)]
      simp [hodd]
  · -- a copy in one round only would give both openings of the party the same digest
    have hdiffer : Sha3.hash256 (tossNonce g ++ contribution g) ≠
        Sha3.hash256 (tossNonce g' ++ contribution g') := by
      intro heq
      have happend := hinj (by simp) (by simp) heq
      have hnonces : (tossNonce g).length = (tossNonce g').length :=
        (LawfulSource.length_bytes _ _).trans (LawfulSource.length_bytes _ _).symm
      exact hne (List.append_inj_right happend hnonces)
    have hp₁ := hmatch p hp
    have hp₂ := hmatch' p hp
    cases hopening : (peers p).opening <;> cases hcommitment : (peers p).commitment <;>
      simp only [hopening, hcommitment, TossMessage.resolve] at hp₁ hp₂
    · simp
    · exact absurd (hp₁.symm.trans hp₂) hdiffer
    · exact absurd (hp₁.trans hp₂.symm) hdiffer
    · simp

/-- A peer that opens the commitment to a payload under a nonce, or copies both messages. -/
def TossPeer.opens : Option (Bytes × Bytes) → TossPeer
  | some (nonce, payload) => ⟨.fixed (Multiparty.commitment nonce payload), .fixed (nonce ++ payload)⟩
  | none => ⟨.copy, .copy⟩

/-- Such peers are not told from honest ones. -/
theorem tossResult_opens (opened : Fin n → Option (Bytes × Bytes)) (seat : Seat) (g : G)
    (h : ∀ p, ∀ o ∈ opened p, o.1.length = seedSize) :
    tossResult i (fun p => .opens (opened p)) seat g = some (combineSeeds (List.ofFn fun p =>
      if p = i then contribution g else ((opened p).map Prod.snd).getD (contribution g))) := by
  let nonces p := if p = i then tossNonce g else ((opened p).map Prod.fst).getD (tossNonce g)
  let payloads p := if p = i then contribution g else ((opened p).map Prod.snd).getD (contribution g)
  have hnonces : ∀ p, (nonces p).length = seedSize := by
    intro p
    have hown : (tossNonce g).length = seedSize := LawfulSource.length_bytes _ _
    by_cases hp : p = i
    · simp [nonces, hp, hown]
    · cases ho : opened p with
      | none => simp [nonces, hp, ho, hown]
      | some o => simp [nonces, hp, ho, h p o ho]
  have hopening : tossReply i (fun p => (TossPeer.opens (opened p)).opening)
      (tossNonce g ++ contribution g) = List.ofFn fun p => nonces p ++ payloads p := by
    refine congrArg List.ofFn (funext fun p => ?_)
    by_cases hp : p = i
    · simp [nonces, payloads, hp]
    · cases ho : opened p <;> simp [nonces, payloads, hp, ho, TossPeer.opens, TossMessage.resolve]
  have hcommitment : tossReply i (fun p => (TossPeer.opens (opened p)).commitment)
      (Sha3.hash256 (tossNonce g ++ contribution g)) =
        List.ofFn fun p => commitment (nonces p) (payloads p) := by
    refine congrArg List.ofFn (funext fun p => ?_)
    by_cases hp : p = i
    · simp [nonces, payloads, hp, commitment]
    · cases ho : opened p <;>
        simp [nonces, payloads, hp, ho, TossPeer.opens, TossMessage.resolve, commitment]
  rw [tossResult_eq, hopening, hcommitment, verifyOpenings_honest _ _ hnonces]
  rfl

end Toss

/-- A generator whose next 32 bytes start with `contribution` and the 32 after them with `nonce`. -/
private def steered (contribution nonce : UInt64) : Scripted :=
  .create [contribution, 0, 0, 0, nonce, 0, 0, 0] 0

/-- What an honest peer opens that contributes only zeros. -/
private def zeros : Bytes × Bytes := (List.replicate seedSize 7, List.replicate seedSize 0)

/-- With an honest peer and one that copies, the seed is what the honest peer contributes. -/
theorem seeds_eq_iff_copier :
    let peers : Fin 3 → TossPeer := fun p => .opens (if p = 1 then some zeros else none)
    tossResult 0 peers ⟨0, 3⟩ (steered 1 5) = some (.ok zeros.2) ∧
      tossResult 0 peers ⟨0, 3⟩ (steered 2 6) = some (.ok zeros.2) ∧
      contribution (steered 1 5) ≠ contribution (steered 2 6) ∧ Odd (copiers 0 peers).card ∧
      ∀ p ≠ 0, (peers p).opening = .copy ↔ (peers p).commitment = .copy := by
  intro peers
  have hzeros : ∀ p : Fin 3, ∀ o ∈ (if p = 1 then some zeros else none), o.1.length = seedSize := by
    decide
  have h : tossResult 0 peers ⟨0, 3⟩ (steered 1 5) = some (.ok zeros.2) := by
    rw [tossResult_opens _ _ _ hzeros]
    decide +kernel
  have h' : tossResult 0 peers ⟨0, 3⟩ (steered 2 6) = some (.ok zeros.2) := by
    rw [tossResult_opens _ _ _ hzeros]
    decide +kernel
  have hne : contribution (steered 1 5) ≠ contribution (steered 2 6) := by decide +kernel
  have hdiffer : Sha3.hash256 (tossNonce (steered 1 5) ++ contribution (steered 1 5)) ≠
      Sha3.hash256 (tossNonce (steered 2 6) ++ contribution (steered 2 6)) := by decide +kernel
  obtain ⟨hiff, hcopies⟩ := seeds_eq_iff h h'
  exact ⟨h, h', hne, (hiff.1 rfl).resolve_left hne,
    hcopies (Set.injOn_pair.2 fun heq => absurd heq hdiffer) hne⟩

/-- A mirroring peer fixes the seed: whatever its only other party contributes under a nonce, the
seed is zero, although nothing collides. -/
theorem seeds_mirrored :
    contribution (steered 1 5) ≠ contribution (steered 2 5) ∧
      tossNonce (steered 1 5) = tossNonce (steered 2 5) ∧
      Set.InjOn Sha3.hash256 {tossNonce (steered 1 5) ++ contribution (steered 1 5),
        tossNonce (steered 2 5) ++ contribution (steered 2 5)} ∧
      ∀ g ∈ [steered 1 5, steered 2 5], tossResult (0 : Fin 2) (fun _ => ⟨.copy, .copy⟩) ⟨0, 2⟩ g =
        some (.ok (List.replicate seedSize 0)) := by
  refine ⟨by decide +kernel, by decide +kernel, ?_, fun g hg => ?_⟩
  · have hdiffer : Sha3.hash256 (tossNonce (steered 1 5) ++ contribution (steered 1 5)) ≠
        Sha3.hash256 (tossNonce (steered 2 5) ++ contribution (steered 2 5)) := by decide +kernel
    exact (Set.injOn_pair).2 fun heq => absurd heq hdiffer
  · refine (tossResult_opens (fun _ => none) ⟨0, 2⟩ g (by simp)).trans (congrArg some ?_)
    revert g
    decide +kernel

end Multiparty
