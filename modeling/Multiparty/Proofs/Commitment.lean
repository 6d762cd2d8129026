import Mathlib.Data.List.FinRange
import Mathlib.Data.List.OfFn
import Multiparty.Commitment
import Multiparty.Proofs.Session
import Multiparty.Random.ChaCha

/-!
# Committed broadcasts

An opening is a nonce followed by a payload, and the nonce has a fixed length, so that both are
read back from it.

## Main results

* `verifyOpenings_honest`: the openings of honest parties are accepted.
* `answered_commitAndOpen`: what a party makes of the replies to its two broadcasts.
-/

namespace Multiparty

theorem ChaCha.length_bytes (n : Nat) (g : ChaCha) : (WordSource.bytes n g).1.length = n := by
  have hwords (words : List UInt32) :
      (words.flatMap Bytes.ofUInt32).length = words.length * 4 := by
    induction words with
    | nil => rfl
    | cons w words ih =>
      rw [List.flatMap_cons, List.length_append, ih, List.length_cons, Nat.succ_mul, Nat.add_comm]
      rfl
  change ((WordSource.replicate halfWord ((n + 3) / 4) g).1.flatMap Bytes.ofUInt32 |>.take n).length
    = n
  rw [List.length_take, hwords, WordSource.length_replicate]
  omega

/-- An opening under a nonce of the right length matches its own commitment. -/
theorem verifyOpening_commitment (party : Nat) {nonce : Bytes} (payload : Bytes)
    (h : nonce.length = seedSize) :
    verifyOpening party (nonce ++ payload) (commitment nonce payload) = .ok payload := by
  have hlen : ¬(nonce ++ payload).length < seedSize := by
    rw [List.length_append, h]
    omega
  rw [verifyOpening, if_neg hlen, List.take_left' h, List.drop_left' h, if_neg (not_not.2 rfl)]

private theorem verifyOpenings_from (ps : List (Bytes × Bytes)) (start : Nat)
    (h : ∀ p ∈ ps, p.1.length = seedSize) :
    ((ps.map fun p => (p.1 ++ p.2, commitment p.1 p.2)).zipIdx start).mapM
      (fun ((opening, committed), party) => verifyOpening party opening committed) =
        .ok (ps.map (·.2)) := by
  induction ps generalizing start with
  | nil => rfl
  | cons p ps ih =>
    have hp := verifyOpening_commitment start p.2 (h p List.mem_cons_self)
    have hps := ih (start + 1) fun q hq => h q (List.mem_cons_of_mem _ hq)
    rw [List.map_cons, List.zipIdx_cons, List.mapM_cons]
    dsimp only
    rw [hp, hps]
    rfl

/-- The openings of honest parties are accepted and yield their payloads. -/
theorem verifyOpenings_honest {n : Nat} (nonce payload : Fin n → Bytes)
    (h : ∀ p, (nonce p).length = seedSize) :
    verifyOpenings (List.ofFn fun p => nonce p ++ payload p)
      (List.ofFn fun p => commitment (nonce p) (payload p)) = .ok (List.ofFn payload) := by
  have hzip : (List.ofFn fun p => nonce p ++ payload p).zip
      (List.ofFn fun p => commitment (nonce p) (payload p)) =
        (List.ofFn fun p => (nonce p, payload p)).map
          fun p => (p.1 ++ p.2, commitment p.1 p.2) := by
    rw [List.map_ofFn, List.ofFn_eq_map, List.ofFn_eq_map, List.ofFn_eq_map, List.zip_map']
    rfl
  have hnonce : ∀ p ∈ List.ofFn fun p => (nonce p, payload p), p.1.length = seedSize := by
    rw [List.forall_mem_ofFn_iff]
    exact h
  rw [verifyOpenings, hzip, verifyOpenings_from _ 0 hnonce, List.map_ofFn]
  rfl

variable {G : Type} [WordSource G]

/-- A committed broadcast sends the commitment and then the opening, and yields the payloads of
the openings that are verified. -/
theorem answered_commitAndOpen (payload : Bytes) (seat : Seat) (g : G)
    (first second : BroadcastReply) (replies : List BroadcastReply) :
    ((commitAndOpen payload).run seat g).answered (first :: second :: replies) =
      some (((WordSource.bytes seedSize g).2,
        verifyOpenings (second ((WordSource.bytes seedSize g).1 ++ payload))
          (first (commitment (WordSource.bytes seedSize g).1 payload))), replies) := by
  rfl

end Multiparty
