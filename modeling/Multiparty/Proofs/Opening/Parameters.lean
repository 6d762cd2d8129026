import Mathlib
import Multiparty.Proofs.Failure
import Multiparty.Proofs.Joint.Threshold
import Multiparty.Proofs.Opening.Settings
import Multiparty.Proofs.PartyPoints

/-!
# Parameters of openers of threshold shares

An opener is made for parameters with which every value can be reconstructed: there are as many
parties as senders are needed, the party is one of them, and the points of the senders differ. It has
a row of coefficients for every number of evaluations from which it reconstructs, and it keeps these
rows whatever is done with it. The number of senders is formed before anything is compared, so no
opener is even refused in the regular way if this number is no machine word.

## Main definitions

* `ThresholdOpener.SoundParameters`: the parameters for which openers are made.

## Main results

* `ThresholdOpener.exists_rows_iff`: there are rows exactly if the points of the senders differ.
* `ThresholdOpener.create_exact`: for which parameters an opener is made, and how it can be used.
-/

namespace Multiparty

namespace ThresholdOpener

/-- The parameters with which every value that is sent can be reconstructed. -/
structure SoundParameters (F : Type) [CodedField F] (party parties threshold : Nat)
    (malicious : Bool) : Prop where
  party_lt : party < parties
  senders_le : sendersFor threshold malicious ≤ parties
  distinct : (partyPoints F (sendersFor threshold malicious)).Nodup

theorem lt_sendersFor (threshold : Nat) (malicious : Bool) :
    threshold < sendersFor threshold malicious := by
  rw [sendersFor]
  split <;> omega

section Rows

variable {F : Type} [CodedField F] {party parties threshold : Nat} {malicious : Bool}

/-- Whatever rows are missing, it is because points collide. -/
theorem mapM_reconstructionCoefficients_cases [LawfulField F] (counts : List Nat) :
    (∃ rows : List (List F), counts.mapM reconstructionCoefficients = .ok rows) ∨
      ∃ n, counts.mapM (reconstructionCoefficients (F := F)) =
        .error (.invalidParameters (.pointsCollide n)) := by
  have hfails : FailsWith (fun e => ∃ n, e = .invalidParameters (.pointsCollide n))
      (counts.mapM (reconstructionCoefficients (F := F))) := by
    refine .mapM (fun n => ?_) counts
    by_cases hn : (partyPoints F n).Nodup
    · obtain ⟨coefficients, h⟩ := exists_reconstructionCoefficients_iff.2 hn
      exact h ▸ .ok coefficients
    · exact reconstructionCoefficients_eq_error hn ▸ .error ⟨n, rfl⟩
  cases h : counts.mapM (reconstructionCoefficients (F := F)) with
  | ok rows => exact .inl ⟨rows, rfl⟩
  | error e =>
    obtain ⟨n, rfl⟩ := hfails e h
    exact .inr ⟨n, rfl⟩

/-- There are rows for all numbers of evaluations exactly if the points of all senders differ. -/
theorem exists_rows_iff [LawfulField F] :
    (∃ rows : List (List F), (List.range' (threshold + 1)
      (sendersFor threshold malicious - threshold)).mapM reconstructionCoefficients = .ok rows) ↔
      (partyPoints F (sendersFor threshold malicious)).Nodup := by
  have hlt := lt_sendersFor threshold malicious
  constructor
  · -- the last row is that of all senders
    rintro ⟨rows, hrows⟩
    have hlast : sendersFor threshold malicious ∈
        List.range' (threshold + 1) (sendersFor threshold malicious - threshold) := by
      rw [List.mem_range'_1]
      omega
    obtain ⟨i, hi, hget⟩ := List.mem_iff_getElem.1 hlast
    have hread := forall₂_of_mapM hrows
    have hrow := hread.get hi (hread.length_eq ▸ hi)
    rw [List.get_eq_getElem, hget] at hrow
    exact exists_reconstructionCoefficients_iff.1 ⟨_, hrow⟩
  · refine fun hdistinct => exists_mapM_eq_ok fun n hn => ?_
    rw [List.mem_range'_1] at hn
    have hsubset : Finset.range n ⊆ Finset.range (sendersFor threshold malicious) :=
      Finset.range_subset_range.2 (by omega)
    rw [exists_reconstructionCoefficients_iff, nodup_partyPoints]
    exact (nodup_partyPoints.1 hdistinct).mono (Finset.coe_subset.2 hsubset)

/-- Parameters whose number of senders is no word are not even compared. -/
theorem create_of_not_isWord (h : isWord (sendersFor threshold malicious) = false) :
    (create party parties threshold malicious : Except SetupFault (ThresholdOpener F)) =
      .error .tooLarge := by
  simp only [create, h]
  rfl

/-- An opener is made for sound parameters, and for no others. -/
theorem create_of_isWord [LawfulField F] (h : isWord (sendersFor threshold malicious) = true) :
    (SoundParameters F party parties threshold malicious ∧
      ∃ o : ThresholdOpener F, create party parties threshold malicious = .ok o) ∨
    (¬ SoundParameters F party parties threshold malicious ∧ ∃ fault,
      (create party parties threshold malicious : Except SetupFault (ThresholdOpener F)) =
        .error (.refused (.invalidParameters fault))) := by
  by_cases hsenders : sendersFor threshold malicious ≤ parties
  swap
  · refine .inr ⟨fun hsound => hsenders hsound.senders_le, ?_⟩
    simp only [create, h, if_pos (Nat.not_le.1 hsenders)]
    exact ⟨_, rfl⟩
  by_cases hparty : party < parties
  swap
  · refine .inr ⟨fun hsound => hparty hsound.party_lt, ?_⟩
    simp only [create, h, if_neg (Nat.not_lt.2 hsenders), ge_iff_le, if_pos (Nat.not_lt.1 hparty)]
    exact ⟨_, rfl⟩
  obtain ⟨rows, hrows⟩ | ⟨n, hcollide⟩ := mapM_reconstructionCoefficients_cases (F := F)
    (List.range' (threshold + 1) (sendersFor threshold malicious - threshold))
  · exact .inl ⟨⟨hparty, hsenders, exists_rows_iff.1 ⟨rows, hrows⟩⟩, _,
      create_eq_ok h hsenders hparty hrows⟩
  · refine .inr ⟨fun hsound => ?_, .pointsCollide n, ?_⟩
    · obtain ⟨rows, hrows⟩ := exists_rows_iff.2 hsound.distinct
      rw [hcollide] at hrows
      cases hrows
    · simp only [create, h, hcollide, if_neg (Nat.not_lt.2 hsenders),
        if_neg (Nat.not_le.2 hparty)]
      rfl

/-- An opener has a first row and as many senders as its parameters say, after any use of it. -/
theorem rows_of_history {o o' : ThresholdOpener F}
    {ops : List (Operation (OpenerStep (ThresholdShare F)) (Option F))}
    (h : create party parties threshold malicious = .ok o) (hops : History OpenerStep.act o ops o') :
    o'.senders = sendersFor threshold malicious ∧ ∃ first others, o'.rows = first :: others := by
  have hkept := keeps_settings.of_history hops
  simp only [settings, Prod.mk.injEq] at hkept
  obtain ⟨-, -, hthreshold, -, hrows⟩ := hkept
  obtain ⟨rows, hmade, hsenders, rfl⟩ := exists_of_create h
  have hlength : rows.length = sendersFor threshold malicious - threshold := by
    rw [← (forall₂_of_mapM hmade).length_eq, List.length_range']
  have hlt := lt_sendersFor threshold malicious
  refine ⟨?_, ?_⟩
  · rw [senders, hthreshold, hrows, hlength]
    exact Nat.add_sub_cancel' hlt.le
  · rw [hrows]
    exact List.exists_cons_of_ne_nil (soundRows_of_mapM hmade hsenders).ne_nil

end Rows

/-- **Sound parameters.** If the number of senders is a machine word, an opener is made exactly for
the parameters with which every value can be reconstructed, and all others are refused as invalid. If
that number is no word, the failure is not one of the parameters. Every opener that is made has a
first row of coefficients and as many senders as its threshold asks for, whatever has been done with
it since, in whatever order and however it went. -/
theorem create_exact (F : Type) [CodedField F] [LawfulField F] (party parties threshold : Nat)
    (malicious : Bool) :
    (isWord (sendersFor threshold malicious) = true →
      ((∃ o : ThresholdOpener F, create party parties threshold malicious = .ok o) ↔
        SoundParameters F party parties threshold malicious) ∧
      (¬ SoundParameters F party parties threshold malicious → ∃ fault,
        (create party parties threshold malicious : Except SetupFault (ThresholdOpener F)) =
          .error (.refused (.invalidParameters fault)))) ∧
    (isWord (sendersFor threshold malicious) = false →
      (create party parties threshold malicious : Except SetupFault (ThresholdOpener F)) =
        .error .tooLarge) ∧
    ∀ o : ThresholdOpener F, create party parties threshold malicious = .ok o → ∀ ops o',
      History OpenerStep.act o ops o' →
        o'.senders = sendersFor threshold malicious ∧ ∃ first others, o'.rows = first :: others := by
  refine ⟨fun hword => ?_, create_of_not_isWord, fun o h ops o' => rows_of_history h⟩
  have hcases : (SoundParameters F party parties threshold malicious ∧ _) ∨ _ := create_of_isWord hword
  obtain ⟨hsound, o, ho⟩ | ⟨hunsound, fault, hfault⟩ := hcases
  · exact ⟨iff_of_true ⟨o, ho⟩ hsound, fun hunsound => absurd hsound hunsound⟩
  · refine ⟨iff_of_false ?_ hunsound, fun _ => ⟨fault, hfault⟩⟩
    rintro ⟨o, ho⟩
    rw [hfault] at ho
    cases ho

/-- Five parties can notice that one of two cheats. -/
theorem create_exact_five :
    (∃ o : ThresholdOpener Mersenne61, create 4 5 2 true = .ok o) ∧
      ∃ fault, (create 4 4 2 true : Except SetupFault (ThresholdOpener Mersenne61)) =
        .error (.refused (.invalidParameters fault)) := by
  have hdistinct : (partyPoints Mersenne61 5).Nodup := by decide
  refine ⟨(((create_exact Mersenne61 4 5 2 true).1 (by decide)).1).2
    ⟨by decide, by decide, hdistinct⟩, ?_⟩
  exact ((create_exact Mersenne61 4 4 2 true).1 (by decide)).2 fun h =>
    absurd h.senders_le (by decide)

/-- With a threshold of `2 ^ 63` cheating could be noticed only among `2 ^ 64 + 1` senders. Three
parties are too few of them, but this is not what they are told. -/
theorem create_wide_threshold :
    sendersFor (2 ^ 63) true = 2 ^ 64 + 1 ∧ ∀ fault,
      (create 0 3 (2 ^ 63) true : Except SetupFault (ThresholdOpener Mersenne61)) ≠
        .error (.refused (.invalidParameters fault)) := by
  refine ⟨by decide, fun fault h => ?_⟩
  rw [create_of_not_isWord (by decide)] at h
  cases h

end ThresholdOpener

end Multiparty
