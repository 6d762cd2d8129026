import Mathlib
import Multiparty.Opening.MacCheck
import Multiparty.Proofs.CoinToss
import Multiparty.Proofs.Joint.Sharing
import Multiparty.Proofs.Network.Progress
import Multiparty.Proofs.Opening.Residual
import Multiparty.Proofs.Ring.Mersenne

/-!
# Checks of all parties

Parties that check together come to one verdict, whatever they have recorded. If they check item by
item, the verdict is whether no item has a defect. If they check a linear combination, it is whether the
same combination of the defects vanishes, where the coefficients may be any that a rule takes from the
seed that the parties toss. A combination of defects that are not all zero vanishes for one coefficient
vector in as many as the field has elements.

## Main definitions

* `tossedSeed`: the seed that honest parties toss.
* `PendingBatch.HeldBy`: the openers of all parties hold what the parties recorded.
* `MacOpener.Concur`, `MacOpener.Verdict`: the verdict of all parties, in lockstep, and on all networks
  and under all schedules.

## Main results

* `succeed_commitAndOpen`, `succeed_sharedSeed`: committed broadcasts and coin tosses of all parties.
* `PendingBatch.HeldBy.concur_checkEach`, `PendingBatch.HeldBy.concur_checkCombinedBy`: the verdicts.
* `PendingBatch.combined_check_agrees`: the two ways to check agree up to the coefficients.
-/

namespace Multiparty

open Multiparty.Action (Succeed)

variable {n k : Nat}

/-! ### Committed broadcasts and coin tosses -/

section Tosses

variable {G : Type} [WordSource G]

/-- The seed that honest parties toss with their generators. -/
def tossedSeed (g : Fin n → G) : Bytes :=
  (List.ofFn fun i => contribution (g i)).foldl Bytes.xor (List.replicate seedSize 0)

variable [LawfulSource G]

/-- In a committed broadcast everyone gets the payloads of all. -/
theorem succeed_commitAndOpen (payload : Fin n → Bytes) (g : Fin n → G) :
    Succeed (fun i => commitAndOpen (payload i)) g fun _ a => a = fun _ => List.ofFn payload := by
  refine Succeed.ofAttempt_bind (fun i => rfl) ?_
  refine Succeed.broadcast_bind
    (fun i => commitment (WordSource.bytes seedSize (g i)).1 (payload i)) ?_
  refine Succeed.broadcast_bind (fun i => (WordSource.bytes seedSize (g i)).1 ++ payload i) ?_
  exact Succeed.ofExcept (fun i => verifyOpenings_honest _ payload fun p =>
    LawfulSource.length_bytes seedSize (g p)) rfl

/-- In a coin toss all parties get the same seed. -/
theorem succeed_sharedSeed (g : Fin n → G) :
    Succeed (fun _ => sharedSeed) g fun _ a => a = fun _ => tossedSeed g := by
  refine Succeed.ofAttempt_bind (fun i => rfl) ?_
  refine Succeed.bind (succeed_commitAndOpen (fun i => contribution (g i)) _) fun g' a ha => ?_
  subst ha
  have hlength : ∀ c ∈ List.ofFn fun i => contribution (g i), c.length = seedSize := by
    rw [List.forall_mem_ofFn_iff]
    exact fun i => LawfulSource.length_bytes seedSize (g i)
  exact Succeed.ofExcept (fun i => combineSeeds_eq hlength) rfl

end Tosses

/-! ### Verdicts of all parties -/

namespace MacOpener

variable {R : Type}

theorem succeed_withRng {α : Type} {ms : Fin n → Action ChaCha α} {o : Fin n → MacOpener R}
    {Q : (Fin n → α) → Prop} (h : Succeed ms (fun i => (o i).rng) fun _ a => Q a) :
    Succeed (fun i => withRng (ms i)) o
      fun o' a => (∃ rng : Fin n → ChaCha, o' = fun i => { o i with rng := rng i }) ∧ Q a :=
  Succeed.zoom (h.mono fun rng _ hq => ⟨⟨rng, rfl⟩, hq⟩)

/-- All parties that run a check in lockstep come to a verdict, and nothing of their openers changes but
the generators. -/
def Concur (check : Action (MacOpener R) Bool) (o : Fin n → MacOpener R) (verdict : Bool) : Prop :=
  Succeed (fun _ => check) o fun o' a =>
    (∃ rng : Fin n → ChaCha, o' = fun i => { o i with rng := rng i }) ∧ a = fun _ => verdict

/-- All parties that run a check come to a verdict, on every idle network that carries what they send and
under every schedule, and nothing of their openers changes but the generators. -/
def Verdict (check : Action (MacOpener R) Bool) (o : Fin n → MacOpener R) (verdict : Bool) : Prop :=
  ∃ rng : Fin n → ChaCha, Network.AlwaysCarriesOut (fun i => check.run ⟨i, n⟩ (o i))
    (fun i => { o i with rng := rng i }) fun _ => .ok verdict

namespace Concur

variable {check : Action (MacOpener R) Bool} {o : Fin n → MacOpener R} {v v' : Bool}

theorem verdict (h : Concur check o v) : Verdict check o v := by
  obtain ⟨_, _, hcarries, _, rfl, ⟨rng, rfl⟩, rfl⟩ := Lockstep.alwaysCarriesOut h
  exact ⟨rng, hcarries⟩

/-- If there are parties at all, they come to no other verdict. -/
theorem verdict_iff (h : Concur check o v) (hn : 0 < n) : Verdict check o v' ↔ v' = v := by
  constructor
  · rintro ⟨rng, hcarries⟩
    obtain ⟨a, ha, -, rfl⟩ := Lockstep.of_carriesOut h hcarries.carriesOut
    exact Except.ok.inj (congrFun ha ⟨0, hn⟩)
  · rintro rfl
    exact h.verdict

end Concur

end MacOpener

namespace PendingBatch

open MacOpener

section Ring

variable {R : Type} [CodedRing R]

/-- The openers of all parties hold the key shares and what the parties recorded. -/
structure HeldBy (b : PendingBatch R n k) (o : Fin n → MacOpener R) : Prop where
  party : ∀ i, (o i).party = i
  key : ∀ i, (o i).key = b.key i
  pending : ∀ i, (o i).pending.toList = b.pending i

namespace HeldBy

variable {b : PendingBatch R n k} {o : Fin n → MacOpener R}

omit [CodedRing R] in
theorem size_pending (h : b.HeldBy o) (i : Fin n) : (o i).pending.size = k := by
  rw [← Array.length_toList, h.pending, PendingBatch.pending, List.length_ofFn]

theorem residuals_eq (h : b.HeldBy o) (i : Fin n) :
    residuals (o i).key (o i).pending.toList = b.residualsOf i := by
  rw [residualsOf, h.key, h.pending]

theorem combinedResidual_eq (h : b.HeldBy o) (c : Fin k → R) (i : Fin n) :
    combinedResidual (o i).key (o i).pending.toList (List.ofFn c) = b.combinedOf c i := by
  rw [combinedOf, h.key, h.pending]

variable [LawfulRing R]

/-- All parties that check item by item come to the verdict whether no item has a defect. -/
theorem concur_checkEach (h : b.HeldBy o) :
    Concur checkEach o (decide (∀ j, b.defect j = 0)) := by
  refine Succeed.get_bind ?_
  refine Succeed.bind (succeed_withRng (succeed_commitAndOpen
    (fun i => encodeValues (residuals (o i).key (o i).pending.toList)) _)) ?_
  rintro _ _ ⟨⟨rng, rfl⟩, rfl⟩
  refine Succeed.ofExcept (fun i => ?_) ⟨⟨rng, rfl⟩, rfl⟩
  simp only [h.residuals_eq, h.party]
  exact b.eachVerdict_residualsOf i

/-- All parties that check a combination come to the verdict whether that of the defects vanishes,
whatever coefficients are taken from the seed. -/
theorem concur_checkCombinedBy (h : b.HeldBy o) {coefficients : Bytes → Nat → List R} {c : Fin k → R}
    (hc : coefficients (tossedSeed fun i => (o i).rng) k = List.ofFn c) :
    Concur (checkCombinedBy coefficients) o (decide (∑ j, c j * b.defect j = 0)) := by
  refine Succeed.get_bind ?_
  refine Succeed.bind (succeed_withRng (succeed_sharedSeed _)) ?_
  rintro _ _ ⟨⟨rng, rfl⟩, rfl⟩
  simp only [h.size_pending, hc, h.combinedResidual_eq]
  refine Succeed.bind (succeed_withRng (succeed_commitAndOpen
    (fun i => encodeValues [b.combinedOf c i]) _)) ?_
  rintro _ _ ⟨⟨rng', rfl⟩, rfl⟩
  exact Succeed.ofExcept (fun i => b.combinedVerdict_combinedOf c) ⟨⟨rng', rfl⟩, rfl⟩

/-- All parties that check a random combination come to the verdict on the coefficients that the
generator of their seed yields. -/
theorem exists_concur_checkCombined (h : b.HeldBy o) : ∃ c : Fin k → R,
    drawCoefficients (tossedSeed fun i => (o i).rng) k = List.ofFn c ∧
      Concur checkCombined o (decide (∑ j, c j * b.defect j = 0)) := by
  obtain ⟨c, hc⟩ := exists_eq_ofFn (WordSource.length_replicate (CodedRing.draw (R := R)) k
    (ChaCha.ofSeed (tossedSeed fun i => (o i).rng)))
  exact ⟨c, hc, h.concur_checkCombinedBy hc⟩

end HeldBy

end Ring

section Field

variable {F : Type} [CodedField F] [LawfulField F]

/-- A linear form that is not zero vanishes on one coefficient vector in `Nat.card F`. -/
private theorem card_linearForm_zero {δ : Fin k → F} (hδ : ∃ j, δ j ≠ 0) :
    Nat.card {h : Fin k → F // ∑ j, h j * δ j = 0} = Nat.card F ^ (k - 1) := by
  obtain ⟨j, hj⟩ := hδ
  let form : (Fin k → F) →ₗ[F] F := ∑ i, (LinearMap.proj i : (Fin k → F) →ₗ[F] F).smulRight (δ i)
  have hform (h : Fin k → F) : form h = ∑ i, h i * δ i := by
    simp only [form, LinearMap.sum_apply, LinearMap.smulRight_apply, LinearMap.proj_apply,
      smul_eq_mul]
  have hsurj : Function.Surjective form := by
    intro y
    refine ⟨Pi.single j (y * (δ j)⁻¹), ?_⟩
    rw [hform, Finset.sum_eq_single j]
    · rw [Pi.single_eq_same, mul_assoc, inv_mul_cancel₀ hj, mul_one]
    · intro i _ hi
      rw [Pi.single_eq_of_ne hi, zero_mul]
    · intro h
      exact absurd (Finset.mem_univ j) h
  have hker : Nat.card {h : Fin k → F // ∑ i, h i * δ i = 0} = Nat.card (LinearMap.ker form) :=
    Nat.card_congr (Equiv.subtypeEquivRight fun h => by rw [LinearMap.mem_ker, hform])
  have hquot : Nat.card ((Fin k → F) ⧸ LinearMap.ker form) = Nat.card F :=
    Nat.card_congr (form.quotKerEquivOfSurjective hsurj).toEquiv
  have hall : Nat.card (Fin k → F) = Nat.card F ^ (k - 1) * Nat.card F := by
    rw [Nat.card_fun, Nat.card_fin, ← pow_succ, Nat.sub_add_cancel j.pos]
  have hcard := Submodule.card_eq_card_quotient_mul_card (LinearMap.ker form)
  rw [hquot, hall] at hcard
  rw [hker]
  exact (Nat.eq_of_mul_eq_mul_right Nat.card_pos hcard).symm

variable (b : PendingBatch F n k) {o : Fin n → MacOpener F}

/-- Checking a random combination agrees with checking item by item up to the draw of the coefficients,
whatever the parties hold. For all coefficients the combined residuals of the parties sum to the negative
combination of the defects, and the verdict of all parties is whether that vanishes, as it is for the
coefficients that are drawn. So what passes item by item passes for all coefficients, and what has a
defect passes for one coefficient vector in as many as the field has elements. -/
theorem combined_check_agrees (ho : b.HeldBy o) :
    (∀ c : Fin k → F,
      ∑ i, combinedResidual (o i).key (o i).pending.toList (List.ofFn c) = -∑ j, c j * b.defect j ∧
      Verdict (checkCombinedBy fun _ _ => List.ofFn c) o (decide (∑ j, c j * b.defect j = 0))) ∧
    (∃ c : Fin k → F, drawCoefficients (tossedSeed fun i => (o i).rng) k = List.ofFn c ∧
      Verdict checkCombined o (decide (∑ j, c j * b.defect j = 0))) ∧
    Verdict checkEach o (decide (∀ j, b.defect j = 0)) ∧
    (Verdict checkEach o true →
      ∀ c : Fin k → F, Verdict (checkCombinedBy fun _ _ => List.ofFn c) o true) ∧
    ((∃ j, b.defect j ≠ 0) →
      Nat.card {c : Fin k → F // Verdict (checkCombinedBy fun _ _ => List.ofFn c) o true} =
        Nat.card F ^ (k - 1)) ∧
    Nat.card (Fin k → F) = Nat.card F ^ k := by
  have hcombined (c : Fin k → F) : Concur (checkCombinedBy fun _ _ => List.ofFn c) o
      (decide (∑ j, c j * b.defect j = 0)) := ho.concur_checkCombinedBy rfl
  obtain ⟨drawn, hdrawn, hcheck⟩ := ho.exists_concur_checkCombined
  refine ⟨fun c => ⟨?_, (hcombined c).verdict⟩, ⟨drawn, hdrawn, hcheck.verdict⟩,
    ho.concur_checkEach.verdict, fun heach c => ?_, fun hdefect => ?_, ?_⟩
  · simp only [ho.combinedResidual_eq]
    exact b.sum_combinedOf c
  · have hzero (j : Fin k) : b.defect j = 0 := by
      by_contra hj
      have hall := (ho.concur_checkEach.verdict_iff (pos_of_defect_ne_zero hj)).1 heach
      exact hj (of_decide_eq_true hall.symm j)
    have hsum : ∑ j, c j * b.defect j = 0 := Finset.sum_eq_zero fun j _ => by rw [hzero, mul_zero]
    rw [← decide_eq_true hsum]
    exact (hcombined c).verdict
  · rw [← card_linearForm_zero hdefect]
    obtain ⟨j, hj⟩ := hdefect
    refine Nat.card_congr (Equiv.subtypeEquivRight fun c => ?_)
    rw [(hcombined c).verdict_iff (pos_of_defect_ne_zero hj), eq_comm, decide_eq_true_iff]
  · rw [Nat.card_fun, Nat.card_fin]

/-- Two parties and two items, the first of which has an authentication share that is one too
large. -/
def tampered : PendingBatch Mersenne61 2 2 where
  key := ![3, 5]
  item := ![![⟨2, 10⟩, ⟨1, 4⟩], ![⟨2, 7⟩, ⟨1, 4⟩]]

/-- The openers of these parties. -/
def tamperedOpeners (i : Fin 2) : MacOpener Mersenne61 :=
  { MacOpener.create i (tampered.key i) {} (ChaCha.ofWord 0) with
    pending := (tampered.pending i).toArray }

theorem combined_check_agrees_tampered :
    tampered.HeldBy tamperedOpeners ∧ tampered.defect 0 ≠ 0 ∧
    Verdict checkEach tamperedOpeners false ∧
    Nat.card {c : Fin 2 → Mersenne61 //
      Verdict (checkCombinedBy fun _ _ => List.ofFn c) tamperedOpeners true} =
        Nat.card Mersenne61 ^ 1 := by
  have hheld : tampered.HeldBy tamperedOpeners := ⟨fun _ => rfl, fun _ => rfl, fun _ => rfl⟩
  have hdefect : tampered.defect 0 ≠ 0 := by decide
  obtain ⟨-, -, heach, -, hcount, -⟩ := combined_check_agrees tampered hheld
  rw [decide_eq_false fun hall => hdefect (hall 0)] at heach
  exact ⟨hheld, hdefect, heach, hcount ⟨0, hdefect⟩⟩

end Field

end PendingBatch

end Multiparty
