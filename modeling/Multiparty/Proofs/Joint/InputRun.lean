import Mathlib
import Multiparty.Proofs.Joint.Inputs
import Multiparty.Proofs.Network.Progress
import Multiparty.Proofs.Ring.Mersenne
import Multiparty.Proofs.Suite
import Multiparty.Proofs.Transcript

/-!
# Runs of input sharing

Parties that were dealt material by one plan share their inputs over any network that carries what
they send, under any schedule. Their openers may be in any state, since inputs are shared without
opening anything, and their supplies may have served anything, as long as all parties have taken the
same number of masks of every owner.

What a party sends does not need any of this. Its plain masks are on a stack of their own, which the
masks of other owners do not touch, so each input meets the plain mask at the top of it whatever the
network answers.

## Main definitions

* `Processor.differences`: what a party broadcasts in calls in sequence.
* `Suite.Openers`: the openers of all parties, with the sharings to which they put in public values.
* `Suite.Supplied`: the processors of all parties with material of one plan.

## Main results

* `Processor.ensures_inputAll`: the differences are all that a party sends.
* `Suite.Supplied.share_inputs`: calls of all parties give valid sharings of all inputs.
-/

namespace Multiparty

open Multiparty.Action (Ensures)

namespace Supply

variable {S R K : Type}

/-- A plain value is the next one of the own stack. -/
theorem plainMasks_of_inputMask {s s' : Supply S R K} {owner : Nat} {x : S} {plain : R}
    (h : s.inputMask owner = (.ok (x, some plain), s')) :
    s.plainMasks = plain :: s'.plainMasks ∧ s'.party = s.party := by
  rw [inputMask] at h
  split at h
  · cases h
  · cases h
  dsimp only at h
  split at h
  · split at h
    · next hplain =>
      cases h
      exact ⟨hplain, rfl⟩
    · cases h
  · cases h

/-- The masks of other owners do not touch the own stack. -/
theorem plainMasks_inputMask_of_ne {s : Supply S R K} {owner : Nat} (hne : owner ≠ s.party) :
    (s.inputMask owner).2.plainMasks = s.plainMasks ∧ (s.inputMask owner).2.party = s.party := by
  rw [inputMask]
  split
  · exact ⟨rfl, rfl⟩
  · exact ⟨rfl, rfl⟩
  · rw [if_neg hne]
    exact ⟨rfl, rfl⟩

end Supply

namespace Processor

variable {O S R K : Type}

section Bytes

variable [Opener O S R] [LinearShare S R K] [CodedRing R] {seat : Seat} {p p' : Processor O S R K}

/-- The differences of inputs, call by call, to the plain masks that are left. -/
def differences : (batches : List (List R)) → (plains : List R) → List (List R)
  | [], _ => []
  | values :: batches, plains =>
    List.zipWith (· - ·) values plains :: differences batches (plains.drop values.length)

/-- The processor has a supply of its party with these plain masks. -/
def HasPlains (me : Nat) (plains : List R) (p : Processor O S R K) : Prop :=
  p.multiplier.supply.party = me ∧ p.multiplier.supply.plainMasks = plains

private theorem hasPlains_of_maskInput {me : Nat} {value : R} {plains : List R} {a : S × R}
    (h : HasPlains me plains p) (hok : maskInput me value p = (.ok a, p')) :
    ∃ plain rest, plains = plain :: rest ∧ a.2 = value - plain ∧ HasPlains me rest p' := by
  obtain ⟨hparty, rfl⟩ := h
  rcases hmask : p.multiplier.supply.inputMask me with ⟨e | ⟨x, plain | plain⟩, s⟩ <;>
    simp only [maskInput, trySupply, tryMultiplier, Multiplier.ofSupply, Attempt.zoom, hmask] at hok
  · cases hok
  · cases hok
  · cases hok
    obtain ⟨hplains, hsame⟩ := Supply.plainMasks_of_inputMask hmask
    exact ⟨plain, s.plainMasks, hplains, rfl, hsame.trans hparty, rfl⟩

/-- What an owner has masked are its inputs less its plain masks. -/
private theorem forEach_maskInput_differences {me : Nat} {values plains : List R}
    {masked : List (S × R)} (h : HasPlains me plains p)
    (hok : Attempt.forEach (maskInput me) values p = (.ok masked, p')) :
    masked.map (·.2) = List.zipWith (· - ·) values plains ∧
      HasPlains me (plains.drop values.length) p' := by
  induction values generalizing p plains masked with
  | nil =>
    cases hok
    exact ⟨rfl, h⟩
  | cons value values ih =>
    rw [Attempt.forEach_cons] at hok
    rcases hfirst : maskInput me value p with ⟨e | a, p₁⟩ <;> rw [hfirst] at hok
    · cases hok
    obtain ⟨plain, rest, rfl, ha, h₁⟩ := hasPlains_of_maskInput h hfirst
    rcases hothers : Attempt.forEach (maskInput me) values p₁ with ⟨e | others, p₂⟩ <;>
      simp only [hothers] at hok
    · cases hok
    · cases hok
      obtain ⟨hmasked, h₂⟩ := ih h₁ hothers
      refine ⟨?_, h₂⟩
      rw [List.map_cons, hmasked, ha]
      rfl

private theorem hasPlains_sharesOfOwner {me owner : Nat} {plains : List R} (own : List S)
    (payload : Bytes) (h : HasPlains me plains p) :
    HasPlains me plains (sharesOfOwner me own payload owner p).2 := by
  rw [sharesOfOwner]
  split
  · exact h
  next hne =>
  split
  · exact h
  refine Attempt.invariant_forEach (HasPlains me plains) (fun delta p h => ?_) _ h
  obtain ⟨hparty, rfl⟩ := h
  have hother : owner ≠ p.multiplier.supply.party := by rwa [hparty]
  obtain ⟨hplains, hsame⟩ := Supply.plainMasks_inputMask_of_ne hother
  rcases hmask : p.multiplier.supply.inputMask owner with ⟨e | a, s⟩ <;>
    simp only [unmaskInput, trySupply, tryMultiplier, Multiplier.ofSupply, Attempt.zoom, hmask] <;>
    rw [hmask] at hplains hsame <;>
    exact ⟨hsame.trans hparty, hplains⟩

/-- Whatever the network answers, a party broadcasts nothing of its inputs but their differences to
the plain masks. -/
theorem ensures_input {plains : List R} (h : HasPlains seat.me plains p) (values : List R) :
    Ensures (input values) seat p fun t p' r =>
      t.map (·.call) <+: [.broadcast (encodeValues (List.zipWith (· - ·) values plains))] ∧
        ∀ shares, r = .ok shares →
          t.map (·.call) = [.broadcast (encodeValues (List.zipWith (· - ·) values plains))] ∧
            HasPlains seat.me (plains.drop values.length) p' := by
  refine Ensures.seat_bind (Ensures.bind (Ensures.ofAttempt ?_))
  rcases hmasked : Attempt.forEach (maskInput seat.me) values p with ⟨e | masked, p₁⟩
  · exact ⟨⟨_, rfl⟩, nofun⟩
  obtain ⟨hdifferences, h₁⟩ := forEach_maskInput_differences h hmasked
  dsimp only
  rw [hdifferences]
  refine Ensures.call_bind (fun payloads => ?_) fun e => ⟨List.prefix_rfl, nofun⟩
  refine Ensures.ofAttempt ⟨List.prefix_rfl, fun _ _ => ⟨rfl, ?_⟩⟩
  exact Attempt.invariant_forEach (HasPlains seat.me _)
    (fun q p h => hasPlains_sharesOfOwner _ q.1 h) _ h₁

/-- The same for calls in sequence. -/
theorem ensures_inputAll {plains : List R} (h : HasPlains seat.me plains p)
    (batches : List (List R)) : Ensures (inputAll batches) seat p fun t _ _ =>
      t.map (·.call) <+: (differences batches plains).map fun d => .broadcast (encodeValues d) := by
  induction batches generalizing p plains with
  | nil => exact Ensures.pure List.prefix_rfl
  | cons values batches ih =>
    refine Ensures.bind ((ensures_input h values).mono ?_)
    rintro t p' (e | shares) ⟨hcalls, hok⟩
    · exact hcalls.trans (List.prefix_append _ _)
    · obtain ⟨hcalls, h'⟩ := hok shares rfl
      refine Ensures.bind ((ih h').mono ?_)
      rintro t' p'' (e | others) hothers
      · rw [List.map_append, hcalls]
        exact (List.prefix_append_right_inj _).2 hothers
      · refine Ensures.pure ?_
        rw [List.append_nil, List.map_append, hcalls]
        exact (List.prefix_append_right_inj _).2 hothers

end Bytes

end Processor

/-- The openers of all parties in any state, each with the number of its party, and the sharings to
which they put in public values. -/
inductive Suite.Openers : (X : Suite) → {n : Nat} → (Fin n → X.O) → Sharing X.S n → Prop where
  | authenticated (F : Type) [CodedField F] [LawfulField F] {n : Nat} (hn : 0 < n)
      {o : Fin n → MacOpener F} (hparty : ∀ i, (o i).party = i) :
      Openers (.authenticated F) o (MacShare.sharing (∑ i, (o i).key) n)
  | replicated (R : Type) [CodedRing R] [LawfulRing R] {o : Fin 3 → ReplicatedOpener R}
      (hparty : ∀ i, (o i).party = i) :
      Openers (.replicated R) o (ReplicatedShare.sharing (R := R))
  | threshold (F : Type) [CodedField F] [LawfulField F] {n : Nat} (threshold : Nat)
      (o : Fin n → ThresholdOpener F) :
      Openers (.threshold F) o (ThresholdShare.sharing threshold n)

theorem Suite.Openers.constant {X : Suite} {n : Nat} {o : Fin n → X.O} {V : Sharing X.S n}
    (h : X.Openers o V) (v : X.R) : V.Valid (fun i => Opener.constant (o i) v) v := by
  cases h with
  | authenticated F hn hparty =>
    have hvalid := MacShare.valid_constant (R := F) hn (fun i => (o i).key) v
    simp only [← hparty] at hvalid
    exact hvalid
  | replicated R hparty =>
    have hvalid := ReplicatedShare.valid_constant (R := R) v
    simp only [← hparty] at hvalid
    exact hvalid
  | threshold F threshold o => exact ThresholdShare.valid_constant (F := F) threshold v

theorem Suite.Openers.isStandard {X : Suite} {n : Nat} {o : Fin n → X.O} {V : Sharing X.S n}
    (h : X.Openers o V) : X.IsStandard := by
  cases h with
  | authenticated F => exact .authenticated F
  | replicated R => exact .replicated R
  | threshold F => exact .threshold F

/-- The processors of all parties in any state. Of the material that was dealt to them the parties
have asked for the same number `used owner` of masks of every owner, and for anything else as they
liked. -/
structure Suite.Supplied (X : Suite) {n : Nat} (V : Sharing X.S n) (bundle : Fin n → X.Bundle)
    (used : Fin n → Nat) (p : Fin n → X.Processor) : Prop where
  openers : X.Openers (fun i => (p i).opener) V
  supplies : ∀ i, ∃ requests : List MaterialRequest,
    (p i).multiplier.supply = (Supply.ofBundle (bundle i)).serveAll requests ∧
      ∀ owner : Fin n, requests.count (.inputMask owner) = used owner

namespace Suite.Supplied

variable {X : Suite} {n : Nat} {V : Sharing X.S n} {bundle : Fin n → X.Bundle}
  {used taken : Fin n → Nat} {p : Fin n → X.Processor} {more : Fin n → List MaterialRequest}

theorem provided (h : X.Supplied V bundle used p) {stock : V.Stock}
    (hholds : ∀ i, stock.Holds i (bundle i)) : Processor.Provided stock used p where
  constant := h.openers.constant
  left i := by
    obtain ⟨requests, hsupply, hused⟩ := h.supplies i
    exact ⟨requests, hsupply ▸ (hholds i).left.serveAll requests, hused⟩

theorem serving (h : X.Supplied V bundle used p)
    (hmore : ∀ i, ∀ owner : Fin n, (more i).count (.inputMask owner) = taken owner) :
    X.Supplied V bundle (fun owner => used owner + taken owner)
      fun i => (p i).serving (more i) where
  openers := h.openers
  supplies i := by
    obtain ⟨requests, hsupply, hused⟩ := h.supplies i
    refine ⟨requests ++ more i, ?_, fun owner => ?_⟩
    · rw [Processor.supply_serving, hsupply, Supply.serveAll_append]
    · rw [List.count_append, hused, hmore]

/-- What is left of the masks of an owner. -/
private theorem remainingMasks_eq {counts : PreprocessingCounts} {stock : V.Stock}
    (hsound : stock.Sound counts) (h : Processor.Provided stock used p) (i owner : Fin n) :
    (p i).multiplier.supply.remainingMasks owner = counts.inputMasks - used owner := by
  obtain ⟨requests, hleft, hused⟩ := h.left i
  rw [← hsound.length_masksLeft, Supply.remainingMasks, List.getD_eq_getElem?_getD,
    hleft.inputMasks, hused, Sharing.Stock.masksLeft, List.getD_eq_getElem?_getD]
  cases stock.masks[(owner : Nat)]? <;> simp

variable {G : Type} [WordSource G] {plan : X.P} {source : G} {counts : PreprocessingCounts}

/-- **Inputs of all parties.** Let material be dealt by a plan of any scheme, and let the parties
have taken the same number of masks of every owner. All parties call for their inputs to be shared,
once or several times, with any numbers of inputs for which there are masks, on any idle network that
carries what they send and under any schedule. Every call succeeds at every party, and the parties
hold valid sharings of all inputs of every owner, in order. They have then taken one mask of an owner
for each of its inputs. Whatever network a party is connected to, the bytes that it sends are those of
the differences of its inputs to its plain masks. -/
theorem share_inputs (hplan : X.Plans plan V)
    (hdeal : (Bundle.deal counts ⟨plan, source⟩).1 = List.ofFn bundle)
    (h : X.Supplied V bundle used p) (batches : List (Fin n → List X.R))
    (hleft : ∀ owner, used owner + Processor.inputCount batches owner ≤ counts.inputMasks) :
    (∃ (p' : Fin n → X.Processor) (xs : List (Fin n → List V.Shared)),
      Network.AlwaysCarriesOut
        (fun i => (Processor.inputAll (batches.map (· i))).run ⟨i, n⟩ (p i)) p'
        (fun i => .ok (xs.map fun x => List.ofFn fun owner => (x owner).map (·.shares i))) ∧
      xs.map (fun x owner => (x owner).map (·.value)) = batches ∧
      X.Supplied V bundle (fun owner => used owner + Processor.inputCount batches owner) p' ∧
      ∀ i owner : Fin n, (p i).multiplier.supply.remainingMasks owner =
        (p' i).multiplier.supply.remainingMasks owner + Processor.inputCount batches owner) ∧
    ∀ (i : Fin n) answers, (((Processor.inputAll (batches.map (· i))).run ⟨i, n⟩ (p i)).transcript
        answers).map (·.call) <+:
      (Processor.differences (batches.map (· i)) (p i).multiplier.supply.plainMasks).map
        fun d => .broadcast (encodeValues d) := by
  have := h.openers.isStandard.lawfulRing
  obtain ⟨stock, dealt, hsound, hdealt, hholds, -⟩ :=
    hplan.sound.exists_stock (d := ⟨plan, source⟩) counts
  obtain rfl : bundle = dealt := List.ofFn_injective (hdeal.symm.trans hdealt)
  have hprovided := h.provided hholds
  refine ⟨?_, fun i answers => ?_⟩
  · have hmasks (owner : Fin n) := hsound.length_masks_getD owner
    obtain ⟨p', _, hcarries, _, rfl, more, xs, rfl, hmore, hvalues, rfl⟩ :=
      Lockstep.alwaysCarriesOut
        (hprovided.inputAll batches fun owner => (hleft owner).trans_eq (hmasks owner).symm)
    refine ⟨_, xs, hcarries, hvalues, h.serving hmore, fun i owner => ?_⟩
    rw [remainingMasks_eq hsound hprovided, remainingMasks_eq hsound (hprovided.serving hmore)]
    have := hleft owner
    omega
  · obtain ⟨requests, hrequests, -⟩ := hprovided.left i
    exact Processor.ensures_inputAll ⟨hrequests.party, rfl⟩ _ answers

section Example

/-- Two parties with a key share of one each. -/
private def pairPlan : MacPlan Mersenne61 := ⟨[1, 1]⟩

/-- What two parties start with. -/
private def pairOf (bundle : Fin 2 → (Suite.authenticated Mersenne61).Bundle) (i : Fin 2) :
    (Suite.authenticated Mersenne61).Processor :=
  Processor.create (MacOpener.create i 1 {} (ChaCha.ofWord 0)) (Supply.ofBundle (bundle i))

/-- One input of the first party and two of the second one, and then one more of the first one. -/
private def pairInputs : List (Fin 2 → List Mersenne61) :=
  [![[5], [9, 7]], ![[4], []]].map fun inputs i => (inputs i).map CodedRing.ofWord

/-- With two masks for each of them, two parties share all of these inputs. -/
theorem share_inputs_pair :
    ∃ (bundle : Fin 2 → (Suite.authenticated Mersenne61).Bundle)
      (p' : Fin 2 → (Suite.authenticated Mersenne61).Processor) (net' : Network)
      (xs : List (Fin 2 → List (MacShare.sharing pairPlan.key 2).Shared)),
      (Bundle.deal ⟨0, 0, 2⟩ ⟨pairPlan, ChaCha.ofWord 7⟩).1 = List.ofFn bundle ∧
      (Network.create 2 [] fun _ => true).run (List.ofFn fun i : Fin 2 =>
          (i.val, (Processor.inputAll (pairInputs.map (· i))).run ⟨i, 2⟩ (pairOf bundle i))) =
        (List.ofFn fun i => ⟨i, .done (p' i)
          (.ok (xs.map fun x => List.ofFn fun owner => (x owner).map (·.shares i))), .over⟩, net') ∧
      xs.map (fun x owner => (x owner).map (·.value)) = pairInputs := by
  have hplan := Plans.authenticated Mersenne61 Nat.two_pos (p := pairPlan) rfl
  obtain ⟨-, bundle, -, hdeal, -⟩ :=
    hplan.sound.exists_stock (d := ⟨pairPlan, ChaCha.ofWord 7⟩) ⟨0, 0, 2⟩
  have hkey : ∑ i, (pairOf bundle i).opener.key = pairPlan.key := rfl
  have hopeners := Openers.authenticated Mersenne61 Nat.two_pos
    (o := fun i => (pairOf bundle i).opener) fun _ => rfl
  rw [hkey] at hopeners
  have hsupplied : Supplied (.authenticated Mersenne61) (MacShare.sharing pairPlan.key 2) bundle
      (fun _ => 0) (pairOf bundle) := ⟨hopeners, fun _ => ⟨[], rfl, fun _ => rfl⟩⟩
  obtain ⟨⟨p', xs, hcarries, hvalues, -⟩, -⟩ := share_inputs hplan hdeal hsupplied pairInputs
    (by decide)
  obtain ⟨⟨net', hrun, -⟩, -⟩ := hcarries _ (Network.idle_create 2 _) Network.admits_unlimited
  exact ⟨bundle, p', net', xs, hdeal, hrun, hvalues⟩

end Example

end Suite.Supplied

end Multiparty
