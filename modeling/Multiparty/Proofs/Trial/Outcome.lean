import Mathlib
import Multiparty.Proofs.Network.Limit
import Multiparty.Proofs.Ring.BinaryField
import Multiparty.Proofs.Ring.Mersenne
import Multiparty.Proofs.Trial.Payloads

/-!
# When a trial succeeds

The dealer of a trial deals random pairs and as many triples, so on a network that carries whatever
they send the programs of all parties go on in step and open the expected products. The network
limits payloads, however, and no party succeeds that has to send one beyond the limit. So a trial of
parties that have been set up succeeds exactly if a party is on its own or all payloads are within
the limit.

## Main definitions

* `Trial.network`, `Trial.sessions`: where and what the parties of a trial compute.
* `Trial.FieldChoice.width`: how long the elements of a field are.

## Main results

* `Sharing.SoundPlan.exists_pairs`: the dealer deals valid sharings of random pairs.
* `Processor.Joint.program`: the programs of all parties go on in step.
* `Suite.Lawful.judge_eq_success_iff`: when the parties of a suite succeed.
* `Trial.run_eq_success_iff`, `Trial.run_ne_ok_binary64`: when a trial succeeds, and one that does not.
-/

namespace Multiparty

open Multiparty.Action (Sends Succeed)

/-! ### The pairs of a trial -/

namespace Sharing.SoundPlan

variable {P G S R K : Type} [DealingPlan P S R K] [LinearShare S R K] [CodedRing R] [WordSource G]
  {n : Nat} {V : Sharing S n} {d : Dealer P G}

/-- A pair that a dealer deals, with its product: both factors are shared as valid sharings. -/
theorem dealPair (h : V.SoundPlan d.plan) : ∃ g : V.Shared × V.Shared,
    (Trial.dealPair d : (R × List (S × S)) × Dealer P G).1 =
      (g.1.value * g.2.value, List.ofFn fun i => (g.1.shares i, g.2.shares i)) := by
  let x : R × Dealer P G := d.randomValue
  let y : R × Dealer P G := x.2.randomValue
  obtain ⟨xs, hxs, hvalidX⟩ := h.share (d := y.2) x.1
  obtain ⟨ys, hys, hvalidY⟩ := h.share (d := (y.2.share x.1).2) y.1
  refine ⟨(⟨xs, x.1, hvalidX⟩, ⟨ys, y.1, hvalidY⟩), ?_⟩
  change (x.1 * y.1, (y.2.share x.1).1.zip ((y.2.share x.1).2.share y.1).1) = _
  rw [hxs, hys]
  refine congrArg (x.1 * y.1, ·) (List.ext_getElem (by simp) fun i hi hi' => ?_)
  simp

/-- The pairs that a dealer deals, with their products. -/
theorem exists_pairs (h : V.SoundPlan d.plan) (batchSize : Nat) :
    ∃ gs : List (V.Shared × V.Shared), gs.length = batchSize ∧
      (WordSource.replicate Trial.dealPair batchSize d).1 = gs.map fun g =>
        (g.1.value * g.2.value, List.ofFn fun i => (g.1.shares i, g.2.shares i)) := by
  obtain ⟨gs, hgs, hlength, -⟩ := WordSource.exists_replicate
    (fun d' : Dealer P G => V.SoundPlan d'.plan)
    (fun g : V.Shared × V.Shared =>
      (g.1.value * g.2.value, List.ofFn fun i => (g.1.shares i, g.2.shares i)))
    (fun _ => True) (fun _ h' => ⟨h', h'.dealPair.imp fun _ hg => ⟨hg, trivial⟩⟩) batchSize h
  exact ⟨gs, hlength, hgs⟩

end Sharing.SoundPlan

/-- The programs of all parties go on in step and open the products. -/
theorem Processor.Joint.program {O S R K : Type} [Opener O S R] [LinearShare S R K] [CodedRing R]
    [LawfulRing R] {n : Nat} {J : JointOpening O n} {p : Fin n → Processor O S R K}
    (gs : List (J.Shared × J.Shared)) (h : Joint J p gs.length) :
    Succeed (fun i => (Trial.program (gs.map fun g => (g.1.shares i, g.2.shares i)) :
        Action (Processor O S R K) (List R))) p
      fun _ a => a = fun _ => gs.map fun g => g.1.value * g.2.value := by
  rw [← Nat.zero_add gs.length] at h
  refine Succeed.bind (h.mul gs) ?_
  rintro p₁ _ ⟨h₁, products, hvalues, rfl⟩
  refine Succeed.bind (h₁.openShares products) ?_
  rintro p₂ _ ⟨h₂, rfl⟩
  exact Succeed.bind h₂.check fun _ _ _ => Succeed.pure (hvalues ▸ rfl)

/-! ### The verdict -/

namespace Trial

section Verdict

variable {P O S R K G : Type} [DealingPlan P S R K] [Opener O S R] [LinearShare S R K]
  [CodedRing R] [WordSource G] {n : Nat}

/-- The network of a trial of so many parties. -/
def network (n : Nat) : Network :=
  { Network.create n [] Frame.fits with closesWhenDone := true }

theorem idle_network (n : Nat) : (network n).Idle n :=
  let h := Network.idle_create n Frame.fits
  ⟨h.connect, h.empty, h.closed, h.faults, h.traces⟩

theorem plain_network (n : Nat) : (network n).Plain n Frame.fits := ⟨rfl, rfl, rfl⟩

/-- What the parties of a trial compute, each with its place among the players. -/
def sessions (setup : Fin n → PartySetup O S R K) (inputs : Fin n → List (S × S)) :
    List (Nat × Session (Processor O S R K) (Except ProtocolError (List R))) :=
  List.ofFn fun i => (i.val,
    (program (inputs i)).run ⟨i, n⟩ (Processor.create (setup i).opener (setup i).supply))

private theorem outcomes_ofFn (setup : Fin n → PartySetup O S R K)
    (inputs : Fin n → List (S × S)) : outcomes (List.ofFn setup) (List.ofFn inputs) =
      ((network n).run (sessions setup inputs)).1.map Task.result? := by
  have hsessions : ((List.ofFn setup).zip (List.ofFn inputs)).mapIdx
      (fun i (x : PartySetup O S R K × List (S × S)) => (i, program x.2 ⟨i, n⟩
        (Processor.create x.1.opener x.1.supply))) = sessions setup inputs := by
    refine List.ext_getElem ?_ fun i hi hi' => ?_
    · rw [sessions, List.length_mapIdx, List.length_zip, List.length_ofFn, List.length_ofFn,
        Nat.min_self, List.length_ofFn]
    · simp only [sessions, List.getElem_mapIdx, List.getElem_zip, List.getElem_ofFn]
      rfl
  rw [outcomes, List.length_ofFn]
  exact congrArg (fun l => ((network n).run l).1.map Task.result?) hsessions

private theorem mapM_id_eq_some_iff {α : Type} {l : List (Option α)} {as : List α} :
    l.mapM id = some as ↔ l = as.map some := by
  induction l generalizing as with
  | nil => cases as <;> simp
  | cons o l ih =>
    rw [List.mapM_cons]
    rcases o with - | a
    · cases as <;> simp
    cases htail : l.mapM id with
    | none =>
      have hne (bs : List α) : l ≠ bs.map some := fun h => by
        rw [ih.2 h] at htail
        cases htail
      cases as <;> simp [hne]
    | some bs =>
      obtain rfl := ih.1 htail
      cases as <;> simp [List.map_inj_right (fun _ _ => Option.some.inj)]

private theorem complaints_eq_nil_iff {expected : List R}
    {results : List (Except ProtocolError (List R))} :
    complaints expected results = [] ↔ ∀ result ∈ results, result = .ok expected := by
  have hforall : (∀ result ∈ results.zipIdx.map Prod.fst, result = .ok expected) ↔
      ∀ x ∈ results.zipIdx, x.1 = .ok expected := List.forall_mem_map
  rw [List.zipIdx_map_fst] at hforall
  rw [hforall, complaints, List.filterMap_eq_nil_iff]
  refine forall₂_congr fun x _ => ?_
  obtain ⟨e | products, party⟩ := x
  · simp
  · simp

/-- There is nothing to complain of if all parties have come to the expected products. -/
private theorem exists_complaints_eq_nil_iff {expected : List R}
    {outcomes : List (Option (Except ProtocolError (List R)))} :
    (∃ results, outcomes.mapM id = some results ∧ complaints expected results = []) ↔
      ∀ outcome ∈ outcomes, outcome = some (.ok expected) := by
  simp only [mapM_id_eq_some_iff, complaints_eq_nil_iff]
  constructor
  · rintro ⟨results, rfl, hall⟩
    exact List.forall_mem_map.2 fun result hresult => congrArg some (hall result hresult)
  · intro hall
    refine ⟨outcomes.map fun _ => .ok expected, ?_, List.forall_mem_map.2 fun _ _ => rfl⟩
    rw [List.map_map]
    exact (List.map_id outcomes).symm.trans (List.map_congr_left hall)

/-- A trial is judged a success if all parties have come to the expected products. -/
theorem judge_eq_success_iff_results (settings : Settings) (dealer : Dealer P G)
    (setup : Fin n → PartySetup O S R K) {expected : List R} {inputs : Fin n → List (S × S)}
    (hexpected : (WordSource.replicate dealPair settings.batchSize dealer).1.map (·.1) = expected)
    (hinputs : ∀ i : Fin n, Bundle.column i
      ((WordSource.replicate dealPair settings.batchSize dealer).1.map (·.2)) = inputs i) :
    judge settings dealer (List.ofFn setup) =
        ([.success settings.scheme settings.parties settings.batchSize], .ok ()) ↔
      ∀ task ∈ ((network n).run (sessions setup inputs)).1, task.result? = some (.ok expected) := by
  have hcolumns : (List.range (List.ofFn setup).length).map (fun party => Bundle.column party
      ((WordSource.replicate dealPair settings.batchSize dealer).1.map (·.2))) =
        List.ofFn inputs := by
    rw [List.length_ofFn, ← List.map_coe_finRange_eq_range, List.map_map, List.ofFn_eq_map]
    exact List.map_congr_left fun i _ => hinputs i
  have houtcomes (tasks : List (Task (Processor O S R K) (Except ProtocolError (List R)))) :
      (∀ outcome ∈ tasks.map Task.result?, outcome = some (.ok expected)) ↔
        ∀ task ∈ tasks, task.result? = some (.ok expected) := List.forall_mem_map
  rw [judge, ← houtcomes, ← exists_complaints_eq_nil_iff]
  simp only [hcolumns, hexpected, outcomes_ofFn]
  cases (((network n).run (sessions setup inputs)).1.map Task.result?).mapM id with
  | none => simp
  | some results => cases hcomplaints : complaints expected results <;> simp [hcomplaints]

/-- A trial that is judged well reports its success. -/
private theorem judge_eq_success_of_ok {settings : Settings} {dealer : Dealer P G}
    {setups : List (PartySetup O S R K)} (h : (judge settings dealer setups).2 = .ok ()) :
    judge settings dealer setups =
      ([.success settings.scheme settings.parties settings.batchSize], .ok ()) := by
  rw [judge] at h ⊢
  split at h
  · cases h
  · split at h
    · rfl
    · cases h

end Verdict

/-- A trial that is not refused has parties that are set up, and is judged by what they come to. -/
private theorem exists_runSuite_eq_judge {X : Suite} {settings : Settings} {config : ProtocolConfig}
    (h : ∀ fault, (runSuite X settings config).2 ≠ .error (.refused fault)) :
    ¬ (X.scheme = .replicated3 ∧ settings.parties ≠ replicatedParties) ∧
      ∃ (dealer : Dealer X.P ChaCha) (setups : List X.PartySetup),
        PartySetup.seeded settings.parties ⟨settings.batchSize, 0, 0⟩ config settings.seed =
          .ok (dealer, setups) ∧
        runSuite X settings config = judge settings dealer setups := by
  rw [runSuite] at h ⊢
  split at h
  · exact absurd rfl (h _)
  next hscheme =>
    dsimp only at h ⊢
    split at h
    · exact absurd rfl (h _)
    next dealer setups hseeded =>
      exact ⟨hscheme, dealer, setups, hseeded, if_neg hscheme⟩

end Trial

/-! ### The parties of a suite -/

/-- The parties that have been set up own the bundles that the dealer of the plan has dealt. -/
theorem PartySetup.of_seeded {P O S R K : Type} [Deployment P O S R K] [DealingPlan P S R K]
    [LinearShare S R K] [CodedRing R] {parties : Nat} {counts : PreprocessingCounts}
    {config : ProtocolConfig} {seed : UInt64} {dealer : Dealer P ChaCha}
    {setups : List (PartySetup O S R K)}
    (h : seeded parties counts config seed = .ok (dealer, setups)) :
    ∃ (d : Dealer P ChaCha) (bundles : List (Bundle S R K)),
      Deployment.plan O parties config (ChaCha.ofWord seed) = .ok d ∧
      Bundle.tryDeal counts d = .ok (bundles, dealer) ∧
      List.Forall₂ (fun b setup => ofBundle P parties config seed b = .ok setup) bundles setups := by
  obtain ⟨d, hplan, h⟩ := exists_of_bind_eq_ok h
  obtain ⟨⟨bundles, dealer'⟩, hdeal, h⟩ := exists_of_bind_eq_ok h
  obtain ⟨setups', hsetups, h⟩ := exists_of_bind_eq_ok h
  obtain ⟨rfl, rfl⟩ := Prod.mk.inj (Except.ok.inj h)
  exact ⟨d, bundles, hplan, hdeal, forall₂_of_mapM hsetups⟩

namespace Suite.Lawful

variable {parties n : Nat} {config : ProtocolConfig} {X : Suite}
  {starts : X.Bundle → X.PartySetup → Prop} {G : Type} [WordSource G] {g : G}
  {d dealer : Dealer X.P G} {bundle : Fin n → X.Bundle} {setup : Fin n → X.PartySetup}

/-- What the parties of a trial compute on, and what they are expected to open. Their programs go on
in step, and the trial is a success if all of them come to the expected products. -/
private theorem exists_inputs (hX : X.Lawful parties config starts) (hn : 0 < n)
    (settings : Trial.Settings) (hplan : Deployment.plan X.O parties config g = .ok d)
    (hdeal : Bundle.tryDeal ⟨settings.batchSize, 0, 0⟩ d = .ok (List.ofFn bundle, dealer))
    (hsetup : ∀ i, starts (bundle i) (setup i)) :
    ∃ (inputs : Fin n → List (X.S × X.S)) (expected : List X.R),
      (∀ i, (inputs i).length = settings.batchSize) ∧ (∀ i, (bundle i).party = i) ∧
      Succeed (fun i => (Trial.program (inputs i) : Action X.Processor (List X.R)))
        (fun i => Processor.create (setup i).opener (setup i).supply)
        (fun _ a => a = fun _ => expected) ∧
      (Trial.judge settings dealer (List.ofFn setup) =
          ([.success settings.scheme settings.parties settings.batchSize], .ok ()) ↔
        ∀ task ∈ ((Trial.network n).run (Trial.sessions setup inputs)).1,
          task.result? = some (.ok expected)) := by
  have := hX.isStandard.lawfulRing
  obtain ⟨J, hopeners, hsupply, hsound⟩ := hX.ready hn hplan hdeal hsetup
  obtain ⟨gs, hlength, hrows⟩ := hsound.exists_pairs settings.batchSize
  obtain ⟨hsame, -, -, hdealt⟩ := Bundle.of_tryDeal hdeal
  obtain ⟨-, hparty, -⟩ := (hsame ▸ hsound).stocked_of_deal hdealt
  have hprocessor : Processor.Joint J
      (fun i => Processor.create (setup i).opener (setup i).supply) gs.length :=
    ⟨⟨[], [], hopeners⟩, hlength ▸ hsupply⟩
  refine ⟨fun i => gs.map fun g => (g.1.shares i, g.2.shares i),
    gs.map fun g => g.1.value * g.2.value, fun i => (List.length_map _).trans hlength, hparty,
    hprocessor.program gs, Trial.judge_eq_success_iff_results settings dealer setup ?_ fun i => ?_⟩
  · rw [hrows, List.map_map]
    rfl
  · rw [hrows, List.map_map]
    exact Sharing.column_map_ofFn gs (fun g i => (g.1.shares i, g.2.shares i)) i

/-- Parties of a suite that have been set up succeed in a trial if and only if a party is on its own
or all payloads are within the limit. -/
theorem judge_eq_success_iff (hX : X.Lawful parties config starts) (hn : 0 < n)
    (settings : Trial.Settings) (hplan : Deployment.plan X.O parties config g = .ok d)
    (hdeal : Bundle.tryDeal ⟨settings.batchSize, 0, 0⟩ d = .ok (List.ofFn bundle, dealer))
    (hsetup : ∀ i, starts (bundle i) (setup i))
    (hwidth : seedSize + seedSize + CodedRing.width X.R + 5 ≤ Frame.maxBody) :
    Trial.judge settings dealer (List.ofFn setup) =
        ([.success settings.scheme settings.parties settings.batchSize], .ok ()) ↔
      n = 1 ∨ ∀ l ∈ Trial.longPayloads X.scheme (CodedRing.width X.R) settings.batchSize config,
        l + 5 ≤ Frame.maxBody := by
  obtain ⟨inputs, expected, hlength, hparty, hprogram, hjudge⟩ :=
    hX.exists_inputs hn settings hplan hdeal hsetup
  have hsends (talks : Prop) (i : Fin n) (htalks : talks → 1 < n ∧ i.val = 0) :
      Sends talks (seedSize + seedSize + CodedRing.width X.R) (Trial.program (inputs i)) ⟨i, n⟩
        (Processor.create (setup i).opener (setup i).supply)
        (Trial.longPayloads X.scheme (CodedRing.width X.R) settings.batchSize config)
        fun _ _ => True := by
    rw [← hlength i]
    exact hX.sends_program (hsetup i) (by omega)
      (fun h => ⟨(htalks h).1, (htalks h).2, (hparty i).trans (htalks h).2⟩) (inputs i)
  rw [hjudge]
  constructor
  · intro hall
    refine or_iff_not_imp_left.2 fun hothers l hl => ?_
    -- The first party talks to others in every scheme.
    have hfirst := hsends True ⟨0, hn⟩ fun _ => ⟨by omega, rfl⟩
    have hconveys := (Trial.plain_network n).run (Trial.sessions setup inputs)
    have hsessions : 0 < (Trial.sessions setup inputs).length := by
      rw [Trial.sessions, List.length_ofFn]
      exact hn
    have hconvey := hconveys.get hsessions (hconveys.length_eq ▸ hsessions)
    by_cases hlong : seedSize + seedSize + CodedRing.width X.R < l
    · simp only [Trial.sessions, List.get_ofFn] at hconvey
      obtain ⟨payload, rfl, hfits⟩ := hconvey.fits_of_sends hfirst
        (hall _ (List.get_mem ..)) hl hlong
      exact (Frame.fits_iff payload).1 hfits
    · omega
  · intro hfits
    obtain ⟨s, a, net', hrun, rfl⟩ := Network.run_succeed_within (Trial.idle_network n) hprogram
      (fun i => hsends False i False.elim) fun hothers payload hpayload => by
        refine (Frame.fits_iff payload).2 ?_
        rcases hpayload with hshort | hlong
        · omega
        · exact hfits.resolve_left (by omega) _ hlong
    intro task htask
    rw [Trial.sessions, hrun] at htask
    obtain ⟨i, rfl⟩ := List.mem_ofFn.1 htask
    rfl

/-- There is a bundle for every party, unless replicated shares are asked for among another number of
parties than they have. -/
private theorem length_keys (hX : X.Lawful parties config starts)
    (hplan : Deployment.plan X.O parties config g = .ok d)
    (hparties : X.scheme = .replicated3 → parties = replicatedParties) :
    (DealingPlan.keys d.plan).length = parties := by
  cases hX with
  | authenticated F =>
    change (if isAddressable parties (CodedRing.width F) then Except.ok (MacPlan.create parties g)
      else .error SetupFault.tooLarge) = _ at hplan
    split at hplan
    · obtain rfl := Except.ok.inj hplan
      exact MacPlan.parties_create (R := F) parties g
    · cases hplan
  | replicated R => exact (hparties rfl).symm
  | threshold F => exact List.length_replicate.trans (ThresholdPlan.eq_of_plan hplan).1

/-- A trial of a suite whose parties are set up succeeds if and only if a party is on its own or all
payloads are within the limit. -/
theorem runSuite_eq_success_iff {settings : Trial.Settings}
    (hX : X.Lawful settings.parties config starts) (hstarts : ∀ b setup,
      PartySetup.ofBundle X.P settings.parties config settings.seed b = .ok setup → starts b setup)
    (hparties : 0 < settings.parties)
    (hwidth : seedSize + seedSize + CodedRing.width X.R + 5 ≤ Frame.maxBody)
    (haccepted : ∀ fault, (Trial.runSuite X settings config).2 ≠ .error (.refused fault)) :
    Trial.runSuite X settings config =
        ([.success settings.scheme settings.parties settings.batchSize], .ok ()) ↔
      settings.parties = 1 ∨
        ∀ l ∈ Trial.longPayloads X.scheme (CodedRing.width X.R) settings.batchSize config,
          l + 5 ≤ Frame.maxBody := by
  obtain ⟨hscheme, dealer, setups, hseeded, hrun⟩ := Trial.exists_runSuite_eq_judge haccepted
  obtain ⟨d, bundles, hplan, hdeal, hsetups⟩ := PartySetup.of_seeded hseeded
  obtain ⟨n, bundle, rfl⟩ : ∃ (n : Nat) (bundle : Fin n → X.Bundle),
      bundles = List.ofFn bundle := ⟨_, bundles.get, (List.ofFn_get bundles).symm⟩
  obtain ⟨setup, rfl⟩ := exists_eq_ofFn (hsetups.length_eq.symm.trans List.length_ofFn)
  have hsetup (i : Fin n) : starts (bundle i) (setup i) := by
    have hi := hsetups.get (i := i) (by simp) (by simp)
    rw [List.get_ofFn, List.get_ofFn] at hi
    exact hstarts _ _ hi
  have hn : n = settings.parties := (Bundle.of_tryDeal hdeal).2.1.symm.trans
    (hX.length_keys hplan fun h => not_not.1 fun hne => hscheme ⟨h, hne⟩)
  have hjudge := hX.judge_eq_success_iff (hn ▸ hparties) settings hplan hdeal hsetup hwidth
  rwa [hrun, ← show n = 1 ↔ settings.parties = 1 by rw [hn]]

end Suite.Lawful

/-- Every scheme over a field, with what its parties are set up with. -/
theorem Suite.exists_lawful (F : Type) [CodedField F] [LawfulField F] (scheme : SharingScheme)
    (parties : Nat) (config : ProtocolConfig) (seed : UInt64) :
    ∃ starts, (Suite.ofField F scheme).Lawful parties config starts ∧ ∀ b setup,
      PartySetup.ofBundle (Suite.ofField F scheme).P parties config seed b = .ok setup →
        starts b setup := by
  cases scheme with
  | additiveMac =>
    refine ⟨_, .authenticated F, fun b setup h => ?_⟩
    obtain rfl := Except.ok.inj h
    exact ⟨_, rfl⟩
  | replicated3 =>
    have := LawfulField.toLawfulRing (F := F)
    exact ⟨_, .replicated F, fun b setup h => (Except.ok.inj h).symm⟩
  | shamirThreshold =>
    refine ⟨_, .threshold F, fun b setup h => ?_⟩
    obtain ⟨opener, hopener, h⟩ := exists_of_bind_eq_ok h
    exact ⟨opener, hopener, (Except.ok.inj h).symm⟩

private theorem Bundle.party_lt_of_deal {P S R K G : Type} [DealingPlan P S R K] [LinearShare S R K]
    [CodedRing R] [WordSource G] {counts : PreprocessingCounts} {d : Dealer P G} {b : Bundle S R K}
    (hb : b ∈ (deal counts d).1) : b.party < (DealingPlan.keys d.plan).length := by
  rw [deal] at hb
  obtain ⟨party, hparty, rfl⟩ := List.mem_mapIdx.1 hb
  exact hparty

/-- The parties are set up if neither plan nor material nor any opener is refused. -/
private theorem PartySetup.exists_seeded {P O S R K : Type} [Deployment P O S R K]
    [DealingPlan P S R K] [LinearShare S R K] [CodedRing R] {parties : Nat}
    {counts : PreprocessingCounts} {config : ProtocolConfig} {seed : UInt64}
    {d : Dealer P ChaCha} (hplan : Deployment.plan O parties config (ChaCha.ofWord seed) = .ok d)
    (haddressable : Bundle.areAddressable S (DealingPlan.parties d.plan) counts = true)
    (hsetups : ∀ b ∈ (Bundle.deal counts d : List (Bundle S R K) × Dealer P ChaCha).1,
      ∃ setup : PartySetup O S R K, ofBundle P parties config seed b = .ok setup) :
    ∃ dealt : Dealer P ChaCha × List (PartySetup O S R K),
      seeded parties counts config seed = .ok dealt := by
  obtain ⟨setups, hmapM⟩ := exists_mapM_eq_ok hsetups
  refine ⟨((Bundle.deal counts d).2, setups), ?_⟩
  rw [seeded, deal, hplan]
  change (Bundle.tryDeal counts d >>= fun x => _) = _
  rw [Bundle.tryDeal, if_pos haddressable]
  change ((Bundle.deal counts d).1.mapM (ofBundle P parties config seed) >>= fun setups => _) = _
  rw [hmapM]
  rfl

namespace Trial

/-- How long the elements of a field are, in bytes. -/
def FieldChoice.width : FieldChoice → Nat
  | .mersenne61 => CodedRing.width Mersenne61
  | .mersenne127 => CodedRing.width Mersenne127
  | .binary64 => CodedRing.width Binary64

section OfField

variable (F : Type) [CodedField F] [LawfulField F] {settings : Settings} {config : ProtocolConfig}

private theorem runSuite_ofField_eq_success_iff
    (hparties : 0 < settings.parties)
    (hwidth : seedSize + seedSize + CodedRing.width F + 5 ≤ Frame.maxBody)
    (haccepted : ∀ fault,
      (runSuite (Suite.ofField F settings.scheme) settings config).2 ≠ .error (.refused fault)) :
    runSuite (Suite.ofField F settings.scheme) settings config =
        ([.success settings.scheme settings.parties settings.batchSize], .ok ()) ↔
      settings.parties = 1 ∨
        ∀ l ∈ longPayloads settings.scheme (CodedRing.width F) settings.batchSize config,
          l + 5 ≤ Frame.maxBody := by
  have hsame : CodedRing.width (Suite.ofField F settings.scheme).R = CodedRing.width F := by
    cases settings.scheme <;> rfl
  obtain ⟨starts, hX, hstarts⟩ :=
    Suite.exists_lawful F settings.scheme settings.parties config settings.seed
  have hrun := hX.runSuite_eq_success_iff hstarts hparties (hsame ▸ hwidth) haccepted
  rwa [hsame, Suite.scheme_ofField] at hrun

end OfField

/-- A trial is not refused whose parties are set up. -/
private theorem runSuite_ne_refused {X : Suite} {settings : Settings} {config : ProtocolConfig}
    (hscheme : ¬ (X.scheme = .replicated3 ∧ settings.parties ≠ replicatedParties))
    (hseeded : ∃ dealt : Dealer X.P ChaCha × List X.PartySetup,
      PartySetup.seeded settings.parties ⟨settings.batchSize, 0, 0⟩ config settings.seed = .ok dealt)
    (fault : SetupFault) : (runSuite X settings config).2 ≠ .error (.refused fault) := by
  obtain ⟨⟨dealer, setups⟩, hseeded⟩ := hseeded
  rw [runSuite, if_neg hscheme]
  simp only [hseeded]
  rw [judge]
  split
  · nofun
  · split <;> nofun

/-- A trial whose parties are not refused succeeds, all parties opening the expected products, if and
only if a party is on its own or all payloads are so short that their frames are within the
limit. -/
theorem run_eq_success_iff (settings : Settings) (config : ProtocolConfig)
    (hparties : 0 < settings.parties)
    (haccepted : ∀ fault, (run settings config).2 ≠ .error (.refused fault)) :
    run settings config =
        ([.success settings.scheme settings.parties settings.batchSize], .ok ()) ↔
      settings.parties = 1 ∨
        ∀ l ∈ longPayloads settings.scheme settings.field.width settings.batchSize config,
          l + 5 ≤ Frame.maxBody := by
  rw [run] at haccepted ⊢
  cases hfield : settings.field <;> simp only [hfield] at haccepted ⊢
  · exact runSuite_ofField_eq_success_iff Mersenne61 hparties (by decide) haccepted
  · exact runSuite_ofField_eq_success_iff Mersenne127 hparties (by decide) haccepted
  · exact runSuite_ofField_eq_success_iff Binary64 hparties (by decide) haccepted

/-- By default a trial succeeds. -/
theorem run_eq_success_iff_default : run {} {} = ([.success .additiveMac 3 1000], .ok ()) := by
  have hseeded : ∃ dealt : Dealer (MacPlan Mersenne127) ChaCha ×
      List (PartySetup (MacOpener Mersenne127) (MacShare Mersenne127) Mersenne127 Mersenne127),
      PartySetup.seeded 3 ⟨1000, 0, 0⟩ {} 0 = .ok dealt := by
    refine PartySetup.exists_seeded (d := MacPlan.create 3 (ChaCha.ofWord 0)) (if_pos (by decide))
      ?_ fun _ _ => ⟨_, rfl⟩
    rw [MacPlan.parties_create]
    decide
  have haccepted : ∀ fault, (runSuite (Suite.ofField Mersenne127 .additiveMac) {} {}).2 ≠
      .error (.refused fault) := runSuite_ne_refused (by decide) hseeded
  exact (run_eq_success_iff {} {} (by decide) haccepted).2 (.inr (by decide))

/-- Two parties who multiply half a mebi of pairs over a field with elements of eight bytes are set up
but do not succeed: the differences that they open are eight mebibytes already without a frame. -/
theorem run_ne_ok_binary64 :
    let settings : Settings :=
      { scheme := .shamirThreshold, parties := 2, batchSize := 524288, field := .binary64 }
    (∀ fault, (run settings {}).2 ≠ .error (.refused fault)) ∧ (run settings {}).2 ≠ .ok () := by
  intro settings
  have hseeded : ∃ dealt : Dealer (ThresholdPlan Binary64) ChaCha ×
      List (PartySetup (ThresholdOpener Binary64) (ThresholdShare Binary64) Binary64 Unit),
      PartySetup.seeded 2 ⟨524288, 0, 0⟩ {} 0 = .ok dealt := by
    refine PartySetup.exists_seeded (d := ⟨⟨2, 0, by decide⟩, ChaCha.ofWord 0⟩) rfl (by decide) ?_
    intro b hb
    obtain ⟨opener, hopener⟩ : ∃ opener : ThresholdOpener Binary64,
        ThresholdOpener.create b.party 2 0 true = .ok opener := by
      rcases Nat.le_one_iff_eq_zero_or_eq_one.1 (Nat.le_of_lt_succ (Bundle.party_lt_of_deal hb)) with
        hparty | hparty <;> exact ⟨_, by rw [hparty]; rfl⟩
    refine ⟨⟨opener, .ofBundle b⟩, ?_⟩
    change (ThresholdOpener.create b.party 2 0 true >>= fun opener => _) = _
    rw [hopener]
    rfl
  have haccepted : ∀ fault, (runSuite (Suite.ofField Binary64 settings.scheme) settings {}).2 ≠
      .error (.refused fault) := runSuite_ne_refused (by decide) hseeded
  refine ⟨haccepted, fun h => ?_⟩
  obtain ⟨-, dealer, setups, -, hrun⟩ := exists_runSuite_eq_judge haccepted
  have hsuccess := hrun.trans (judge_eq_success_of_ok (hrun ▸ h))
  have hiff := runSuite_ofField_eq_success_iff Binary64 (Nat.succ_pos 1) (by decide) haccepted
  exact absurd ((hiff.1 hsuccess).resolve_left (by decide) 8388608 (by decide)) (by decide)

end Trial

end Multiparty
