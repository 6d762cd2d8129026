import Mathlib
import Multiparty.Proofs.Joint.Plans
import Multiparty.Proofs.Joint.Scheduling
import Multiparty.Proofs.Joint.Together

/-!
# Evaluation on shares refines evaluation in the clear

All parties run the circuit of the same script on shares that were dealt of some secrets. With
enough triples, on any network that carries what they send, every party comes to its end whatever the
schedule. The values opened on the way are those of the evaluation in the clear, and so are the values
of the shares that the parties end with: they can be opened, and a check afterwards passes.

## Main definitions

* `Suite.Lawful`: suites over clear domains that obey their laws.
* `Dealer.Shares`: the rows of shares that a dealer may deal of a secret.
* `Script.session`: how a party runs a script.
* `Processor.reveal`: how a party opens shares in the end.

## Main results

* `Suite.Lawful.run_script`: runs of scripts agree with the evaluation in the clear.
-/

namespace Multiparty

open Multiparty.Action (Succeed)

/-- A suite over a clear domain that obeys its laws, and what the owner of a bundle may start with.
The openers of authenticated sharing have any private randomness, and those of threshold sharing must
not be refused. -/
inductive Suite.Lawful (parties : Nat) (config : ProtocolConfig) :
    (X : Suite) → (starts : X.Bundle → X.PartySetup → Prop) → Prop where
  | authenticated (F : Type) [CodedField F] [LawfulField F] :
    Lawful parties config (.authenticated F) fun b setup =>
      ∃ rng, setup = ⟨MacOpener.create b.party b.key config rng, .ofBundle b⟩
  | replicated (R : Type) [CodedRing R] [LawfulRing R] :
    Lawful parties config (.replicated R) fun b setup =>
      setup = ⟨ReplicatedOpener.create b.party config.replicatedCheck, .ofBundle b⟩
  | threshold (F : Type) [CodedField F] [LawfulField F] :
    Lawful parties config (.threshold F) fun b setup =>
      ∃ opener, ThresholdOpener.create b.party parties (config.thresholdFor parties)
        config.maliciousThreshold = .ok opener ∧ setup = ⟨opener, .ofBundle b⟩

/-- The dealer may deal this row of shares of a secret, whatever its generator has come to. -/
def Dealer.Shares {P G S R K : Type} [DealingPlan P S R K] [CodedRing R] [WordSource G]
    (d : Dealer P G) (row : List S) (secret : R) : Prop :=
  ∃ g : G, row = (({ d with source := g } : Dealer P G).share secret).1

/-- Opens shares and verifies everything opened so far. -/
def Processor.reveal {O S R K : Type} [Opener O S R] [LinearShare S R K] [CodedRing R]
    (shares : List S) : Action (Processor O S R K) (List R) := do
  let opened ← Processor.openShares shares
  Processor.check
  pure opened

/-- What one party does to run a script on its shares. -/
def Script.session {X : Suite} (p : Script X.R) (setup : X.PartySetup) (shares : List X.S)
    (seat : Seat) : Session (Scheduler X.O X.S X.R X.K) (Except CircuitFault (List X.S × List X.R)) :=
  Scheduler.run (p.future (Opener.constant setup.opener) shares) seat
    (.create (Processor.create setup.opener setup.supply))

/-- Opening valid sharings in the end yields their values, and the check passes. -/
theorem Processor.Joint.reveal {O S R K : Type} [Opener O S R] [LinearShare S R K] [CodedRing R]
    {n : Nat} {J : JointOpening O n} {p : Fin n → Processor O S R K} {count : Nat}
    (h : Joint J p count) (xs : List J.Shared) :
    Succeed (fun i => (Processor.reveal (xs.map (·.shares i)) :
        Action (Processor O S R K) (List R))) p fun _ a => a = fun _ => xs.map (·.value) := by
  refine Succeed.bind (h.openShares xs) ?_
  rintro p' _ ⟨h', rfl⟩
  exact Succeed.bind h'.check fun _ _ _ => Succeed.pure rfl

namespace Suite.Lawful

variable {parties n : Nat} {config : ProtocolConfig} {X : Suite}
  {starts : X.Bundle → X.PartySetup → Prop} {G : Type} [WordSource G] {g : G}
  {counts : PreprocessingCounts} {d dealer : Dealer X.P G} {bundle : Fin n → X.Bundle}
  {setup : Fin n → X.PartySetup}

theorem isStandard (hX : X.Lawful parties config starts) : X.IsStandard := by
  cases hX with
  | authenticated F => exact .authenticated F
  | replicated R => exact .replicated R
  | threshold F => exact .threshold F

/-- After the dealing all parties are ready to compute. -/
theorem ready (hX : X.Lawful parties config starts) (hn : 0 < n)
    (hplan : Deployment.plan X.O parties config g = .ok d)
    (hdeal : Bundle.tryDeal counts d = .ok (List.ofFn bundle, dealer))
    (hsetup : ∀ i, starts (bundle i) (setup i)) :
    PartySetup.Ready dealer.plan setup counts.triples := by
  cases hX with
  | authenticated F =>
    choose rng hsetup using hsetup
    obtain rfl := funext hsetup
    have : @LawfulRing F (Suite.authenticated F).ring := LawfulField.toLawfulRing (F := F)
    exact MacPlan.ready (R := F) config hn hdeal rng
  | replicated R =>
    obtain rfl := funext hsetup
    exact ReplicatedPlan.ready (R := R) config.replicatedCheck hdeal
  | threshold F =>
    choose opener hopener hsetup using hsetup
    obtain rfl := funext hsetup
    exact ThresholdPlan.ready (F := F) hplan hdeal hopener

/-- Scripts of all parties go on in step. -/
private theorem lockstep_session (hX : X.Lawful parties config starts) {J : JointOpening X.O n}
    (hopeners : J.Holds (fun i => (setup i).opener) [] [])
    (hsupply : J.Stocked (fun i => (setup i).supply) counts.triples) (env : List J.Shared)
    (p : Script X.R) (hproducts : (p.eval (env.map (·.value))).products ≤ counts.triples) :
    Lockstep (fun i => p.session (setup i) (env.map (·.shares i)) ⟨i, n⟩) fun x results =>
      Scheduler.Joint J x (counts.triples - (p.eval (env.map (·.value))).products) ∧
        ∃ out : List J.Shared, out.map (·.value) = (p.eval (env.map (·.value))).shared ∧
          results = fun i =>
            .ok (out.map (·.shares i), (p.eval (env.map (·.value))).opened) := by
  have := hX.isStandard.lawfulRing
  have hprocessor : Processor.Joint J
      (fun i => Processor.create (setup i).opener (setup i).supply) counts.triples :=
    ⟨⟨[], [], hopeners⟩, hsupply⟩
  have hscheduler := Scheduler.Joint.create hprocessor
  rw [← Nat.sub_add_cancel hproducts] at hscheduler
  -- what is polled unfolds to the trees of the script, and these go on in step
  refine (hscheduler.run hX.isStandard.neverStalls (fun i => p.plain_future _ _)
    (fun i => p.unfolds _ _) (p.faithful (J.constant hopeners) env)).mono ?_
  rintro x _ ⟨hx, a, rfl, ⟨out, hout, rfl⟩, -⟩
  exact ⟨hx, out, hout, rfl⟩

/-- Runs of scripts agree with the evaluation in the clear. On every idle network that carries what they
send, and under every schedule, all parties that run the same script on shares dealt of some secrets
come to their ends with the opened values of the evaluation. One triple is used up for each
multiplication. If the parties open their shares in the end, again on any such network and under any
schedule, the check passes and all of them get the values of the evaluation. -/
theorem run_script (hX : X.Lawful parties config starts) (hn : 0 < n)
    (hplan : Deployment.plan X.O parties config g = .ok d)
    (hdeal : Bundle.tryDeal counts d = .ok (List.ofFn bundle, dealer))
    (hsetup : ∀ i, starts (bundle i) (setup i))
    {inputs : List (List X.S)} {secrets : List X.R}
    (hinputs : List.Forall₂ dealer.Shares inputs secrets) (p : Script X.R)
    (hproducts : (p.eval secrets).products ≤ counts.triples) :
    ∃ (x : Fin n → Scheduler X.O X.S X.R X.K) (shares : Fin n → List X.S),
      Network.AlwaysCarriesOut
        (fun i => p.session (setup i) (Bundle.column i inputs) ⟨i, n⟩) x
        (fun i => .ok (shares i, (p.eval secrets).opened)) ∧
      (∀ i, (x i).processor.multiplier.supply.remainingTriples =
        counts.triples - (p.eval secrets).products) ∧
      ∃ p' : Fin n → X.Processor, Network.AlwaysCarriesOut
        (fun i => (Processor.reveal (shares i)).run ⟨i, n⟩ (x i).processor) p'
        fun _ => .ok (p.eval secrets).shared := by
  obtain ⟨J, hopeners, hsupply, hsound⟩ := hX.ready hn hplan hdeal hsetup
  have hdealt : List.Forall₂ J.Dealt inputs secrets := hinputs.imp fun row secret h => by
    obtain ⟨g, rfl⟩ := h
    exact hsound.share (d := { dealer with source := g }) secret
  obtain ⟨env, hcolumn, rfl⟩ := Sharing.exists_shared_of_dealt hdealt
  simp only [hcolumn]
  obtain ⟨x, _, hcarries, hx, out, hout, rfl⟩ :=
    (hX.lockstep_session hopeners hsupply env p hproducts).alwaysCarriesOut
  refine ⟨x, fun i => out.map (·.shares i), hcarries, fun i => ?_, ?_⟩
  · obtain ⟨triples, hlen, -, htriples⟩ := hx.processor.supply
    rw [Supply.remainingTriples, htriples, List.length_map, hlen]
  · obtain ⟨p', _, hreveal, _, rfl, rfl⟩ := Lockstep.alwaysCarriesOut (hx.processor.reveal out)
    exact ⟨p', hout ▸ hreveal⟩

/-- Squares a share, opens the square and multiplies the share by it. -/
def cubeScript : Script Mersenne61 :=
  .andThen (.mul (.share 0) (.share 0)) fun _ =>
    .andThen (.reveal (.share 1)) fun opened => .give [.scale (.share 0) (opened.headD 0)]

/-- A dealer for two parties. -/
def cubeDealer : Dealer (MacPlan Mersenne61) ChaCha := MacPlan.create 2 (ChaCha.ofWord 0)

/-- What the owner of a bundle starts with. -/
def cubeSetup (b : (Suite.authenticated Mersenne61).Bundle) :
    (Suite.authenticated Mersenne61).PartySetup :=
  ⟨MacOpener.create b.party b.key {} (ChaCha.ofWord 0), .ofBundle b⟩

theorem run_script_cube :
    ∃ (bundle : Fin 2 → (Suite.authenticated Mersenne61).Bundle)
      (dealer : Dealer (MacPlan Mersenne61) ChaCha)
      (x : Fin 2 → Scheduler (MacOpener Mersenne61) (MacShare Mersenne61) Mersenne61 Mersenne61)
      (shares : Fin 2 → List (MacShare Mersenne61)) (net' : Network),
      Bundle.tryDeal ⟨1, 0, 0⟩ cubeDealer = .ok (List.ofFn bundle, dealer) ∧
      (Network.create 2 [] fun _ => true).run (List.ofFn fun i => (i.val,
          Script.session (X := .authenticated Mersenne61) cubeScript (cubeSetup (bundle i))
            (Bundle.column i [(dealer.share (CodedRing.ofWord 3)).1]) ⟨i, 2⟩)) =
        (List.ofFn fun i => ⟨i, .done (x i) (.ok (shares i, [CodedRing.ofWord 9])), .over⟩,
          net') := by
  have hparties : DealingPlan.parties cubeDealer.plan = 2 :=
    MacPlan.parties_create 2 (ChaCha.ofWord 0)
  obtain ⟨bundle, hbundle⟩ := exists_eq_ofFn (n := 2) (l := (Bundle.deal ⟨1, 0, 0⟩ cubeDealer).1)
    (List.length_mapIdx.trans hparties)
  have hdeal : Bundle.tryDeal ⟨1, 0, 0⟩ cubeDealer =
      .ok (List.ofFn bundle, (Bundle.deal ⟨1, 0, 0⟩ cubeDealer).2) := by
    rw [← hbundle, Bundle.tryDeal, hparties, if_pos (by decide)]
  have hplan : Deployment.plan (MacOpener Mersenne61) 2 {} (ChaCha.ofWord 0) = .ok cubeDealer :=
    if_pos (by decide)
  have hinputs : List.Forall₂ (Bundle.deal ⟨1, 0, 0⟩ cubeDealer).2.Shares
      [((Bundle.deal ⟨1, 0, 0⟩ cubeDealer).2.share (CodedRing.ofWord 3)).1]
      [(CodedRing.ofWord 3 : Mersenne61)] := .cons ⟨_, rfl⟩ .nil
  obtain ⟨x, shares, hcarries, -⟩ := run_script (.authenticated Mersenne61) (by decide) hplan
    hdeal (fun i => ⟨ChaCha.ofWord 0, (rfl : cubeSetup (bundle i) = _)⟩) hinputs cubeScript
    (by decide)
  obtain ⟨⟨net', hrun, -⟩, -⟩ := hcarries _ (Network.idle_create 2 _) Network.admits_unlimited
  exact ⟨bundle, _, x, shares, net', hdeal, hrun⟩

end Suite.Lawful

end Multiparty
