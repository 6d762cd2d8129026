import Mathlib
import Multiparty.Proofs.Circuit.Unfolding
import Multiparty.Proofs.Joint.FreshOpeners
import Multiparty.Proofs.Network.InOrder
import Multiparty.Proofs.Network.Progress

/-!
# Honest parties that compute together

Honest parties start with fresh openers and supplies of the same triples, and they run the same
circuits on their shares and check what they have opened, on networks that carry what they send. After
any of this they are ready to compute again, and the scheduler of every party has counted the rounds of
all circuits.

## Main definitions

* `Scheduler.Joint`: the schedulers of all parties between two circuits.
* `Suite.Together`: the schedulers of honest parties, whatever they have done together.

## Main results

* `Scheduler.Joint.run`: circuits that go on in step are carried through.
* `Suite.Together.exists_joint`: honest parties are ready to compute.
-/

namespace Multiparty

variable {σ τ α : Type} {n : Nat}

/-! ### States that show a part of the computation -/

/-- What follows its turns with a part of the state does so with the whole state. -/
theorem Session.Follows.of_mapState {f : σ → τ} {c : Session σ α} {turns : List Turn} {t : τ} {a : α}
    (h : (Session.mapState f c).Follows turns t a) : ∃ s, f s = t ∧ c.Follows turns s a := by
  induction c generalizing turns with
  | done s =>
    cases h
    exact ⟨s, rfl, .done s a⟩
  | wait s call resume ih =>
    cases h with
    | wait _ hresume =>
      obtain ⟨s', hs', hfollows⟩ := ih _ hresume
      exact ⟨s', hs', .wait s hfollows⟩

namespace Lockstep

variable {cs : Fin n → Session σ α}

theorem of_mapState {f : Fin n → σ → τ} {Q : (Fin n → τ) → (Fin n → α) → Prop}
    (h : Lockstep (fun i => Session.mapState (f i) (cs i)) Q) :
    Lockstep cs fun s a => Q (fun i => f i (s i)) a := by
  obtain ⟨rounds, hmatched, t, a, hfollows, hq⟩ := h
  choose s hs hwhole using fun i => (hfollows i).of_mapState
  obtain rfl := funext hs
  exact ⟨rounds, hmatched, s, a, hwhole, hq⟩

/-- In lockstep every party comes to what it would come to with some answers of the network. -/
theorem exists_under {Q : (Fin n → σ) → (Fin n → α) → Prop} (h : Lockstep cs Q) :
    Lockstep cs fun s a => Q s a ∧ ∀ i, ∃ answers, (cs i).under answers = (s i, a i) := by
  obtain ⟨rounds, hmatched, s, a, hfollows, hq⟩ := h
  refine ⟨rounds, hmatched, s, a, hfollows, hq, fun i => ?_⟩
  obtain ⟨answers, -, hunder⟩ := Session.exists_answers (hfollows i)
  exact ⟨answers, hunder⟩

end Lockstep

/-! ### Schedulers of all parties -/

namespace Scheduler

variable {O S R K : Type} [Opener O S R] [LinearShare S R K] [CodedRing R]

/-- The schedulers of all parties between two circuits: `count` triples are left, and there are neither
requests nor answers. -/
structure Joint (J : JointOpening O n) (x : Fin n → Scheduler O S R K) (count : Nat) : Prop where
  processor : Processor.Joint J (fun i => (x i).processor) count
  buffers : ∀ i, (x i).buffers.Offers [] []

namespace Joint

variable {J : JointOpening O n} {x : Fin n → Scheduler O S R K} {count k : Nat}

theorem create {p : Fin n → Processor O S R K} (h : Processor.Joint J p count) :
    Joint J (fun i => Scheduler.create (p i)) count :=
  ⟨h, fun _ => Buffers.offers_create⟩

variable {Q : (Fin n → α) → Prop} {cs : Fin n → Future S R α} {trees : Fin n → Circuit S R α}

/-- Circuits of all parties that go on in step come to their ends, if there are triples for all their
multiplications. Every scheduler has counted the rounds of its circuit. -/
theorem run [LawfulRing R] (hO : Opener.NeverStalls O) (h : Joint J x (count + k))
    (hplain : ∀ i, (cs i).Plain) (hunfolds : ∀ i, (cs i).Unfolds (trees i))
    (hfaithful : Faithful J.toSharing Q trees k) :
    Lockstep (fun i => Scheduler.run (cs i) ⟨i, n⟩ (x i)) fun x' results =>
      Joint J x' count ∧ ∃ a, results = (fun i => .ok (a i)) ∧ Q a ∧
        ∀ i, ∃ t, (cs i).Executes t (a i) ∧ (x' i).rounds = (x i).rounds + t.schedule.length := by
  have hexecutor : Executor.Joint J (fun i => (x i).toExecutor) (count + k) :=
    ⟨h.processor, fun _ => rfl, fun _ => rfl, fun _ => rfl⟩
  have hrun := hexecutor.runCircuit hfaithful
  have hsame (i : Fin n) := mapState_run_of_offers (h.buffers i) ((hplain i).resumes _ _) (hunfolds i)
    ⟨i, n⟩
  simp only [← hsame] at hrun
  -- the trees tell what the parties come to, but only the circuits themselves count rounds
  refine hrun.of_mapState.exists_under.mono ?_
  rintro x' _ ⟨⟨hx', a, rfl, hq⟩, hunder⟩
  have houtcome (i : Fin n) : (x' i).buffers.Offers [] [] ∧ ∃ t, (cs i).Executes t (a i) ∧
      (x' i).rounds = (x i).rounds + t.schedule.length := by
    obtain ⟨answers, hanswers⟩ := hunder i
    obtain ⟨hoffers, t, b, hexecutes, hout⟩ :=
      outcome_of_offers hO (h.buffers i) ((hplain i).resumes _ _) ⟨i, n⟩ answers
    rw [hanswers] at hoffers hout
    generalize (Scheduler.run (cs i) ⟨i, n⟩ (x i)).transcript answers = events at hout
    cases hout with
    | finished _ hrounds => exact ⟨hoffers, t, hexecutes, hrounds⟩
  exact ⟨⟨hx'.processor, fun i => (houtcome i).1⟩, a, rfl, hq, fun i => (houtcome i).2⟩

end Joint

end Scheduler

/-! ### Honest parties -/

/-- The schedulers of honest parties, with `count` triples left: fresh ones, and what is left of them
after the parties have run circuits that go on in step or have checked what was opened. -/
inductive Suite.Together (X : Suite) (V : Sharing X.S n) :
    (Fin n → Scheduler X.O X.S X.R X.K) → (count : Nat) → Prop where
  | create {openers : Fin n → X.O} {supply : Fin n → Supply X.S X.R X.K} {count : Nat}
      (hfresh : X.FreshOpeners openers V) (hsupply : V.Stocked supply count) :
      Together X V (fun i => .create (Processor.create (openers i) (supply i))) count
  | run {α : Type} {x x' : Fin n → Scheduler X.O X.S X.R X.K} {count k : Nat}
      {cs : Fin n → Future X.S X.R α} {trees : Fin n → Circuit X.S X.R α} {Q : (Fin n → α) → Prop}
      {results : Fin n → Except CircuitFault α} (h : Together X V x (count + k))
      (hplain : ∀ i, (cs i).Plain) (hunfolds : ∀ i, (cs i).Unfolds (trees i))
      (hfaithful : Faithful V Q trees k)
      (hrun : Network.CarriesOut (fun i => Scheduler.run (cs i) ⟨i, n⟩ (x i)) x' results) :
      Together X V x' count
  | check {x : Fin n → Scheduler X.O X.S X.R X.K} {count : Nat} {p : Fin n → X.Processor}
      {results : Fin n → Except ProtocolError Unit} (h : Together X V x count)
      (hrun : Network.CarriesOut (fun i => Processor.check.run ⟨i, n⟩ (x i).processor) p results) :
      Together X V (fun i => { x i with processor := p i }) count

namespace Suite.Together

variable {X : Suite} {V : Sharing X.S n} {x : Fin n → Scheduler X.O X.S X.R X.K} {count : Nat}

/-- Whatever honest parties have done together, they are ready to compute. -/
theorem exists_joint (h : X.Together V x count) : LawfulRing X.R ∧ Opener.NeverStalls X.O ∧
    ∃ J : JointOpening X.O n, J.toSharing = V ∧ Scheduler.Joint J x count := by
  induction h with
  | create hfresh hsupply =>
    obtain ⟨-, hlawful, -, J, rfl, hholds⟩ := hfresh.exists_joint
    exact ⟨hlawful, hfresh.isStandard.neverStalls, J, rfl, .create ⟨⟨[], [], hholds⟩, hsupply⟩⟩
  | run _ hplain hunfolds hfaithful hrun ih =>
    obtain ⟨hlawful, hO, J, rfl, hjoint⟩ := ih
    exact ⟨hlawful, hO, J, rfl, ((hjoint.run hO hplain hunfolds hfaithful).of_carriesOut hrun).1⟩
  | check _ hrun ih =>
    obtain ⟨hlawful, hO, J, rfl, hjoint⟩ := ih
    obtain ⟨_, -, hprocessor⟩ := Lockstep.of_carriesOut hjoint.processor.check hrun
    exact ⟨hlawful, hO, J, rfl, hprocessor, hjoint.buffers⟩

end Suite.Together

end Multiparty
