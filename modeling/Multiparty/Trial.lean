import Multiparty.Network.Frame
import Multiparty.Network.Run
import Multiparty.Ring.Binary
import Multiparty.Ring.Mersenne
import Multiparty.Suite

/-!
# Trial runs

A trial deals random pairs to simulated parties, which multiply them in one batch and open the
products. It succeeds if every party opens the products that the dealer expects.

## Main definitions

* `Trial.Settings`: what is tried.
* `Trial.Event`: what is reported on the way.
* `Trial.run`: a whole trial.
-/

namespace Multiparty.Trial

/-- The fields over which a trial can compute. -/
inductive FieldChoice where
  | mersenne61
  | mersenne127
  | binary64
  deriving DecidableEq

namespace FieldChoice

/-- The field with a name that a user may write. -/
def ofUserName? (s : String) : Option FieldChoice :=
  if s = "61" then some mersenne61
  else if s = "127" then some mersenne127
  else if s = "gf64" then some binary64
  else none

/-- What a user is told who writes another name. -/
def unknownName : String := "Unsupported field type. Available options: 61, 127, gf64"

end FieldChoice

/-- What is tried. -/
structure Settings where
  scheme : SharingScheme := .additiveMac
  parties : Nat := 3
  /-- Number of multiplications. -/
  batchSize : Nat := 1000
  field : FieldChoice := .mersenne127
  /-- Seed of the dealer. -/
  seed : UInt64 := 0
  deriving DecidableEq

/-- What is reported. -/
inductive Event where
  /-- A party has opened other products than expected. -/
  | differs (party : Nat)
  /-- A party has failed. -/
  | failed (party : Nat) (error : ProtocolError)
  /-- All parties have opened the expected products. -/
  | success (scheme : SharingScheme) (parties batchSize : Nat)
  deriving DecidableEq

namespace Event

/-- Whether an event is an error. -/
def isError : Event → Bool
  | success .. => false
  | _ => true

/-- What an event says. -/
def message : Event → String
  | differs _ => "Opened products differ from expected values"
  | failed _ _ => "Party failed"
  | success .. => "All parties opened correct products"

/-- The particulars of an event by name. -/
def particulars : Event → List (String × String)
  | differs party => [("party", toString party)]
  | failed party error => [("party", toString party), ("err", error.message)]
  | success scheme parties batchSize =>
    [("scheme", scheme.name), ("parties", toString parties), ("batch_size", toString batchSize)]

end Event

/-- Why a trial fails as a whole. -/
inductive Fault where
  /-- The parties cannot be set up. -/
  | refused (fault : SetupFault)
  /-- Some party did not open the expected products. -/
  | batchFailed
  /-- Some parties wait for each other without end. -/
  | stalled
  deriving DecidableEq

/-- The wording of a failure, if it has one. -/
def Fault.message : Fault → Option String
  | refused (.refused error) => some error.message
  | refused _ => none
  | batchFailed => some "multiplication batch failed"
  | stalled => some "parties wait for each other"

variable {P O S R K G : Type} [DealingPlan P S R K] [Opener O S R] [LinearShare S R K]
  [CodedRing R] [WordSource G]

/-- A random pair: its product and the shares of both factors, by party. -/
def dealPair (d : Dealer P G) : (R × List (S × S)) × Dealer P G :=
  let (x, d) := (d.randomValue : R × Dealer P G)
  let (y, d) := (d.randomValue : R × Dealer P G)
  let (xs, d) := d.share x
  let (ys, d) := d.share y
  ((x * y, xs.zip ys), d)

/-- What each party does: multiply, open, check. -/
def program (pairs : List (S × S)) : Action (Processor O S R K) (List R) := do
  let products ← Processor.mul pairs
  let opened ← Processor.openShares products
  Processor.check
  pure opened

/-- The outcome of every party of a batch, where `inputs` are the pairs of every party. -/
def outcomes (setups : List (PartySetup O S R K)) (inputs : List (List (S × S))) :
    List (Option (Except ProtocolError (List R))) :=
  let n := setups.length
  let sessions := (setups.zip inputs).mapIdx fun i (setup, pairs) =>
    (i, program pairs ⟨i, n⟩ (Processor.create setup.opener setup.supply))
  let net := { Network.create n [] Frame.fits with closesWhenDone := true }
  (net.run sessions).1.map Task.result?

/-- The events of the parties whose outcome is not the expected one. -/
def complaints (expected : List R) (results : List (Except ProtocolError (List R))) :
    List Event :=
  results.zipIdx.filterMap fun (result, party) =>
    match result with
    | .ok products => if products = expected then none else some (.differs party)
    | .error e => some (.failed party e)

/-- Deals a batch, lets the parties work on it and judges what they have opened. -/
def judge (settings : Settings) (dealer : Dealer P G) (setups : List (PartySetup O S R K)) :
    List Event × Except Fault Unit :=
  let rows : List (R × List (S × S)) :=
    (WordSource.replicate dealPair settings.batchSize dealer).1
  let inputs := (List.range setups.length).map fun party => Bundle.column party (rows.map (·.2))
  match (outcomes setups inputs).mapM id with
  | none => ([], .error .stalled)
  | some results =>
    match complaints (rows.map (·.1)) results with
    | [] => ([.success settings.scheme settings.parties settings.batchSize], .ok ())
    | events => (events, .error .batchFailed)

/-- A trial of a given suite. -/
def runSuite (X : Suite) (settings : Settings) (config : ProtocolConfig) :
    List Event × Except Fault Unit :=
  if X.scheme = .replicated3 ∧ settings.parties ≠ replicatedParties then
    ([], .error (.refused (.refused (.invalidParameters .replicatedParties))))
  else
    let counts : PreprocessingCounts := ⟨settings.batchSize, 0, 0⟩
    let setup : Except SetupFault (Dealer X.P ChaCha × List X.PartySetup) :=
      PartySetup.seeded settings.parties counts config settings.seed
    match setup with
    | .error e => ([], .error (.refused e))
    | .ok (dealer, setups) => judge settings dealer setups

/-- A whole trial: what was reported, and how it ended. -/
def run (settings : Settings) (config : ProtocolConfig) : List Event × Except Fault Unit :=
  match settings.field with
  | .mersenne61 => runSuite (Suite.ofField Mersenne61 settings.scheme) settings config
  | .mersenne127 => runSuite (Suite.ofField Mersenne127 settings.scheme) settings config
  | .binary64 => runSuite (Suite.ofField Binary64 settings.scheme) settings config

end Multiparty.Trial
