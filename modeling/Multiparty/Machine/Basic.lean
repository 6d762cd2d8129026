import Multiparty.Circuit.Expression
import Multiparty.Machine.Registers
import Multiparty.Scheduler
import Multiparty.Suite

/-!
# Machines

A machine is one party with its scheduler and named shares. It carries out instructions: local ones,
the single steps of openings and multiplications, whole batches, and circuits over its registers.

## Main definitions

* `Instruction`, `Answer`: what a machine can be told to do, and what it answers.
* `Machine`: the state of a party between instructions.
* `Machine.perform`: carries out an instruction.
-/

namespace Multiparty

/-- What a machine can be told to do. -/
inductive Instruction (S R : Type) where
  | locally (i : LocalInstruction S R)
  /-- Starts a batch and reserves room for so many shares. -/
  | initOpening (room : Nat)
  | prepareOpening (a : String)
  | exchangeOpenings
  | finalizeOpening
  | initProducts
  | prepareProduct (a b : String)
  | exchangeProducts
  | finalizeProduct (target : String)
  /-- Takes a random bit from the supply. -/
  | takeBit (target : String)
  /-- Takes an input mask from the supply. -/
  | takeMask (owner : Nat) (target : String)
  | check
  /-- Opens a batch of shares. -/
  | openAll (names : List String)
  /-- Multiplies a batch of pairs. -/
  | multiply (pairs : List (String × String)) (target : String)
  /-- Contributes own inputs and takes in those of the others. -/
  | input (values : List R) (target : String)
  | randomBits (n : Nat) (target : String)
  /-- Opens some expressions and stores others, all of them side by side. -/
  | circuit (opens : List (Expression String R)) (saves : List (String × Expression String R))
  /-- Asks for the number of calls made so far. -/
  | countCalls

/-- What a machine answers. -/
inductive Answer (S R : Type) where
  | locally (a : LocalAnswer S)
  | done
  | value (v : R)
  | values (vs : List R)
  | truth (b : Bool)
  | count (n : Nat)
  | counts (ns : List Nat)
  /-- The opened values of a circuit and the number of rounds so far. -/
  | opened (vs : List R) (rounds : Nat)
  /-- The instruction was not understood. -/
  | refused (fault : RegisterFault)
  | failed (error : ProtocolError)
  /-- Memory for so many items cannot be asked for. -/
  | tooLarge
  /-- A circuit has failed. -/
  | circuitFailed (fault : CircuitFault) (rounds : Nat)

/-- A party between instructions. -/
structure Machine (X : Suite) where
  executor : Scheduler X.O X.S X.R X.K
  registers : Registers X.S

namespace Machine

variable {X : Suite} {α : Type}

/-- A machine that has done nothing yet. -/
def create (setup : X.PartySetup) (registers : Registers X.S) : Machine X :=
  ⟨Scheduler.create (Processor.create setup.opener setup.supply), registers⟩

/-- The opener of the machine. -/
def opener (m : Machine X) : X.O := m.executor.processor.opener

/-- The multiplier of the machine. -/
def multiplier (m : Machine X) : Multiplier X.S X.R X.K := m.executor.processor.multiplier

/-- The share of a public value. -/
def shareOf (m : Machine X) (v : X.R) : X.S := Opener.constant m.opener v

/-- Runs an action of the processor; `keep` turns its result into an answer and may store it. -/
def process (m : Machine X) (seat : Seat) (a : Action X.Processor α)
    (keep : α → Registers X.S → Answer X.S X.R × Registers X.S) :
    Session (Machine X) (Answer X.S X.R) :=
  ((a seat m.executor.processor).mapState fun p =>
    { m with executor := { m.executor with processor := p } }).bind fun m result =>
      match result with
      | .ok a =>
        let (answer, registers) := keep a m.registers
        .done { m with registers := registers } answer
      | .error e => .done m (.failed e)

/-- Runs an action of the processor for its answer alone. -/
def ask (m : Machine X) (seat : Seat) (a : Action X.Processor α) (answer : α → Answer X.S X.R) :
    Session (Machine X) (Answer X.S X.R) :=
  m.process seat a fun result registers => (answer result, registers)

/-- Runs an action of the processor that yields a share to be stored. -/
def keepShare (m : Machine X) (seat : Seat) (a : Action X.Processor X.S) (target : String) :
    Session (Machine X) (Answer X.S X.R) :=
  m.process seat a fun s registers => (.done, registers.set target s)

/-- Continues with a share or another value of the registers, unless a name is unknown. -/
def withFetched (m : Machine X) (value : Except RegisterFault α)
    (next : α → Session (Machine X) (Answer X.S X.R)) : Session (Machine X) (Answer X.S X.R) :=
  match value with
  | .ok a => next a
  | .error e => .done m (.refused e)

/-- The share with a name. -/
def fetch (m : Machine X) (name : String) : Except RegisterFault X.S :=
  LocalInstruction.fetch m.registers name

/-- The circuit that opens some expressions and computes others side by side. -/
def circuitOf (m : Machine X) (opens saves : List (Expression String X.R)) :
    Future X.S X.R (List X.R × List X.S) :=
  let compute (e : Expression String X.R) : Future X.S X.R X.S :=
    e.future (fun name => (m.registers.get? name).getD 0) m.shareOf
  .both (Future.joinAll (opens.map fun e => (compute e).bind (.reveal · .ready)))
    (Future.joinAll (saves.map compute)) fun values shares => .ready (values, shares)

/-- Runs the circuit of some expressions. All names must be known. -/
def runExpressions (m : Machine X) (seat : Seat) (opens : List (Expression String X.R))
    (saves : List (String × Expression String X.R)) : Session (Machine X) (Answer X.S X.R) :=
  let all := opens ++ saves.map (·.2)
  m.withFetched ((all.flatMap Expression.leaves).mapM m.fetch) fun _ =>
    ((Scheduler.run (m.circuitOf opens (saves.map (·.2))) seat m.executor).mapState fun x =>
      { m with executor := x }).bind fun m result =>
        match result with
        | .ok (values, shares) =>
          let registers := (saves.zip shares).foldl (fun r ((name, _), s) => r.set name s)
            m.registers
          .done { m with registers := registers } (.opened values m.executor.rounds)
        | .error e => .done m (.circuitFailed e m.executor.rounds)

/-- Carries out an instruction. `calls` is the number of calls that the party has made so far. -/
def perform (m : Machine X) (seat : Seat) (calls : Nat) :
    Instruction X.S X.R → Session (Machine X) (Answer X.S X.R)
  | .locally i =>
    m.withFetched (i.run m.shareOf m.registers) fun (answer, registers) =>
      .done { m with registers := registers } (.locally answer)
  | .initOpening room =>
    m.ask seat (Processor.withOpener (modify Opener.init)) fun _ =>
      if isAddressable room (LinearShare.width X.S) then .done else .tooLarge
  | .prepareOpening a =>
    m.withFetched (m.fetch a) fun x =>
      m.ask seat (Processor.withOpener (modify (Opener.prepare x))) fun _ => .done
  | .exchangeOpenings => m.ask seat (Processor.withOpener Opener.exchange) fun _ => .done
  | .finalizeOpening => m.ask seat (Processor.tryOpener Opener.finalize) .value
  | .initProducts =>
    m.ask seat (modify fun p => { p with multiplier := p.multiplier.init }) fun _ => .done
  | .prepareProduct a b =>
    m.withFetched (do pure (← m.fetch a, ← m.fetch b)) fun (x, y) =>
      m.ask seat (Action.ofAttempt (Processor.tryMultiplier (Multiplier.prepare x y)))
        fun _ => .done
  | .exchangeProducts => m.ask seat Processor.exchangeProducts fun _ => .done
  | .finalizeProduct target =>
    m.keepShare seat (Action.ofAttempt Processor.finalizeProduct) target
  | .takeBit target =>
    m.keepShare seat (Action.ofAttempt (Processor.trySupply Supply.bit)) target
  | .takeMask owner target =>
    m.process seat (Action.ofAttempt (Processor.trySupply (Supply.inputMask owner)))
      fun (mask, plain) registers => (.truth plain.isSome, registers.set target mask)
  | .check => m.ask seat Processor.check fun _ => .done
  | .openAll names =>
    m.withFetched (names.mapM m.fetch) fun xs => m.ask seat (Processor.openShares xs) .values
  | .multiply pairs target =>
    m.withFetched (pairs.mapM fun (a, b) => do pure (← m.fetch a, ← m.fetch b)) fun pairs =>
      m.process seat (Processor.mul pairs) fun products registers =>
        (.count products.length, registers.setAll target products)
  | .input values target =>
    m.process seat (Processor.input values) fun rows registers =>
      (.counts (rows.map List.length),
        rows.zipIdx.foldl (fun r (row, owner) => r.setAll (target ++ "." ++ toString owner) row)
          registers)
  | .randomBits n target =>
    m.process seat (Action.ofAttempt (Processor.randomBits n)) fun bits registers =>
      (.count bits.length, registers.setAll target bits)
  | .circuit opens saves => m.runExpressions seat opens saves
  | .countCalls => .done m (.count calls)

end Machine

end Multiparty
