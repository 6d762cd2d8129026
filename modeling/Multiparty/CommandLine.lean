import Multiparty.Trial

/-!
# Command line of trial runs

Every option is a name followed by a value and may be given once. Arguments are read from left to
right, and the first mistake is reported. A request for help is answered once everything has been
read, and no option may follow it.

## Main definitions

* `CommandLine.Arguments`: what the arguments say.
* `CommandLine.parse`: reads the arguments.
* `CommandLine.helpText`: the answer to a request for help.
-/

namespace Multiparty.CommandLine

/-- What the arguments say. Options that are not given have no value. -/
structure Arguments where
  scheme : Option SharingScheme := none
  parties : Option Nat := none
  batchSize : Option Nat := none
  field : Option Trial.FieldChoice := none
  /-- Path of a configuration file. -/
  config : Option String := none
  seed : Option Nat := none
  deriving DecidableEq

/-- The settings of the trial, with standard values for options that are not given. -/
def Arguments.settings (a : Arguments) : Trial.Settings :=
  let standard : Trial.Settings := {}
  { scheme := a.scheme.getD standard.scheme
    parties := a.parties.getD standard.parties
    batchSize := a.batchSize.getD standard.batchSize
    field := a.field.getD standard.field
    seed := (a.seed.map UInt64.ofNat).getD standard.seed }

/-- Why arguments are refused. -/
inductive UsageError where
  /-- There is no such option. -/
  | unrecognized (argument : String)
  /-- The value of an option is missing. -/
  | missingValue (option : String)
  /-- The value of an option is wrong. -/
  | badValue (option value reason : String)
  /-- An option follows a request for help. -/
  | afterHelp
  deriving DecidableEq

/-- The wording of a refusal. -/
def UsageError.message : UsageError → String
  | unrecognized argument => "Unrecognized argument: " ++ argument ++ "\n"
  | missingValue option => "No value provided for option '" ++ option ++ "'.\n"
  | badValue option value reason =>
    "Error parsing option '" ++ option ++ "' with value '" ++ value ++ "': " ++ reason ++ "\n"
  | afterHelp => "Trailing arguments are not allowed after \x60help\x60."

/-- Reads the decimal digits of a number below `2 ^ 64` from the left, where `n` is the number read
so far. -/
def readDigits (n : Nat) : List Char → Except String Nat
  | [] => .ok n
  | c :: cs =>
    if c.isDigit then
      let n := 10 * n + (c.toNat - '0'.toNat)
      if n < UInt64.size then readDigits n cs else .error "number too large to fit in target type"
    else .error "invalid digit found in string"

/-- A number below `2 ^ 64` in decimal digits, after an optional plus sign. -/
def readNumber (s : String) : Except String Nat :=
  match s.toList with
  | [] => .error "cannot parse integer from empty string"
  | '+' :: c :: cs => readDigits 0 (c :: cs)
  | cs => readDigits 0 cs

/-- The value of an option that may be given once. -/
def once {α : Type} (old : Option α) (value : Except String α) : Except String (Option α) :=
  match old with
  | some _ => .error "duplicate values provided"
  | none => value.map some

/-- A value chosen by its name. -/
def choose {α : Type} (value : Option α) (unknown : String) : Except String α :=
  match value with
  | some a => .ok a
  | none => .error unknown

/-- Takes over the value of an option. The result is absent if there is no such option. -/
def setOption? (a : Arguments) (option value : String) : Option (Except String Arguments) :=
  match option with
  | "--scheme" => some do
    let scheme ← once a.scheme
      (choose (SharingScheme.ofUserName? value) SharingScheme.unknownName)
    pure { a with scheme := scheme }
  | "--parties" => some do pure { a with parties := ← once a.parties (readNumber value) }
  | "--batch-size" => some do pure { a with batchSize := ← once a.batchSize (readNumber value) }
  | "--field" => some do
    let field ← once a.field
      (choose (Trial.FieldChoice.ofUserName? value) Trial.FieldChoice.unknownName)
    pure { a with field := field }
  | "--config" => some do pure { a with config := ← once a.config (.ok value) }
  | "--seed" => some do pure { a with seed := ← once a.seed (readNumber value) }
  | _ => none

/-- What is asked for. -/
inductive Command where
  | run (arguments : Arguments)
  | help
  deriving DecidableEq

/-- Reads arguments from the left. `help` tells whether help was asked for, and `open_` whether
options may still follow. -/
def parseFrom (a : Arguments) (help open_ : Bool) : List String → Except UsageError Command
  | [] => .ok (if help then .help else .run a)
  | arg :: rest =>
    if open_ && (arg = "--help" || arg = "help") then parseFrom a true open_ rest
    else if open_ && arg.startsWith "-" then
      if arg = "--" then parseFrom a help false rest
      else if help then .error .afterHelp
      else
        match setOption? a arg (rest.headD ""), rest with
        | none, _ => .error (.unrecognized arg)
        | some _, [] => .error (.missingValue arg)
        | some (.error reason), value :: _ => .error (.badValue arg value reason)
        | some (.ok a), _ :: rest => parseFrom a help open_ rest
    else .error (.unrecognized arg)

/-- Reads all arguments. -/
def parse (args : List String) : Except UsageError Command := parseFrom {} false true args

/-- The options with what they are for. -/
def optionTexts : List (String × String) :=
  [("--scheme", "sharing scheme: spdz, rep3 or shamir"),
    ("--parties", "number of parties participating in protocol"),
    ("--batch-size", "number of multiplications in the batch"),
    ("--field", "target field"),
    ("--config", "path to protocol configuration (JSON)"),
    ("--seed", "seed for the trusted dealer"),
    ("--help, help", "display usage information")]

/-- A line of the list of options: the description starts in column twenty. -/
def optionLine (option description : String) : String :=
  "  " ++ option ++ String.ofList (List.replicate (18 - option.length) ' ') ++ description ++ "\n"

/-- The answer to a request for help. -/
def helpText : String :=
  "Usage: mpc_test_app [--scheme <scheme>] [--parties <parties>] [--batch-size <batch-size>] " ++
    "[--field <field>] [--config <config>] [--seed <seed>]\n\n" ++
    "Multiplies a batch of random secret-shared values among simulated parties.\n\n" ++
    "Options:\n" ++
    String.join (optionTexts.map fun (option, description) => optionLine option description)

end Multiparty.CommandLine
