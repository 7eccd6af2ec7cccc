/-
# Command line options

An option with a value is written `--name value` or `--name=value`; in the
first form the value must not look like an option. Every option may be given
once. Arguments are taken in order, but an option in the first form is checked
only when the next known option or the end of the line is reached, so that an
unknown argument right after it is reported first.

Key definitions: `Options`, `UsageError`, `Options.parse`, `Options.settings`.
-/
import AreaMethod.Proof.Report
import AreaMethod.Text.Numeral

namespace AreaMethod

/-- What is asked for on the command line. -/
structure Options where
  /-- The file that holds the problems. -/
  file : String
  oracleDepth : Option Nat
  maxSize : Option Nat
  maxEliminations : Option Nat
  noNumericCheck : Bool
  seed : Nat
  /-- The file for the reports, if they are not to be printed. -/
  output : Option String
deriving DecidableEq

/-- Why a command line gives no options. -/
inductive UsageError where
  /-- The file with the problems is not named. -/
  | noProblemFile
  /-- An argument is not known. -/
  | unknownArgument
  /-- An option lacks its value, or a path is empty. -/
  | noValue
  /-- A value is not a number in the range of 64 bits. -/
  | notANumber
  /-- An option is given twice. -/
  | givenTwice
  /-- A value is given to an option that takes none. -/
  | needlessValue
  /-- The user wants to see the options. -/
  | helpWanted
  /-- The user wants to see the version. -/
  | versionWanted
deriving DecidableEq

/-- The wording of a usage error. -/
def UsageError.message : UsageError → String
  | noProblemFile => "the option --file is required"
  | unknownArgument => "unexpected argument"
  | noValue => "a value is required"
  | notANumber => "invalid value: not a number of 64 bits"
  | givenTwice => "an option cannot be used multiple times"
  | needlessValue => "unexpected value for an option that takes none"
  | helpWanted => "help wanted"
  | versionWanted => "version wanted"

/-- The options that take a value. -/
inductive Setting where
  | file
  | oracleDepth
  | maxSize
  | maxEliminations
  | seed
  | output
deriving DecidableEq

/-- The options that take no value. -/
inductive Flag where
  | noNumericCheck
  | help
  | version
deriving DecidableEq

/-- The option that takes a value and has the given name. -/
def Setting.ofName? : String → Option Setting
  | "file" => some .file
  | "oracle-depth" => some .oracleDepth
  | "max-size" => some .maxSize
  | "max-eliminations" => some .maxEliminations
  | "rng-seed" => some .seed
  | "output" => some .output
  | _ => none

/-- The option that takes no value and has the given name. -/
def Flag.ofName? : String → Option Flag
  | "no-numeric-check" => some .noNumericCheck
  | "help" => some .help
  | "version" => some .version
  | _ => none

/-- The option that takes no value and has the given letter. -/
def Flag.ofLetter? : Char → Option Flag
  | 'h' => some .help
  | 'V' => some .version
  | _ => none

/-- An argument by its form. -/
inductive Argument where
  /-- Two dashes: no options follow. -/
  | endOfOptions
  | long (name : String) (value? : Option String)
  /-- Options by letters, of which the first one counts. -/
  | letters (first : Char)
  | plain (text : String)
deriving DecidableEq

/-- The form of an argument. -/
def Argument.ofText (s : String) : Argument :=
  match s.toList with
  | ['-', '-'] => endOfOptions
  | '-' :: '-' :: cs =>
    let name := String.ofList (cs.takeWhile (· ≠ '='))
    match cs.dropWhile (· ≠ '=') with
    | [] => long name none
    | _ :: value => long name (some (String.ofList value))
  | '-' :: c :: _ => letters c
  | _ => plain s

/-- The values given so far. -/
structure Given where
  file : Option String
  oracleDepth : Option Nat
  maxSize : Option Nat
  maxEliminations : Option Nat
  noNumericCheck : Bool
  seed : Option Nat
  output : Option String
deriving DecidableEq

namespace Given

/-- Nothing is given. -/
def nothing : Given := ⟨none, none, none, none, false, none, none⟩

/-- A path must not be empty. -/
def path (old : Option String) (value : String) : Except UsageError (Option String) :=
  if old.isSome then .error .givenTwice
  else if value.isEmpty then .error .noValue
  else .ok (some value)

/-- A number must be in the range of 64 bits. -/
def word (old : Option Nat) (value : String) : Except UsageError (Option Nat) :=
  if old.isSome then .error .givenTwice
  else match Text.word? value.toList with
    | some n => .ok (some n)
    | none => .error .notANumber

/-- Takes the value of an option. -/
def set (g : Given) (setting : Setting) (value : String) : Except UsageError Given := do
  match setting with
  | .file => return { g with file := ← path g.file value }
  | .oracleDepth => return { g with oracleDepth := ← word g.oracleDepth value }
  | .maxSize => return { g with maxSize := ← word g.maxSize value }
  | .maxEliminations => return { g with maxEliminations := ← word g.maxEliminations value }
  | .seed => return { g with seed := ← word g.seed value }
  | .output => return { g with output := ← path g.output value }

/-- Takes an option without a value. -/
def raise (g : Given) : Flag → Except UsageError Given
  | .noNumericCheck =>
    if g.noNumericCheck then .error .givenTwice else .ok { g with noNumericCheck := true }
  | .help => .error .helpWanted
  | .version => .error .versionWanted

end Given

/-- How far a command line has been read. -/
structure Parsing where
  given : Given
  /-- The last option, and its value if that is known already, until both are
  checked. -/
  pending : Option (Setting × Option String)
  /-- No options follow. -/
  ended : Bool
deriving DecidableEq

namespace Parsing

/-- Checks the pending option. -/
def settle (st : Parsing) : Except UsageError Given :=
  match st.pending with
  | none => .ok st.given
  | some (_, none) => .error .noValue
  | some (setting, some value) => st.given.set setting value

/-- Takes an option that takes a value. -/
def setting (st : Parsing) (s : Setting) (value? : Option String) :
    Except UsageError Parsing := do
  let given ← st.settle
  match value? with
  | none => return ⟨given, some (s, none), false⟩
  | some value => return ⟨← given.set s value, none, false⟩

/-- Takes an option that takes no value. -/
def flag (st : Parsing) (f : Flag) : Except UsageError Parsing := do
  return ⟨← (← st.settle).raise f, none, false⟩

/-- Takes an option by its name. -/
def long (st : Parsing) (name : String) (value? : Option String) : Except UsageError Parsing :=
  match Setting.ofName? name, Flag.ofName? name with
  | some s, _ => st.setting s value?
  | none, some f => if value?.isSome then .error .needlessValue else st.flag f
  | none, none => .error .unknownArgument

/-- Takes an argument. -/
def step (st : Parsing) (s : String) : Except UsageError Parsing :=
  if st.ended then .error .unknownArgument
  else match Argument.ofText s with
    | .endOfOptions => .ok { st with ended := true }
    | .long name value? => st.long name value?
    | .letters c =>
      match Flag.ofLetter? c with
      | some f => st.flag f
      | none => .error .unknownArgument
    | .plain text =>
      match st.pending with
      | some (setting, none) => .ok { st with pending := some (setting, some text) }
      | _ => .error .unknownArgument

end Parsing

namespace Options

/-- The seed that applies unless another one is asked for. -/
def defaultSeed : Nat := 2024

/-- Reads the arguments of a command line. -/
def parse (args : List String) : Except UsageError Options := do
  let g ← (← args.foldlM Parsing.step ⟨.nothing, none, false⟩).settle
  match g.file with
  | none => throw .noProblemFile
  | some file =>
    return ⟨file, g.oracleDepth, g.maxSize, g.maxEliminations, g.noNumericCheck,
      g.seed.getD defaultSeed, g.output⟩

/-- The settings of the proof attempts. -/
def settings (o : Options) : Settings where
  limits := {
    oracleDepth := o.oracleDepth.getD Limits.standard.oracleDepth
    expressionSize := o.maxSize.getD Limits.standard.expressionSize
    eliminations := o.maxEliminations.getD Limits.standard.eliminations }
  numericCheck := !o.noNumericCheck
  seed := UInt64.ofNat o.seed

end Options
end AreaMethod
