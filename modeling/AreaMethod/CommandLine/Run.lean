/-
# A run of the command line

Given the options and the text of the problem file, a run proves the problems
in order and writes the reports. An attempt that ends without a result, because
a question stayed open or a limit was hit, is reported as inconclusive; any
other fault ends the run.

Key definitions: `Outcome`, `Theorem.proveOrExplain`, `Options.reports`,
`CommandLine.run`.
-/
import AreaMethod.CommandLine.Options
import AreaMethod.Json.Writer
import AreaMethod.Problem
import AreaMethod.Proof.Form

namespace AreaMethod

/-- The report of a proof attempt, inconclusive if there is no result. -/
def Theorem.proveOrExplain (thm : Theorem) (settings : Settings) : Except Fault Report :=
  match thm.prove settings with
  | .ok r => .ok r
  | .error (.undecided s) => .ok (.inconclusive thm s.text)
  | .error f => if f.isLimit then .ok (.inconclusive thm f.message) else .error f

namespace Options

/-- The reports on the problems of a text; there is no text if the file could
not be loaded. -/
def reports (o : Options) (text? : Option String) : Except Fault (List Report) := do
  match text? with
  | none => throw .noFile
  | some text =>
    let thms ← Problem.buildAll (← Problem.readAll text)
    thms.mapM (·.proveOrExplain o.settings)

end Options

/-- The text of a list of reports. -/
def Report.listText (rs : List Report) : String := (Json.array (rs.map Report.toJson)).pretty

/-- What a run leaves behind. -/
structure Outcome where
  /-- The exit code: zero for success, one for a fault, two for a usage error. -/
  code : Nat
  /-- The text on the standard output. -/
  printed : String
  /-- The path and content of the file with the reports. -/
  written : Option (String × String)
  /-- What went wrong. -/
  complaint : Option String
deriving DecidableEq

namespace CommandLine

/-- The options with what they do. -/
def help : String :=
  "\n".intercalate [
    "Usage: area-method [OPTIONS] --file <FILE>",
    "",
    "Options:",
    "      --file <FILE>            JSON file with a list of theorems",
    "      --oracle-depth <N>       How deep auxiliary proofs may nest",
    "      --max-size <N>           Node limit for intermediate expressions",
    "      --max-eliminations <N>   Maximal number of point eliminations per proof",
    "      --no-numeric-check       Skip the cross-check at random coordinates",
    "      --rng-seed <N>           Seed of the numeric cross-check [default: 2024]",
    "      --output <FILE>          Write the reports to this file instead of stdout",
    "  -h, --help                   Print help",
    "  -V, --version                Print version"]

/-- The name and version of the program. -/
def version : String := "area-method 0.1.0"

/-- The outcome of a command line without options. -/
def refuse : UsageError → Outcome
  | .helpWanted => ⟨0, help ++ "\n", none, none⟩
  | .versionWanted => ⟨0, version ++ "\n", none, none⟩
  | e => ⟨2, "", none, some e.message⟩

/-- The outcome of a run with the given options, on the text of the problem
file. -/
def perform (o : Options) (text? : Option String) : Outcome :=
  match o.reports text? with
  | .error f => ⟨1, "", none, some f.message⟩
  | .ok rs =>
    match o.output with
    | some path => ⟨0, "", some (path, Report.listText rs), none⟩
    | none => ⟨0, Report.listText rs ++ "\n", none, none⟩

/-- The outcome of a command line, where `load` gives the texts of files. -/
def run (args : List String) (load : String → Option String) : Outcome :=
  match Options.parse args with
  | .error e => refuse e
  | .ok o => perform o (load o.file)

end CommandLine
end AreaMethod
