import CellFormula.CommandLine.Arguments
import CellFormula.Formula
/-! The run of the command line: one formula over one cell for each variable option. -/
namespace CellFormula.CommandLine

structure Ending where
  exitCode : Nat
  output : String
  errors : String
deriving DecidableEq, Repr

structure Report where
  backend : Backend
  result : Float
  values : List (String × Float)
  listing : Option String

namespace Arguments

def wantsFastest (arguments : Arguments) : Bool := arguments.backend.toLower = "fastest"

/-- The requested backend, on a machine with a native code generator whose quickest backend is
given. No request for a known backend fails there. -/
def chosen (arguments : Arguments) (fastest : Backend) : Except UnknownBackend Backend :=
  if arguments.wantsFastest then .ok fastest
  else (BackendRequest.ofName arguments.backend).map BackendRequest.backend

def memory (arguments : Arguments) : Memory arguments.values.length :=
  ⟨(arguments.values.map Prod.snd).toArray, by simp⟩

def targets (arguments : Arguments) : List (String × Fin arguments.values.length) :=
  (List.finRange arguments.values.length).map fun i => (arguments.values[i].1, i)

end Arguments

def bindAll (formula : Formula n) : List (String × Fin n) → Except String (Formula n)
  | [] => .ok formula
  | (name, cell) :: rest =>
    match formula.bind name (some cell) with
    | (next, true) => bindAll next rest
    | (next, false) => .error next.message

def edit (formula : Formula n) (source : String) : Except String (Formula n) :=
  match formula.edit source with
  | (next, true) => .ok next
  | (next, false) => .error next.message

def evaluate (formula : Formula n) (memory : Memory n) :
    Except String (Formula n × Outcome n Float) :=
  let (next, outcome) := formula.evaluate memory
  if next.message = "" then .ok (next, outcome) else .error next.message

/-- Evaluates once and then `more` times, up to the first failure. -/
def evaluateRepeatedly (formula : Formula n) (memory : Memory n) :
    Nat → Except String (Formula n × Outcome n Float)
  | 0 => evaluate formula memory
  | more + 1 =>
    match evaluate formula memory with
    | .ok (next, outcome) => evaluateRepeatedly next outcome.memory more
    | .error message => .error message

def Arguments.report (arguments : Arguments) (fastest : Backend) : Except String Report := do
  let backend ← (arguments.chosen fastest).mapError UnknownBackend.message
  let bound ← bindAll (Formula.new backend) arguments.targets
  let formula ← edit bound arguments.expression
  let (last, outcome) ← evaluateRepeatedly formula arguments.memory (arguments.repetitions - 1)
  let listing :=
    if arguments.wantsListing then
      match last.listing? with
      | some listing => some ("CLIF IR:\n" ++ listing)
      | none => some "No IR: the formula is interpreted"
    else none
  let values := (arguments.values.map Prod.fst).zip outcome.memory.toList
  return ⟨last.backend, outcome.value, values, listing⟩

def number (x : Float) : String := String.ofList (Number.text x)

def Report.text (report : Report) : String :=
  let lines := report.values.map fun (name, x) => "  " ++ name ++ " = " ++ number x ++ "\n"
  let listing := match report.listing with
    | some listing => listing ++ "\n"
    | none => ""
  "Backend: " ++ report.backend.name ++ "\nResult: " ++ number report.result ++ "\n" ++
    String.join lines ++ listing

def helpText : String :=
  "Evaluate a formula with the interpreting or the compiling backend

Usage: formula-jit [OPTIONS] <EXPRESSION>

Arguments:
  <EXPRESSION>  Formula to evaluate, e.g. \"x = y * z\"

Options:
  -b, --backend <BACKEND>  Backend to use: default, interpreting, compiling or fastest [default: default]
  -v, --var <NAME=VALUE>   Variable binding, repeatable
  -r, --repeat <REPEAT>    Number of evaluations [default: 1]
      --ir                 Print the optimized CLIF of the compiled routine
  -h, --help               Print help
  -V, --version            Print version
"

def versionText : String := "formula-jit 0.1.0\n"

def usageText : String :=
  "error: invalid arguments

Usage: formula-jit [OPTIONS] <EXPRESSION>

For more information, try '--help'.
"

def Invocation.ending (invocation : Invocation) (fastest : Backend) : Ending :=
  match invocation with
  | .usageError => ⟨2, "", usageText⟩
  | .help => ⟨0, helpText, ""⟩
  | .version => ⟨0, versionText, ""⟩
  | .run arguments =>
    match arguments.report fastest with
    | .ok report => ⟨0, report.text, ""⟩
    | .error message => ⟨1, "", "Error: " ++ message ++ "\n"⟩

end CellFormula.CommandLine
