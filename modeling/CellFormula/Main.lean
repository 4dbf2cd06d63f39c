import CellFormula.CommandLine.Run
import CellFormula.Selection
/-! The program: one formula, given on the command line. -/
namespace CellFormula

open CommandLine

/-- Takes the time of a trial in nanoseconds. Looking at the outcome makes it be computed. -/
def timing (backend : Backend) : IO Selection.Timing := do
  match Selection.Benchmark.standard.trial backend with
  | .error failure => return ⟨backend, .error failure⟩
  | .ok trial =>
    let warm := trial.warmUp Selection.cells
    let start ← IO.monoNanosNow
    let outcome := trial.timed warm.memory
    if outcome.memory.size = 0 then return ⟨backend, .ok 0⟩
    let stop ← IO.monoNanosNow
    return ⟨backend, .ok (stop - start)⟩

def fastestBackend : IO Backend :=
  return Selection.quickest (← Backend.all.mapM timing)

end CellFormula

open CellFormula CommandLine in
def main (arguments : List String) : IO UInt32 := do
  let invocation := Invocation.ofArguments arguments
  let fastest ← match invocation with
    | .run arguments => if arguments.wantsFastest then fastestBackend else pure .compiling
    | _ => pure .compiling
  let ending := invocation.ending fastest
  IO.print ending.output
  IO.eprint ending.errors
  return .ofNat ending.exitCode
