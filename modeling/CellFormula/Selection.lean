import CellFormula.Backend
/-! The backend that evaluates a representative formula in the shortest time. -/
namespace CellFormula.Selection

structure Benchmark where
  expression : String
  iterations : Nat
deriving DecidableEq, Repr

def Benchmark.standard : Benchmark where
  expression := "x = sin(y) * cos(z) + sqrt(y^2 + z^2) / (1 + exp(-y)) - if(y > z, y, z) * 0.5"
  iterations := 100000

def cells : Memory 3 := #v[0.0, 1.5, 0.5]

def bindings : Bindings 3 := ⟨[("x", 0), ("y", 1), ("z", 2)]⟩

/-- A number of evaluations, each for another value of `y`. -/
def batch (action : Action 3 Float) (count i : Nat) : Action 3 Unit :=
  match count with
  | 0 => pure ()
  | count + 1 => do
    Action.store 1 ((i % 100).toFloat * 0.01)
    let _ ← action
    batch action count (i + 1)

structure Trial where
  warmUp : Action 3 Float
  timed : Action 3 Unit

def Benchmark.trial (benchmark : Benchmark) (backend : Backend) : Except Failure Trial := do
  let term ← (parse benchmark.expression).mapError .parse
  let executable ← (backend.compile bindings term).mapError .compilation
  let action ← backend.evaluate executable
  return ⟨action, batch action benchmark.iterations 0⟩

structure Timing where
  backend : Backend
  duration : Except Failure Nat

/-- The earliest of the quickest backends; the interpreting one if all failed. -/
def quickest (timings : List Timing) : Backend :=
  let finished := timings.filterMap fun timing =>
    timing.duration.toOption.map fun duration => (timing.backend, duration)
  match finished with
  | [] => .interpreting
  | first :: rest =>
    (rest.foldl (fun best next => if next.2 < best.2 then next else best) first).1

end CellFormula.Selection
