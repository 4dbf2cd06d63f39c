import CellFormula.Plan
import CellFormula.Native.Pipeline
/-! The two ways to evaluate a formula: walking its plan, or running its native routine. -/
namespace CellFormula

inductive Backend where
  | interpreting
  | compiling
deriving DecidableEq, Repr

inductive BackendRequest where
  | default
  | interpreting
  | compiling
deriving DecidableEq, Repr

/-- A name, in lower case, that no backend has. -/
structure UnknownBackend where
  name : String
deriving DecidableEq, Repr

inductive Executable (n : Nat) where
  | interpreted (plan : Plan n)
  | native (routine : Native.Routine n)

namespace Backend

def all : List Backend := [interpreting, compiling]

def name : Backend → String
  | interpreting => "interpreting"
  | compiling => "compiling"

def compile (backend : Backend) (bindings : Bindings n) (term : Term) :
    Except CompilationError (Executable n) :=
  match backend with
  | interpreting => return .interpreted (← term.plan bindings)
  | compiling => return .native (← Native.Routine.compile bindings term)

def evaluate : Backend → Executable n → Except Failure (Action n Float)
  | interpreting, .interpreted plan => .ok plan.eval
  | compiling, .native routine => .ok routine.run
  | _, _ => .error .foreignExecutable

end Backend

namespace BackendRequest

def name : BackendRequest → String
  | default => "default"
  | interpreting => "interpreting"
  | compiling => "compiling"

/-- The backend that a request stands for on a machine with a native code generator, where the
compiling backend is the default. Elsewhere the default would be the interpreting one, and a request
for the compiling one would fail. -/
def backend : BackendRequest → Backend
  | interpreting => .interpreting
  | default | compiling => .compiling

def ofName (name : String) : Except UnknownBackend BackendRequest :=
  let lower := name.toLower
  if lower = "default" then .ok default
  else if lower = "interpreting" ∨ lower = "interpreter" then .ok interpreting
  else if lower = "compiling" ∨ lower = "jit" then .ok compiling
  else .error ⟨lower⟩

end BackendRequest

def UnknownBackend.message (unknown : UnknownBackend) : String :=
  "unknown backend: " ++ unknown.name

namespace Executable

def backend : Executable n → Backend
  | interpreted _ => .interpreting
  | native _ => .compiling

def listing? : Executable n → Option String
  | interpreted _ => none
  | native routine => some routine.listing

def slots? : Executable n → Option (Native.Slots n)
  | interpreted _ => none
  | native routine => some routine.slots

end Executable

def nativeListing (bindings : Bindings n) (text : String) : Except Failure String := do
  let tree ← (parse text).mapError .parse
  let routine ← (Native.Routine.compile bindings tree).mapError .compilation
  return routine.listing

end CellFormula
