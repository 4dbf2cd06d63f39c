import CellFormula.Parse
/-! What can go wrong between a text and a value, and the message of each case. -/
namespace CellFormula

inductive EngineFault where
  | hostMachine
  | settings
  | generation
  | module
  | function
  | declaration
  | verification
deriving DecidableEq, Repr

structure EngineError where
  fault : EngineFault
  detail : String
deriving DecidableEq, Repr

inductive CompilationError where
  | assignToNonVariable
  | assignToConstant (name : String)
  | unknownFunction (name : String)
  | argumentCount (function : String) (expected got : Nat)
  | unboundVariable (name : String)
  | engine (error : EngineError)
deriving DecidableEq, Repr

inductive Failure where
  | parse (error : ParseError)
  | compilation (error : CompilationError)
  | engine (error : EngineError)
  | noExpression
  | foreignExecutable
  | cannotBind (name : String)
deriving DecidableEq, Repr

namespace EngineFault

def message : EngineFault → String
  | hostMachine => "host machine is not supported"
  | settings => "settings error"
  | generation => "codegen error"
  | module => "module error"
  | function => "function error"
  | declaration => "declaration error"
  | verification => "verifier error"

end EngineFault

namespace EngineError

def message (error : EngineError) : String := error.fault.message ++ ": " ++ error.detail

end EngineError

namespace CompilationError

def message : CompilationError → String
  | assignToNonVariable => "left side of assignment must be a variable"
  | assignToConstant name => "cannot assign to constant: " ++ name
  | unknownFunction name => "unknown function: " ++ name
  | argumentCount function expected got =>
    "function " ++ function ++ " expects " ++ toString expected ++ " argument(s), got " ++
      toString got
  | unboundVariable name => "variable not bound: " ++ name
  | engine error => "failed to build native routine: " ++ error.message

end CompilationError

namespace Failure

def message : Failure → String
  | parse error => error.message
  | compilation error => "compile error: " ++ error.message
  | engine error => "engine error: " ++ error.message
  | noExpression => "no expression has been set"
  | foreignExecutable => "compiled unit was produced by a different backend"
  | cannotBind name => "cannot bind variable `" ++ name ++ "`"

end Failure
end CellFormula
