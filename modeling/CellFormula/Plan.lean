import CellFormula.Bindings
import CellFormula.Failure
import CellFormula.ElementaryFunction
import CellFormula.Memory
/-! Plans: formulas whose names are resolved to cells and functions, and their evaluation. -/
namespace CellFormula

/-- The truth value that a conditional tests for; every other number counts as false. -/
def isTrue (x : Float) : Bool := x == 1.0

/-- The sign of a number as `1`, `-1` or `0`; zeros and NaN have none. -/
def signOf (x : Float) : Float :=
  if (0.0 : Float) < x then 1.0 else if x < (0.0 : Float) then -1.0 else 0.0

inductive Plan (n : Nat) where
  | const (value : Float)
  | load (cell : Fin n)
  | store (cell : Fin n) (value : Plan n)
  | neg (operand : Plan n)
  | binary (op : Operation) (left right : Plan n)
  | apply (function : ElementaryFunction) (operand : Plan n)
  | conditional (condition yes no : Plan n)
  | sign (operand : Plan n)
deriving Inhabited

def Bindings.resolve (bindings : Bindings n) (name : String) : Except CompilationError (Fin n) :=
  match bindings.cell? name with
  | some cell => .ok cell
  | none => .error (.unboundVariable name)

namespace Term

/-- The plan of a formula. The target of an assignment is checked before the assigned value and
looked up behind it; the function of a call and the number of its arguments are checked before the
arguments. -/
def plan (bindings : Bindings n) : Term → Except CompilationError (Plan n)
  | .num value => .ok (.const value)
  | .var name =>
    match namedConstant? name with
    | some value => .ok (.const value)
    | none => return .load (← bindings.resolve name)
  | .neg operand => return .neg (← plan bindings operand)
  | .binary .assign (.var name) right =>
    if isConstant name then .error (.assignToConstant name)
    else do
      let value ← plan bindings right
      return .store (← bindings.resolve name) value
  | .binary .assign _ _ => .error .assignToNonVariable
  | .binary op left right => return .binary op (← plan bindings left) (← plan bindings right)
  | .call name args =>
    if name = "if" then
      match args with
      | [condition, yes, no] =>
        return .conditional (← plan bindings condition) (← plan bindings yes) (← plan bindings no)
      | _ => .error (.argumentCount name 3 args.length)
    else if name = "sign" then
      match args with
      | [arg] => return .sign (← plan bindings arg)
      | _ => .error (.argumentCount name 1 args.length)
    else
      match ElementaryFunction.ofName? name with
      | none => .error (.unknownFunction name)
      | some function =>
        match args with
        | [arg] => return .apply function (← plan bindings arg)
        | _ => .error (.argumentCount name 1 args.length)

end Term

namespace Plan

/-- Evaluates a plan. Operands run from left to right, an assignment behind its value, and a
conditional runs both of its branches. -/
def eval : Plan n → Action n Float
  | .const value => pure value
  | .load cell => Action.load cell
  | .store cell value => do
    let x ← value.eval
    Action.store cell x
    return x
  | .neg operand => do
    let x ← operand.eval
    return (-1.0) * x
  | .binary op left right => do
    let x ← left.eval
    let y ← right.eval
    return op.apply x y
  | .apply function operand => do
    let x ← operand.eval
    return function.apply x
  | .conditional condition yes no => do
    let test ← condition.eval
    let x ← yes.eval
    let y ← no.eval
    return if isTrue test then x else y
  | .sign operand => do
    let x ← operand.eval
    return signOf x

end Plan
end CellFormula
