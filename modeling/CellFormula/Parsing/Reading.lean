import CellFormula.Term
import CellFormula.Parsing.OperatorTree
/-! The formula that an operator tree stands for. A tree is read in two ways: as one operand, and as
the arguments of a call, where parentheses and commas contribute what they enclose. Both readings of
a tree come from both readings of its operands. -/
namespace CellFormula.Parsing

inductive Malformation where
  | group (count : Nat)
  | operands (op : Operation) (count : Nat)
  | negation (count : Nat)
  | other (description : String)
deriving DecidableEq, Repr

inductive GrammarError where
  | unsupportedOperator (operator : Operator)
  | nonNumericConstant (value : Constant)
  | malformed (malformation : Malformation)
deriving DecidableEq, Repr

namespace Malformation

def message : Malformation → String
  | group count => "Expected single child for root node, got " ++ toString count
  | operands op count =>
    let expected := if op.isFolded then "at least two operands" else "two operands"
    "Expected " ++ expected ++ " for " ++ op.symbol ++ ", got " ++ toString count
  | negation count => "Expected single operand for negation, got " ++ toString count
  | other description => description

end Malformation

namespace Operator

def binary? : Operator → Option Operation
  | pow => some .pow
  | mul => some .mul
  | div => some .div
  | add => some .add
  | sub => some .sub
  | lt => some .lt
  | gt => some .gt
  | le => some .le
  | ge => some .ge
  | eq => some .eq
  | ne => some .ne
  | assign => some .assign
  | _ => none

def name : Operator → String
  | root => "Root"
  | constant _ => "Const"
  | reference _ => "Variable"
  | function _ => "Function"
  | pow => "Exp"
  | neg => "Neg"
  | not => "Not"
  | mul => "Mul"
  | div => "Div"
  | mod => "Mod"
  | add => "Add"
  | sub => "Sub"
  | lt => "Lt"
  | gt => "Gt"
  | le => "Leq"
  | ge => "Geq"
  | eq => "Eq"
  | ne => "Neq"
  | and => "And"
  | or => "Or"
  | assign => "Assign"
  | addAssign => "AddAssign"
  | subAssign => "SubAssign"
  | mulAssign => "MulAssign"
  | divAssign => "DivAssign"
  | modAssign => "ModAssign"
  | powAssign => "ExpAssign"
  | andAssign => "AndAssign"
  | orAssign => "OrAssign"
  | tuple => "Tuple"
  | chain => "Chain"

end Operator

namespace Constant

def description : Constant → String
  | number value => String.ofList (Number.text value)
  | text contents => "String(" ++ Text.quote contents ++ ")"
  | truth value => "Boolean(" ++ toString value ++ ")"

end Constant

namespace GrammarError

def message : GrammarError → String
  | unsupportedOperator operator => "Unsupported operator: " ++ operator.name
  | nonNumericConstant value => "Expected numeric constant: " ++ value.description
  | malformed malformation => "Malformed expression: " ++ malformation.message

end GrammarError

structure Reading where
  operand : Except GrammarError Term
  arguments : Except GrammarError (List Term)

namespace Reading

def allArguments : List Reading → Except GrammarError (List Term)
  | [] => .ok []
  | reading :: rest => return (← reading.arguments) ++ (← allArguments rest)

/-- Groups operands of one operator to the left, up to the first error. -/
def foldOperands (op : Operation) : Term → List Reading → Except GrammarError Term
  | left, [] => .ok left
  | left, reading :: rest => do foldOperands op (.binary op left (← reading.operand)) rest

def binaryOf (op : Operation) (readings : List Reading) : Except GrammarError Term :=
  match readings with
  | first :: second :: rest =>
    if op.isFolded || rest.isEmpty then do foldOperands op (← first.operand) (second :: rest)
    else .error (.malformed (.operands op readings.length))
  | _ => .error (.malformed (.operands op readings.length))

def operandOf (operator : Operator) (readings : List Reading) : Except GrammarError Term :=
  match operator, readings with
  | .root, [reading] => reading.operand
  | .root, readings => .error (.malformed (.group readings.length))
  | .constant (.number value), _ => .ok (.num value)
  | .constant value, _ => .error (.nonNumericConstant value)
  | .reference name, _ => .ok (.var name)
  | .function name, readings => return .call name (← allArguments readings)
  | .neg, [reading] => return .neg (← reading.operand)
  | .neg, readings => .error (.malformed (.negation readings.length))
  | operator, readings =>
    match operator.binary? with
    | none => .error (.unsupportedOperator operator)
    | some op => binaryOf op readings

/-- The arguments of an operator: none in empty parentheses, those of what single parentheses or a
tuple enclose, and otherwise its formula. -/
def argumentsOf (operator : Operator) (readings : List Reading) :
    Except GrammarError (List Term) :=
  match operator, readings with
  | .root, [] => .ok []
  | .root, [reading] => reading.arguments
  | .tuple, readings => allArguments readings
  | operator, readings => return [← operandOf operator readings]

def ofNode (operator : Operator) (readings : List Reading) : Reading :=
  ⟨operandOf operator readings, argumentsOf operator readings⟩

end Reading

namespace OperatorTree

mutual

def reading : OperatorTree → Reading
  | .node operator operands => .ofNode operator (readings operands)

/-- The readings of operands in order, the latest operand being the first of the list. -/
def readings : List OperatorTree → List Reading
  | [] => []
  | latest :: earlier => readings earlier ++ [reading latest]

end

def toTerm (tree : OperatorTree) : Except GrammarError Term := tree.reading.operand

end OperatorTree
end CellFormula.Parsing
