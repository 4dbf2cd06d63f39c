import CellFormula.Names
import CellFormula.Number.Decimal
import CellFormula.Operation
/-! Formula trees: their names and their printed form. The named constants `pi` and `e` are
variables of the tree; they get their values when the tree is resolved against bindings, so a tree
does not depend on them. -/
namespace CellFormula

inductive Term where
  | num (value : Float)
  | var (name : String)
  | neg (operand : Term)
  | binary (op : Operation) (left right : Term)
  | call (name : String) (args : List Term)
deriving BEq, Repr, Inhabited

def namedConstant? (name : String) : Option Float :=
  if name = "pi" then some (Float.ofBits 0x400921fb54442d18)
  else if name = "e" then some (Float.ofBits 0x4005bf0a8b145769)
  else none

def isConstant (name : String) : Bool := (namedConstant? name).isSome

namespace Term

/-- Induction over trees: an argument list may be assumed good in all its members. -/
@[elab_as_elim, induction_eliminator]
theorem inductionOn {motive : Term → Prop}
    (num : ∀ value, motive (num value))
    (var : ∀ name, motive (var name))
    (neg : ∀ operand, motive operand → motive (neg operand))
    (binary : ∀ op left right, motive left → motive right → motive (binary op left right))
    (call : ∀ name args, (∀ arg ∈ args, motive arg) → motive (call name args)) :
    ∀ term, motive term
  | .num value => num value
  | .var name => var name
  | .neg operand => neg operand (inductionOn num var neg binary call operand)
  | .binary op left right =>
    binary op left right (inductionOn num var neg binary call left)
      (inductionOn num var neg binary call right)
  | .call name args =>
    call name args fun arg _ => inductionOn num var neg binary call arg

mutual

/-- Every variable of the tree, as often as it occurs, from left to right. -/
def occurrences : Term → List String
  | .num _ => []
  | .var name => [name]
  | .neg operand => operand.occurrences
  | .binary _ left right => left.occurrences ++ right.occurrences
  | .call _ args => argumentOccurrences args

def argumentOccurrences : List Term → List String
  | [] => []
  | arg :: rest => arg.occurrences ++ argumentOccurrences rest

end

/-- The names that bindings have to supply: the variables that are not constants, in order. -/
def names (term : Term) : List String :=
  Names.ofList (term.occurrences.filter fun name => !isConstant name)

mutual

def print : Term → List Char
  | .num value => Number.text value
  | .var name => name.toList
  | .neg operand => "-(".toList ++ operand.print ++ ")".toList
  | .binary op left right =>
    "(".toList ++ left.print ++ " ".toList ++ op.symbol.toList ++ " ".toList ++ right.print ++
      ")".toList
  | .call name args => name.toList ++ "(".toList ++ printArguments args ++ ")".toList

def printArguments : List Term → List Char
  | [] => []
  | [arg] => arg.print
  | arg :: rest => arg.print ++ ", ".toList ++ printArguments rest

end

def text (term : Term) : String := String.ofList term.print

instance : ToString Term := ⟨text⟩

@[simp] theorem argumentOccurrences_eq (args : List Term) :
    argumentOccurrences args = args.flatMap occurrences := by
  induction args with
  | nil => simp [argumentOccurrences]
  | cons arg rest ih => simp [argumentOccurrences, ih]

@[simp] theorem mem_names {term : Term} {name : String} :
    name ∈ term.names ↔ name ∈ term.occurrences ∧ isConstant name = false := by
  simp [names]

theorem increasing_names (term : Term) : Names.Increasing term.names :=
  Names.increasing_ofList _

end Term
end CellFormula
