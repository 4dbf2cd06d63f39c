/-! Binary operators of formulas. A comparison yields `1` or `0`, so its result is an ordinary
number. -/
namespace CellFormula

inductive Operation where
  | assign
  | add
  | sub
  | mul
  | div
  | pow
  | lt
  | gt
  | le
  | ge
  | eq
  | ne
deriving DecidableEq, Repr

def ofTruth (b : Bool) : Float := if b then 1.0 else 0.0

namespace Operation

def symbol : Operation → String
  | assign => "="
  | add => "+"
  | sub => "-"
  | mul => "*"
  | div => "/"
  | pow => "^"
  | lt => "<"
  | gt => ">"
  | le => "<="
  | ge => ">="
  | eq => "=="
  | ne => "!="

def isFolded : Operation → Bool
  | add | mul => true
  | _ => false

def all : List Operation :=
  [assign, add, sub, mul, div, pow, lt, gt, le, ge, eq, ne]

def ofSymbol? (text : String) : Option Operation :=
  all.find? fun op => op.symbol = text

def isComparison : Operation → Bool
  | lt | gt | le | ge | eq | ne => true
  | _ => false

/-- The value of an operation on two numbers. Every comparison with NaN is false except `!=`; the
value of an assignment is the assigned number. -/
def apply (op : Operation) (left right : Float) : Float :=
  match op with
  | assign => right
  | add => left + right
  | sub => left - right
  | mul => left * right
  | div => left / right
  | pow => left.pow right
  | lt => ofTruth (left < right)
  | gt => ofTruth (right < left)
  | le => ofTruth (left ≤ right)
  | ge => ofTruth (right ≤ left)
  | eq => ofTruth (left == right)
  | ne => ofTruth (left != right)

@[simp] theorem ofSymbol?_symbol (op : Operation) : ofSymbol? op.symbol = some op := by
  cases op <;> decide

end Operation
end CellFormula
