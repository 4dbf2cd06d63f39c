import CellFormula.Number.Rounding
/-! The functions of one argument that a formula may call. Each has one symbol, the name of the
routine that computes it; a formula may spell a few of them differently. -/
namespace CellFormula

inductive ElementaryFunction where
  | sin
  | cos
  | tan
  | asin
  | acos
  | atan
  | sinh
  | cosh
  | tanh
  | asinh
  | acosh
  | atanh
  | log2
  | log10
  | log
  | exp
  | sqrt
  | fabs
  | rint
deriving DecidableEq, Repr

namespace Number

/-- The nearest integer, a tie going to the even one. Below `2 ^ 52` the sum with `2 ^ 52` has no
places behind the point; from there on every number is an integer. The sign is kept, also of zero. -/
def roundToInteger (x : Float) : Float :=
  let anchor : Float := 4503599627370496
  if x.abs < anchor then
    let magnitude := (x.abs + anchor) - anchor
    if isNegative x then -magnitude else magnitude
  else x

end Number

namespace ElementaryFunction

def all : List ElementaryFunction :=
  [sin, cos, tan, asin, acos, atan, sinh, cosh, tanh, asinh, acosh, atanh, log2, log10, log, exp,
    sqrt, fabs, rint]

def symbol : ElementaryFunction → String
  | sin => "sin"
  | cos => "cos"
  | tan => "tan"
  | asin => "asin"
  | acos => "acos"
  | atan => "atan"
  | sinh => "sinh"
  | cosh => "cosh"
  | tanh => "tanh"
  | asinh => "asinh"
  | acosh => "acosh"
  | atanh => "atanh"
  | log2 => "log2"
  | log10 => "log10"
  | log => "log"
  | exp => "exp"
  | sqrt => "sqrt"
  | fabs => "fabs"
  | rint => "rint"

def powerSymbol : String := "pow"

def ofSymbol? (text : String) : Option ElementaryFunction :=
  all.find? fun function => function.symbol = text

/-- The function that a formula means by a name: `log` is the decimal logarithm, `ln` the natural
one and `abs` the absolute value; every other name is a symbol. -/
def ofName? (name : String) : Option ElementaryFunction :=
  if name = "log" then some log10
  else if name = "ln" then some log
  else if name = "abs" then some fabs
  else ofSymbol? name

def apply (function : ElementaryFunction) (x : Float) : Float :=
  match function with
  | sin => x.sin
  | cos => x.cos
  | tan => x.tan
  | asin => x.asin
  | acos => x.acos
  | atan => x.atan
  | sinh => x.sinh
  | cosh => x.cosh
  | tanh => x.tanh
  | asinh => x.asinh
  | acosh => x.acosh
  | atanh => x.atanh
  | log2 => x.log2
  | log10 => x.log10
  | log => x.log
  | exp => x.exp
  | sqrt => x.sqrt
  | fabs => x.abs
  | rint => Number.roundToInteger x

@[simp] theorem ofSymbol?_symbol (function : ElementaryFunction) :
    ofSymbol? function.symbol = some function := by
  cases function <;> decide

theorem symbol_injective {a b : ElementaryFunction} (h : a.symbol = b.symbol) : a = b := by
  have same := ofSymbol?_symbol a
  rw [h, ofSymbol?_symbol] at same
  exact (Option.some.inj same).symm

theorem symbol_ne_powerSymbol (function : ElementaryFunction) : function.symbol ≠ powerSymbol := by
  cases function <;> decide

end ElementaryFunction
end CellFormula
