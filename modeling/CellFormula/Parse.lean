import CellFormula.Parsing.Reading
/-! Formulas from text. -/
namespace CellFormula

inductive ParseError where
  | ofSyntax (error : Parsing.SyntaxError)
  | ofGrammar (error : Parsing.GrammarError)
deriving DecidableEq, Repr

def ParseError.message : ParseError → String
  | ofSyntax error => "syntax error: " ++ error.message
  | ofGrammar error => "syntax error: " ++ error.message

def parseChars (chars : List Char) : Except ParseError Term :=
  match Parsing.OperatorTree.ofChars chars with
  | .error error => .error (.ofSyntax error)
  | .ok tree =>
    match tree.toTerm with
    | .error error => .error (.ofGrammar error)
    | .ok term => .ok term

def parse (text : String) : Except ParseError Term := parseChars text.toList

end CellFormula
