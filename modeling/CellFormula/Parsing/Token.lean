import CellFormula.Number.Decimal
import CellFormula.Parsing.Piece
/-! Tokens of a formula text. Marks combine only with marks right behind them, and a word is an
integer, a decimal, a truth value or an identifier. -/
namespace CellFormula.Parsing

inductive Constant where
  | number (value : Float)
  | text (contents : String)
  | truth (value : Bool)
deriving DecidableEq, Repr

/-- The operators of operator trees. A root is what a pair of parentheses encloses. -/
inductive Operator where
  | root
  | constant (value : Constant)
  | reference (name : String)
  | function (name : String)
  | pow
  | neg
  | not
  | mul
  | div
  | mod
  | add
  | sub
  | lt
  | gt
  | le
  | ge
  | eq
  | ne
  | and
  | or
  | assign
  | addAssign
  | subAssign
  | mulAssign
  | divAssign
  | modAssign
  | powAssign
  | andAssign
  | orAssign
  | tuple
  | chain
deriving DecidableEq, Repr

inductive Token where
  | constant (value : Constant)
  | identifier (name : String)
  | opening
  | closing
  | minus
  | operator (operator : Operator)
deriving DecidableEq, Repr

namespace Mark

inductive Usage where
  /-- The mark is a token by itself. -/
  | alone (token : Token)
  /-- The mark is a token, and another one together with an equals sign right behind it. -/
  | beforeEquals (token : Token) (combined : Operator)
  /-- Only two of the marks make an operator, and another one with an equals sign behind them. -/
  | doubled (double assignment : Operator)

def usage : Mark → Usage
  | plus => .beforeEquals (.operator .add) .addAssign
  | minus => .beforeEquals .minus .subAssign
  | star => .beforeEquals (.operator .mul) .mulAssign
  | slash => .beforeEquals (.operator .div) .divAssign
  | percent => .beforeEquals (.operator .mod) .modAssign
  | caret => .beforeEquals (.operator .pow) .powAssign
  | opening => .alone .opening
  | closing => .alone .closing
  | comma => .alone (.operator .tuple)
  | semicolon => .alone (.operator .chain)
  | equals => .beforeEquals (.operator .assign) .eq
  | bang => .beforeEquals (.operator .not) .ne
  | greater => .beforeEquals (.operator .gt) .ge
  | less => .beforeEquals (.operator .lt) .le
  | ampersand => .doubled .and .andAssign
  | bar => .doubled .or .orAssign

end Mark

namespace Constant

def ofInteger (value : Nat) : Constant :=
  .number (Number.ofMagnitudeBits (Number.nearestBits value 1))

def isHexDigit (c : Char) : Bool :=
  c.isDigit || ('a' ≤ c && c ≤ 'f') || ('A' ≤ c && c ≤ 'F')

def hexDigit (c : Char) : Nat :=
  if c.isDigit then c.toNat - '0'.toNat else c.toLower.toNat - 'a'.toNat + 10

/-- An integer below `2 ^ 63`, in hexadecimal digits behind `0x` or else in decimal ones. -/
def integer? : List Char → Option Nat
  | '0' :: 'x' :: digits =>
    bounded digits isHexDigit (digits.foldl (fun value digit => 16 * value + hexDigit digit) 0)
  | digits => bounded digits Char.isDigit (Decimal.ofDigits digits)
where
  bounded (digits : List Char) (isDigit : Char → Bool) (value : Nat) : Option Nat :=
    if digits ≠ [] ∧ digits.all isDigit ∧ value < 1 <<< 63 then some value else none

def ofWord? (letters : List Char) : Option Constant :=
  match integer? letters with
  | some value => some (ofInteger value)
  | none =>
    match Number.readUnsigned? letters with
    | some value => some (.number value)
    | none =>
      if letters = "true".toList then some (.truth true)
      else if letters = "false".toList then some (.truth false)
      else none

/-- The decimal whose exponent carries a sign and so lies on three pieces. -/
def ofSignedExponent? (letters : List Char) (sign : Mark) (digits : List Char) :
    Option Constant :=
  if sign = .plus ∨ sign = .minus then
    (Number.readUnsigned? (letters ++ sign.char :: digits)).map .number
  else none

end Constant

namespace Token

def ofPieces : List Piece → Except SyntaxError (List Token)
  | [] => .ok []
  | .blank :: rest => ofPieces rest
  | .quoted contents :: rest =>
    return .constant (.text (String.ofList contents)) :: (← ofPieces rest)
  | .word letters :: rest =>
    match Constant.ofWord? letters, rest with
    | some value, rest => return .constant value :: (← ofPieces rest)
    | none, .mark sign :: .word digits :: after =>
      match Constant.ofSignedExponent? letters sign digits with
      | some value => return .constant value :: (← ofPieces after)
      | none =>
        return .identifier (String.ofList letters) ::
          (← ofPieces (.mark sign :: .word digits :: after))
    | none, rest => return .identifier (String.ofList letters) :: (← ofPieces rest)
  | .mark mark :: rest =>
    match mark.usage, rest with
    | .alone token, rest => return token :: (← ofPieces rest)
    | .beforeEquals _ combined, .mark .equals :: after =>
      return .operator combined :: (← ofPieces after)
    | .beforeEquals token _, rest => return token :: (← ofPieces rest)
    | .doubled _ assignment, .mark second :: .mark .equals :: after =>
      if second = mark then return .operator assignment :: (← ofPieces after)
      else .error (.strayMark mark (some (.mark second)))
    | .doubled double _, .mark second :: after =>
      if second = mark then return .operator double :: (← ofPieces after)
      else .error (.strayMark mark (some (.mark second)))
    | .doubled .., rest => .error (.strayMark mark rest.head?)

def ofChars (chars : List Char) : Except SyntaxError (List Token) :=
  Piece.ofChars chars >>= ofPieces

end Token
end CellFormula.Parsing
