import CellFormula.Text.Blank
import CellFormula.Text.Quoted
/-! Pieces of a formula text: words, marks, blanks and quoted texts. Comments leave nothing behind,
so the letters on both sides of one join to a single word. -/
namespace CellFormula.Parsing

inductive Mark where
  | plus
  | minus
  | star
  | slash
  | percent
  | caret
  | opening
  | closing
  | comma
  | semicolon
  | equals
  | bang
  | greater
  | less
  | ampersand
  | bar
deriving DecidableEq, Repr

namespace Mark

def char : Mark → Char
  | plus => '+'
  | minus => '-'
  | star => '*'
  | slash => '/'
  | percent => '%'
  | caret => '^'
  | opening => '('
  | closing => ')'
  | comma => ','
  | semicolon => ';'
  | equals => '='
  | bang => '!'
  | greater => '>'
  | less => '<'
  | ampersand => '&'
  | bar => '|'

def all : List Mark :=
  [plus, minus, star, slash, percent, caret, opening, closing, comma, semicolon, equals, bang,
    greater, less, ampersand, bar]

def ofChar? (c : Char) : Option Mark := all.find? fun mark => mark.char = c

@[simp] theorem ofChar?_char (mark : Mark) : ofChar? mark.char = some mark := by
  cases mark <;> decide

end Mark

inductive Piece where
  | word (letters : List Char)
  | mark (mark : Mark)
  | blank
  | quoted (contents : List Char)
deriving DecidableEq, Repr

def Piece.shown : Piece → List Char
  | word letters => letters
  | mark m => [m.char]
  | blank => [' ']
  | quoted contents => Text.quoteChars contents

inductive SyntaxError where
  | unclosedQuote
  | illegalEscape (escaped : Option Char)
  | unclosedComment
  | strayMark (mark : Mark) (next : Option Piece)
  | appendedToLeaf
  | unmatchedOpening
  | unmatchedClosing
  | missingOperator
deriving DecidableEq, Repr

inductive Glyph where
  | letter (c : Char)
  | mark (mark : Mark)
  | blank
  | quoted (contents : List Char)
deriving DecidableEq, Repr

def Glyph.ofChar (c : Char) : Glyph :=
  match Mark.ofChar? c with
  | some m => .mark m
  | none => if Text.isBlank c then .blank else .letter c

/-- Where the scan of a text stands; quoted contents are kept with the latest character first. -/
inductive Mode where
  | plain
  | slash
  | lineComment
  | blockComment
  | blockStar
  | quoted (contents : List Char)
  | escaped (contents : List Char)
deriving DecidableEq, Repr

namespace Mode

def readPlain (c : Char) : Mode × List Glyph :=
  if c = '"' then (.quoted [], [])
  else if c = '/' then (.slash, [])
  else (.plain, [Glyph.ofChar c])

/-- The mode behind a character, and the glyphs that the character settles. -/
def step : Mode → Char → Except SyntaxError (Mode × List Glyph)
  | .plain, c => .ok (readPlain c)
  | .slash, c =>
    if c = '/' then .ok (.lineComment, [])
    else if c = '*' then .ok (.blockComment, [])
    else .ok ((readPlain c).1, .mark .slash :: (readPlain c).2)
  | .lineComment, c => .ok (if c = '\n' then .plain else .lineComment, [])
  | .blockComment, c => .ok (if c = '*' then .blockStar else .blockComment, [])
  | .blockStar, c =>
    .ok (if c = '/' then .plain else if c = '*' then .blockStar else .blockComment, [])
  | .quoted contents, c =>
    if c = '"' then .ok (.plain, [.quoted contents.reverse])
    else if c = '\\' then .ok (.escaped contents, [])
    else .ok (.quoted (c :: contents), [])
  | .escaped contents, c =>
    if c = '"' ∨ c = '\\' then .ok (.quoted (c :: contents), [])
    else .error (.illegalEscape (some c))

def finish : Mode → Except SyntaxError (List Glyph)
  | .plain | .lineComment => .ok []
  | .slash => .ok [.mark .slash]
  | .blockComment | .blockStar => .error .unclosedComment
  | .quoted _ => .error .unclosedQuote
  | .escaped _ => .error (.illegalEscape none)

def glyphs : Mode → List Char → Except SyntaxError (List Glyph)
  | mode, [] => mode.finish
  | mode, c :: rest => do
    let (next, settled) ← mode.step c
    return settled ++ (← next.glyphs rest)

end Mode

namespace Piece

/-- Puts a glyph in front of pieces; a letter joins a word that starts right behind it. -/
def join : Glyph → List Piece → List Piece
  | .letter c, .word letters :: rest => .word (c :: letters) :: rest
  | .letter c, rest => .word [c] :: rest
  | .mark m, rest => .mark m :: rest
  | .blank, rest => .blank :: rest
  | .quoted contents, rest => .quoted contents :: rest

def ofGlyphs (glyphs : List Glyph) : List Piece := glyphs.foldr join []

def ofChars (chars : List Char) : Except SyntaxError (List Piece) :=
  return ofGlyphs (← Mode.plain.glyphs chars)

end Piece

namespace SyntaxError

def message : SyntaxError → String
  | unclosedQuote => "Found an unmatched double quote '\"'"
  | illegalEscape escaped =>
    "Illegal escape sequence: \\" ++ String.ofList escaped.toList
  | unclosedComment => "Error: unmatched inline comment"
  | strayMark mark next =>
    let found := "Found a partial token '" ++ String.singleton mark.char ++ "' that should "
    match next with
    | some piece => found ++ "not be followed by '" ++ String.ofList piece.shown ++ "'."
    | none => found ++ "be followed by another partial token."
  | appendedToLeaf => "Tried to append a node to a leaf node."
  | unmatchedOpening => "Found an unmatched opening parenthesis '('."
  | unmatchedClosing => "Found an unmatched closing parenthesis ')'."
  | missingOperator =>
    "Found an opening parenthesis that is preceded by something that does not take any " ++
      "arguments on the right, or found a closing parenthesis that is succeeded by something " ++
      "that does not take any arguments on the left."

end SyntaxError
end CellFormula.Parsing
