import CellFormula.Text.Hidden
/-! Text in double quotes, as messages and descriptions show it. -/
namespace CellFormula.Text

/-- A character inside double quotes. A single quote needs no escape there. -/
def escape (c : Char) : List Char :=
  if c = '"' then ['\\', '"']
  else if c = '\\' then ['\\', '\\']
  else if c = '\n' then ['\\', 'n']
  else if c = '\r' then ['\\', 'r']
  else if c = '\t' then ['\\', 't']
  else if c = '\x00' then ['\\', '0']
  else if isHidden c then
    ['\\', 'u', '\x7b'] ++ Nat.toDigits 16 c.toNat ++ ['\x7d']
  else [c]

def quoteChars (chars : List Char) : List Char :=
  '"' :: (chars.flatMap escape ++ ['"'])

def quote (text : String) : String := String.ofList (quoteChars text.toList)

end CellFormula.Text
