import CellFormula.Number.Rounding
/-! Decimal numbers: their grammar, their nearest binary64 number, and the shortest decimal that
reads back as a given binary64 number. -/
namespace CellFormula

/-- The number `coefficient * 10 ^ exponent`. -/
structure Decimal where
  coefficient : Nat
  exponent : Int
deriving DecidableEq, Repr

namespace Decimal
open Number

/-- The bits of the nearest binary64 number. A number of at least `10 ^ 310` is beyond the largest
finite one, and one of at most `2 ^ (-1075)` is nearest to zero; neither needs its power of ten. -/
def nearestBits (d : Decimal) : Nat :=
  if d.coefficient = 0 then 0
  else if 310 ≤ d.exponent then infinityBits
  else if 3 * d.exponent + d.coefficient.log2 + 1 ≤ -1075 then 0
  else
    Number.nearestBits (d.coefficient * Nat.pow 10 d.exponent.toNat)
      (Nat.pow 10 (-d.exponent).toNat)

def toFloat (d : Decimal) : Float := ofMagnitudeBits d.nearestBits

def ofDigits (digits : List Char) : Nat :=
  digits.foldl (fun value digit => 10 * value + (digit.toNat - '0'.toNat)) 0

def readExponent? : List Char → Option Int
  | [] => some 0
  | mark :: rest =>
    if mark = 'e' ∨ mark = 'E' then
      match rest with
      | '-' :: digits => (magnitude? digits).map fun n => -(n : Int)
      | '+' :: digits => (magnitude? digits).map fun n => (n : Int)
      | digits => (magnitude? digits).map fun n => (n : Int)
    else none
where
  magnitude? (digits : List Char) : Option Nat :=
    if digits ≠ [] ∧ digits.all Char.isDigit then some (ofDigits digits) else none

def splitFraction : List Char → List Char × List Char
  | '.' :: rest => (rest.takeWhile Char.isDigit, rest.dropWhile Char.isDigit)
  | rest => ([], rest)

def read? (text : List Char) : Option Decimal :=
  let whole := text.takeWhile Char.isDigit
  let (fraction, rest) := splitFraction (text.dropWhile Char.isDigit)
  if whole = [] ∧ fraction = [] then none
  else (readExponent? rest).map fun exponent =>
    ⟨ofDigits (whole ++ fraction), exponent - fraction.length⟩

/-- The decimal without an exponent: zeros fill the places up to the point. -/
def positional (d : Decimal) : List Char :=
  let digits := Nat.toDigits 10 d.coefficient
  let places := (-d.exponent).toNat
  if d.exponent ≥ 0 then digits ++ List.replicate d.exponent.toNat '0'
  else if places < digits.length then
    digits.take (digits.length - places) ++ '.' :: digits.drop (digits.length - places)
  else '0' :: '.' :: (List.replicate (places - digits.length) '0' ++ digits)

/-- The shortest decimal that reads back as the magnitude `expansion * 10 ^ (-1074)`, with at most
`places` digits cut off. Only the two neighbours with as many digits can be shorter; the nearer one
is taken, and the larger one at equal distance. -/
def shortestFrom (bits expansion : Nat) : Nat → Decimal
  | 0 => ⟨expansion, -1074⟩
  | places + 1 =>
    let unit := Nat.pow 10 (places + 1)
    let below : Decimal := ⟨expansion / unit, (places + 1 : Nat) - (1074 : Int)⟩
    let above : Decimal := ⟨expansion / unit + 1, (places + 1 : Nat) - (1074 : Int)⟩
    if below.nearestBits = bits then
      if above.nearestBits = bits ∧ unit ≤ 2 * (expansion % unit) then above else below
    else if above.nearestBits = bits then above
    else shortestFrom bits expansion places

def shortest (bits : Nat) : Decimal :=
  if bits = 0 then ⟨0, 0⟩
  else
    let expansion := unitsOfBits bits * Nat.pow 5 1074
    shortestFrom bits expansion (Nat.repr expansion).length

end Decimal

namespace Number

/-- The text of a number: the shortest digits that read back, never with an exponent. -/
def text (x : Float) : List Char :=
  if x.isNaN then "NaN".toList
  else
    let magnitude :=
      if magnitudeBits x = infinityBits then "inf".toList
      else (Decimal.shortest (magnitudeBits x)).positional
    if isNegative x then '-' :: magnitude else magnitude

def readUnsigned? (chars : List Char) : Option Float :=
  let word := chars.map Char.toLower
  if word = "inf".toList ∨ word = "infinity".toList then some infinity
  else if word = "nan".toList then some nan
  else (Decimal.read? chars).map Decimal.toFloat

def readSigned? : List Char → Option Float
  | '+' :: rest => readUnsigned? rest
  | '-' :: rest => (readUnsigned? rest).map Float.neg
  | chars => readUnsigned? chars

end Number
end CellFormula
