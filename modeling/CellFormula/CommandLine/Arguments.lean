import CellFormula.Number.Decimal
import CellFormula.Text.Blank
/-! Arguments of the command line. Arguments are read from left to right, and the first one that is
wrong, or that asks for help or for the version, decides the invocation. -/
namespace CellFormula.CommandLine

structure Arguments where
  expression : String
  backend : String
  values : List (String × Float)
  repetitions : Nat
  wantsListing : Bool

inductive Invocation where
  | usageError
  | help
  | version
  | run (arguments : Arguments)

inductive ValueOption where
  | backend
  | binding
  | repetitions
deriving DecidableEq, Repr

inductive Flag where
  | listing
  | help
  | version
deriving DecidableEq, Repr

structure Settled where
  expression : Option String
  backend : Option String
  values : List (String × Float)
  repetitions : Option Nat
  wantsListing : Bool

namespace Settled

def empty : Settled := ⟨none, none, [], none, false⟩

def finish (settled : Settled) : Invocation :=
  match settled.expression with
  | none => .usageError
  | some expression =>
    .run
      { expression
        backend := settled.backend.getD "default"
        values := settled.values
        repetitions := settled.repetitions.getD 1
        wantsListing := settled.wantsListing }

end Settled

/-- A name and a number around the first equals sign, both without blanks around them. -/
def readBinding? (text : List Char) : Option (String × Float) :=
  match text.dropWhile (· ≠ '=') with
  | [] => none
  | _ :: value =>
    (Number.readSigned? (Text.trim value)).map fun x =>
      (String.ofList (Text.trim (text.takeWhile (· ≠ '='))), x)

/-- A count below `2 ^ 32` in decimal digits; a sign is allowed where it does not matter. -/
def readCount? (text : List Char) : Option Nat :=
  match text with
  | '+' :: digits => magnitude? digits (1 <<< 32)
  | '-' :: digits => magnitude? digits 1
  | digits => magnitude? digits (1 <<< 32)
where
  magnitude? (digits : List Char) (bound : Nat) : Option Nat :=
    let value := Decimal.ofDigits digits
    if digits ≠ [] ∧ digits.all Char.isDigit ∧ value < bound then some value else none

/-- Settles the value of an option. Only a binding may be given more than once. -/
def Settled.setOption (settled : Settled) (option : ValueOption) (value : List Char) :
    Option Settled :=
  match option with
  | .backend =>
    if settled.backend.isSome then none
    else some { settled with backend := some (String.ofList value) }
  | .binding =>
    (readBinding? value).map fun binding =>
      { settled with values := settled.values ++ [binding] }
  | .repetitions =>
    if settled.repetitions.isSome then none
    else (readCount? value).map fun count => { settled with repetitions := some count }

def Settled.setExpression (settled : Settled) (value : List Char) : Option Settled :=
  if settled.expression.isSome then none
  else some { settled with expression := some (String.ofList value) }

inductive OptionName where
  | valued (option : ValueOption)
  | flag (flag : Flag)

def OptionName.ofLong? (name : List Char) : Option OptionName :=
  if name = "backend".toList then some (.valued .backend)
  else if name = "var".toList then some (.valued .binding)
  else if name = "repeat".toList then some (.valued .repetitions)
  else if name = "ir".toList then some (.flag .listing)
  else if name = "help".toList then some (.flag .help)
  else if name = "version".toList then some (.flag .version)
  else none

def OptionName.ofShort? (name : Char) : Option OptionName :=
  if name = 'b' then some (.valued .backend)
  else if name = 'v' then some (.valued .binding)
  else if name = 'r' then some (.valued .repetitions)
  else if name = 'h' then some (.flag .help)
  else if name = 'V' then some (.flag .version)
  else none

inductive Reading where
  | settled (next : Settled)
  | awaiting (option : ValueOption)
  | onlyPositional
  | decided (invocation : Invocation)

def Reading.ofSettled? : Option Settled → Reading
  | some next => .settled next
  | none => .decided .usageError

def readFlag (settled : Settled) : Flag → Reading
  | .help => .decided .help
  | .version => .decided .version
  | .listing =>
    if settled.wantsListing then .decided .usageError
    else .settled { settled with wantsListing := true }

def readLong (settled : Settled) (text : List Char) : Reading :=
  match OptionName.ofLong? (text.takeWhile (· ≠ '=')), text.dropWhile (· ≠ '=') with
  | some (.valued option), [] => .awaiting option
  | some (.valued option), _ :: value => .ofSettled? (settled.setOption option value)
  | some (.flag flag), [] => readFlag settled flag
  | _, _ => .decided .usageError

def readShort (settled : Settled) : List Char → Reading
  | [] => .settled settled
  | name :: rest =>
    match OptionName.ofShort? name, rest with
    | some (.valued option), [] => .awaiting option
    | some (.valued option), '=' :: value => .ofSettled? (settled.setOption option value)
    | some (.valued option), value => .ofSettled? (settled.setOption option value)
    | some (.flag flag), rest =>
      match readFlag settled flag with
      | .settled next => readShort next rest
      | other => other
    | none, _ => .decided .usageError

def readArgument (settled : Settled) : List Char → Reading
  | ['-', '-'] => .onlyPositional
  | '-' :: '-' :: text => readLong settled text
  | ['-'] => .ofSettled? (settled.setExpression ['-'])
  | '-' :: letters => readShort settled letters
  | text => .ofSettled? (settled.setExpression text)

def isValue : List Char → Bool
  | ['-'] => true
  | '-' :: _ => false
  | _ => true

def readPositional (settled : Settled) : List (List Char) → Invocation
  | [] => settled.finish
  | text :: rest =>
    match settled.setExpression text with
    | some next => readPositional next rest
    | none => .usageError

def readAll (settled : Settled) (awaited : Option ValueOption) : List (List Char) → Invocation
  | [] => if awaited.isSome then .usageError else settled.finish
  | text :: rest =>
    match awaited with
    | some option =>
      if isValue text then
        match settled.setOption option text with
        | some next => readAll next none rest
        | none => .usageError
      else .usageError
    | none =>
      match readArgument settled text with
      | .settled next => readAll next none rest
      | .awaiting option => readAll settled (some option) rest
      | .onlyPositional => readPositional settled rest
      | .decided invocation => invocation

def Invocation.ofArguments (arguments : List String) : Invocation :=
  readAll .empty none (arguments.map String.toList)

end CellFormula.CommandLine
