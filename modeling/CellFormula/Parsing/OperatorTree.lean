import CellFormula.Parsing.Token
/-! Operator trees, which grow along their right edge: an operator descends past the ones that bind
less tightly and takes the operand it meets there. Each open parenthesis starts a tree of its own on
a stack, and so does each sequence of operands. -/
namespace CellFormula.Parsing

namespace Operator

def precedence : Operator → Nat
  | root | constant _ | reference _ => 200
  | function _ => 190
  | pow => 120
  | neg | not => 110
  | mul | div | mod => 100
  | add | sub => 95
  | lt | gt | le | ge | eq | ne => 80
  | and => 75
  | or => 70
  | assign | addAssign | subAssign | mulAssign | divAssign | modAssign | powAssign | andAssign
  | orAssign => 50
  | tuple => 40
  | chain => 0

/-- How many operands an operator takes; a sequence takes any number. -/
def arity? : Operator → Option Nat
  | constant _ | reference _ => some 0
  | root | function _ | neg | not => some 1
  | tuple | chain => none
  | _ => some 2

def isRoot : Operator → Bool
  | root => true
  | _ => false

def isLeaf : Operator → Bool
  | constant _ | reference _ => true
  | _ => false

def isUnary : Operator → Bool
  | function _ | neg | not => true
  | _ => false

def isSequence : Operator → Bool
  | tuple | chain => true
  | _ => false

def isSameSequence : Operator → Operator → Bool
  | tuple, tuple | chain, chain => true
  | _, _ => false

def groupsRight : Operator → Bool
  | assign | function _ => true
  | _ => false

/-- An operator that is read later goes below this one instead of around it. -/
def admits (outer later : Operator) : Bool :=
  outer.precedence < later.precedence || later.isUnary ||
    (outer.precedence = later.precedence && outer.groupsRight && later.groupsRight)

end Operator

/-- An operator with its operands, the latest one first. -/
inductive OperatorTree where
  | node (operator : Operator) (operands : List OperatorTree)
deriving BEq, Repr

namespace OperatorTree

def operator : OperatorTree → Operator
  | node operator _ => operator

def operands : OperatorTree → List OperatorTree
  | node _ operands => operands

def push : OperatorTree → OperatorTree → OperatorTree
  | node operator operands, operand => node operator (operand :: operands)

def emptyRoot : OperatorTree := node .root []

/-- Puts a tree in the place of the operand that it takes as its own. -/
def displace (outer : Operator) (others : List OperatorTree) (last tree : OperatorTree) :
    Except SyntaxError OperatorTree :=
  if tree.operator.isLeaf then .error .appendedToLeaf
  else if outer.isRoot ∧ (others ≠ [] ∨ tree.operator.isRoot) then .error .missingOperator
  else if tree.operator.isRoot ∧ (tree.operands ≠ [] ∨ last.operator.isRoot) then
    .error .missingOperator
  else .ok (node outer (tree.push last :: others))

def insert (tree : OperatorTree) : OperatorTree → Except SyntaxError OperatorTree
  | node outer [] =>
    if outer.isLeaf then .error .appendedToLeaf else .ok (node outer [tree])
  | node outer (last :: others) =>
    if outer.arity? ≠ some (others.length + 1) then .ok (node outer (tree :: last :: others))
    else if last.operator.admits tree.operator then
      return node outer ((← insert tree last) :: others)
    else displace outer others last tree

def insertLast (tree : OperatorTree) : OperatorTree → Except SyntaxError OperatorTree
  | node sequence (last :: others) => return node sequence ((← insert tree last) :: others)
  | node sequence [] => .ok (node sequence [tree])

end OperatorTree

inductive Item where
  | opening
  | closing
  | operator (operator : Operator)
deriving DecidableEq, Repr

namespace Item

/-- What an identifier is depends on the token behind it: in front of a parenthesis, another
identifier or a constant it is a function. -/
def ofIdentifier (name : String) : Option Token → Item
  | some .opening | some (.identifier _) | some (.constant _) => .operator (.function name)
  | _ => .operator (.reference name)

/-- A minus sign subtracts behind an operand and negates elsewhere. -/
def ofTokens (behindOperand : Bool) : List Token → List Item
  | [] => []
  | .constant value :: rest => .operator (.constant value) :: ofTokens true rest
  | .identifier name :: rest => ofIdentifier name rest.head? :: ofTokens true rest
  | .opening :: rest => .opening :: ofTokens false rest
  | .closing :: rest => .closing :: ofTokens true rest
  | .minus :: rest => .operator (if behindOperand then .sub else .neg) :: ofTokens false rest
  | .operator op :: rest => .operator op :: ofTokens false rest

end Item

/-- The trees under construction, the innermost one first. -/
abbrev Stack := List OperatorTree

namespace Stack
open OperatorTree

/-- Gives the finished trees in front to the ones behind them, as long as these bind more tightly
than the sequence, and then all of them to the sequence. -/
def foldInto (sequence : Operator) : OperatorTree → Stack → Except SyntaxError Stack
  | _, [] => .error .unmatchedClosing
  | tree, next :: rest =>
    if sequence.precedence < next.operator.precedence then foldInto sequence (next.push tree) rest
    else .ok (node sequence [tree] :: next :: rest)

def separate (sequence : Operator) (top : OperatorTree) (below : Stack) :
    Except SyntaxError Stack :=
  if top.operator.isSameSequence sequence then .ok (top.push emptyRoot :: below)
  else if top.operator.isRoot then
    .ok (node sequence [emptyRoot, top] :: emptyRoot :: below)
  else
    match top with
    | node outer (last :: others) =>
      if outer.isSequence ∧ outer.precedence < sequence.precedence then
        .ok (node sequence [emptyRoot, last] :: node outer others :: below)
      else foldInto sequence top below
    | _ => foldInto sequence top below

def place (tree : OperatorTree) : Stack → Except SyntaxError Stack
  | [] => .error .unmatchedClosing
  | top :: below =>
    if tree.operator.isSequence then separate tree.operator top below
    else if top.operator.isSequence then return (← insertLast tree top) :: below
    else return (← insert tree top) :: below

def close (tree : OperatorTree) : Stack → Except SyntaxError Stack
  | [] =>
    if tree.operator.isRoot then settle tree [] else .error .unmatchedClosing
  | next :: rest =>
    if tree.operator.isRoot then settle tree (next :: rest) else close (next.push tree) rest
where
  settle (root : OperatorTree) (below : Stack) : Except SyntaxError Stack :=
    if 1 < root.operands.length then .error .missingOperator else .ok (root :: below)

def collapse : Stack → Except SyntaxError Stack
  | [] => .error .unmatchedClosing
  | top :: below => close top below

def step (stack : Stack) : Item → Except SyntaxError Stack
  | .opening => .ok (emptyRoot :: stack)
  | .operator op => place (node op []) stack
  | .closing =>
    if stack.length ≤ 1 then .error .unmatchedClosing
    else do
      match ← collapse stack with
      | [] => .error .unmatchedClosing
      | tree :: below => place tree below

end Stack

namespace OperatorTree

def ofItems (items : List Item) : Except SyntaxError OperatorTree := do
  match ← Stack.collapse (← items.foldlM Stack.step [emptyRoot]) with
  | [tree] => return tree
  | [] => .error .unmatchedClosing
  | _ => .error .unmatchedOpening

def ofTokens (tokens : List Token) : Except SyntaxError OperatorTree :=
  ofItems (Item.ofTokens false tokens)

def ofChars (chars : List Char) : Except SyntaxError OperatorTree :=
  Token.ofChars chars >>= ofTokens

end OperatorTree
end CellFormula.Parsing
