import CellFormula.ElementaryFunction
import CellFormula.Memory
import CellFormula.Native.Linkage
import CellFormula.Operation
/-! Native routines: one block of instructions in single assignment form, of which number `k`
defines register `k`. A register that is used at another kind than its own reads as NaN, as false or
as no cell; no well formed routine does so. -/
namespace CellFormula.Native

inductive Arithmetic where
  | add
  | sub
  | mul
  | div
deriving DecidableEq, Repr

inductive Comparison where
  | lt
  | gt
  | le
  | ge
  | eq
  | ne
deriving DecidableEq, Repr

def Arithmetic.apply : Arithmetic → Float → Float → Float
  | add, x, y => x + y
  | sub, x, y => x - y
  | mul, x, y => x * y
  | div, x, y => x / y

def Comparison.test : Comparison → Float → Float → Bool
  | lt, x, y => x < y
  | gt, x, y => y < x
  | le, x, y => x ≤ y
  | ge, x, y => y ≤ x
  | eq, x, y => x == y
  | ne, x, y => x != y

inductive Instruction where
  | const (value : Float)
  | address (symbol : String)
  | load (pointer : Nat)
  | store (value pointer : Nat)
  | arithmetic (op : Arithmetic) (left right : Nat)
  | compare (op : Comparison) (left right : Nat)
  | select (flag yes no : Nat)
  | call (routine : Nat) (arguments : List Nat)
deriving DecidableEq

structure Routine (n : Nat) where
  code : List Instruction
  result : Nat
  imports : List String
  slots : Slots n
  registry : Registry n

inductive Value (n : Nat) where
  | number (value : Float)
  | flag (value : Bool)
  | pointer (cell : Fin n)
  | nothing

abbrev Registers (n : Nat) := List (Value n)

namespace Registers

def number (registers : Registers n) (register : Nat) : Float :=
  match registers[register]? with
  | some (.number value) => value
  | _ => Number.nan

def flag (registers : Registers n) (register : Nat) : Bool :=
  match registers[register]? with
  | some (.flag value) => value
  | _ => false

def pointer? (registers : Registers n) (register : Nat) : Option (Fin n) :=
  match registers[register]? with
  | some (.pointer cell) => some cell
  | _ => none

end Registers

def callSymbol (symbol : String) (arguments : List Float) : Option Float :=
  match arguments with
  | [x] => (ElementaryFunction.ofSymbol? symbol).map fun function => function.apply x
  | [x, y] => if symbol = ElementaryFunction.powerSymbol then some (x.pow y) else none
  | _ => none

namespace Routine

/-- Executes one instruction over the registers of the earlier ones. -/
def step (routine : Routine n) (registers : Registers n) : Instruction → Action n (Value n)
  | .const value => pure (.number value)
  | .address symbol =>
    match routine.registry.cell? symbol with
    | some cell => pure (.pointer cell)
    | none => pure .nothing
  | .load pointer =>
    match registers.pointer? pointer with
    | some cell => do
      let value ← Action.load cell
      return .number value
    | none => pure .nothing
  | .store value pointer =>
    match registers.pointer? pointer with
    | some cell => do
      Action.store cell (registers.number value)
      return .nothing
    | none => pure .nothing
  | .arithmetic op left right =>
    pure (.number (op.apply (registers.number left) (registers.number right)))
  | .compare op left right =>
    pure (.flag (op.test (registers.number left) (registers.number right)))
  | .select flag yes no =>
    pure (.number (if registers.flag flag then registers.number yes else registers.number no))
  | .call target arguments =>
    match routine.imports[target]? with
    | some symbol =>
      match callSymbol symbol (arguments.map registers.number) with
      | some value => pure (.number value)
      | none => pure .nothing
    | none => pure .nothing

def execute (routine : Routine n) (registers : Registers n) :
    List Instruction → Action n (Registers n)
  | [] => pure registers
  | instruction :: rest => do
    let value ← routine.step registers instruction
    routine.execute (registers ++ [value]) rest

def run (routine : Routine n) : Action n Float := do
  let registers ← routine.execute [] routine.code
  return registers.number routine.result

end Routine
end CellFormula.Native
