import CellFormula.Bindings
import CellFormula.Failure
import CellFormula.Native.Routine
/-! Generation of native routines. The draft of a routine grows by one instruction at a time. The
address of a cell is computed at its first use and kept in its slot; a math routine is imported at
its first call. -/
namespace CellFormula.Native

structure Draft (n : Nat) where
  code : List Instruction
  imports : List String
  slots : Slots n
  registry : Registry n

def Draft.empty : Draft n := ⟨[], [], .empty, .empty⟩

abbrev Generator (n : Nat) := StateT (Draft n) (Except CompilationError)

namespace Generator

def emit (instruction : Instruction) : Generator n Nat := fun draft =>
  .ok (draft.code.length, { draft with code := draft.code ++ [instruction] })

def pointerTo (cell : Fin n) : Generator n Nat := fun draft =>
  match draft.slots.find? cell with
  | some slot => .ok (slot.pointer, draft)
  | none =>
    let symbol := slotSymbol cell
    let pointer := draft.code.length
    .ok (pointer,
      { draft with
        code := draft.code ++ [.address symbol]
        slots := draft.slots.add ⟨cell, symbol, pointer⟩
        registry := draft.registry.register symbol cell })

def importSymbol (symbol : String) : Generator n Nat := fun draft =>
  match draft.imports.idxOf? symbol with
  | some index => .ok (index, draft)
  | none => .ok (draft.imports.length, { draft with imports := draft.imports ++ [symbol] })

def fail (error : CompilationError) : Generator n α := fun _ => .error error

def pointerOf (bindings : Bindings n) (name : String) : Generator n Nat :=
  match bindings.cell? name with
  | some cell => pointerTo cell
  | none => fail (.unboundVariable name)

def arithmetic (op : Arithmetic) (left right : Nat) : Generator n Nat :=
  emit (.arithmetic op left right)

def compare (op : Comparison) (left right : Nat) : Generator n Nat := do
  let flag ← emit (.compare op left right)
  let yes ← emit (.const 1.0)
  let no ← emit (.const 0.0)
  emit (.select flag yes no)

def binary (op : Operation) (left right : Nat) : Generator n Nat :=
  match op with
  | .add => arithmetic .add left right
  | .sub => arithmetic .sub left right
  | .mul => arithmetic .mul left right
  | .div => arithmetic .div left right
  | .pow => do
    let routine ← importSymbol ElementaryFunction.powerSymbol
    emit (.call routine [left, right])
  | .lt => compare .lt left right
  | .gt => compare .gt left right
  | .le => compare .le left right
  | .ge => compare .ge left right
  | .eq => compare .eq left right
  | .ne => compare .ne left right
  | .assign => fail .assignToNonVariable

/-- Emits the instructions of a formula and returns the register of its value. The target of an
assignment is never loaded, and a conditional computes both of its branches. -/
def term (bindings : Bindings n) : Term → Generator n Nat
  | .num value => emit (.const value)
  | .var name =>
    match namedConstant? name with
    | some value => emit (.const value)
    | none => do
      let pointer ← pointerOf bindings name
      emit (.load pointer)
  | .neg operand => do
    let value ← term bindings operand
    let minusOne ← emit (.const (-1.0))
    arithmetic .mul minusOne value
  | .binary .assign (.var name) right =>
    if isConstant name then fail (.assignToConstant name)
    else do
      let value ← term bindings right
      let pointer ← pointerOf bindings name
      let _ ← emit (.store value pointer)
      return value
  | .binary .assign _ _ => fail .assignToNonVariable
  | .binary op left right => do
    let x ← term bindings left
    let y ← term bindings right
    binary op x y
  | .call name args =>
    if name = "if" then
      match args with
      | [condition, yes, no] => do
        let test ← term bindings condition
        let x ← term bindings yes
        let y ← term bindings no
        let one ← emit (.const 1.0)
        let flag ← emit (.compare .eq test one)
        emit (.select flag x y)
      | _ => fail (.argumentCount name 3 args.length)
    else if name = "sign" then
      match args with
      | [arg] => do
        let value ← term bindings arg
        let origin ← emit (.const 0.0)
        let one ← emit (.const 1.0)
        let minusOne ← emit (.const (-1.0))
        let positive ← emit (.compare .gt value origin)
        let negative ← emit (.compare .lt value origin)
        let notPositive ← emit (.select negative minusOne origin)
        emit (.select positive one notPositive)
      | _ => fail (.argumentCount name 1 args.length)
    else
      match ElementaryFunction.ofName? name with
      | none => fail (.unknownFunction name)
      | some function =>
        match args with
        | [arg] => do
          let value ← term bindings arg
          let routine ← importSymbol function.symbol
          emit (.call routine [value])
        | _ => fail (.argumentCount name 1 args.length)

end Generator

def Routine.ofTerm (bindings : Bindings n) (term : Term) : Except CompilationError (Routine n) :=
  match Generator.term bindings term Draft.empty with
  | .ok (result, draft) => .ok ⟨draft.code, result, draft.imports, draft.slots, draft.registry⟩
  | .error error => .error error

end CellFormula.Native
