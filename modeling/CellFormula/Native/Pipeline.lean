import CellFormula.Native.Generator
/-! From a generated routine to one that may run: the passes of the pipeline, the last of which
checks that every operand is defined before its use and has the kind that its place asks for. -/
namespace CellFormula.Native

inductive Kind where
  | number
  | flag
  | pointer
  | nothing
deriving DecidableEq, Repr

def symbolArity? (symbol : String) : Option Nat :=
  if symbol = ElementaryFunction.powerSymbol then some 2
  else (ElementaryFunction.ofSymbol? symbol).map fun _ => 1

namespace Routine

def kind? (routine : Routine n) (kinds : List Kind) : Instruction → Option Kind
  | .const _ => some .number
  | .address symbol => if (routine.registry.cell? symbol).isSome then some .pointer else none
  | .load pointer => if kinds[pointer]? = some .pointer then some .number else none
  | .store value pointer =>
    if kinds[value]? = some .number ∧ kinds[pointer]? = some .pointer then some .nothing else none
  | .arithmetic _ left right =>
    if kinds[left]? = some .number ∧ kinds[right]? = some .number then some .number else none
  | .compare _ left right =>
    if kinds[left]? = some .number ∧ kinds[right]? = some .number then some .flag else none
  | .select flag yes no =>
    if kinds[flag]? = some .flag ∧ kinds[yes]? = some .number ∧ kinds[no]? = some .number then
      some .number
    else none
  | .call target arguments =>
    if routine.imports[target]?.bind symbolArity? = some arguments.length ∧
        ∀ argument ∈ arguments, kinds[argument]? = some .number then
      some .number
    else none

/-- The kinds of all registers, if every instruction is well formed. -/
def kindsFrom? (routine : Routine n) (kinds : List Kind) : List Instruction → Option (List Kind)
  | [] => some kinds
  | instruction :: rest => do
    let kind ← routine.kind? kinds instruction
    routine.kindsFrom? (kinds ++ [kind]) rest

def isWellFormed (routine : Routine n) : Bool :=
  match routine.kindsFrom? [] routine.code with
  | some kinds => kinds[routine.result]? = some .number
  | none => false

end Routine

inductive Pass where
  | simplifyControlFlow
  | removeConstantParameters
  | simplifyValues
  | cleanUpControlFlow
  | verify
deriving DecidableEq, Repr

namespace Pass

def name : Pass → String
  | simplifyControlFlow => "simplify_cfg"
  | removeConstantParameters => "remove_constant_phis"
  | simplifyValues => "egraph"
  | cleanUpControlFlow => "cleanup_cfg"
  | verify => "verify"

/-- A routine is one block without parameters, so that the passes over control flow and over
parameters have nothing to do, and the pass over values keeps every instruction. -/
def apply (pass : Pass) (routine : Routine n) : Except EngineError (Routine n) :=
  match pass with
  | verify =>
    if routine.isWellFormed then .ok routine
    else .error ⟨.verification, "an operand is undefined or of another kind"⟩
  | _ => .ok routine

end Pass

def pipeline : List Pass :=
  [.simplifyControlFlow, .removeConstantParameters, .simplifyValues, .cleanUpControlFlow, .verify]

def Routine.compile (bindings : Bindings n) (term : Term) : Except CompilationError (Routine n) := do
  let routine ← Routine.ofTerm bindings term
  match pipeline.foldlM (fun routine pass => pass.apply routine) routine with
  | .ok routine => return routine
  | .error error => .error (.engine error)

namespace Instruction

def text (register : Nat) (instruction : Instruction) : String :=
  let v := fun (k : Nat) => "v" ++ toString k
  let defines := v register ++ " = "
  match instruction with
  | .const value => defines ++ "f64const " ++ String.ofList (Number.text value)
  | .address symbol => defines ++ "global_value " ++ symbol
  | .load pointer => defines ++ "load " ++ v pointer
  | .store value pointer => "store " ++ v value ++ ", " ++ v pointer
  | .arithmetic op left right =>
    let name := match op with
      | .add => "fadd"
      | .sub => "fsub"
      | .mul => "fmul"
      | .div => "fdiv"
    defines ++ name ++ " " ++ v left ++ ", " ++ v right
  | .compare op left right =>
    let name := match op with
      | .lt => "lt"
      | .gt => "gt"
      | .le => "le"
      | .ge => "ge"
      | .eq => "eq"
      | .ne => "ne"
    defines ++ "fcmp " ++ name ++ " " ++ v left ++ ", " ++ v right
  | .select flag yes no => defines ++ "select " ++ v flag ++ ", " ++ v yes ++ ", " ++ v no
  | .call target arguments =>
    defines ++ "call fn" ++ toString target ++ "(" ++ ", ".intercalate (arguments.map v) ++ ")"

end Instruction

def Routine.listing (routine : Routine n) : String :=
  let lines := routine.code.mapIdx fun register instruction => instruction.text register
  "\n".intercalate (lines ++ ["return v" ++ toString routine.result])

end CellFormula.Native
