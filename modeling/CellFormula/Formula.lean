import CellFormula.Backend
import CellFormula.Text.Quoted
/-! Formulas over external cells. No operation fails: a text or a binding that is refused leaves the
formula as it was but for its failure, and an evaluation without an executable yields NaN. -/
namespace CellFormula

inductive Readiness (n : Nat) where
  /-- There is no text. -/
  | vacant
  | ready (executable : Executable n)
  /-- The text cannot be compiled under the bindings. -/
  | rejected (error : CompilationError)
  /-- A binding has changed since the text was compiled. -/
  | outdated

structure Formula (n : Nat) where
  backend : Backend
  bindings : Bindings n
  source : String
  term : Option Term
  readiness : Readiness n
  failure : Option Failure

namespace Formula

def new (backend : Backend) : Formula n where
  backend := backend
  bindings := ∅
  source := ""
  term := none
  readiness := .vacant
  failure := none

def compile (formula : Formula n) : Formula n :=
  { formula with
    readiness := match formula.term with
      | none => .vacant
      | some term =>
        match formula.backend.compile formula.bindings term with
        | .ok executable => .ready executable
        | .error error => .rejected error }

/-- Accepts a text that parses, also if it cannot be compiled. -/
def edit (formula : Formula n) (source : String) : Formula n × Bool :=
  match parse source with
  | .error error => ({ formula with failure := some (.parse error) }, false)
  | .ok term =>
    ({ { formula with source, term := some term }.compile with failure := none }, true)

/-- Binds a name to a cell. A change outdates what was compiled. -/
def bind (formula : Formula n) (name : String) (cell : Option (Fin n)) : Formula n × Bool :=
  match formula.bindings.bind? name cell with
  | none => ({ formula with failure := some (.cannotBind name) }, false)
  | some (.unchanged, bindings) => ({ formula with bindings }, true)
  | some (_, bindings) =>
    let readiness := if formula.term.isSome then .outdated else formula.readiness
    ({ formula with bindings, readiness }, true)

def refresh (formula : Formula n) : Formula n :=
  match formula.readiness with
  | .outdated => formula.compile
  | _ => formula

def action (formula : Formula n) : Except Failure (Action n Float) :=
  match formula.readiness with
  | .ready executable => formula.backend.evaluate executable
  | .rejected error => .error (.compilation error)
  | .vacant | .outdated => .error .noExpression

def evaluate (formula : Formula n) (memory : Memory n) : Formula n × Outcome n Float :=
  let fresh := formula.refresh
  match fresh.action with
  | .ok action => ({ fresh with failure := none }, action memory)
  | .error failure => ({ fresh with failure := some failure }, ⟨Number.nan, memory, []⟩)

/-- The message of the failure that the formula reports, empty if there is none. -/
def message (formula : Formula n) : String :=
  match formula.failure with
  | none => ""
  | some failure => failure.message

def listing? (formula : Formula n) : Option String :=
  match formula.readiness with
  | .ready executable => executable.listing?
  | _ => none

def text (formula : Formula n) : String :=
  formula.source ++ " [" ++ formula.backend.name ++ "]"

def description (formula : Formula n) : String :=
  let backend := match formula.backend with
    | .interpreting => "Interpreting"
    | .compiling => "Compiling"
  "Formula \x7b expression: " ++ Text.quote formula.source ++ ", backend: " ++ backend ++
    ", variables: [" ++ ", ".intercalate (formula.bindings.names.map Text.quote) ++
    "], error: " ++ Text.quote formula.message ++ " \x7d"

end Formula
end CellFormula
