import CellFormula.Proofs.Formula.Coherence
/-! What was said to a formula, without anything that was compiled for it, and the evaluation that
compiles again each time. -/
namespace CellFormula

/-- The backend of a formula, the tree of the last accepted text and the current bindings. -/
structure Declaration (n : Nat) where
  backend : Backend
  term : Option Term
  bindings : Bindings n

namespace Declaration

def new (backend : Backend) : Declaration n := ⟨backend, none, ∅⟩

def edit (declaration : Declaration n) (source : String) : Declaration n :=
  match parse source with
  | .error _ => declaration
  | .ok term => { declaration with term := some term }

def bind (declaration : Declaration n) (name : String) (cell : Option (Fin n)) : Declaration n :=
  { declaration with bindings := declaration.bindings.bind name cell }

def evaluate (declaration : Declaration n) (memory : Memory n) : Except Failure (Outcome n Float) :=
  match declaration.term with
  | none => .error .noExpression
  | some term =>
    match declaration.backend.compile declaration.bindings term with
    | .error error => .error (.compilation error)
    | .ok executable => .ok (executable.action memory)

end Declaration

namespace Formula

def declaration (formula : Formula n) : Declaration n :=
  ⟨formula.backend, formula.term, formula.bindings⟩

@[simp] theorem declaration_edit (formula : Formula n) (source : String) :
    (formula.edit source).1.declaration = formula.declaration.edit source := by
  unfold edit Declaration.edit
  cases parse source with
  | error error => rfl
  | ok term => rfl

@[simp] theorem declaration_bind (formula : Formula n) (name : String) (cell : Option (Fin n)) :
    (formula.bind name cell).1.declaration = formula.declaration.bind name cell := by
  unfold bind Declaration.bind Bindings.bind
  simp only [declaration]
  cases formula.bindings.bind? name cell with
  | none => rfl
  | some accepted =>
    obtain ⟨change, bindings⟩ := accepted
    cases change <;> rfl

@[simp] theorem declaration_refresh (formula : Formula n) :
    formula.refresh.declaration = formula.declaration := by
  unfold refresh
  split
  · rfl
  · rfl

@[simp] theorem declaration_evaluate (formula : Formula n) (memory : Memory n) :
    (formula.evaluate memory).1.declaration = formula.declaration := by
  unfold evaluate
  dsimp only
  split
  · exact declaration_refresh formula
  · exact declaration_refresh formula

theorem action_compile (formula : Formula n) (memory : Memory n) :
    formula.compile.action.map (fun action => action memory) =
      formula.declaration.evaluate memory := by
  unfold action compile Declaration.evaluate
  simp only [declaration]
  cases formula.term with
  | none => rfl
  | some term =>
    dsimp only
    cases compiled : formula.backend.compile formula.bindings term with
    | error error => rfl
    | ok executable =>
      dsimp only
      rw [Backend.evaluate_of_compile compiled]
      rfl

/-- A coherent formula evaluates as if it had compiled its text just now. -/
theorem Coherent.evaluate_eq {formula : Formula n} (h : formula.Coherent) (memory : Memory n) :
    formula.evaluate memory =
      match formula.declaration.evaluate memory with
      | .ok outcome => ({ formula.compile with failure := none }, outcome)
      | .error failure =>
        ({ formula.compile with failure := some failure }, ⟨Number.nan, memory, []⟩) := by
  rw [← action_compile, Formula.evaluate]
  dsimp only
  rw [h.refresh]
  cases formula.compile.action with
  | error failure => rfl
  | ok action => rfl

end Formula
end CellFormula
