import CellFormula.Proofs.Session.Reference
/-! What a formula reports after an operation. Texts and evaluations report exactly how they ended.
A refused binding reports its failure, but an accepted one leaves the earlier report in place. -/
namespace CellFormula

private theorem append_ne_empty {opening : String} (h : opening ≠ "") (rest : String) :
    opening ++ rest ≠ "" := by
  intro empty
  exact h (String.append_eq_empty_iff.1 empty).1

theorem Failure.message_ne_empty (failure : Failure) : failure.message ≠ "" := by
  cases failure with
  | parse error =>
    cases error with
    | ofSyntax error => exact append_ne_empty (by decide) _
    | ofGrammar error => exact append_ne_empty (by decide) _
  | compilation error => exact append_ne_empty (by decide) _
  | engine error => exact append_ne_empty (by decide) _
  | noExpression => decide
  | foreignExecutable => decide
  | cannotBind name =>
    exact append_ne_empty (append_ne_empty (by decide) _) _

def Declaration.failure? (declaration : Declaration n) (memory : Memory n) :
    Session.Step n k → Option Failure
  | .edit _ source =>
    match parse source with
    | .ok _ => none
    | .error error => some (.parse error)
  | .bind _ name cell =>
    match declaration.bindings.bind? name cell with
    | some _ => none
    | none => some (.cannotBind name)
  | .evaluate _ =>
    match declaration.evaluate memory with
    | .ok _ => none
    | .error failure => some failure
  | .poke .. | .replace .. => none

/-- A message is exact if it is empty after a success, and that of the failure otherwise. -/
def Reports (message : String) : Option Failure → Prop
  | none => message = ""
  | some failure => message = failure.message ∧ message ≠ ""

private theorem reports_message (failure : Failure) : Reports failure.message (some failure) :=
  ⟨rfl, failure.message_ne_empty⟩

namespace Formula

theorem reports_edit (formula : Formula n) (memory : Memory n) (i : Fin k) (source : String) :
    let failure? := formula.declaration.failure? memory (.edit i source)
    (formula.edit source).2 = failure?.isNone ∧
      Reports (formula.edit source).1.message failure? := by
  simp only [Declaration.failure?, edit]
  cases parse source with
  | ok term => exact ⟨rfl, rfl⟩
  | error error => exact ⟨rfl, reports_message (.parse error)⟩

private theorem message_bind (formula : Formula n) (memory : Memory n) (i : Fin k) (name : String)
    (cell : Option (Fin n)) :
    let failure? := formula.declaration.failure? memory (.bind i name cell)
    (formula.bind name cell).2 = failure?.isNone ∧
      match failure? with
      | none => (formula.bind name cell).1.message = formula.message
      | some failure => Reports (formula.bind name cell).1.message (some failure) := by
  simp only [Declaration.failure?, bind, declaration]
  cases formula.bindings.bind? name cell with
  | none => exact ⟨rfl, reports_message (.cannotBind name)⟩
  | some accepted =>
    obtain ⟨change, bindings⟩ := accepted
    cases change <;> exact ⟨rfl, rfl⟩

theorem Coherent.reports_evaluate {formula : Formula n} (h : formula.Coherent)
    (memory : Memory n) (i : Fin k) :
    Reports (formula.evaluate memory).1.message
      (formula.declaration.failure? memory (.evaluate i)) := by
  rw [h.evaluate_eq]
  simp only [Declaration.failure?]
  cases formula.declaration.evaluate memory with
  | ok outcome => rfl
  | error failure => exact reports_message failure

end Formula

namespace Session

/-- After any history, texts and evaluations are reported exactly. A binding is reported exactly
if and only if it is refused or nothing was reported before it: an accepted one changes no
report. -/
theorem reports_after_history (memory : Memory n) (backends : Vector Backend k)
    (history : List (Step n k)) (i : Fin k) :
    let before := ((start memory backends).run history).1
    let declaration := Declaration.after i (backends.get i) history
    let earlier := (before.formulas.get i).message
    (∀ source,
      let (after, answer) := before.step (.edit i source)
      let failure? := declaration.failure? before.memory (.edit i source)
      answer = .accepted failure?.isNone ∧ Reports (after.formulas.get i).message failure?) ∧
    (∀ name cell,
      let (after, answer) := before.step (.bind i name cell)
      let failure? := declaration.failure? before.memory (.bind i name cell)
      let message := (after.formulas.get i).message
      answer = .accepted failure?.isNone ∧ (failure? = none → message = earlier) ∧
        (Reports message failure? ↔ (failure? = none → earlier = ""))) ∧
    (let (after, _) := before.step (.evaluate i)
      let failure? := declaration.failure? before.memory (.evaluate i)
      Reports (after.formulas.get i).message failure?) := by
  have tracks := tracks_run_start memory backends history i
  simp only [← tracks.declared, step, get_put, if_true]
  generalize ((start memory backends).run history).1 = before at tracks ⊢
  refine ⟨?_, ?_, ?_⟩
  · intro source
    obtain ⟨answer, reports⟩ :=
      (before.formulas.get i).reports_edit before.memory i source
    exact ⟨congrArg Answer.accepted answer, reports⟩
  · intro name cell
    obtain ⟨answer, message⟩ :=
      (before.formulas.get i).message_bind before.memory i name cell
    refine ⟨congrArg Answer.accepted answer, ?_⟩
    split at message
    · rename_i accepted
      simp only [accepted, message, Reports]
      simp
    · rename_i failure refused
      simp only [refused]
      simp [message]
  · exact tracks.coherent.reports_evaluate before.memory i

/-- A stale report: the second binding is accepted, but the refusal of the first one still shows. -/
example :
    let (last, answers) := (start #v[1] #v[.interpreting]).run
      [.bind 0 "" (some 0), .bind 0 "x" (some (0 : Fin 1))]
    answers = [.accepted false, .accepted true] ∧
      (last.formulas.get 0).message = "cannot bind variable ``" := by
  decide +kernel

end Session
end CellFormula
