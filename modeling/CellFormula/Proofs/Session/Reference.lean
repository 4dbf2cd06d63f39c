import CellFormula.Session
import CellFormula.Proofs.Formula.Declaration
/-! Sessions against a reference without a state: what a formula evaluates to depends on what was
declared of it and on the cells, and on nothing that was compiled before. -/
namespace CellFormula

namespace Declaration

def step (i : Fin k) (declaration : Declaration n) : Session.Step n k → Declaration n
  | .edit j source => if j = i then declaration.edit source else declaration
  | .bind j name cell => if j = i then declaration.bind name cell else declaration
  | .replace j backend => if j = i then new backend else declaration
  | .poke .. | .evaluate _ => declaration

def after (i : Fin k) (backend : Backend) (history : List (Session.Step n k)) : Declaration n :=
  history.foldl (step i) (new backend)

end Declaration

namespace Session

@[simp] theorem get_put (session : Session n k) (i j : Fin k) (formula : Formula n) :
    (session.put j formula).formulas.get i =
      if j = i then formula else session.formulas.get i := by
  simp only [Fin.ext_iff]
  exact Vector.getElem_set (x := formula) j.isLt i.isLt

@[simp] theorem get_start (memory : Memory n) (backends : Vector Backend k) (i : Fin k) :
    (start memory backends).formulas.get i = Formula.new (backends.get i) :=
  Vector.getElem_map Formula.new i.isLt

/-- The `i`-th formula holds what was declared of it, and nothing compiled for anything else. -/
structure Tracks (session : Session n k) (i : Fin k) (declaration : Declaration n) : Prop where
  coherent : (session.formulas.get i).Coherent
  declared : (session.formulas.get i).declaration = declaration

theorem tracks_start (memory : Memory n) (backends : Vector Backend k) (i : Fin k) :
    (start memory backends).Tracks i (Declaration.new (backends.get i)) := by
  constructor
  · simp
  · simp [Formula.declaration, Formula.new, Declaration.new]

theorem Tracks.put {session : Session n k} {i : Fin k} {declaration after : Declaration n}
    (h : session.Tracks i declaration) (j : Fin k) {formula : Formula n}
    (coherent : j = i → formula.Coherent) (declared : j = i → formula.declaration = after) :
    (session.put j formula).Tracks i (if j = i then after else declaration) := by
  by_cases same : j = i
  · exact ⟨by simpa [same] using coherent same, by simpa [same] using declared same⟩
  · exact ⟨by simpa [same] using h.coherent, by simpa [same] using h.declared⟩

theorem Tracks.step {session : Session n k} {i : Fin k} {declaration : Declaration n}
    (h : session.Tracks i declaration) (step : Step n k) :
    (session.step step).1.Tracks i (declaration.step i step) := by
  cases step with
  | poke cell value => exact ⟨h.coherent, h.declared⟩
  | bind j name cell =>
    apply h.put j
    · rintro rfl
      exact h.coherent.bind name cell
    · rintro rfl
      exact h.declared ▸ Formula.declaration_bind _ name cell
  | edit j source =>
    apply h.put j
    · rintro rfl
      exact h.coherent.edit source
    · rintro rfl
      exact h.declared ▸ Formula.declaration_edit _ source
  | evaluate j =>
    let evaluated := ((session.formulas.get j).evaluate session.memory).1
    have kept : (session.put j evaluated).Tracks i (if j = i then declaration else declaration) := by
      apply h.put j
      · rintro rfl
        exact h.coherent.evaluate session.memory
      · rintro rfl
        simp [evaluated, h.declared]
    rw [ite_self] at kept
    exact ⟨kept.coherent, kept.declared⟩
  | replace j backend =>
    apply h.put j
    · rintro rfl
      exact Formula.coherent_new backend
    · rintro rfl
      rfl

theorem Tracks.run {session : Session n k} {i : Fin k} {declaration : Declaration n}
    (h : session.Tracks i declaration) (history : List (Step n k)) :
    (session.run history).1.Tracks i (history.foldl (Declaration.step i) declaration) := by
  induction history generalizing session declaration with
  | nil => exact h
  | cons step steps ih => exact ih (h.step step)

theorem tracks_run_start (memory : Memory n) (backends : Vector Backend k)
    (history : List (Step n k)) (i : Fin k) :
    ((start memory backends).run history).1.Tracks i
      (Declaration.after i (backends.get i) history) :=
  (tracks_start memory backends i).run history

/-- After any history, a formula evaluates as its declaration does on the current cells. -/
theorem evaluate_agrees_with_declaration (memory : Memory n) (backends : Vector Backend k)
    (history : List (Step n k)) (i : Fin k) :
    let before := ((start memory backends).run history).1
    let (after, answer) := before.step (.evaluate i)
    match (Declaration.after i (backends.get i) history).evaluate before.memory with
    | .ok outcome =>
      answer = .value outcome.value ∧ after.memory = outcome.memory ∧
        (after.formulas.get i).message = ""
    | .error failure =>
      answer = .value Number.nan ∧ after.memory = before.memory ∧
        (after.formulas.get i).message = failure.message := by
  have tracks := tracks_run_start memory backends history i
  have evaluate := tracks.coherent.evaluate_eq ((start memory backends).run history).1.memory
  rw [tracks.declared] at evaluate
  simp only [step, get_put, if_true]
  rw [evaluate]
  cases (Declaration.after i (backends.get i) history).evaluate _ with
  | ok outcome => exact ⟨rfl, rfl, rfl⟩
  | error failure => exact ⟨rfl, rfl, rfl⟩

end Session
end CellFormula
