import CellFormula.Formula
import CellFormula.Proofs.Bindings
/-! A formula never runs what was compiled for another text or for other bindings: unless its
executable is outdated, compiling again changes nothing. -/
namespace CellFormula

def Executable.action : Executable n → Action n Float
  | interpreted plan => plan.eval
  | native routine => routine.run

theorem Backend.evaluate_of_compile {backend : Backend} {bindings : Bindings n} {term : Term}
    {executable : Executable n} (h : backend.compile bindings term = .ok executable) :
    backend.evaluate executable = .ok executable.action := by
  cases backend with
  | interpreting =>
    cases plan : term.plan bindings with
    | error error =>
      simp only [compile, plan] at h
      cases h
    | ok plan =>
      simp only [compile, plan] at h
      cases h
      rfl
  | compiling =>
    cases routine : Native.Routine.compile bindings term with
    | error error =>
      simp only [compile, routine] at h
      cases h
    | ok routine =>
      simp only [compile, routine] at h
      cases h
      rfl

namespace Formula

structure Coherent (formula : Formula n) : Prop where
  ordered : Names.Increasing formula.bindings.names
  current : formula.readiness ≠ .outdated → formula.compile = formula

@[simp] theorem coherent_new (backend : Backend) : (new backend : Formula n).Coherent where
  ordered := List.Pairwise.nil
  current := fun _ => rfl

theorem Coherent.of_compile {formula : Formula n} (h : formula.Coherent)
    (failure : Option Failure) : { formula.compile with failure }.Coherent where
  ordered := h.ordered
  current := fun _ => rfl

theorem Coherent.with_failure {formula : Formula n} (h : formula.Coherent)
    (failure : Option Failure) : { formula with failure }.Coherent where
  ordered := h.ordered
  current := by
    intro fresh
    have same := congrArg readiness (h.current fresh)
    simp only [compile] at same ⊢
    rw [same]

theorem Coherent.edit {formula : Formula n} (h : formula.Coherent) (source : String) :
    (formula.edit source).1.Coherent := by
  unfold Formula.edit
  cases parse source with
  | error error => exact h.with_failure _
  | ok term => exact ⟨h.ordered, fun _ => rfl⟩

theorem Coherent.bind {formula : Formula n} (h : formula.Coherent) (name : String)
    (cell : Option (Fin n)) : (formula.bind name cell).1.Coherent := by
  unfold Formula.bind
  split
  · exact h.with_failure _
  · rename_i bindings unchanged
    rw [Bindings.eq_of_unchanged h.ordered unchanged]
    exact h
  · rename_i change bindings changed accepted
    have ordered := Bindings.increasing_names_bind h.ordered name cell
    rw [Bindings.bind_of_bind? accepted] at ordered
    refine ⟨ordered, ?_⟩
    intro fresh
    cases term : formula.term with
    | none =>
      -- without a text there is nothing that a binding could outdate
      rw [term] at fresh
      have same := congrArg readiness (h.current fresh)
      simp only [compile, term] at same ⊢
      simp [← same]
    | some _ => simp [term] at fresh

theorem Coherent.refresh {formula : Formula n} (h : formula.Coherent) :
    formula.refresh = formula.compile := by
  unfold Formula.refresh
  split
  · rfl
  · rename_i fresh
    exact (h.current fresh).symm

theorem Coherent.evaluate {formula : Formula n} (h : formula.Coherent) (memory : Memory n) :
    (formula.evaluate memory).1.Coherent := by
  unfold Formula.evaluate
  dsimp only
  rw [h.refresh]
  split
  · exact h.of_compile _
  · exact h.of_compile _

end Formula
end CellFormula
