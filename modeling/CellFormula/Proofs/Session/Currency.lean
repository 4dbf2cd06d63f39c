import Mathlib.Data.List.Basic
import Mathlib.Data.List.Induction
import CellFormula.Proofs.Session.Reference
/-! When a formula has a listing: exactly as long as its text compiles natively and no binding has
changed since it was compiled. Two failures that an evaluation could report never come up. -/
namespace CellFormula

/-- An accepted attempt that gives the name a cell it did not have. -/
def Bindings.Changes (bindings : Bindings n) (name : String) (cell : Option (Fin n)) : Prop :=
  ∃ change after, bindings.bind? name cell = some (change, after) ∧ change ≠ .unchanged

theorem Backend.listing_iff_of_compile {backend : Backend} {bindings : Bindings n} {term : Term}
    {executable : Executable n} (h : backend.compile bindings term = .ok executable) :
    executable.listing?.isSome ↔ backend = .compiling := by
  have runs := Backend.evaluate_of_compile h
  cases executable with
  | interpreted plan =>
    cases backend with
    | interpreting => simp [Executable.listing?]
    | compiling => cases runs
  | native routine =>
    cases backend with
    | interpreting => cases runs
    | compiling => simp [Executable.listing?]

namespace Formula

def Outdated (formula : Formula n) : Prop := formula.readiness = .outdated

private theorem not_outdated_compile (formula : Formula n) : ¬ formula.compile.Outdated := by
  unfold Outdated compile
  dsimp only
  split
  · exact nofun
  · split
    · exact nofun
    · exact nofun

theorem not_outdated_evaluate (formula : Formula n) (memory : Memory n) :
    ¬ (formula.evaluate memory).1.Outdated := by
  have fresh : ¬ formula.refresh.Outdated := by
    unfold refresh
    split
    · exact not_outdated_compile formula
    · assumption
  unfold evaluate
  dsimp only
  split
  · exact fresh
  · exact fresh

private theorem edit_cases (formula : Formula n) (source : String) :
    (∃ term, parse source = .ok term ∧ ¬ (formula.edit source).1.Outdated) ∨
      (∃ error, parse source = .error error) ∧ (formula.edit source).1.term = formula.term ∧
        ((formula.edit source).1.Outdated ↔ formula.Outdated) := by
  unfold edit
  cases parse source with
  | error error => exact .inr ⟨⟨error, rfl⟩, rfl, Iff.rfl⟩
  | ok term =>
    have compiled := not_outdated_compile { formula with source, term := some term }
    exact .inl ⟨term, rfl, compiled⟩

theorem outdated_bind (formula : Formula n) (name : String) (cell : Option (Fin n)) :
    (formula.bind name cell).1.Outdated ↔
      formula.term.isSome ∧ formula.bindings.Changes name cell ∨ formula.Outdated := by
  unfold bind Bindings.Changes
  cases formula.bindings.bind? name cell with
  | none => simp [Outdated]
  | some accepted =>
    obtain ⟨change, after⟩ := accepted
    cases change with
    | unchanged => simp [Outdated]
    | added => cases given : formula.term <;> simp [Outdated]
    | replaced => cases given : formula.term <;> simp [Outdated]

/-- What is compiled and not outdated is what compiling again yields. -/
theorem Coherent.listing_iff {formula : Formula n} (h : formula.Coherent) :
    formula.listing?.isSome ↔ formula.backend = .compiling ∧
      (∃ term, formula.term = some term ∧
        ∃ executable, formula.backend.compile formula.bindings term = .ok executable) ∧
      ¬ formula.Outdated := by
  by_cases outdated : formula.Outdated
  · have unlisted : formula.listing? = none := by
      unfold listing?
      rw [outdated]
    simp [unlisted, outdated]
  · have current : formula.readiness = formula.compile.readiness := by
      rw [h.current outdated]
    unfold listing?
    rw [current]
    unfold compile
    cases given : formula.term with
    | none => simp
    | some term =>
      dsimp only
      cases compiled : formula.backend.compile formula.bindings term with
      | error error => simp [compiled]
      | ok executable => simp [compiled, outdated, Backend.listing_iff_of_compile compiled]

theorem Coherent.failure_evaluate {formula : Formula n} (h : formula.Coherent)
    (memory : Memory n) :
    (formula.evaluate memory).1.failure ≠ some .foreignExecutable ∧
      ((formula.evaluate memory).1.failure = some .noExpression ↔
        formula.declaration.term = none) := by
  rw [h.evaluate_eq]
  unfold Declaration.evaluate
  cases formula.declaration.term with
  | none => simp
  | some term =>
    dsimp only
    cases formula.declaration.backend.compile formula.declaration.bindings term with
    | error error => simp
    | ok executable => simp

end Formula

namespace Session

def Step.Rebinds (i : Fin k) (declaration : Declaration n) : Step n k → Prop
  | .bind j name cell => j = i ∧ declaration.bindings.Changes name cell
  | .poke .. | .edit .. | .evaluate _ | .replace .. => False

/-- The step leaves nothing outdated in the `i`-th formula: it is an evaluation or an accepted text,
or it replaces the formula. -/
def Step.Renews (i : Fin k) : Step n k → Prop
  | .edit j source => j = i ∧ ∃ term, parse source = .ok term
  | .evaluate j | .replace j _ => j = i
  | .poke .. | .bind .. => False

/-- No binding of the `i`-th formula has changed since its last accepted text or evaluation. -/
def UpToDate (i : Fin k) (backend : Backend) (history : List (Step n k)) : Prop :=
  ∀ before step after, history = before ++ step :: after →
    step.Rebinds i (Declaration.after i backend before) → ∃ later ∈ after, later.Renews i

private theorem not_renews_of_rebinds {i : Fin k} {declaration : Declaration n} {step : Step n k}
    (h : step.Rebinds i declaration) : ¬ step.Renews i := by
  cases step with
  | bind j name cell => exact id
  | poke | edit | evaluate | replace => exact h.elim

theorem upToDate_snoc {i : Fin k} {backend : Backend} {history : List (Step n k)}
    {step : Step n k} :
    UpToDate i backend (history ++ [step]) ↔ step.Renews i ∨
      ¬ step.Rebinds i (Declaration.after i backend history) ∧ UpToDate i backend history := by
  constructor
  · intro upToDate
    by_cases renews : step.Renews i
    · exact .inl renews
    · refine .inr ⟨fun rebinds => ?_, ?_⟩
      · obtain ⟨later, mem, _⟩ := upToDate history step [] rfl rebinds
        cases mem
      · rintro before change after rfl rebinds
        obtain ⟨later, mem, renewed⟩ :=
          upToDate before change (after ++ [step]) (by simp) rebinds
        rcases List.mem_append.1 mem with mem | mem
        · exact ⟨later, mem, renewed⟩
        · cases List.mem_singleton.1 mem
          exact absurd renewed renews
  · intro h before change after split rebinds
    rcases List.eq_nil_or_concat' after with rfl | ⟨between, last, rfl⟩
    · obtain ⟨rfl, same⟩ := List.append_inj' split rfl
      cases same
      rcases h with renews | ⟨unchanged, _⟩
      · exact absurd renews (not_renews_of_rebinds rebinds)
      · exact absurd rebinds unchanged
    · rw [← List.cons_append, ← List.append_assoc] at split
      obtain ⟨rfl, same⟩ := List.append_inj' split rfl
      cases same
      rcases h with renews | ⟨_, upToDate⟩
      · exact ⟨step, by simp, renews⟩
      · obtain ⟨later, mem, renewed⟩ := upToDate before change between rfl rebinds
        exact ⟨later, List.mem_append_left _ mem, renewed⟩

theorem outdated_step (session : Session n k) (i : Fin k) (step : Step n k) :
    let formula := session.formulas.get i
    let after := (session.step step).1.formulas.get i
    (step.Renews i → ¬ after.Outdated) ∧
      (¬ step.Renews i → after.term = formula.term ∧
        (after.Outdated ↔
          formula.term.isSome ∧ step.Rebinds i formula.declaration ∨ formula.Outdated)) := by
  cases step with
  | poke cell value => simp [Step.Renews, Step.Rebinds, Session.step]
  | bind j name cell =>
    simp only [Step.Renews, Step.Rebinds, Session.step, get_put]
    split
    · rename_i same
      subst same
      have term := congrArg Declaration.term ((session.formulas.get j).declaration_bind name cell)
      simpa using ⟨term, Formula.outdated_bind _ name cell⟩
    · rename_i different
      simp [different]
  | edit j source =>
    simp only [Step.Renews, Step.Rebinds, Session.step, get_put]
    split
    · rename_i same
      subst same
      rcases (session.formulas.get j).edit_cases source with
        ⟨term, parses, fresh⟩ | ⟨⟨error, fails⟩, kept, outdated⟩
      · simp [parses, fresh]
      · simp [fails, kept, outdated]
    · rename_i different
      simp [different]
  | evaluate j =>
    simp only [Step.Renews, Step.Rebinds, Session.step, get_put]
    split
    · rename_i same
      simp [same, Formula.not_outdated_evaluate]
    · rename_i different
      simp [different]
  | replace j backend =>
    simp only [Step.Renews, Step.Rebinds, Session.step, get_put]
    split
    · rename_i same
      simp [same, Formula.Outdated, Formula.new]
    · rename_i different
      simp [different]

theorem outdated_run_start (memory : Memory n) (backends : Vector Backend k)
    (history : List (Step n k)) (i : Fin k) :
    let formula := ((start memory backends).run history).1.formulas.get i
    formula.Outdated ↔ formula.term.isSome ∧ ¬ UpToDate i (backends.get i) history := by
  induction history using List.reverseRecOn with
  | nil =>
    have upToDate : UpToDate i (backends.get i) ([] : List (Step n k)) := by
      intro before step after split
      simp at split
    simp [run, get_start, Formula.Outdated, Formula.new, upToDate]
  | append_singleton history step ih =>
    have tracks := tracks_run_start memory backends history i
    obtain ⟨renewed, kept⟩ := outdated_step ((start memory backends).run history).1 i step
    rw [tracks.declared] at kept
    simp only [run_append, run, upToDate_snoc]
    by_cases renews : step.Renews i
    · simp [renewed renews, renews]
    · obtain ⟨term, outdated⟩ := kept renews
      dsimp only at ih
      rw [outdated, ih, term]
      simp only [renews, false_or]
      tauto

/-- After any history, a formula has a listing exactly if its backend compiles, its last accepted
text compiles under its bindings, and none of them has changed since that text or a later
evaluation. -/
theorem listing_is_current (memory : Memory n) (backends : Vector Backend k)
    (history : List (Step n k)) (i : Fin k) :
    let session := ((start memory backends).run history).1
    let declaration := Declaration.after i (backends.get i) history
    ((session.formulas.get i).listing?.isSome ↔ declaration.backend = .compiling ∧
      (∃ term, declaration.term = some term ∧ ∃ executable,
        declaration.backend.compile declaration.bindings term = .ok executable) ∧
      UpToDate i (backends.get i) history) ∧
    let failure := ((session.step (.evaluate i)).1.formulas.get i).failure
    failure ≠ some .foreignExecutable ∧
      (failure = some .noExpression ↔ declaration.term = none) := by
  have tracks := tracks_run_start memory backends history i
  have outdated := outdated_run_start memory backends history i
  dsimp only at outdated ⊢
  generalize ((start memory backends).run history).1 = session at tracks outdated ⊢
  rw [← tracks.declared]
  constructor
  · rw [tracks.coherent.listing_iff, outdated]
    simp only [Formula.declaration]
    refine and_congr_right fun _ => and_congr_right ?_
    rintro ⟨term, given, _⟩
    simp [given]
  · simp only [step, get_put, if_true]
    exact tracks.coherent.failure_evaluate session.memory

end Session
end CellFormula
