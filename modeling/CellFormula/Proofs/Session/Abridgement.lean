import CellFormula.Proofs.Session.Reference
/-! Operations that fail leave nothing behind but their report. A formula may be compiled earlier
for them, so that the histories with and without them only lead to formulas of equal declarations
that show the same. -/
namespace CellFormula

namespace Formula

/-- Two formulas that differ at most in what is compiled already and in what they report. -/
structure Resembles (full short : Formula n) : Prop where
  source : full.source = short.source
  declared : full.declaration = short.declaration
  listing : full.listing? = short.listing?
  coherent : full.Coherent
  coherent' : short.Coherent

private theorem readiness_compile {formula other : Formula n}
    (h : formula.declaration = other.declaration) :
    formula.compile.readiness = other.compile.readiness := by
  obtain ⟨backend, term, bindings⟩ := Declaration.mk.inj h
  simp only [compile, backend, term, bindings]

private theorem listing_congr {formula other : Formula n}
    (h : formula.readiness = other.readiness) :
    formula.listing? = other.listing? := by
  unfold listing?
  rw [h]

private theorem listing_of_error {formula : Formula n} {failure : Failure}
    (h : formula.compile.action = .error failure) : formula.compile.listing? = none := by
  unfold listing? compile
  cases given : formula.term with
  | none => rfl
  | some term =>
    dsimp only
    cases compiled : formula.backend.compile formula.bindings term with
    | error error => rfl
    | ok executable =>
      have runs := Backend.evaluate_of_compile compiled
      simp only [action, compile, given, compiled, runs] at h
      cases h

theorem Coherent.listing_cases {formula : Formula n} (h : formula.Coherent) :
    formula.listing? = none ∨ formula.listing? = formula.compile.listing? := by
  by_cases outdated : formula.readiness = .outdated
  · left
    unfold listing?
    rw [outdated]
  · right
    rw [h.current outdated]

namespace Resembles
variable {full short : Formula n}

theorem refl {formula : Formula n} (h : formula.Coherent) : formula.Resembles formula :=
  ⟨rfl, rfl, rfl, h, h⟩

theorem with_failure (h : full.Resembles short) (failure : Option Failure) :
    { full with failure }.Resembles short :=
  ⟨h.source, h.declared, h.listing, h.coherent.with_failure failure, h.coherent'⟩

theorem edit (h : full.Resembles short) (source : String) :
    (full.edit source).1.Resembles (short.edit source).1 ∧
      (full.edit source).2 = (short.edit source).2 ∧
      (full.edit source).1.message = (short.edit source).1.message := by
  have declared := (full.declaration_edit source).trans
    ((congrArg (Declaration.edit · source) h.declared).trans (short.declaration_edit source).symm)
  have coherent := h.coherent.edit source
  have coherent' := h.coherent'.edit source
  revert declared coherent coherent'
  unfold Formula.edit
  cases parse source with
  | error error =>
    intro declared coherent coherent'
    exact ⟨⟨h.source, declared, h.listing, coherent, coherent'⟩, rfl, rfl⟩
  | ok term =>
    intro declared coherent coherent'
    have compiled := readiness_compile declared
    exact ⟨⟨rfl, declared, listing_congr compiled, coherent, coherent'⟩, rfl, rfl⟩

theorem bind (h : full.Resembles short) (name : String) (cell : Option (Fin n)) :
    (full.bind name cell).1.Resembles (short.bind name cell).1 ∧
      (full.bind name cell).2 = (short.bind name cell).2 ∧
      ((full.bind name cell).2 = false →
        (full.bind name cell).1.message = (short.bind name cell).1.message) := by
  have declared := (full.declaration_bind name cell).trans
    ((congrArg (Declaration.bind · name cell) h.declared).trans
      (short.declaration_bind name cell).symm)
  have coherent := h.coherent.bind name cell
  have coherent' := h.coherent'.bind name cell
  obtain ⟨-, term, bindings⟩ := Declaration.mk.inj h.declared
  revert declared coherent coherent'
  unfold Formula.bind
  rw [bindings, term]
  cases short.bindings.bind? name cell with
  | none =>
    intro declared coherent coherent'
    exact ⟨⟨h.source, declared, h.listing, coherent, coherent'⟩, rfl, fun _ => rfl⟩
  | some accepted =>
    obtain ⟨change, after⟩ := accepted
    -- a change outdates both formulas, or neither if there is no text
    have outdated : ({ full with bindings := after, readiness :=
        if short.term.isSome then .outdated else full.readiness } : Formula n).listing? =
        ({ short with bindings := after, readiness :=
        if short.term.isSome then .outdated else short.readiness } : Formula n).listing? := by
      cases short.term with
      | none => exact h.listing
      | some term => rfl
    intro declared coherent coherent'
    cases change with
    | unchanged => exact ⟨⟨h.source, declared, h.listing, coherent, coherent'⟩, rfl, nofun⟩
    | added => exact ⟨⟨h.source, declared, outdated, coherent, coherent'⟩, rfl, nofun⟩
    | replaced => exact ⟨⟨h.source, declared, outdated, coherent, coherent'⟩, rfl, nofun⟩

theorem evaluate (h : full.Resembles short) (memory : Memory n) :
    (full.evaluate memory).1.Resembles (short.evaluate memory).1 ∧
      (full.evaluate memory).2 = (short.evaluate memory).2 ∧
      (full.evaluate memory).1.message = (short.evaluate memory).1.message := by
  have listing := listing_congr (readiness_compile h.declared)
  rw [h.coherent.evaluate_eq, h.coherent'.evaluate_eq, h.declared]
  cases short.declaration.evaluate memory with
  | ok outcome =>
    exact ⟨⟨h.source, h.declared, listing, h.coherent.of_compile _, h.coherent'.of_compile _⟩,
      rfl, rfl⟩
  | error failure =>
    exact ⟨⟨h.source, h.declared, listing, h.coherent.of_compile _, h.coherent'.of_compile _⟩,
      rfl, rfl⟩

theorem refused_edit (h : full.Resembles short) {source : String}
    (refused : (full.edit source).2 = false) : (full.edit source).1.Resembles short := by
  revert refused
  unfold Formula.edit
  cases parse source with
  | error error => exact fun _ => h.with_failure _
  | ok term => exact nofun

theorem refused_bind (h : full.Resembles short) {name : String} {cell : Option (Fin n)}
    (refused : (full.bind name cell).2 = false) : (full.bind name cell).1.Resembles short := by
  revert refused
  unfold Formula.bind
  cases full.bindings.bind? name cell with
  | none => exact fun _ => h.with_failure _
  | some accepted =>
    obtain ⟨change, after⟩ := accepted
    cases change <;> exact nofun

/-- A failed evaluation compiles what may be outdated otherwise. Neither has a listing. -/
theorem failed_evaluate (h : full.Resembles short) {failure : Failure}
    (fails : full.refresh.action = .error failure) (memory : Memory n) :
    (full.evaluate memory).1.Resembles short ∧ (full.evaluate memory).2.memory = memory := by
  rw [h.coherent.refresh] at fails
  have unlisted := listing_of_error fails
  have listing : full.compile.listing? = short.listing? := by
    rcases h.coherent'.listing_cases with none | compiled
    · rw [unlisted, none]
    · rw [compiled, listing_congr (readiness_compile h.declared)]
  unfold Formula.evaluate
  simp only [h.coherent.refresh, fails]
  exact ⟨⟨h.source, h.declared, listing, h.coherent.of_compile _, h.coherent'⟩, trivial⟩

end Resembles
end Formula

namespace Session

def fails (session : Session n k) (step : Step n k) : Bool :=
  match step with
  | .poke .. | .replace .. => false
  | .bind .. | .edit .. => (session.step step).2 = .accepted false
  | .evaluate i => !(session.formulas.get i).refresh.action.isOk

/-- Every step that is marked fails where it stands. -/
def MarksFailures (session : Session n k) : List (Step n k × Bool) → Prop
  | [] => True
  | (step, isMarked) :: rest =>
    (isMarked → session.fails step) ∧ (session.step step).1.MarksFailures rest

instance decidableMarksFailures (session : Session n k) :
    (history : List (Step n k × Bool)) → Decidable (session.MarksFailures history)
  | [] => inferInstanceAs (Decidable True)
  | (step, _) :: rest =>
    have := (session.step step).1.decidableMarksFailures rest
    inferInstanceAs (Decidable (_ ∧ _))

theorem MarksFailures.of_append {session : Session n k} {before after : List (Step n k × Bool)}
    (h : session.MarksFailures (before ++ after)) : session.MarksFailures before := by
  induction before generalizing session with
  | nil => trivial
  | cons first rest ih => exact ⟨h.1, ih h.2⟩

def unabridged (history : List (Step n k × Bool)) : List (Step n k) := history.map Prod.fst

def abridged (history : List (Step n k × Bool)) : List (Step n k) :=
  unabridged (history.filter fun (_, isMarked) => !isMarked)

/-- The step replaces the report of its formula. An accepted binding does not. -/
def Step.Reports : Step n k → Answer → Prop
  | .poke .., _ => False
  | .bind .., answer => answer = .accepted false
  | .edit .., _ | .evaluate _, _ | .replace .., _ => True

structure Resembles (long short : Session n k) : Prop where
  memory : long.memory = short.memory
  formulas : ∀ i, (long.formulas.get i).Resembles (short.formulas.get i)

namespace Resembles
variable {long short : Session n k}

theorem put (h : long.Resembles short) {i : Fin k} {formula other : Formula n}
    (resembles : formula.Resembles other) : (long.put i formula).Resembles (short.put i other) where
  memory := h.memory
  formulas j := by
    by_cases same : i = j
    · simpa [same] using resembles
    · simpa [same] using h.formulas j

theorem step (h : long.Resembles short) (step : Step n k) :
    (long.step step).1.Resembles (short.step step).1 ∧
      (long.step step).2 = (short.step step).2 ∧
      ∀ i, step.formula? = some i → step.Reports (long.step step).2 →
        ((long.step step).1.formulas.get i).message =
          ((short.step step).1.formulas.get i).message := by
  cases step with
  | poke cell value =>
    refine ⟨⟨?_, h.formulas⟩, rfl, nofun⟩
    exact congrArg (Vector.set · cell value cell.isLt) h.memory
  | bind j name cell =>
    obtain ⟨resembles, answer, message⟩ := (h.formulas j).bind name cell
    refine ⟨h.put resembles, congrArg Answer.accepted answer, ?_⟩
    rintro i ⟨⟩ reports
    simpa [Session.step] using message (Answer.accepted.inj reports)
  | edit j source =>
    obtain ⟨resembles, answer, message⟩ := (h.formulas j).edit source
    refine ⟨h.put resembles, congrArg Answer.accepted answer, ?_⟩
    rintro i ⟨⟩ -
    simpa [Session.step] using message
  | evaluate j =>
    obtain ⟨resembles, outcome, message⟩ := (h.formulas j).evaluate long.memory
    simp only [Session.step, ← h.memory, ← outcome]
    refine ⟨⟨rfl, (h.put resembles).formulas⟩, trivial, ?_⟩
    rintro i ⟨⟩ -
    simpa using message
  | replace j backend =>
    have resembles := Formula.Resembles.refl (Formula.coherent_new (n := n) backend)
    refine ⟨h.put resembles, rfl, ?_⟩
    rintro i ⟨⟩ -
    simp [Session.step]

theorem failed_step (h : long.Resembles short) {step : Step n k} (fails : long.fails step) :
    (long.step step).1.Resembles short := by
  have put : ∀ {i formula}, formula.Resembles (short.formulas.get i) →
      (long.put i formula).Resembles short := by
    intro i formula resembles
    refine ⟨h.memory, fun j => ?_⟩
    by_cases same : i = j
    · simpa [same] using same ▸ resembles
    · simpa [same] using h.formulas j
  cases step with
  | poke cell value => cases fails
  | replace j backend => cases fails
  | bind j name cell =>
    apply put
    apply (h.formulas j).refused_bind
    simpa [Session.fails, Session.step] using fails
  | edit j source =>
    apply put
    apply (h.formulas j).refused_edit
    simpa [Session.fails, Session.step] using fails
  | evaluate j =>
    simp only [Session.fails] at fails
    cases action : (long.formulas.get j).refresh.action with
    | ok action' =>
      rw [action] at fails
      cases fails
    | error failure =>
      obtain ⟨resembles, memory⟩ := (h.formulas j).failed_evaluate action long.memory
      exact ⟨memory.trans h.memory, (put resembles).formulas⟩

theorem run (h : long.Resembles short) {history : List (Step n k × Bool)}
    (marks : long.MarksFailures history) :
    (long.run (unabridged history)).1.Resembles (short.run (abridged history)).1 := by
  induction history generalizing long short with
  | nil => exact h
  | cons first rest ih =>
    obtain ⟨step, isMarked⟩ := first
    cases isMarked with
    | true => exact ih (h.failed_step (marks.1 rfl)) marks.2
    | false => exact ih (h.step step).1 marks.2

end Resembles

theorem resembles_start (memory : Memory n) (backends : Vector Backend k) :
    (start memory backends).Resembles (start memory backends) where
  memory := rfl
  formulas i := .refl (tracks_start memory backends i).coherent

/-- When any steps that fail are left out of a history, every step that remains answers the same,
and behind it the cells and all that a formula shows are the same. A report may differ only as long
as it is an old one, under which bindings were accepted. -/
theorem failures_are_invisible (memory : Memory n) (backends : Vector Backend k)
    {history : List (Step n k × Bool)} (marks : (start memory backends).MarksFailures history)
    {before after : List (Step n k × Bool)} {step : Step n k}
    (remains : history = before ++ (step, false) :: after) :
    let (long, answer) := ((start memory backends).run (unabridged before)).1.step step
    let (short, answer') := ((start memory backends).run (abridged before)).1.step step
    answer = answer' ∧ long.memory = short.memory ∧
      (∀ i, let formula := long.formulas.get i
        let formula' := short.formulas.get i
        formula.source = formula'.source ∧ formula.bindings = formula'.bindings ∧
          formula.backend = formula'.backend ∧ formula.listing? = formula'.listing?) ∧
      ∀ i, step.formula? = some i → step.Reports answer →
        (long.formulas.get i).message = (short.formulas.get i).message := by
  subst remains
  have resembles := (resembles_start memory backends).run marks.of_append
  obtain ⟨behind, answer, message⟩ := resembles.step step
  refine ⟨answer, behind.memory, fun i => ?_, message⟩
  have shown := behind.formulas i
  obtain ⟨backend, -, bindings⟩ := Declaration.mk.inj shown.declared
  exact ⟨shown.source, bindings, backend, shown.listing⟩

/-- A text that cannot be compiled yet, and failures of all kinds until it can be. -/
def detours (i : Fin k) (source target : Fin n) : List (Step n k × Bool) :=
  [(.bind i "x" (some source), false), (.edit i "y = x", false), (.evaluate i, true),
    (.bind i "e" (some target), true), (.edit i "(", true), (.bind i "y" (some target), false)]

theorem detours_are_invisible :
    (start #v[1, 2] #v[.compiling]).MarksFailures (detours 0 0 1 ++ [(.evaluate 0, false)]) ∧
      (abridged (detours 0 0 1) : List (Step 2 1)) =
        [.bind 0 "x" (some 0), .edit 0 "y = x", .bind 0 "y" (some 1)] ∧
      let (long, answer) :=
        ((start #v[1, 2] #v[.compiling]).run (unabridged (detours 0 0 1))).1.step (.evaluate 0)
      let (short, answer') :=
        ((start #v[1, 2] #v[.compiling]).run (abridged (detours 0 0 1))).1.step (.evaluate 0)
      answer = answer' ∧ long.memory = short.memory ∧
        (long.formulas.get 0).message = (short.formulas.get 0).message := by
  have marks : (start #v[1, 2] #v[.compiling]).MarksFailures
      (detours 0 0 1 ++ [(.evaluate 0, false)]) := by
    decide +kernel
  have remains : (detours 0 0 1 : List (Step 2 1 × Bool)) ++ [(.evaluate 0, false)] =
      detours 0 0 1 ++ (.evaluate 0, false) :: [] := rfl
  obtain ⟨answer, cells, -, message⟩ :=
    failures_are_invisible #v[1, 2] #v[.compiling] marks remains
  exact ⟨marks, rfl, answer, cells, message 0 rfl trivial⟩

end Session
end CellFormula
