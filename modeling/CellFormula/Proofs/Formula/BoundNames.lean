import CellFormula.Proofs.Formula.Compilability
import CellFormula.Proofs.Parsing.Words
/-! Bound names in the texts of a formula. A text reads a bound name from its cell and assigns to it
there, unless the name spells a constant. Bindings refuse the named constants only, so that some
names can be bound and are never read. -/
namespace CellFormula
open Parsing

namespace Formula

/-- The formula accepts the text, and each evaluation performs the action and reports nothing. -/
structure Computes (formula : Formula n) (text : String) (action : Action n Float) : Prop where
  accepted : (formula.edit text).2 = true
  evaluated : ∀ memory,
    (formula.edit text).1.evaluate memory = ((formula.edit text).1, action memory)

structure Faults (formula : Formula n) (text : String) (error : CompilationError) : Prop where
  accepted : (formula.edit text).2 = true
  evaluated : ∀ memory, (formula.edit text).1.evaluate memory =
    ({ (formula.edit text).1 with failure := some (.compilation error) }, ⟨Number.nan, memory, []⟩)

def Rejects (formula : Formula n) (text : String) (error : ParseError) : Prop :=
  formula.edit text = ({ formula with failure := some (.parse error) }, false)

private theorem edit_of_parse {text : String} {term : Term} (h : parse text = .ok term)
    (formula : Formula n) :
    formula.edit text =
      ({ { formula with source := text, term := some term }.compile with failure := none }, true) := by
  rw [edit, h]

private theorem rejects_of_parse {text : String} {error : ParseError}
    (h : parse text = .error error) (formula : Formula n) : formula.Rejects text error := by
  rw [Rejects, edit, h]

theorem computes_of_plan {formula : Formula n} {text : String} {term : Term} {plan : Plan n}
    (parsed : parse text = .ok term) (planned : term.plan formula.bindings = .ok plan) :
    formula.Computes text plan.eval := by
  obtain ⟨executable, compiled⟩ := Backend.compile_of_plan_ok planned formula.backend
  obtain ⟨other, planned', action⟩ := Backend.action_of_compile compiled
  cases planned.symm.trans planned'
  constructor
  · rw [edit_of_parse parsed]
  · intro memory
    rw [edit_of_parse parsed]
    unfold compile evaluate refresh Formula.action
    simp only [compiled, Backend.evaluate_of_compile compiled, action]

theorem faults_of_plan {formula : Formula n} {text : String} {term : Term}
    {error : CompilationError} (parsed : parse text = .ok term)
    (failed : term.plan formula.bindings = .error error) : formula.Faults text error := by
  have refused := Backend.compile_of_plan_error failed formula.backend
  constructor
  · rw [edit_of_parse parsed]
  · intro memory
    rw [edit_of_parse parsed]
    unfold compile evaluate refresh Formula.action
    simp only [refused]

end Formula

def signed (value : Float) : Nat → Float
  | 0 => value
  | minuses + 1 => (-1.0) * signed value minuses

private theorem planned_signed {a : Atom} {value : Float} (h : a.term = .num value)
    (bindings : Bindings n) (minuses : Nat) :
    ∃ plan, (((Expression.atom a).negate minuses).term Atom.term).plan bindings = .ok plan ∧
      plan.eval = (pure (signed value minuses) : Action n Float) := by
  induction minuses with
  | zero =>
    refine ⟨.const value, ?_, rfl⟩
    rw [Expression.negate, Expression.term, h]
    rfl
  | succ minuses ih =>
    obtain ⟨plan, planned, evaluated⟩ := ih
    refine ⟨.neg plan, ?_, ?_⟩
    · rw [Expression.negate, Expression.term, Term.plan, planned]
      rfl
    · rw [Plan.eval, evaluated, Action.pure_bind, signed]

namespace Formula

/-- As a text of the formula, the name reads the cell, and assigning a number to it writes the
number there. -/
structure Denotes (formula : Formula n) (name : String) (cell : Fin n) : Prop where
  reads : formula.Computes name (Action.load cell)
  writes : ∀ a : Assignment, a.target.text = name → ∀ value, a.value.atom.term = .num value →
    formula.Computes (String.ofList a.text) (do
      Action.store cell (signed value a.value.minuses.length)
      return signed value a.value.minuses.length)

/-- The name stands for a constant, whatever it is bound to: a number is the value of the name and
cannot be assigned to, and no text may have another constant. -/
def IsShadowed (formula : Formula n) (name : String) : Constant → Prop
  | .number value => formula.Computes name (pure value) ∧
    ∀ a : Assignment, a.target.text = name →
      formula.Faults (String.ofList a.text) .assignToNonVariable
  | constant => formula.Rejects name (.ofGrammar (.nonNumericConstant constant)) ∧
    ∀ a : Assignment, a.target.text = name →
      formula.Rejects (String.ofList a.text) (.ofGrammar (.nonNumericConstant constant))

theorem denotes_of_identifier {formula : Formula n} {word : Word} {cell : Fin n}
    (identifier : Constant.ofWord? word.letters = none) (notConstant : isConstant word.text = false)
    (bound : formula.bindings.cell? word.text = some cell) : formula.Denotes word.text cell := by
  have parsed : parse word.text = .ok (.var word.text) := by
    rw [word.parse_eq, word.toTerm_tree, identifier]
    rfl
  constructor
  · exact computes_of_plan parsed (Planned.load notConstant bound).plan_eq
  · intro a target value number
    have parsed : parse (String.ofList a.text) =
        .ok (.binary .assign (.var word.text) (a.value.expression.term Atom.term)) := by
      rw [a.parse_eq, Word.text_injective target, word.toTerm_tree, identifier]
      rfl
    obtain ⟨plan, planned, evaluated⟩ := planned_signed number formula.bindings
      a.value.minuses.length
    have stored := Planned.store notConstant (Term.planned_of_plan planned) bound
    have computes := computes_of_plan parsed stored.plan_eq
    rwa [Plan.eval, evaluated, Action.pure_bind] at computes

theorem isShadowed_of_constant (formula : Formula n) {word : Word} {constant : Constant}
    (spelled : Constant.ofWord? word.letters = some constant) :
    formula.IsShadowed word.text constant := by
  have tree := word.toTerm_tree
  have read := word.parse_eq
  have assigned : ∀ a : Assignment, a.target.text = word.text →
      parse (String.ofList a.text) = (word.tree.toTerm.map fun target =>
        Term.binary .assign target (a.value.expression.term Atom.term)).mapError .ofGrammar := by
    intro a target
    rw [a.parse_eq, Word.text_injective target]
  rw [spelled] at tree
  cases constant with
  | number value =>
    rw [tree] at read assigned
    exact ⟨computes_of_plan read (Planned.number value).plan_eq,
      fun a target => faults_of_plan (assigned a target) rfl⟩
  | truth | text =>
    rw [tree] at read assigned
    exact ⟨formula.rejects_of_parse read,
      fun a target => formula.rejects_of_parse (assigned a target)⟩

private theorem bindable_of_bind {formula : Formula n} {name : String} {cell : Fin n}
    (accepted : (formula.bind name (some cell)).2 = true) :
    Bindings.isBindable name = true ∧
      (formula.bind name (some cell)).1.bindings.cell? name = some cell := by
  by_cases bindable : Bindings.isBindable name = true
  · obtain ⟨change, after, found⟩ := formula.bindings.bind?_of_isBindable bindable cell
    refine ⟨bindable, ?_⟩
    have own : after.cell? name = some cell := by
      rw [Bindings.cell?_of_bind? found, if_pos rfl]
    unfold bind
    rw [found]
    cases change <;> exact own
  · have refused : formula.bindings.bind? name (some cell) = none := by
      rw [Bindings.bind?, if_neg bindable]
    unfold bind at accepted
    rw [refused] at accepted
    cases accepted

theorem IsShadowed.not_denotes {formula : Formula n} {name : String} {constant : Constant}
    (h : formula.IsShadowed name constant) (cell : Fin n) : ¬ formula.Denotes name cell := by
  intro denotes
  cases constant with
  | number value =>
    -- the name reads the cell in one case, and nothing in the other
    let memory : Memory n := .replicate n value
    have same := (denotes.reads.evaluated memory).symm.trans (h.1.evaluated memory)
    cases congrArg (fun result => result.2.accesses) same
  | truth | text =>
    have accepted := denotes.reads.accepted
    rw [h.1] at accepted
    cases accepted

/-- A bound name denotes its cell exactly if it spells no constant: of the names without a digit,
infinity and NaN in any letter case and the truth values do. Such a name can be bound all the same,
and stands for the constant. -/
theorem bound_name (formula : Formula n) {name : String} (letters : ∀ c ∈ name.toList, IsLetter c)
    {cell : Fin n} (accepted : (formula.bind name (some cell)).2 = true) :
    let after := (formula.bind name (some cell)).1
    (after.Denotes name cell ↔ ¬ IsConstantWord name) ∧
      ∀ constant, Constant.ofWord? name.toList = some constant → after.IsShadowed name constant := by
  intro after
  obtain ⟨bindable, bound⟩ := bindable_of_bind accepted
  obtain ⟨nonempty, notConstant⟩ : name ≠ "" ∧ isConstant name = false := by
    simpa [Bindings.isBindable] using bindable
  obtain ⟨word, rfl⟩ : ∃ word : Word, word.text = name := by
    refine ⟨⟨name.toList, ?_, fun c mem => ⟨(letters c mem).1, (letters c mem).2.1⟩⟩, ?_⟩
    · exact fun empty => nonempty (String.toList_eq_nil_iff.1 empty)
    · exact String.ofList_toList
  have shadowed : ∀ constant, Constant.ofWord? word.text.toList = some constant →
      after.IsShadowed word.text constant := by
    intro constant spelled
    rw [word.toList_text] at spelled
    exact after.isShadowed_of_constant spelled
  refine ⟨?_, shadowed⟩
  rw [← ofWord?_eq_none_iff fun c mem => (letters c mem).2.2]
  cases spelled : Constant.ofWord? word.text.toList with
  | none =>
    rw [word.toList_text] at spelled
    exact iff_of_true (denotes_of_identifier spelled notConstant bound) rfl
  | some constant =>
    exact iff_of_false ((shadowed constant spelled).not_denotes cell) (Option.some_ne_none _)

/-- A new formula takes cells for the names `x` and `Inf`, and denotes only the first of them. -/
theorem bound_name_of_new :
    let formula : Formula 1 := new .compiling
    ((formula.bind "x" (some 0)).2 = true ∧ (formula.bind "x" (some 0)).1.Denotes "x" 0) ∧
      (formula.bind "Inf" (some 0)).2 = true ∧
        (formula.bind "Inf" (some 0)).1.IsShadowed "Inf" (.number Number.infinity) := by
  intro formula
  have letters {name : String} (alpha : name.toList.all Char.isAlpha = true) :
      ∀ c ∈ name.toList, IsLetter c :=
    fun c mem => isLetter_of_isAlpha (List.all_eq_true.1 alpha c mem)
  have x : (formula.bind "x" (some 0)).2 = true := rfl
  have infinity : (formula.bind "Inf" (some 0)).2 = true := rfl
  have denotes := (formula.bound_name (letters (by decide)) x).1
  have shadowed := (formula.bound_name (letters (by decide)) infinity).2
  exact ⟨⟨x, denotes.2 (by decide)⟩, infinity, shadowed _ rfl⟩

end Formula
end CellFormula
