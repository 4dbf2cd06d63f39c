import CellFormula.Proofs.Bindings.History
import CellFormula.Proofs.Formula.Planning
import CellFormula.Proofs.Native.Verification
import CellFormula.Proofs.Parsing.Spelled
/-! Which formulas compile. A tree with a plan has one at every node, and where there is no plan, a
node is at fault; so the nodes decide, on both backends alike. -/
namespace CellFormula

theorem Planned.of_mem_nodes {bindings : Bindings n} {term : Term} {plan : Plan n}
    (h : Planned bindings term plan) :
    ∀ node ∈ term.nodes, ∃ part, Planned bindings node part := by
  induction h with
  | number value => exact List.forall_mem_singleton.2 ⟨_, .number value⟩
  | constant named => exact List.forall_mem_singleton.2 ⟨_, .constant named⟩
  | load notConstant bound => exact List.forall_mem_singleton.2 ⟨_, .load notConstant bound⟩
  | neg planned ih =>
    exact List.forall_mem_append.2 ⟨ih, List.forall_mem_singleton.2 ⟨_, .neg planned⟩⟩
  | store notConstant planned bound ih =>
    simp only [Term.nodes, List.forall_mem_append, List.forall_mem_singleton]
    exact ⟨⟨⟨_, .load notConstant bound⟩, ih⟩, _, .store notConstant planned bound⟩
  | binary notAssign plannedLeft plannedRight ihl ihr =>
    simp only [Term.nodes, List.forall_mem_append, List.forall_mem_singleton]
    exact ⟨⟨ihl, ihr⟩, _, .binary notAssign plannedLeft plannedRight⟩
  | conditional plannedCondition plannedYes plannedNo ihc ihy ihn =>
    refine Term.forall_mem_nodes_call.2
      ⟨?_, _, .conditional plannedCondition plannedYes plannedNo⟩
    exact List.forall_mem_cons.2 ⟨ihc, List.forall_mem_cons.2 ⟨ihy, List.forall_mem_singleton.2 ihn⟩⟩
  | sign planned ih =>
    exact Term.forall_mem_nodes_call.2 ⟨List.forall_mem_singleton.2 ih, _, .sign planned⟩
  | apply resolved planned ih =>
    exact Term.forall_mem_nodes_call.2 ⟨List.forall_mem_singleton.2 ih, _, .apply resolved planned⟩

namespace Term

/-- Only variables are assigned, and none of them names a constant. -/
def AssignsVariables (term : Term) : Prop :=
  ∀ target right, .binary .assign target right ∈ term.nodes →
    ∃ name, target = .var name ∧ isConstant name = false

/-- Only known functions are called, each with as many arguments as it takes. -/
def CallsFunctions (term : Term) : Prop :=
  ∀ name args, .call name args ∈ term.nodes →
    name = "if" ∧ args.length = 3 ∨ name = "sign" ∧ args.length = 1 ∨
      (ElementaryFunction.ofName? name).isSome ∧ args.length = 1

private theorem CallsFunctions.arity {term : Term} (h : term.CallsFunctions) {name : String}
    {args : List Term} (mem : .call name args ∈ term.nodes) : arity? name = some args.length := by
  rcases h name args mem with ⟨rfl, length⟩ | ⟨rfl, length⟩ | ⟨known, length⟩
  · rw [length]
    rfl
  · rw [length]
    rfl
  · obtain ⟨function, resolved⟩ := Option.isSome_iff_exists.1 known
    obtain ⟨notConditional, notSign⟩ := ElementaryFunction.ofName?_ne resolved
    simp [arity?, notConditional, notSign, resolved, length]

end Term

def Bindings.Supplies (bindings : Bindings n) (term : Term) : Prop :=
  ∀ name ∈ term.names, (bindings.cell? name).isSome

namespace Planned
variable {bindings : Bindings n} {term : Term} {plan : Plan n}

theorem assignsVariables (h : Planned bindings term plan) : term.AssignsVariables := by
  intro target right mem
  obtain ⟨part, planned⟩ := h.of_mem_nodes _ mem
  cases planned with
  | store notConstant => exact ⟨_, rfl, notConstant⟩
  | binary notAssign => contradiction

theorem callsFunctions (h : Planned bindings term plan) : term.CallsFunctions := by
  intro name args mem
  obtain ⟨part, planned⟩ := h.of_mem_nodes _ mem
  cases planned with
  | conditional => exact .inl ⟨rfl, rfl⟩
  | sign => exact .inr (.inl ⟨rfl, rfl⟩)
  | apply resolved => exact .inr (.inr ⟨Option.isSome_of_eq_some resolved, rfl⟩)

theorem supplies (h : Planned bindings term plan) : bindings.Supplies term := by
  intro name mem
  obtain ⟨occurs, notConstant⟩ := Term.mem_names.1 mem
  obtain ⟨part, planned⟩ := h.of_mem_nodes _ (Term.var_mem_nodes.2 occurs)
  cases planned with
  | constant named =>
    rw [namedConstant?_eq_none.2 notConstant] at named
    cases named
  | load notConstant bound => exact Option.isSome_of_eq_some bound

end Planned

/-- Without a fault in its assignments and calls, a tree can only miss a cell. -/
theorem CompilationError.IsFaultOf.unbound {bindings : Bindings n} {term : Term}
    {error : CompilationError} (h : error.IsFaultOf bindings term)
    (assigns : term.AssignsVariables) (calls : term.CallsFunctions) :
    ∃ name ∈ term.names, bindings.cell? name = none ∧ error = .unboundVariable name := by
  cases error with
  | assignToNonVariable =>
    obtain ⟨target, right, mem, noVariable⟩ := h
    obtain ⟨name, isVariable, _⟩ := assigns target right mem
    exact absurd isVariable (noVariable name)
  | assignToConstant name =>
    obtain ⟨constant, right, mem⟩ := h
    obtain ⟨other, same, notConstant⟩ := assigns _ right mem
    cases same
    rw [constant] at notConstant
    cases notConstant
  | unknownFunction name =>
    obtain ⟨unknown, args, mem⟩ := h
    rw [calls.arity mem] at unknown
    cases unknown
  | argumentCount name expected got =>
    obtain ⟨arity, different, args, mem, length⟩ := h
    rw [calls.arity mem, length] at arity
    exact absurd (Option.some.inj arity).symm different
  | unboundVariable name => exact ⟨name, h.1, h.2, rfl⟩
  | engine error => exact h.elim

private theorem Term.plan_of_nodes {term : Term} (assigns : term.AssignsVariables)
    (calls : term.CallsFunctions) (bindings : Bindings n) :
    (∃ plan, term.plan bindings = .ok plan) ∨
      ∃ name ∈ term.names, bindings.cell? name = none ∧
        term.plan bindings = .error (.unboundVariable name) := by
  cases made : term.plan bindings with
  | ok plan => exact .inl ⟨plan, rfl⟩
  | error error =>
    have fault := Term.plan_blames bindings term error made
    obtain ⟨name, mem, unbound, rfl⟩ := fault.unbound assigns calls
    exact .inr ⟨name, mem, unbound, rfl⟩

theorem Term.plan_ok_iff {bindings : Bindings n} {term : Term} :
    (∃ plan, term.plan bindings = .ok plan) ↔
      term.AssignsVariables ∧ term.CallsFunctions ∧ bindings.Supplies term := by
  constructor
  · rintro ⟨plan, made⟩
    have planned := Term.planned_of_plan made
    exact ⟨planned.assignsVariables, planned.callsFunctions, planned.supplies⟩
  · rintro ⟨assigns, calls, supplies⟩
    rcases Term.plan_of_nodes assigns calls bindings with made | ⟨name, mem, unbound, _⟩
    · exact made
    · have bound := supplies name mem
      rw [unbound] at bound
      cases bound

namespace Backend

theorem compile_of_plan_error {bindings : Bindings n} {term : Term} {error : CompilationError}
    (h : term.plan bindings = .error error) (backend : Backend) :
    backend.compile bindings term = .error error := by
  cases backend with
  | interpreting =>
    rw [compile, h]
    rfl
  | compiling =>
    rw [compile, Native.Routine.compile_eq_ofTerm, Native.Routine.ofTerm_of_plan_error h]
    rfl

theorem compile_of_plan_ok {bindings : Bindings n} {term : Term} {plan : Plan n}
    (h : term.plan bindings = .ok plan) (backend : Backend) :
    ∃ executable, backend.compile bindings term = .ok executable := by
  cases backend with
  | interpreting =>
    rw [compile, h]
    exact ⟨_, rfl⟩
  | compiling =>
    obtain ⟨routine, made, _⟩ := Native.Routine.ofTerm_of_plan_ok h
    rw [compile, Native.Routine.compile_eq_ofTerm, made]
    exact ⟨_, rfl⟩

theorem compile_ok_iff {backend : Backend} {bindings : Bindings n} {term : Term} :
    (∃ executable, backend.compile bindings term = .ok executable) ↔
      ∃ plan, term.plan bindings = .ok plan := by
  constructor
  · rintro ⟨executable, compiled⟩
    obtain ⟨plan, planned, _⟩ := action_of_compile compiled
    exact ⟨plan, planned⟩
  · rintro ⟨plan, planned⟩
    exact compile_of_plan_ok planned backend

theorem compile_error_iff {backend : Backend} {bindings : Bindings n} {term : Term}
    {error : CompilationError} :
    backend.compile bindings term = .error error ↔ term.plan bindings = .error error := by
  refine ⟨fun failed => ?_, fun failed => compile_of_plan_error failed backend⟩
  cases planned : term.plan bindings with
  | error other =>
    rw [compile_of_plan_error planned] at failed
    cases failed
    rfl
  | ok plan =>
    obtain ⟨executable, compiled⟩ := compile_of_plan_ok planned backend
    rw [failed] at compiled
    cases compiled

end Backend

theorem Term.IsSpelled.isName {term : Term} (h : term.IsSpelled) {name : String}
    (occurs : name ∈ term.occurrences) : Parsing.IsName name := by
  induction h with
  | num unsigned => cases occurs
  | var isName =>
    cases List.mem_singleton.1 occurs
    exact isName
  | neg spelled ih => exact ih occurs
  | binary leftSpelled rightSpelled ihl ihr =>
    rcases List.mem_append.1 occurs with left | right
    · exact ihl left
    · exact ihr right
  | call isName spelled ih =>
    rw [Term.occurrences, Term.argumentOccurrences_eq, List.mem_flatMap] at occurs
    obtain ⟨arg, mem, occurs⟩ := occurs
    exact ih arg mem occurs

theorem Accepted.isBindable (t : Accepted) {name : String} (h : name ∈ t.term.names) :
    Bindings.isBindable name = true := by
  obtain ⟨occurs, notConstant⟩ := Term.mem_names.1 h
  obtain ⟨identifier, rfl⟩ := t.spelled.isName occurs
  have nonempty : identifier.text ≠ "" := by
    intro empty
    exact identifier.nonempty (String.ofList_eq_empty_iff.1 empty)
  simp [Bindings.isBindable, nonempty, notConstant]

/-- A formula compiles exactly if it assigns to variables only, calls known functions as they are to
be called, and finds a cell for each of its names. Of these, names of an accepted text can always be
given cells. -/
theorem Backend.compilability (backend : Backend) (bindings : Bindings n) (term : Term) :
    ((∃ executable, backend.compile bindings term = .ok executable) ↔
      term.AssignsVariables ∧ term.CallsFunctions ∧ bindings.Supplies term) ∧
    (term.AssignsVariables → term.CallsFunctions → ¬ bindings.Supplies term →
      ∃ name ∈ term.names, bindings.cell? name = none ∧
        backend.compile bindings term = .error (.unboundVariable name)) ∧
    ∀ text, parse text = .ok term →
      (∀ name ∈ term.names, ∀ (table : Bindings n) (cell : Fin n),
        ∃ change after, table.bind? name (some cell) = some (change, after)) ∧
      ∀ attempts : List (String × Option (Fin n)),
        (∀ name ∈ term.names, ∃ cell, (name, some cell) ∈ attempts) →
        ∀ name, backend.compile (bindings.bindAll attempts) term ≠
          .error (.unboundVariable name) := by
  refine ⟨Backend.compile_ok_iff.trans Term.plan_ok_iff, ?_, ?_⟩
  · intro assigns calls missing
    rcases Term.plan_of_nodes assigns calls bindings with made | ⟨name, mem, unbound, failed⟩
    · exact absurd (Term.plan_ok_iff.1 made).2.2 missing
    · exact ⟨name, mem, unbound, compile_of_plan_error failed backend⟩
  · intro text accepted
    have bindable : ∀ name ∈ term.names, Bindings.isBindable name = true :=
      fun name mem => Accepted.isBindable ⟨text, term, accepted⟩ mem
    refine ⟨fun name mem table cell => table.bind?_of_isBindable (bindable name mem) cell, ?_⟩
    intro attempts covered name failed
    obtain ⟨mem, unbound⟩ := Term.plan_blames _ term _ (compile_error_iff.1 failed)
    have bound : ((bindings.bindAll attempts).cell? name).isSome :=
      Bindings.isSome_cell?_bindAll (.inr ⟨bindable name mem, covered name mem⟩)
    rw [unbound] at bound
    cases bound

theorem Backend.compilability_of_assignment :
    let term : Term := .binary .assign (.var "y") (.call "ln" [.var "x"])
    parse "y=ln(x)" = .ok term ∧
    (∃ name ∈ term.names, (∅ : Bindings 2).cell? name = none ∧
      compiling.compile (∅ : Bindings 2) term = .error (.unboundVariable name)) ∧
    ∀ name, compiling.compile ((∅ : Bindings 2).bindAll [("y", some 0), ("x", some 1)]) term ≠
      .error (.unboundVariable name) := by
  intro term
  have accepted : parse "y=ln(x)" = .ok term := rfl
  have assigns : term.AssignsVariables := by
    intro target right mem
    obtain ⟨rfl, _⟩ : target = .var "y" ∧ right = .call "ln" [.var "x"] := by
      simpa [term, Term.nodes, Term.argumentNodes] using mem
    exact ⟨"y", rfl, by decide⟩
  have calls : term.CallsFunctions := by
    intro name args mem
    obtain ⟨rfl, rfl⟩ : name = "ln" ∧ args = [.var "x"] := by
      simpa [term, Term.nodes, Term.argumentNodes] using mem
    exact .inr (.inr ⟨rfl, rfl⟩)
  have missing : ¬ (∅ : Bindings 2).Supplies term := by
    intro supplies
    cases supplies "x" (Term.mem_names.2 ⟨by decide, rfl⟩)
  have law := Backend.compilability compiling (∅ : Bindings 2) term
  refine ⟨accepted, law.2.1 assigns calls missing, ?_⟩
  refine (law.2.2 _ accepted).2 _ fun name mem => ?_
  obtain ⟨occurs, _⟩ := Term.mem_names.1 mem
  rcases List.mem_cons.1 occurs with rfl | occurs
  · exact ⟨0, by decide⟩
  · cases List.mem_singleton.1 occurs
    exact ⟨1, by decide⟩

end CellFormula
