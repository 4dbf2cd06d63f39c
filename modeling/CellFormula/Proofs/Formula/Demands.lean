import CellFormula.Proofs.Formula.Assignments
import CellFormula.Proofs.Formula.Noninterference
/-! What a formula demands of its surroundings, in the order of evaluation: a load for each variable
that is read, a store for each assignment and a call for each power or function. -/
namespace CellFormula

inductive Demand (n : Nat) where
  | load (cell : Fin n)
  | store (cell : Fin n)
  /-- A call of the routine of a symbol. -/
  | call (symbol : String)

namespace Demand

def loaded? : Demand n → Option (Fin n)
  | load cell => some cell
  | store _ | call _ => none

def stored? : Demand n → Option (Fin n)
  | store cell => some cell
  | load _ | call _ => none

def called? : Demand n → Option String
  | call symbol => some symbol
  | load _ | store _ => none

@[simp] private theorem loaded?_eq_some {demand : Demand n} {cell : Fin n} :
    demand.loaded? = some cell ↔ demand = load cell := by
  cases demand <;> simp [loaded?]

@[simp] private theorem stored?_eq_some {demand : Demand n} {cell : Fin n} :
    demand.stored? = some cell ↔ demand = store cell := by
  cases demand <;> simp [stored?]

@[simp] theorem called?_eq_some {demand : Demand n} {symbol : String} :
    demand.called? = some symbol ↔ demand = call symbol := by
  cases demand <;> simp [called?]

end Demand

def Operation.routine? : Operation → Option String
  | pow => some ElementaryFunction.powerSymbol
  | _ => none

namespace Plan

def demands : Plan n → List (Demand n)
  | const _ => []
  | load cell => [.load cell]
  | store cell value => value.demands ++ [.store cell]
  | neg operand | sign operand => operand.demands
  | binary op left right =>
    left.demands ++ right.demands ++ op.routine?.toList.map Demand.call
  | apply function operand => operand.demands ++ [.call function.symbol]
  | conditional condition yes no => condition.demands ++ yes.demands ++ no.demands

theorem stored_demands (plan : Plan n) :
    plan.demands.filterMap Demand.stored? = plan.stores.map Prod.fst := by
  induction plan with
  | const | load => rfl
  | store cell value ih => simp [demands, stores, Demand.stored?, ih]
  | neg operand ih | sign operand ih => exact ih
  | binary op left right ihl ihr =>
    have none : (op.routine?.toList.map Demand.call).filterMap
        (Demand.stored? : Demand n → Option (Fin n)) = [] := by
      cases op <;> rfl
    rw [demands, List.filterMap_append, List.filterMap_append, ihl, ihr, none, List.append_nil,
      stores, List.map_append]
  | apply function operand ih => simp [demands, stores, Demand.stored?, ih]
  | conditional condition yes no ihc ihy ihn => simp [demands, stores, ihc, ihy, ihn]

end Plan

namespace Term

mutual

/-- Every variable that stands for its value, as often as it occurs, from left to right. Constants
are none, and neither is the target of an assignment. -/
def reads : Term → List String
  | .num _ => []
  | .var name => if isConstant name then [] else [name]
  | .neg operand => operand.reads
  | .binary .assign (.var _) right => right.reads
  | .binary _ left right => left.reads ++ right.reads
  | .call _ args => argumentReads args

def argumentReads : List Term → List String
  | [] => []
  | arg :: rest => arg.reads ++ argumentReads rest

end

def routine? : Term → Option String
  | .binary op _ _ => op.routine?
  | .call name _ => (ElementaryFunction.ofName? name).map ElementaryFunction.symbol
  | .num _ | .var _ | .neg _ => none

def routines (term : Term) : List String := term.nodes.filterMap routine?

@[simp] private theorem argumentReads_eq (args : List Term) :
    argumentReads args = args.flatMap reads := by
  induction args with
  | nil => simp [argumentReads]
  | cons arg rest ih => simp [argumentReads, ih]

private theorem reads_operands {op : Operation} {left : Term} (right : Term)
    (h : ∀ name, ¬ (op = .assign ∧ left = var name)) :
    (binary op left right).reads = left.reads ++ right.reads := by
  by_cases isAssign : op = .assign
  · subst isAssign
    cases left with
    | var name => exact absurd ⟨rfl, rfl⟩ (h name)
    | num | neg | binary | call => rfl
  · cases op <;> first | contradiction | simp [reads]

private theorem routines_binary (op : Operation) (left right : Term) :
    (binary op left right).routines = left.routines ++ right.routines ++ op.routine?.toList := by
  cases called : op.routine? <;> simp [routines, nodes, routine?, called]

private theorem routines_call (name : String) (args : List Term) :
    (call name args).routines = args.flatMap routines ++
      ((ElementaryFunction.ofName? name).map ElementaryFunction.symbol).toList := by
  rw [routines, nodes, argumentNodes_eq, List.filterMap_append, List.filterMap_flatMap]
  rfl

@[simp] theorem mem_assignments {term target right : Term} :
    (target, right) ∈ term.assignments ↔ binary .assign target right ∈ term.nodes := by
  rw [assignments, List.mem_filterMap]
  constructor
  · rintro ⟨node, mem, same⟩
    unfold assignment? at same
    split at same
    · cases same
      exact mem
    · cases same
  · exact fun mem => ⟨_, mem, rfl⟩

private theorem mem_names_iff {term : Term} {name : String} :
    name ∈ term.names ↔
      name ∈ term.reads ∨ name ∈ term.targets ∧ isConstant name = false := by
  rw [mem_names]
  induction term with
  | num value => simp [occurrences, reads, targets]
  | var other =>
    cases constant : isConstant other with
    | false => simpa [occurrences, reads, targets, constant] using fun same => same ▸ constant
    | true => simpa [occurrences, reads, targets, constant] using fun same => same ▸ constant
  | neg operand ih => exact ih
  | binary op left right ihl ihr =>
    by_cases direct : ∃ other, op = .assign ∧ left = var other
    · obtain ⟨other, rfl, rfl⟩ := direct
      simp only [occurrences, reads, targets, List.mem_append, List.mem_cons, List.not_mem_nil]
      grind
    · have indirect := not_exists.1 direct
      rw [reads_operands right indirect, targets_operands right indirect, occurrences]
      simp only [List.mem_append]
      grind
  | call function args ih =>
    simp only [occurrences, reads, targets, argumentOccurrences_eq, argumentReads_eq,
      argumentTargets_eq, List.mem_flatMap]
    grind

end Term

namespace Planned
variable {bindings : Bindings n} {term : Term} {plan : Plan n}

theorem loads_eq (h : Planned bindings term plan) :
    (plan.demands.filterMap Demand.loaded?).map some = term.reads.map bindings.cell? := by
  induction h with
  | number value => rfl
  | @constant name value named =>
    have constant : isConstant name = true := by simp [isConstant, named]
    simp [Plan.demands, Term.reads, constant]
  | load notConstant bound => simp [Plan.demands, Demand.loaded?, Term.reads, notConstant, bound]
  | neg planned ih => exact ih
  | store notConstant planned bound ih =>
    simpa [Plan.demands, List.filterMap_cons, Demand.loaded?, Term.reads] using ih
  | @binary op left right first second notAssign plannedLeft plannedRight ihl ihr =>
    have none : (op.routine?.toList.map Demand.call).filterMap
        (Demand.loaded? : Demand n → Option (Fin n)) = [] := by
      cases op <;> rfl
    rw [Plan.demands, List.filterMap_append, List.filterMap_append, none, List.append_nil,
      List.map_append, ihl, ihr, Term.reads_operands right fun name same => notAssign same.1,
      List.map_append]
  | conditional plannedCondition plannedYes plannedNo ihc ihy ihn =>
    simp [Plan.demands, Term.reads, Term.argumentReads, ihc, ihy, ihn]
  | sign planned ih => simpa [Plan.demands, Term.reads, Term.argumentReads] using ih
  | apply resolved planned ih =>
    simpa [Plan.demands, List.filterMap_cons, Demand.loaded?, Term.reads, Term.argumentReads] using ih

theorem stored_eq (h : Planned bindings term plan) :
    (plan.demands.filterMap Demand.stored?).map some =
      term.assignments.map fun assignment => bindings.target? assignment.1 := by
  have stores := congrArg (List.map Prod.fst) h.stores_eq
  rw [List.map_map, List.map_map] at stores
  rw [plan.stored_demands, List.map_map]
  exact stores

theorem routines_eq (h : Planned bindings term plan) :
    plan.demands.filterMap Demand.called? = term.routines := by
  induction h with
  | number | constant | load => rfl
  | neg planned ih =>
    simpa [Plan.demands, List.filterMap_cons, Term.routines, Term.nodes, Term.routine?] using ih
  | store notConstant planned bound ih =>
    simpa [Plan.demands, List.filterMap_cons, Demand.called?, Term.routines, Term.nodes,
      Term.routine?, Operation.routine?] using ih
  | @binary op left right first second notAssign plannedLeft plannedRight ihl ihr =>
    have own : (op.routine?.toList.map Demand.call).filterMap
        (Demand.called? : Demand n → Option String) = op.routine?.toList := by
      cases op <;> rfl
    rw [Plan.demands, List.filterMap_append, List.filterMap_append, ihl, ihr, own,
      Term.routines_binary]
  | conditional plannedCondition plannedYes plannedNo ihc ihy ihn =>
    have own : ElementaryFunction.ofName? "if" = none := rfl
    simp [Plan.demands, Term.routines_call, own, ihc, ihy, ihn]
  | sign planned ih =>
    have own : ElementaryFunction.ofName? "sign" = none := rfl
    simp [Plan.demands, Term.routines_call, own, ih]
  | apply resolved planned ih =>
    simp [Plan.demands, Demand.called?, Term.routines_call, resolved, ih]

theorem uses_iff (h : Planned bindings term plan) (cell : Fin n) :
    term.Uses bindings cell ↔ .load cell ∈ plan.demands ∨ .store cell ∈ plan.demands := by
  have loads : .load cell ∈ plan.demands ↔ ∃ name ∈ term.reads, bindings.cell? name = some cell := by
    rw [← List.mem_map, ← h.loads_eq]
    simp [Demand.loaded?_eq_some]
  have stores : .store cell ∈ plan.demands ↔
      ∃ name ∈ term.targets, bindings.cell? name = some cell := by
    have listed : .store cell ∈ plan.demands ↔
        some cell ∈ (plan.demands.filterMap Demand.stored?).map some := by
      simp [Demand.stored?_eq_some]
    rw [listed, h.stored_eq, List.mem_map]
    constructor
    · rintro ⟨⟨target, right⟩, mem, bound⟩
      cases target with
      | var name => exact ⟨name, Term.mem_targets.2 ⟨right, Term.mem_assignments.1 mem⟩, bound⟩
      | num | neg | binary | call => cases bound
    · rintro ⟨name, assigned, bound⟩
      obtain ⟨right, mem⟩ := Term.mem_targets.1 assigned
      exact ⟨(.var name, right), Term.mem_assignments.2 mem, bound⟩
  rw [loads, stores]
  constructor
  · rintro ⟨name, mem, bound⟩
    rcases Term.mem_names_iff.1 mem with read | ⟨assigned, -⟩
    · exact .inl ⟨name, read, bound⟩
    · exact .inr ⟨name, assigned, bound⟩
  · rintro (⟨name, read, bound⟩ | ⟨name, assigned, bound⟩)
    · exact ⟨name, Term.mem_names_iff.2 (.inl read), bound⟩
    · obtain ⟨right, mem⟩ := Term.mem_targets.1 assigned
      obtain ⟨other, same, notConstant⟩ := h.assignsVariables _ _ mem
      cases same
      exact ⟨name, Term.mem_names_iff.2 (.inr ⟨assigned, notConstant⟩), bound⟩

end Planned
end CellFormula
