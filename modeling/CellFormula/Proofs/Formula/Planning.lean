import CellFormula.Proofs.Formula.Footprint
import CellFormula.Proofs.Formula.Nodes
/-! What planning accepts and what it refuses: the trees that have a plan, and where there is none,
the node that is at fault. -/
namespace CellFormula

@[simp] theorem namedConstant?_eq_none {name : String} :
    namedConstant? name = none ↔ isConstant name = false := by
  simp [isConstant]

theorem ElementaryFunction.ofName?_ne {name : String} {function : ElementaryFunction}
    (resolved : ofName? name = some function) : name ≠ "if" ∧ name ≠ "sign" := by
  constructor
  · rintro rfl
    cases resolved
  · rintro rfl
    cases resolved

inductive Planned (bindings : Bindings n) : Term → Plan n → Prop
  | number (value : Float) : Planned bindings (.num value) (.const value)
  | constant {name : String} {value : Float} (named : namedConstant? name = some value) :
      Planned bindings (.var name) (.const value)
  | load {name : String} {cell : Fin n} (notConstant : isConstant name = false)
      (bound : bindings.cell? name = some cell) : Planned bindings (.var name) (.load cell)
  | neg {operand : Term} {plan : Plan n} (planned : Planned bindings operand plan) :
      Planned bindings (.neg operand) (.neg plan)
  | store {name : String} {cell : Fin n} {right : Term} {plan : Plan n}
      (notConstant : isConstant name = false) (planned : Planned bindings right plan)
      (bound : bindings.cell? name = some cell) :
      Planned bindings (.binary .assign (.var name) right) (.store cell plan)
  | binary {op : Operation} {left right : Term} {first second : Plan n}
      (notAssign : op ≠ .assign) (plannedLeft : Planned bindings left first)
      (plannedRight : Planned bindings right second) :
      Planned bindings (.binary op left right) (.binary op first second)
  | conditional {condition yes no : Term} {test first second : Plan n}
      (plannedCondition : Planned bindings condition test) (plannedYes : Planned bindings yes first)
      (plannedNo : Planned bindings no second) :
      Planned bindings (.call "if" [condition, yes, no]) (.conditional test first second)
  | sign {arg : Term} {plan : Plan n} (planned : Planned bindings arg plan) :
      Planned bindings (.call "sign" [arg]) (.sign plan)
  | apply {name : String} {function : ElementaryFunction} {arg : Term} {plan : Plan n}
      (resolved : ElementaryFunction.ofName? name = some function)
      (planned : Planned bindings arg plan) :
      Planned bindings (.call name [arg]) (.apply function plan)

namespace Term
variable {bindings : Bindings n}

private theorem planned_var {name : String} {plan : Plan n}
    (h : (var name).plan bindings = .ok plan) :
    Planned bindings (var name) plan := by
  rw [Term.plan] at h
  split at h
  · rename_i value named
    cases h
    exact .constant named
  · rename_i notConstant
    obtain ⟨cell, resolved, same⟩ := Parsing.of_bind_ok h
    cases same
    exact .load (namedConstant?_eq_none.1 notConstant) (resolve_ok resolved)

private theorem planned_assign {left right : Term} {plan : Plan n}
    (ih : ∀ {part}, right.plan bindings = .ok part → Planned bindings right part)
    (h : (binary .assign left right).plan bindings = .ok plan) :
    Planned bindings (binary .assign left right) plan := by
  cases left with
  | var name =>
    rw [Term.plan] at h
    split at h
    · cases h
    · rename_i notConstant
      obtain ⟨value, made, h⟩ := Parsing.of_bind_ok h
      obtain ⟨cell, resolved, same⟩ := Parsing.of_bind_ok h
      cases same
      exact .store (Bool.eq_false_iff.2 notConstant) (ih made) (resolve_ok resolved)
  | num | neg | binary | call => cases h

private theorem planned_binary {op : Operation} (notAssign : op ≠ .assign) {left right : Term}
    {plan : Plan n} (ihl : ∀ {part}, left.plan bindings = .ok part → Planned bindings left part)
    (ihr : ∀ {part}, right.plan bindings = .ok part → Planned bindings right part)
    (h : (binary op left right).plan bindings = .ok plan) :
    Planned bindings (binary op left right) plan := by
  rw [plan_binary notAssign] at h
  obtain ⟨first, madeFirst, h⟩ := Parsing.of_bind_ok h
  obtain ⟨second, madeSecond, same⟩ := Parsing.of_bind_ok h
  cases same
  exact .binary notAssign (ihl madeFirst) (ihr madeSecond)

private theorem planned_call {name : String} {args : List Term} {plan : Plan n}
    (ih : ∀ arg ∈ args, ∀ {part}, arg.plan bindings = .ok part → Planned bindings arg part)
    (h : (call name args).plan bindings = .ok plan) : Planned bindings (call name args) plan := by
  rw [Term.plan.eq_def] at h
  dsimp only at h
  split at h
  · rename_i isConditional
    subst isConditional
    split at h
    · obtain ⟨test, madeTest, h⟩ := Parsing.of_bind_ok h
      obtain ⟨yes, madeYes, h⟩ := Parsing.of_bind_ok h
      obtain ⟨no, madeNo, same⟩ := Parsing.of_bind_ok h
      cases same
      exact .conditional (ih _ (by simp) madeTest) (ih _ (by simp) madeYes) (ih _ (by simp) madeNo)
    · cases h
  · split at h
    · rename_i isSign
      subst isSign
      split at h
      · obtain ⟨operand, made, same⟩ := Parsing.of_bind_ok h
        cases same
        exact .sign (ih _ (by simp) made)
      · cases h
    · split at h
      · cases h
      · rename_i function resolved
        split at h
        · obtain ⟨operand, made, same⟩ := Parsing.of_bind_ok h
          cases same
          exact .apply resolved (ih _ (by simp) made)
        · cases h

theorem planned_of_plan {term : Term} {plan : Plan n} (h : term.plan bindings = .ok plan) :
    Planned bindings term plan := by
  induction term generalizing plan with
  | num value =>
    cases h
    exact .number value
  | var name => exact planned_var h
  | neg operand ih =>
    rw [Term.plan] at h
    obtain ⟨inner, made, same⟩ := Parsing.of_bind_ok h
    cases same
    exact .neg (ih made)
  | binary op left right ihl ihr =>
    by_cases isAssign : op = .assign
    · subst isAssign
      exact planned_assign ihr h
    · exact planned_binary isAssign ihl ihr h
  | call name args ih => exact planned_call ih h

end Term

theorem Planned.plan_eq {bindings : Bindings n} {term : Term} {plan : Plan n}
    (h : Planned bindings term plan) : term.plan bindings = .ok plan := by
  induction h with
  | number value => rfl
  | constant named => rw [Term.plan, named]
  | load notConstant bound =>
    rw [Term.plan, namedConstant?_eq_none.2 notConstant]
    simp only [Bindings.resolve, bound]
    rfl
  | neg planned ih =>
    rw [Term.plan, ih]
    rfl
  | store notConstant planned bound ih =>
    rw [Term.plan, if_neg (Bool.eq_false_iff.1 notConstant), ih]
    simp only [Bindings.resolve, bound]
    rfl
  | binary notAssign plannedLeft plannedRight ihl ihr =>
    rw [Term.plan_binary notAssign, ihl, ihr]
    rfl
  | conditional plannedCondition plannedYes plannedNo ihc ihy ihn =>
    rw [Term.plan.eq_def]
    simp only [if_true, ihc, ihy, ihn]
    rfl
  | sign planned ih =>
    rw [Term.plan.eq_def]
    simp only [ih]
    rfl
  | @apply name function arg plan resolved planned ih =>
    obtain ⟨notConditional, notSign⟩ := ElementaryFunction.ofName?_ne resolved
    rw [Term.plan.eq_def]
    simp only [if_neg notConditional, if_neg notSign, resolved, ih]
    rfl

def arity? (function : String) : Option Nat :=
  if function = "if" then some 3
  else if function = "sign" then some 1
  else (ElementaryFunction.ofName? function).map fun _ => 1

/-- The tree has a node that the error is about, and the node has the fault that it reports. -/
def CompilationError.IsFaultOf (bindings : Bindings n) (term : Term) : CompilationError → Prop
  | .assignToNonVariable =>
    ∃ target right, .binary .assign target right ∈ term.nodes ∧ ∀ name, target ≠ .var name
  | .assignToConstant name =>
    isConstant name = true ∧ ∃ right, .binary .assign (.var name) right ∈ term.nodes
  | .unknownFunction name => arity? name = none ∧ ∃ args, .call name args ∈ term.nodes
  | .argumentCount name expected got =>
    arity? name = some expected ∧ expected ≠ got ∧
      ∃ args, .call name args ∈ term.nodes ∧ args.length = got
  | .unboundVariable name => name ∈ term.names ∧ bindings.cell? name = none
  | .engine _ => False

def Blames (bindings : Bindings n) (term : Term) (planned : Except CompilationError α) : Prop :=
  ∀ error, planned = .error error → error.IsFaultOf bindings term

namespace Blames
variable {bindings : Bindings n}

theorem ok (term : Term) (value : α) : Blames bindings term (.ok value) := by
  intro error failed
  cases failed

theorem error {term : Term} {error : CompilationError} (h : error.IsFaultOf bindings term) :
    Blames bindings term (.error error : Except CompilationError α) := by
  intro other failed
  cases failed
  exact h

theorem bind {term : Term} {first : Except CompilationError α}
    {next : α → Except CompilationError β} (h : Blames bindings term first)
    (h' : ∀ value, Blames bindings term (next value)) : Blames bindings term (first >>= next) := by
  cases first with
  | error error => exact .error (h error rfl)
  | ok value => exact h' value

theorem mono {part term : Term} {planned : Except CompilationError α}
    (h : Blames bindings part planned) (nodes : part.nodes ⊆ term.nodes) :
    Blames bindings term planned := by
  intro error failed
  have fault := h error failed
  cases error with
  | assignToNonVariable =>
    obtain ⟨target, right, mem, noVariable⟩ := fault
    exact ⟨target, right, nodes mem, noVariable⟩
  | assignToConstant name =>
    obtain ⟨isConstant, right, mem⟩ := fault
    exact ⟨isConstant, right, nodes mem⟩
  | unknownFunction name =>
    obtain ⟨unknown, args, mem⟩ := fault
    exact ⟨unknown, args, nodes mem⟩
  | argumentCount name expected got =>
    obtain ⟨arity, different, args, mem, length⟩ := fault
    exact ⟨arity, different, args, nodes mem, length⟩
  | unboundVariable name =>
    obtain ⟨mem, unbound⟩ := fault
    rw [Term.mem_names] at mem
    refine ⟨Term.mem_names.2 ⟨?_, mem.2⟩, unbound⟩
    exact Term.var_mem_nodes.1 (nodes (Term.var_mem_nodes.2 mem.1))
  | engine error => exact fault

theorem resolve {term : Term} {name : String} (occurs : .var name ∈ term.nodes)
    (notConstant : isConstant name = false) : Blames bindings term (bindings.resolve name) := by
  unfold Bindings.resolve
  split
  · exact .ok _ _
  · rename_i unbound
    exact .error ⟨Term.mem_names.2 ⟨Term.var_mem_nodes.1 occurs, notConstant⟩, unbound⟩

end Blames

namespace Term
variable {bindings : Bindings n}

private theorem blames_assign (left : Term) {right : Term}
    (ih : Blames bindings right (right.plan bindings)) :
    Blames bindings (binary .assign left right) ((binary .assign left right).plan bindings) := by
  cases left with
  | var name =>
    rw [Term.plan]
    split
    · rename_i constant
      exact .error ⟨constant, right, mem_nodes_self _⟩
    · rename_i notConstant
      refine (ih.mono (by simp [nodes])).bind fun value => ?_
      exact (Blames.resolve (by simp [nodes]) (Bool.eq_false_iff.2 notConstant)).bind fun _ => .ok _ _
  | num | neg | binary | call =>
    refine .error ⟨_, right, mem_nodes_self _, ?_⟩
    intro name same
    cases same

private theorem blames_binary {op : Operation} (notAssign : op ≠ .assign) {left right : Term}
    (ihl : Blames bindings left (left.plan bindings))
    (ihr : Blames bindings right (right.plan bindings)) :
    Blames bindings (binary op left right) ((binary op left right).plan bindings) := by
  rw [plan_binary notAssign]
  refine (ihl.mono (by simp [nodes])).bind fun first => ?_
  exact (ihr.mono (by simp [nodes])).bind fun second => .ok _ _

def planUnary (bindings : Bindings n) (name : String) (build : Plan n → Plan n) (args : List Term) :
    Except CompilationError (Plan n) :=
  match args with
  | [arg] => return build (← arg.plan bindings)
  | _ => .error (.argumentCount name 1 args.length)

private theorem blames_call (name : String) {args : List Term}
    (ih : ∀ arg ∈ args, Blames bindings arg (arg.plan bindings)) :
    Blames bindings (call name args) ((call name args).plan bindings) := by
  have inner : ∀ arg ∈ args, Blames bindings (call name args) (arg.plan bindings) :=
    fun arg mem => (ih arg mem).mono (nodes_subset_call mem)
  have miscounted : ∀ {expected}, arity? name = some expected → expected ≠ args.length →
      Blames bindings (call name args)
        (.error (.argumentCount name expected args.length) : Except _ (Plan n)) :=
    fun arity different => .error ⟨arity, different, args, mem_nodes_self _, rfl⟩
  rw [Term.plan.eq_def]
  dsimp only
  split
  · rename_i isConditional
    split
    · refine (inner _ (by simp)).bind fun test => ?_
      refine (inner _ (by simp)).bind fun yes => ?_
      exact (inner _ (by simp)).bind fun no => .ok _ _
    · rename_i other
      refine miscounted (by simp [arity?, isConditional]) fun length => ?_
      obtain ⟨condition, yes, no, rfl⟩ := List.length_eq_three.1 length.symm
      exact other _ _ _ rfl
  · rename_i notConditional
    have single : ∀ build : Plan n → Plan n, arity? name = some 1 →
        Blames bindings (call name args) (planUnary bindings name build args) := by
      intro build arity
      unfold planUnary
      split
      · exact (inner _ (by simp)).bind fun operand => .ok _ _
      · rename_i other
        refine miscounted arity fun length => ?_
        obtain ⟨arg, rfl⟩ := List.length_eq_one_iff.1 length.symm
        exact other _ rfl
    split
    · rename_i isSign
      exact single .sign (by simp [arity?, isSign])
    · rename_i notSign
      split
      · rename_i unknown
        exact .error ⟨by simp [arity?, notConditional, notSign, unknown], args, mem_nodes_self _⟩
      · rename_i function known
        exact single (.apply function) (by simp [arity?, notConditional, notSign, known])

/-- Every error of planning is about a node of the tree and tells what is wrong with it. -/
theorem plan_blames (bindings : Bindings n) (term : Term) :
    Blames bindings term (term.plan bindings) := by
  induction term with
  | num value => exact .ok _ _
  | var name =>
    rw [Term.plan]
    split
    · exact .ok _ _
    · rename_i notConstant
      refine (Blames.resolve (mem_nodes_self _) ?_).bind fun _ => .ok _ _
      exact namedConstant?_eq_none.1 notConstant
  | neg operand ih =>
    rw [Term.plan]
    exact (ih.mono (by simp [nodes])).bind fun _ => .ok _ _
  | binary op left right ihl ihr =>
    by_cases isAssign : op = .assign
    · subst isAssign
      exact blames_assign left ihr
    · exact blames_binary isAssign ihl ihr
  | call name args ih => exact blames_call name ih

end Term
end CellFormula
