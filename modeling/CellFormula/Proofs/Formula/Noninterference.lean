import CellFormula.Proofs.Formula.Renaming
/-! What a formula may change and what it may depend on: it changes cells of assigned names only,
and two memories that agree on the cells of its names are the same to it. -/
namespace CellFormula

namespace Bindings

/-- The bindings without those of constants, which no formula looks up. -/
def ofVariables (bindings : Bindings n) : Bindings n :=
  ⟨bindings.entries.filter fun entry => !isConstant entry.1⟩

private theorem cell?_ofVariables (bindings : Bindings n) (name : String) :
    bindings.ofVariables.cell? name = if isConstant name then none else bindings.cell? name := by
  obtain ⟨entries⟩ := bindings
  simp only [ofVariables, cell?]
  induction entries with
  | nil => simp
  | cons entry rest ih =>
    obtain ⟨head, cell⟩ := entry
    by_cases same : name = head
    · subst same
      cases constant : isConstant name with
      | false => simp [constant]
      | true => simpa [constant] using ih
    · cases constant : isConstant head with
      | false => simpa [constant, lookup_cons_ite, same] using ih
      | true => simpa [constant, lookup_cons_ite, same] using ih

end Bindings

namespace Term
variable {bindings : Bindings n} {term : Term}

def Uses (bindings : Bindings n) (term : Term) (cell : Fin n) : Prop :=
  ∃ name ∈ term.names, bindings.cell? name = some cell

theorem within_of_plan {plan : Plan n} (h : term.plan bindings = .ok plan) :
    plan.eval.Within (term.Uses bindings) (term.Assigns bindings) := by
  have planned : term.plan bindings.ofVariables = .ok plan := by
    rw [← h]
    refine plan_of_cells fun name mem => ?_
    rw [bindings.cell?_ofVariables, if_neg (Bool.eq_false_iff.1 (mem_names.1 mem).2)]
  have bound : ∀ {name : String} {cell : Fin n}, bindings.ofVariables.cell? name = some cell →
      isConstant name = false ∧ bindings.cell? name = some cell := by
    intro name cell found
    rw [bindings.cell?_ofVariables] at found
    split at found
    · cases found
    · rename_i notConstant
      exact ⟨Bool.eq_false_iff.2 notConstant, found⟩
  apply (term.framed_term _ plan planned).mono
  · rintro cell ⟨name, occurs, found⟩
    exact ⟨name, mem_names.2 ⟨occurs, (bound found).1⟩, (bound found).2⟩
  · rintro cell ⟨name, assigned, found⟩
    exact ⟨name, assigned, (bound found).2⟩

theorem targets_operands {op : Operation} {left : Term} (right : Term)
    (h : ∀ name, ¬ (op = .assign ∧ left = var name)) :
    (binary op left right).targets = left.targets ++ right.targets := by
  by_cases isAssign : op = .assign
  · subst isAssign
    cases left with
    | var name => exact absurd ⟨rfl, rfl⟩ (h name)
    | num | neg | binary | call => rfl
  · exact targets_binary isAssign left right

@[simp] theorem mem_targets {name : String} :
    name ∈ term.targets ↔ ∃ right, binary .assign (var name) right ∈ term.nodes := by
  induction term with
  | num value => simp [targets, nodes]
  | var other => simp [targets, nodes]
  | neg operand ih => simp [targets, nodes, ih]
  | binary op left right ihl ihr =>
    by_cases direct : ∃ other, op = .assign ∧ left = var other
    · obtain ⟨other, rfl, rfl⟩ := direct
      simp only [targets, nodes, List.mem_cons, ihr, List.mem_append, List.not_mem_nil,
        reduceCtorEq, or_false, false_or, binary.injEq, var.injEq, true_and, exists_or,
        exists_eq_right]
      exact or_comm
    · have indirect := not_exists.1 direct
      have other : ∀ inner, binary .assign (var name) inner ≠ binary op left right := by
        intro inner same
        cases same
        exact indirect name ⟨rfl, rfl⟩
      simp [targets_operands right indirect, nodes, ihl, ihr, exists_or, other]
  | call function args ih =>
    rw [targets, argumentTargets_eq, List.mem_flatMap]
    constructor
    · rintro ⟨arg, mem, assigned⟩
      obtain ⟨right, inside⟩ := (ih arg mem).1 assigned
      exact ⟨right, nodes_subset_call mem inside⟩
    · rintro ⟨right, inside⟩
      rw [nodes, argumentNodes_eq, List.mem_append, List.mem_flatMap] at inside
      rcases inside with ⟨arg, mem, inside⟩ | itself
      · exact ⟨arg, mem, (ih arg mem).2 ⟨right, inside⟩⟩
      · cases List.mem_singleton.1 itself

end Term

theorem Action.replicate_of_kept {action : Action n α} {memory : Memory n}
    (h : (action memory).memory = memory) (count : Nat) :
    (action.replicate count memory).value = List.replicate count (action memory).value ∧
      (action.replicate count memory).memory = memory := by
  induction count with
  | zero => exact ⟨rfl, rfl⟩
  | succ count ih =>
    rw [Action.replicate, Action.bind_apply, h, Action.bind_apply, Action.pure_apply, ih.1, ih.2]
    exact ⟨rfl, rfl⟩

/-- The footprint of an evaluation. It changes no cells but those of assigned names, and what it
yields and leaves in the cells of its names depends on these cells only. So a formula that assigns
nothing changes nothing and has one value, however often it is evaluated. -/
theorem Backend.evaluation_footprint {backend : Backend} {bindings : Bindings n} {term : Term}
    {executable : Executable n} (h : backend.compile bindings term = .ok executable) :
    ∃ action : Action n Float, backend.evaluate executable = .ok action ∧
      (∀ memory cell, ¬ term.Assigns bindings cell →
        (action memory).memory.get cell = memory.get cell) ∧
      (∀ memory other : Memory n,
        (∀ cell, term.Uses bindings cell → memory.get cell = other.get cell) →
        (action memory).value = (action other).value ∧
          ∀ cell, term.Uses bindings cell →
            (action memory).memory.get cell = (action other).memory.get cell) ∧
      ((∀ target right, .binary .assign target right ∉ term.nodes) →
        ∀ memory count,
          (action.replicate count memory).value = List.replicate count (action memory).value ∧
            (action.replicate count memory).memory = memory) := by
  obtain ⟨plan, planned, computes⟩ := action_of_compile h
  have within : executable.action.Within (term.Uses bindings) (term.Assigns bindings) :=
    computes ▸ Term.within_of_plan planned
  refine ⟨executable.action, evaluate_of_compile h, within.kept, ?_, ?_⟩
  · intro memory other agree
    obtain ⟨value, cells⟩ := within.framed agree
    exact ⟨value, fun cell uses => cells cell (agree cell uses)⟩
  · intro noAssignment memory count
    refine Action.replicate_of_kept (Vector.ext fun i lt => ?_) count
    refine within.kept memory ⟨i, lt⟩ ?_
    rintro ⟨name, assigned, _⟩
    obtain ⟨right, mem⟩ := Term.mem_targets.1 assigned
    exact noAssignment _ right mem

theorem Backend.evaluation_footprint_of_assignment :
    let bindings : Bindings 3 := ⟨[("x", 0), ("y", 1)]⟩
    let term : Term := .binary .add (.binary .assign (.var "y") (.var "x")) (.var "y")
    (∃ executable action, compiling.compile bindings term = .ok executable ∧
      compiling.evaluate executable = .ok action ∧
      ∀ a b c d : Float, (action #v[a, b, c]).memory.get 2 = c ∧
        (action #v[a, b, c]).value = (action #v[a, b, d]).value) ∧
    ∃ executable action, compiling.compile bindings (.var "x") = .ok executable ∧
      compiling.evaluate executable = .ok action ∧
      ∀ a b c : Float, (action.replicate 7 #v[a, b, c]).memory = #v[a, b, c] := by
  intro bindings term
  constructor
  · have planned : term.plan bindings = .ok (.binary .add (.store 1 (.load 0)) (.load 1)) := rfl
    obtain ⟨executable, compiled⟩ := compile_of_plan_ok planned compiling
    obtain ⟨action, evaluates, kept, framed, _⟩ := evaluation_footprint compiled
    refine ⟨executable, action, compiled, evaluates, fun a b c d => ⟨?_, ?_⟩⟩
    · exact kept #v[a, b, c] 2 (by decide)
    · refine (framed _ _ fun cell uses => ?_).1
      obtain ⟨name, mem, bound⟩ := uses
      have occurs : name = "y" ∨ name = "x" ∨ name = "y" := by
        simpa [term, Term.occurrences] using (Term.mem_names.1 mem).1
      rcases occurs with rfl | rfl | rfl
      · cases bound
        rfl
      · cases bound
        rfl
      · cases bound
        rfl
  · have planned : (Term.var "x").plan bindings = .ok (.load 0) := rfl
    obtain ⟨executable, compiled⟩ := compile_of_plan_ok planned compiling
    obtain ⟨action, evaluates, _, _, steady⟩ := evaluation_footprint compiled
    refine ⟨executable, action, compiled, evaluates, fun a b c => ?_⟩
    exact (steady (by simp [Term.nodes]) #v[a, b, c] 7).2

end CellFormula
