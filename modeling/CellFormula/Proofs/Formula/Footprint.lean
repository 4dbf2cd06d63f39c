import CellFormula.Proofs.Formula.Declaration
import CellFormula.Proofs.Native.Refinement
import CellFormula.Proofs.Parsing.Scan
/-! What an evaluation reads and writes: cells bound to names of the formula, and it writes only
those of assigned names. Other cells neither change nor have a part in the result. -/
namespace CellFormula

/-- The action reads and writes touched cells only, and writes assigned ones only. -/
structure Action.Within (touched assigned : Fin n → Prop) (action : Action n α) : Prop where
  accesses : ∀ memory, ∀ access ∈ (action memory).accesses, touched access.cell
  kept : ∀ memory cell, ¬ assigned cell → (action memory).memory.get cell = memory.get cell
  framed : ∀ {memory other : Memory n}, (∀ cell, touched cell → memory.get cell = other.get cell) →
    (action memory).value = (action other).value ∧
      ∀ cell, memory.get cell = other.get cell →
        (action memory).memory.get cell = (action other).memory.get cell

@[simp] theorem get_set (memory : Memory n) (cell other : Fin n) (value : Float) :
    Vector.get (memory.set cell value cell.isLt) other =
      if cell = other then value else memory.get other := by
  simp only [Fin.ext_iff]
  exact Vector.getElem_set cell.isLt other.isLt

namespace Action.Within
variable {touched assigned : Fin n → Prop}

theorem mono {touched' assigned' : Fin n → Prop} {action : Action n α}
    (h : action.Within touched assigned) (touches : ∀ cell, touched cell → touched' cell)
    (assigns : ∀ cell, assigned cell → assigned' cell) : action.Within touched' assigned' where
  accesses memory access mem := touches _ (h.accesses memory access mem)
  kept memory cell notAssigned :=
    h.kept memory cell fun assigned => notAssigned (assigns _ assigned)
  framed agree := h.framed fun cell touched => agree cell (touches cell touched)

theorem pure (value : α) : (Pure.pure value : Action n α).Within touched assigned where
  accesses memory access mem := by simp at mem
  kept memory cell _ := rfl
  framed _ := ⟨rfl, fun _ same => same⟩

theorem bind {first : Action n α} {next : α → Action n β} (h : first.Within touched assigned)
    (h' : ∀ value, (next value).Within touched assigned) :
    (first >>= next).Within touched assigned where
  accesses memory access mem := by
    rcases List.mem_append.1 mem with before | behind
    · exact h.accesses memory access before
    · exact (h' _).accesses _ access behind
  kept memory cell notAssigned := by
    rw [bind_apply, (h' _).kept _ cell notAssigned, h.kept memory cell notAssigned]
  framed {memory other} agree := by
    obtain ⟨value, cells⟩ := h.framed agree
    have behind := (h' (first memory).value).framed fun cell touched =>
      cells cell (agree cell touched)
    rw [bind_apply, bind_apply, ← value]
    exact ⟨behind.1, fun cell same => behind.2 cell (cells cell same)⟩

theorem load {cell : Fin n} (h : touched cell) : (Action.load cell).Within touched assigned where
  accesses memory access mem := by
    cases List.mem_singleton.1 mem
    exact h
  kept memory other _ := rfl
  framed agree := ⟨agree cell h, fun _ same => same⟩

theorem store {cell : Fin n} (h : touched cell) (h' : assigned cell) (value : Float) :
    (Action.store cell value).Within touched assigned where
  accesses memory access mem := by
    cases List.mem_singleton.1 mem
    exact h
  kept memory other notAssigned := by
    have different : cell ≠ other := by
      rintro rfl
      exact notAssigned h'
    simp [different]
  framed {memory memory'} _ := by
    refine ⟨rfl, fun other same => ?_⟩
    simp [same]

/-- Two actions that leave each other's cells alone may change places. -/
theorem commute {touched' assigned' : Fin n → Prop} {first : Action n α} {second : Action n β}
    (h : first.Within touched assigned) (h' : second.Within touched' assigned')
    (apart : ∀ cell, assigned cell → ¬ touched' cell ∧ ¬ assigned' cell)
    (apart' : ∀ cell, assigned' cell → ¬ touched cell ∧ ¬ assigned cell) (memory : Memory n) :
    (second (first memory).memory).value = (second memory).value ∧
      (first (second memory).memory).value = (first memory).value ∧
      (second (first memory).memory).memory = (first (second memory).memory).memory := by
  have unseen : ∀ cell, touched' cell → (first memory).memory.get cell = memory.get cell :=
    fun cell touched => h.kept memory cell fun assigned => (apart cell assigned).1 touched
  have unseen' : ∀ cell, touched cell → (second memory).memory.get cell = memory.get cell :=
    fun cell touched => h'.kept memory cell fun assigned => (apart' cell assigned).1 touched
  refine ⟨(h'.framed unseen).1, (h.framed unseen').1, ?_⟩
  apply Vector.ext
  intro i lt
  let cell : Fin n := ⟨i, lt⟩
  change (second (first memory).memory).memory.get cell =
    (first (second memory).memory).memory.get cell
  by_cases written : assigned cell
  · have same := h'.kept memory cell (apart cell written).2
    rw [h'.kept _ cell (apart cell written).2, (h.framed unseen').2 cell same]
  · have same := h.kept memory cell written
    rw [h.kept _ cell written, (h'.framed unseen).2 cell same]

end Action.Within

namespace Term

mutual

/-- Every name that the tree assigns, as often as it does, from left to right. -/
def targets : Term → List String
  | .num _ | .var _ => []
  | .neg operand => operand.targets
  | .binary .assign (.var name) right => name :: right.targets
  | .binary _ left right => left.targets ++ right.targets
  | .call _ args => argumentTargets args

def argumentTargets : List Term → List String
  | [] => []
  | arg :: rest => arg.targets ++ argumentTargets rest

end

def Touches (bindings : Bindings n) (term : Term) (cell : Fin n) : Prop :=
  ∃ name ∈ term.occurrences, bindings.cell? name = some cell

def Assigns (bindings : Bindings n) (term : Term) (cell : Fin n) : Prop :=
  ∃ name ∈ term.targets, bindings.cell? name = some cell

instance (bindings : Bindings n) (term : Term) (cell : Fin n) :
    Decidable (term.Touches bindings cell) :=
  inferInstanceAs (Decidable (∃ name ∈ term.occurrences, bindings.cell? name = some cell))

instance (bindings : Bindings n) (term : Term) (cell : Fin n) :
    Decidable (term.Assigns bindings cell) :=
  inferInstanceAs (Decidable (∃ name ∈ term.targets, bindings.cell? name = some cell))

@[simp] theorem argumentTargets_eq (args : List Term) :
    argumentTargets args = args.flatMap targets := by
  induction args with
  | nil => simp [argumentTargets]
  | cons arg rest ih => simp [argumentTargets, ih]

theorem targets_binary {op : Operation} (notAssign : op ≠ .assign) (left right : Term) :
    (binary op left right).targets = left.targets ++ right.targets := by
  cases op <;> first | contradiction | simp [targets]

private theorem targets_subset (term : Term) : term.targets ⊆ term.occurrences := by
  induction term with
  | num value => exact List.Subset.refl _
  | var name => exact List.nil_subset _
  | neg operand ih => exact ih
  | binary op left right ihl ihr =>
    have both : left.targets ++ right.targets ⊆ left.occurrences ++ right.occurrences :=
      List.append_subset.2 ⟨List.subset_append_of_subset_left _ ihl,
        List.subset_append_of_subset_right _ ihr⟩
    by_cases isAssign : op = .assign
    · subst isAssign
      cases left with
      | var name => exact List.cons_subset_cons name ihr
      | num | neg | binary | call => exact both
    · rw [targets_binary isAssign]
      exact both
  | call name args ih =>
    intro target assigned
    rw [targets, argumentTargets_eq, List.mem_flatMap] at assigned
    obtain ⟨arg, mem, assigned⟩ := assigned
    rw [occurrences, argumentOccurrences_eq, List.mem_flatMap]
    exact ⟨arg, mem, ih arg mem assigned⟩

end Term

def Term.Framed (bindings : Bindings n) (term : Term) : Prop :=
  ∀ plan, term.plan bindings = .ok plan →
    plan.eval.Within (term.Touches bindings) (term.Assigns bindings)

namespace Term
variable {bindings : Bindings n}

theorem Framed.within {part : Term} (h : part.Framed bindings) (term : Term)
    (occurrences : part.occurrences ⊆ term.occurrences) (targets : part.targets ⊆ term.targets)
    {plan : Plan n} (planned : part.plan bindings = .ok plan) :
    plan.eval.Within (term.Touches bindings) (term.Assigns bindings) := by
  apply (h plan planned).mono
  · rintro cell ⟨name, occurs, bound⟩
    exact ⟨name, occurrences occurs, bound⟩
  · rintro cell ⟨name, assigned, bound⟩
    exact ⟨name, targets assigned, bound⟩

theorem resolve_ok {name : String} {cell : Fin n} (h : bindings.resolve name = .ok cell) :
    bindings.cell? name = some cell := by
  unfold Bindings.resolve at h
  split at h
  · rename_i found
    cases h
    exact found
  · cases h

private theorem framed_var (name : String) : (var name).Framed bindings := by
  intro plan planned
  rw [Term.plan] at planned
  split at planned
  · cases planned
    exact .pure _
  · obtain ⟨cell, resolved, same⟩ := Parsing.of_bind_ok planned
    cases same
    exact .load ⟨name, List.mem_singleton.2 rfl, resolve_ok resolved⟩

private theorem framed_neg {operand : Term} (h : operand.Framed bindings) :
    (neg operand).Framed bindings := by
  intro plan planned
  rw [Term.plan] at planned
  obtain ⟨inner, made, same⟩ := Parsing.of_bind_ok planned
  cases same
  exact (h inner made).bind fun _ => .pure _

private theorem framed_assign (left : Term) {right : Term} (h : right.Framed bindings) :
    (binary .assign left right).Framed bindings := by
  intro plan planned
  cases left with
  | var name =>
    rw [Term.plan] at planned
    split at planned
    · cases planned
    · obtain ⟨value, made, planned⟩ := Parsing.of_bind_ok planned
      obtain ⟨cell, resolved, same⟩ := Parsing.of_bind_ok planned
      cases same
      have bound := resolve_ok resolved
      have inner := h.within (binary .assign (var name) right)
        (List.subset_append_right ..) (List.subset_cons_self ..) made
      refine inner.bind fun x => ?_
      refine .bind (.store ?_ ?_ x) fun _ => .pure x
      · exact ⟨name, by simp [occurrences], bound⟩
      · exact ⟨name, by simp [targets], bound⟩
  | num | neg | binary | call => cases planned

private theorem framed_binary {op : Operation} (notAssign : op ≠ .assign) {left right : Term}
    (hl : left.Framed bindings) (hr : right.Framed bindings) :
    (binary op left right).Framed bindings := by
  intro plan planned
  rw [plan_binary notAssign] at planned
  obtain ⟨first, madeFirst, planned⟩ := Parsing.of_bind_ok planned
  obtain ⟨second, madeSecond, same⟩ := Parsing.of_bind_ok planned
  cases same
  have targets := targets_binary notAssign left right
  have before := hl.within (binary op left right) (List.subset_append_left ..)
    (by simp [targets]) madeFirst
  have behind := hr.within (binary op left right) (List.subset_append_right ..)
    (by simp [targets]) madeSecond
  exact before.bind fun _ => behind.bind fun _ => .pure _

theorem subset_call {name : String} {args : List Term} {arg : Term} (mem : arg ∈ args) :
    arg.occurrences ⊆ (call name args).occurrences ∧ arg.targets ⊆ (call name args).targets := by
  rw [occurrences, targets, argumentOccurrences_eq, argumentTargets_eq]
  exact ⟨fun _ occurs => List.mem_flatMap.2 ⟨arg, mem, occurs⟩,
    fun _ assigned => List.mem_flatMap.2 ⟨arg, mem, assigned⟩⟩

private theorem framed_call (name : String) {args : List Term}
    (h : ∀ arg ∈ args, arg.Framed bindings) :
    (call name args).Framed bindings := by
  intro plan planned
  have inner : ∀ arg ∈ args, ∀ part, arg.plan bindings = .ok part →
      part.eval.Within ((call name args).Touches bindings) ((call name args).Assigns bindings) :=
    fun arg mem part made => (h arg mem).within _ (subset_call mem).1 (subset_call mem).2 made
  rw [Term.plan.eq_def] at planned
  dsimp only at planned
  split at planned
  · split at planned
    · obtain ⟨test, madeTest, planned⟩ := Parsing.of_bind_ok planned
      obtain ⟨yes, madeYes, planned⟩ := Parsing.of_bind_ok planned
      obtain ⟨no, madeNo, same⟩ := Parsing.of_bind_ok planned
      cases same
      refine (inner _ (by simp) test madeTest).bind fun _ => ?_
      refine (inner _ (by simp) yes madeYes).bind fun _ => ?_
      exact (inner _ (by simp) no madeNo).bind fun _ => .pure _
    · cases planned
  · split at planned
    · split at planned
      · obtain ⟨operand, made, same⟩ := Parsing.of_bind_ok planned
        cases same
        exact (inner _ (by simp) operand made).bind fun _ => .pure _
      · cases planned
    · split at planned
      · cases planned
      · split at planned
        · obtain ⟨operand, made, same⟩ := Parsing.of_bind_ok planned
          cases same
          exact (inner _ (by simp) operand made).bind fun _ => .pure _
        · cases planned

theorem framed_term (bindings : Bindings n) (term : Term) : term.Framed bindings := by
  induction term with
  | num value =>
    intro plan planned
    cases planned
    exact .pure _
  | var name => exact framed_var name
  | neg operand ih => exact framed_neg ih
  | binary op left right ihl ihr =>
    by_cases isAssign : op = .assign
    · subst isAssign
      exact framed_assign left ihr
    · exact framed_binary isAssign ihl ihr
  | call name args ih => exact framed_call name ih

end Term

private theorem Native.pipeline_ok {routine passed : Native.Routine n}
    (h : pipeline.foldlM (fun routine pass => pass.apply routine) routine = .ok passed) :
    passed = routine := by
  simp only [pipeline, List.foldlM_cons, List.foldlM_nil, Pass.apply, bind_pure] at h
  change (if routine.isWellFormed then _ else _) = Except.ok passed at h
  split at h
  · cases h
    rfl
  · cases h

theorem Native.Routine.run_of_compile {bindings : Bindings n} {term : Term}
    {routine : Native.Routine n} (h : compile bindings term = .ok routine) :
    ∃ plan, term.plan bindings = .ok plan ∧ routine.run = plan.eval := by
  obtain ⟨generated, made, passed⟩ := Parsing.of_bind_ok h
  have same : routine = generated := by
    split at passed
    · rename_i kept passes
      cases passed
      exact pipeline_ok passes
    · cases passed
  subst same
  cases planned : term.plan bindings with
  | error error =>
    rw [ofTerm_of_plan_error planned] at made
    cases made
  | ok plan =>
    obtain ⟨other, made', run⟩ := ofTerm_of_plan_ok planned
    rw [made] at made'
    cases made'
    exact ⟨plan, rfl, run⟩

/-- On either backend, what is compiled computes the plan of the tree. -/
theorem Backend.action_of_compile {backend : Backend} {bindings : Bindings n} {term : Term}
    {executable : Executable n} (h : backend.compile bindings term = .ok executable) :
    ∃ plan, term.plan bindings = .ok plan ∧ executable.action = plan.eval := by
  cases backend with
  | interpreting =>
    obtain ⟨plan, planned, same⟩ := Parsing.of_bind_ok h
    cases same
    exact ⟨plan, planned, rfl⟩
  | compiling =>
    obtain ⟨routine, made, same⟩ := Parsing.of_bind_ok h
    cases same
    exact Native.Routine.run_of_compile made

namespace Declaration

def Touches (declaration : Declaration n) (cell : Fin n) : Prop :=
  ∃ term ∈ declaration.term, term.Touches declaration.bindings cell

def Assigns (declaration : Declaration n) (cell : Fin n) : Prop :=
  ∃ term ∈ declaration.term, term.Assigns declaration.bindings cell

instance (declaration : Declaration n) (cell : Fin n) : Decidable (declaration.Touches cell) :=
  inferInstanceAs (Decidable (∃ term ∈ declaration.term, term.Touches declaration.bindings cell))

instance (declaration : Declaration n) (cell : Fin n) : Decidable (declaration.Assigns cell) :=
  inferInstanceAs (Decidable (∃ term ∈ declaration.term, term.Assigns declaration.bindings cell))

theorem Assigns.touches {declaration : Declaration n} {cell : Fin n}
    (h : declaration.Assigns cell) : declaration.Touches cell := by
  obtain ⟨term, given, name, assigned, bound⟩ := h
  exact ⟨term, given, name, term.targets_subset assigned, bound⟩

theorem evaluate_within (declaration : Declaration n) :
    (∃ failure, ∀ memory, declaration.evaluate memory = .error failure) ∨
      ∃ action : Action n Float, action.Within declaration.Touches declaration.Assigns ∧
        ∀ memory, declaration.evaluate memory = .ok (action memory) := by
  unfold evaluate
  cases given : declaration.term with
  | none => exact .inl ⟨_, fun _ => rfl⟩
  | some term =>
    dsimp only
    cases compiled : declaration.backend.compile declaration.bindings term with
    | error error => exact .inl ⟨_, fun _ => rfl⟩
    | ok executable =>
      obtain ⟨plan, planned, action⟩ := Backend.action_of_compile compiled
      refine .inr ⟨executable.action, ?_, fun _ => rfl⟩
      rw [action]
      apply (term.framed_term _ plan planned).mono
      · exact fun cell touched => ⟨term, given, touched⟩
      · exact fun cell assigned => ⟨term, given, assigned⟩

end Declaration
end CellFormula
