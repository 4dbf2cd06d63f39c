import CellFormula.Proofs.Formula.Compilability
import CellFormula.Proofs.Native.Emission
/-! Renaming the variables of a formula. Planning looks names up and keeps none of them, so bindings
that give the new names the cells of the old ones lead to the same plan. -/
namespace CellFormula

/-- New names for variables. Constants keep their names, and no other name becomes a constant. -/
structure Renaming where
  apply : String → String
  fixes : ∀ name, isConstant name = true → apply name = name
  avoids : ∀ name, isConstant name = false → isConstant (apply name) = false

namespace Renaming

protected def id : Renaming := ⟨fun name => name, fun _ _ => rfl, fun _ notConstant => notConstant⟩

def replace (old new : String) (h : isConstant old = false) (h' : isConstant new = false) :
    Renaming where
  apply name := if name = old then new else name
  fixes name constant := by
    refine if_neg ?_
    rintro rfl
    rw [h] at constant
    cases constant
  avoids name notConstant := by
    split
    · exact h'
    · exact notConstant

private theorem namedConstant?_apply (r : Renaming) (name : String) :
    namedConstant? (r.apply name) = namedConstant? name := by
  by_cases constant : isConstant name = true
  · rw [r.fixes name constant]
  · have notConstant := Bool.eq_false_iff.2 constant
    rw [namedConstant?_eq_none.2 notConstant, namedConstant?_eq_none.2 (r.avoids name notConstant)]

end Renaming

namespace Term

mutual

def rename (r : Renaming) : Term → Term
  | .num value => .num value
  | .var name => .var (r.apply name)
  | .neg operand => .neg (operand.rename r)
  | .binary op left right => .binary op (left.rename r) (right.rename r)
  | .call name args => .call name (renameArguments r args)

def renameArguments (r : Renaming) : List Term → List Term
  | [] => []
  | arg :: rest => arg.rename r :: renameArguments r rest

end

@[simp] private theorem renameArguments_eq (r : Renaming) (args : List Term) :
    renameArguments r args = args.map (rename r) := by
  induction args with
  | nil => simp [renameArguments]
  | cons arg rest ih => simp [renameArguments, ih]

@[simp] theorem rename_id (term : Term) : term.rename .id = term := by
  induction term with
  | num value => rfl
  | var name => rfl
  | neg operand ih => rw [rename, ih]
  | binary op left right ihl ihr => rw [rename, ihl, ihr]
  | call name args ih => rw [rename, renameArguments_eq, List.map_congr_left ih, List.map_id']

end Term

def CompilationError.rename (r : Renaming) : CompilationError → CompilationError
  | .assignToConstant name => .assignToConstant (r.apply name)
  | .unboundVariable name => .unboundVariable (r.apply name)
  | error => error

@[simp] theorem CompilationError.rename_id (error : CompilationError) :
    error.rename .id = error := by
  cases error <;> rfl

private theorem mapError_bind (change : ε → ε') (first : Except ε α) (next : α → Except ε β) :
    (first >>= next).mapError change =
      first.mapError change >>= fun value => (next value).mapError change := by
  cases first <;> rfl

private theorem mapError_congr {first : Except ε α} {change : ε → ε}
    (h : ∀ error, first = .error error → change error = error) : first.mapError change = first := by
  cases first with
  | ok value => rfl
  | error error => exact congrArg Except.error (h error rfl)

def Bindings.Follow (other : Bindings n) (r : Renaming) (bindings : Bindings n) (term : Term) :
    Prop :=
  ∀ name ∈ term.names, other.cell? (r.apply name) = bindings.cell? name

namespace Bindings.Follow
variable {bindings other : Bindings n} {r : Renaming} {term : Term}

theorem part {inner : Term} (h : other.Follow r bindings term)
    (occurrences : inner.occurrences ⊆ term.occurrences) : other.Follow r bindings inner := by
  intro name mem
  obtain ⟨occurs, notConstant⟩ := Term.mem_names.1 mem
  exact h name (Term.mem_names.2 ⟨occurrences occurs, notConstant⟩)

theorem resolve (h : other.Follow r bindings term) {name : String}
    (occurs : name ∈ term.occurrences) (notConstant : isConstant name = false) :
    other.resolve (r.apply name) = (bindings.resolve name).mapError (.rename r) := by
  rw [Bindings.resolve, Bindings.resolve, h name (Term.mem_names.2 ⟨occurs, notConstant⟩)]
  split <;> rfl

end Bindings.Follow

namespace Term
variable {bindings other : Bindings n} {r : Renaming}

private theorem plan_rename_assign {left right : Term}
    (ih : (right.rename r).plan other = (right.plan bindings).mapError (.rename r))
    (h : other.Follow r bindings (binary .assign left right)) :
    ((binary .assign left right).rename r).plan other =
      ((binary .assign left right).plan bindings).mapError (.rename r) := by
  cases left with
  | var name =>
    rw [rename, rename, plan, plan]
    by_cases constant : isConstant name = true
    · rw [r.fixes name constant, if_pos constant, if_pos constant]
      exact congrArg (fun name => Except.error (CompilationError.assignToConstant name))
        (r.fixes name constant).symm
    · have notConstant := Bool.eq_false_iff.2 constant
      have occurs : name ∈ (binary .assign (var name) right).occurrences := by simp [occurrences]
      have resolved := h.resolve occurs notConstant
      rw [if_neg constant, if_neg (Bool.eq_false_iff.1 (r.avoids name notConstant)), ih, resolved,
        mapError_bind]
      simp only [mapError_bind]
      rfl
  | num | neg | binary | call => rfl

private theorem plan_rename_call (name : String) {args : List Term}
    (ih : ∀ arg ∈ args, (arg.rename r).plan other = (arg.plan bindings).mapError (.rename r)) :
    ((call name args).rename r).plan other =
      ((call name args).plan bindings).mapError (.rename r) := by
  rw [rename, renameArguments_eq, plan.eq_def, plan.eq_def bindings]
  dsimp only
  -- functions of one argument differ only in what they make of its plan
  have single : ∀ build : Plan n → Plan n,
      planUnary other name build (args.map (rename r)) =
        (planUnary bindings name build args).mapError (.rename r) := by
    intro build
    rcases args with _ | ⟨arg, _ | ⟨second, rest⟩⟩
    · rfl
    · simp only [List.map, planUnary, ih arg (by simp), mapError_bind]
      rfl
    · simp only [List.map, planUnary, List.length_cons, List.length_map]
      rfl
  by_cases isConditional : name = "if"
  · simp only [if_pos isConditional]
    rcases args with _ | ⟨condition, _ | ⟨yes, _ | ⟨no, _ | ⟨fourth, rest⟩⟩⟩⟩
    · rfl
    · rfl
    · rfl
    · simp only [List.map, ih condition (by simp), ih yes (by simp), ih no (by simp), mapError_bind]
      rfl
    · simp only [List.length_map]
      rfl
  · simp only [if_neg isConditional]
    by_cases isSign : name = "sign"
    · simp only [if_pos isSign]
      exact single .sign
    · simp only [if_neg isSign]
      cases ElementaryFunction.ofName? name with
      | none => rfl
      | some function => exact single (.apply function)

theorem plan_rename {term : Term} (h : other.Follow r bindings term) :
    (term.rename r).plan other = (term.plan bindings).mapError (.rename r) := by
  induction term with
  | num value => rfl
  | var name =>
    rw [rename, plan, plan, r.namedConstant?_apply]
    split
    · rfl
    · rename_i notConstant
      have resolved := h.resolve (List.mem_singleton.2 rfl) (namedConstant?_eq_none.1 notConstant)
      rw [resolved, mapError_bind]
      rfl
  | neg operand ih =>
    rw [rename, plan, plan, ih (h.part (List.Subset.refl _)), mapError_bind]
    rfl
  | binary op left right ihl ihr =>
    have first := ihl (h.part (List.subset_append_left ..))
    have second := ihr (h.part (List.subset_append_right ..))
    by_cases isAssign : op = .assign
    · subst isAssign
      exact plan_rename_assign second h
    · rw [rename, plan_binary isAssign, plan_binary isAssign, first, second, mapError_bind]
      simp only [mapError_bind]
      rfl
  | call name args ih =>
    exact plan_rename_call name fun arg mem => ih arg mem (h.part (subset_call mem).1)

theorem plan_of_cells {term : Term}
    (h : ∀ name ∈ term.names, other.cell? name = bindings.cell? name) :
    term.plan other = term.plan bindings := by
  have follow : other.Follow .id bindings term := h
  have renamed := plan_rename follow
  rw [rename_id] at renamed
  rw [renamed]
  exact mapError_congr fun error _ => error.rename_id

end Term

private theorem CompilationError.IsFaultOf.rename_eq {bindings : Bindings n} {term : Term}
    {error : CompilationError} (h : error.IsFaultOf bindings term) {r : Renaming}
    (keeps : ∀ name, bindings.cell? name = none → r.apply name = name) : error.rename r = error := by
  cases error with
  | assignToConstant name => rw [rename, r.fixes name h.1]
  | unboundVariable name => rw [rename, keeps name h.2]
  | assignToNonVariable | unknownFunction | argumentCount | engine => rfl

namespace Backend
variable {bindings other : Bindings n} {term : Term}

private theorem compile_congr {term' : Term} {plan : Plan n} (h : term.plan bindings = .ok plan)
    (h' : term'.plan other = .ok plan) (backend : Backend) :
    backend.compile bindings term = backend.compile other term' := by
  cases backend with
  | interpreting => rw [compile, compile, h, h']
  | compiling =>
    rw [compile, compile, Native.Routine.compile_eq_ofTerm, Native.Routine.compile_eq_ofTerm,
      Native.Routine.ofTerm_congr (Term.planned_of_plan h) (Term.planned_of_plan h')]

theorem compile_rename {r : Renaming} (h : other.Follow r bindings term) (backend : Backend) :
    backend.compile other (term.rename r) =
      (backend.compile bindings term).mapError (.rename r) := by
  have renamed := Term.plan_rename h
  cases planned : term.plan bindings with
  | error error =>
    rw [planned] at renamed
    rw [compile_of_plan_error planned, compile_of_plan_error renamed]
    rfl
  | ok plan =>
    rw [planned] at renamed
    obtain ⟨executable, compiled⟩ := compile_of_plan_ok planned backend
    rw [compile_congr renamed planned, compiled]
    rfl

theorem compile_of_cells (h : ∀ name ∈ term.names, other.cell? name = bindings.cell? name)
    (backend : Backend) : backend.compile other term = backend.compile bindings term := by
  have same := Term.plan_of_cells h
  cases planned : term.plan bindings with
  | error error =>
    rw [compile_of_plan_error planned, compile_of_plan_error (same.trans planned)]
  | ok plan => exact compile_congr (same.trans planned) planned backend

/-- Names stand for their cells. If the new names of a tree are bound as the old ones were, or like
them not at all, then both trees compile to the same executable, or fail with the same error up to
the names. -/
theorem compile_through_names (backend : Backend) (bindings : Bindings n) (term : Term) :
    (∀ (other : Bindings n) (r : Renaming),
      (∀ name ∈ term.names, other.cell? (r.apply name) = bindings.cell? name) →
      backend.compile other (term.rename r) =
        (backend.compile bindings term).mapError (.rename r)) ∧
    (∀ attempts : List (String × Option (Fin n)),
      (∀ name ∈ term.names, name ∉ attempts.map Prod.fst) →
      backend.compile (bindings.bindAll attempts) term = backend.compile bindings term) ∧
    ∀ (old new : String) (h : isConstant old = false) (h' : isConstant new = false) (cell : Fin n),
      bindings.cell? old = some cell → bindings.cell? new = some cell →
      backend.compile bindings (term.rename (.replace old new h h')) =
        backend.compile bindings term := by
  refine ⟨fun other r follow => compile_rename follow backend, ?_, ?_⟩
  · intro attempts apart
    exact compile_of_cells
      (fun name mem => bindings.cell?_bindAll_of_not_mem (apart name mem)) backend
  · intro old new h h' cell bound bound'
    have follow : bindings.Follow (.replace old new h h') bindings term := by
      intro name _
      change bindings.cell? (if name = old then new else name) = bindings.cell? name
      split
      · rename_i same
        rw [same, bound, bound']
      · rfl
    rw [compile_rename follow]
    refine mapError_congr fun error failed => ?_
    have fault := Term.plan_blames bindings term error (compile_error_iff.1 failed)
    refine fault.rename_eq fun name unbound => if_neg ?_
    rintro rfl
    rw [bound] at unbound
    cases unbound

/-- In `x=y+z` the names `y` and `z` may become one name of their common cell. -/
theorem compile_merged_names :
    let term : Term := .binary .assign (.var "x") (.binary .add (.var "y") (.var "z"))
    let merged : Term := .binary .assign (.var "x") (.binary .add (.var "y") (.var "y"))
    let bindings : Bindings 2 := ⟨[("x", 1), ("y", 0), ("z", 0)]⟩
    let r : Renaming := .replace "z" "y" rfl rfl
    compiling.compile ⟨[("x", 1), ("y", 0)]⟩ merged =
        (compiling.compile bindings term).mapError (.rename r) ∧
      compiling.compile (bindings.bindAll [("u", some 1)]) term =
        compiling.compile bindings term ∧
      compiling.compile bindings merged = compiling.compile bindings term := by
  intro term merged bindings r
  have law := compile_through_names compiling bindings term
  have occurs : ∀ name ∈ term.names, name = "x" ∨ name = "y" ∨ name = "z" := by
    intro name mem
    have mem := (Term.mem_names.1 mem).1
    simpa [term, Term.occurrences] using mem
  refine ⟨law.1 _ r ?_, law.2.1 _ ?_, law.2.2 "z" "y" rfl rfl 0 rfl rfl⟩
  · intro name mem
    rcases occurs name mem with rfl | rfl | rfl <;> rfl
  · intro name mem
    rcases occurs name mem with rfl | rfl | rfl <;> decide

end Backend
end CellFormula
