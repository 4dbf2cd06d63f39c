import CellFormula.Plan
import CellFormula.Proofs.Native.Simulation
/-! The routine of a formula does what its plan does. Generation fails exactly where planning fails,
with the same error. Otherwise a run of the routine and the evaluation of the plan agree in value,
memory and accesses, whatever the cells hold. -/
namespace CellFormula

namespace Term

theorem plan_binary {op : Operation} (notAssign : op ≠ .assign) (bindings : Bindings n)
    (left right : Term) :
    plan bindings (.binary op left right) =
      (do return .binary op (← plan bindings left) (← plan bindings right)) := by
  cases op <;> first | contradiction | rfl

end Term

namespace Native.Generator

theorem term_binary {op : Operation} (notAssign : op ≠ .assign) (bindings : Bindings n)
    (left right : Term) :
    term bindings (.binary op left right) =
      (do
        let x ← term bindings left
        let y ← term bindings right
        binary op x y) := by
  cases op <;> first | contradiction | rfl

variable {facts : Facts n}

namespace Computes

theorem const (value : Float) :
    Computes facts (Generator.emit (.const value)) Value.number (Pure.pure value) :=
  emit fun _ _ _ => rfl

theorem load {pointer : Nat} {cell : Fin n} (known : (pointer, .pointer cell) ∈ facts) :
    Computes facts (Generator.emit (.load pointer)) Value.number (Action.load cell) := by
  refine emit fun routine registers holds => ?_
  simp [Routine.step, Registers.pointer?, holds _ known]

theorem store {value pointer : Nat} {x : Float} {cell : Fin n}
    (known : (value, .number x) ∈ facts) (known' : (pointer, .pointer cell) ∈ facts) :
    Computes facts (Generator.emit (.store value pointer)) (fun _ => Value.nothing)
      (Action.store cell x) := by
  refine emit fun routine registers holds => ?_
  simp [Routine.step, Registers.pointer?, Registers.number, holds _ known, holds _ known']

theorem arithmetic {op : Arithmetic} {left right : Nat} {x y : Float}
    (known : (left, .number x) ∈ facts) (known' : (right, .number y) ∈ facts) :
    Computes facts (Generator.arithmetic op left right) Value.number (Pure.pure (op.apply x y)) := by
  refine emit fun routine registers holds => ?_
  simp [Routine.step, Registers.number, holds _ known, holds _ known', Action.pure_bind]

theorem flag {op : Comparison} {left right : Nat} (x y : Float)
    (known : (left, .number x) ∈ facts) (known' : (right, .number y) ∈ facts) :
    Computes facts (Generator.emit (.compare op left right)) Value.flag
      (Pure.pure (op.test x y)) := by
  refine emit fun routine registers holds => ?_
  simp [Routine.step, Registers.number, holds _ known, holds _ known', Action.pure_bind]

theorem select {flag yes no : Nat} (test : Bool) (x y : Float)
    (known : (flag, .flag test) ∈ facts) (known' : (yes, .number x) ∈ facts)
    (known'' : (no, .number y) ∈ facts) :
    Computes facts (Generator.emit (.select flag yes no)) Value.number
      (Pure.pure (if test then x else y)) := by
  refine emit fun routine registers holds => ?_
  simp [Routine.step, Registers.number, Registers.flag, holds _ known, holds _ known',
    holds _ known'', Action.pure_bind]

end Computes

private theorem computes_compare {op : Comparison} {left right : Nat} {x y : Float}
    (known : (left, .number x) ∈ facts) (known' : (right, .number y) ∈ facts) :
    Computes facts (compare op left right) Value.number (pure (ofTruth (op.test x y))) := by
  refine .bind_pure (.flag x y known known') fun flag => ?_
  refine .bind_pure (.const 1.0) fun yes => ?_
  refine .bind_pure (.const 0.0) fun no => ?_
  exact .select (op.test x y) 1.0 0.0 (by simp) (by simp) (by simp)

private theorem computes_binary {op : Operation} (notAssign : op ≠ .assign) {left right : Nat}
    {x y : Float} (known : (left, .number x) ∈ facts) (known' : (right, .number y) ∈ facts) :
    Computes facts (binary op left right) Value.number (pure (op.apply x y)) := by
  cases op with
  | assign => contradiction
  | add | sub | mul | div => exact .arithmetic known known'
  | pow =>
    refine Computes.call [(left, x), (right, y)] ?_ rfl
    simp [known, known']
  | lt | gt | le | ge | eq | ne => exact computes_compare known known'

/-- Where planning succeeds the generator computes what the plan evaluates to, and where it fails
the generator fails on every draft. -/
def Realizes (facts : Facts n) (generator : Generator n Nat) :
    Except CompilationError (Plan n) → Prop
  | .ok plan => Computes facts generator Value.number plan.eval
  | .error error => ∀ draft, generator draft = .error error

theorem Computes.bind_error {first : Generator n Nat} {next : Nat → Generator n Nat}
    {held : α → Value n} {action : Action n α} {error : CompilationError}
    (head : Computes facts first held action)
    (tail : ∀ register draft, next register draft = .error error) (draft : Draft n) :
    (first >>= next) draft = .error error := by
  obtain ⟨register, middle, ran⟩ := head.succeeds draft
  rw [bind_apply_ok ran, tail]

theorem Realizes.bind {first : Generator n Nat} {next : Nat → Generator n Nat}
    {planned : Except CompilationError (Plan n)} {rest : Plan n → Except CompilationError (Plan n)}
    (head : Realizes facts first planned)
    (tail : ∀ plan : Plan n, Computes facts first Value.number plan.eval →
      Realizes facts (first >>= next) (rest plan)) :
    Realizes facts (first >>= next) (planned >>= rest) := by
  cases planned with
  | error error => exact fun draft => bind_apply_error (head draft)
  | ok plan => exact tail plan head

theorem Realizes.bind_of_computes {first : Generator n Nat} {second : Nat → Generator n Nat}
    {next : Nat → Nat → Generator n Nat} {held : α → Value n} {action : Action n α}
    {planned : Except CompilationError (Plan n)} {rest : Plan n → Except CompilationError (Plan n)}
    (head : Computes facts first held action)
    (body : ∀ register facts, Realizes facts (second register) planned)
    (tail : ∀ plan : Plan n,
      (∀ register facts, Computes facts (second register) Value.number plan.eval) →
      Realizes facts (first >>= fun register => second register >>= next register) (rest plan)) :
    Realizes facts (first >>= fun register => second register >>= next register)
      (planned >>= rest) := by
  cases planned with
  | error error =>
    exact head.bind_error fun register draft => bind_apply_error (body register [] draft)
  | ok plan => exact tail plan body

def Realized (bindings : Bindings n) (formula : Term) : Prop :=
  ∀ facts, Realizes facts (term bindings formula) (formula.plan bindings)

section
variable {bindings : Bindings n}

private theorem realized_var (name : String) : Realized bindings (.var name) := by
  intro facts
  rw [term, Term.plan]
  cases namedConstant? name with
  | some value => exact Computes.const value
  | none =>
    rw [pointerOf, Bindings.resolve]
    cases bindings.cell? name with
    | none => exact fun draft => rfl
    | some cell => exact Computes.bind_pure (.pointerTo cell) fun pointer => .load (by simp)

private theorem realized_neg {operand : Term} (h : Realized bindings operand) :
    Realized bindings (.neg operand) := by
  intro facts
  rw [term, Term.plan]
  refine (h facts).bind fun plan computes => ?_
  refine Computes.bind computes fun value memory => ?_
  refine .bind_pure (.const (-1.0)) fun minusOne => ?_
  exact .arithmetic (by simp) (by simp)

private theorem realized_assign (left : Term) {right : Term} (h : Realized bindings right) :
    Realized bindings (.binary .assign left right) := by
  intro facts
  cases left with
  | var name =>
    rw [term, Term.plan]
    split
    · exact fun draft => rfl
    · refine (h facts).bind fun plan computes => ?_
      -- the target is looked up behind the value, so its failure comes second on both sides
      rw [pointerOf, Bindings.resolve]
      cases bindings.cell? name with
      | none => exact computes.bind_error fun register draft => rfl
      | some cell =>
        refine Computes.bind computes fun value memory => ?_
        refine .bind_pure (.pointerTo cell) fun pointer => ?_
        refine .bind (.store (by simp) (by simp)) fun nothing memory => ?_
        exact .pure (by simp)
  | num | neg | binary | call => exact fun draft => rfl

private theorem realized_binary {op : Operation} (notAssign : op ≠ .assign) {left right : Term}
    (hl : Realized bindings left) (hr : Realized bindings right) :
    Realized bindings (.binary op left right) := by
  intro facts
  rw [term_binary notAssign, Term.plan_binary notAssign]
  refine (hl facts).bind fun planL computesL => ?_
  refine .bind_of_computes computesL (fun _ => hr) fun planR computesR => ?_
  refine Computes.bind computesL fun x memory => ?_
  refine .bind (computesR x _) fun y memory => ?_
  exact computes_binary notAssign (by simp) (by simp)

private theorem realized_conditional {condition yes no : Term} (hc : Realized bindings condition)
    (hy : Realized bindings yes) (hn : Realized bindings no) :
    Realized bindings (.call "if" [condition, yes, no]) := by
  intro facts
  rw [term.eq_def, Term.plan.eq_def]
  refine (hc facts).bind fun planC computesC => ?_
  refine .bind_of_computes computesC (fun _ => hy) fun planY computesY => ?_
  have realizes := fun facts => hn facts
  cases planned : no.plan bindings with
  | error error =>
    simp only [planned] at realizes
    exact computesC.bind_error fun test => (computesY test []).bind_error
      fun x draft => bind_apply_error (realizes [] draft)
  | ok planN =>
    simp only [planned] at realizes
    refine Computes.bind computesC fun test before => ?_
    refine .bind (computesY test _) fun x between => ?_
    refine .bind (realizes _) fun y behind => ?_
    refine .bind_pure (.const 1.0) fun one => ?_
    refine .bind_pure (.flag (planC.eval before).value 1.0 (by simp) (by simp)) fun flag => ?_
    exact .select (Comparison.eq.test _ _) _ _ (by simp) (by simp) (by simp)

private theorem signOf_eq (x : Float) :
    signOf x = if Comparison.gt.test x 0.0 then 1.0
      else if Comparison.lt.test x 0.0 then -1.0 else 0.0 := by
  simp [signOf, Comparison.test]

private theorem realized_sign {arg : Term} (h : Realized bindings arg) :
    Realized bindings (.call "sign" [arg]) := by
  intro facts
  rw [term.eq_def, Term.plan.eq_def]
  refine (h facts).bind fun plan computes => ?_
  refine Computes.bind computes fun value memory => ?_
  refine .bind_pure (.const 0.0) fun origin => ?_
  refine .bind_pure (.const 1.0) fun one => ?_
  refine .bind_pure (.const (-1.0)) fun minusOne => ?_
  rw [signOf_eq]
  generalize (plan.eval memory).value = x
  refine .bind_pure (.flag x 0.0 (by simp) (by simp)) fun positive => ?_
  refine .bind_pure (.flag x 0.0 (by simp) (by simp)) fun negative => ?_
  refine .bind_pure (.select (Comparison.lt.test x 0.0) (-1.0) 0.0 (by simp) (by simp) (by simp))
    fun notPositive => ?_
  exact .select (Comparison.gt.test x 0.0) 1.0 _ (by simp) (by simp) (by simp)

private theorem realized_apply (function : ElementaryFunction) {arg : Term}
    (h : Realized bindings arg) (facts : Facts n) :
    Realizes facts
      (do
        let value ← term bindings arg
        let routine ← importSymbol function.symbol
        emit (.call routine [value]))
      (do return .apply function (← arg.plan bindings)) := by
  refine (h facts).bind fun plan computes => ?_
  refine Computes.bind computes fun value memory => ?_
  refine Computes.call [(value, (plan.eval memory).value)] (by simp) ?_
  simp [callSymbol, ElementaryFunction.ofSymbol?_symbol]

private theorem realized_call (name : String) {args : List Term}
    (h : ∀ arg ∈ args, Realized bindings arg) : Realized bindings (.call name args) := by
  by_cases isConditional : name = "if"
  · subst isConditional
    match args, h with
    | [_, _, _], h => exact realized_conditional (h _ (by simp)) (h _ (by simp)) (h _ (by simp))
    | [], _ | [_], _ | [_, _], _ | _ :: _ :: _ :: _ :: _, _ => exact fun facts draft => rfl
  · by_cases isSign : name = "sign"
    · subst isSign
      match args, h with
      | [_], h => exact realized_sign (h _ (by simp))
      | [], _ | _ :: _ :: _, _ =>
        intro facts
        rw [term.eq_def, Term.plan.eq_def]
        exact fun draft => rfl
    · intro facts
      rw [term.eq_def, Term.plan.eq_def]
      simp only [isConditional, isSign, if_false]
      cases ElementaryFunction.ofName? name with
      | none => exact fun draft => rfl
      | some function =>
        match args, h with
        | [_], h => exact realized_apply function (h _ (by simp)) facts
        | [], _ | _ :: _ :: _, _ => exact fun draft => rfl

end

theorem realized_term (bindings : Bindings n) (formula : Term) : Realized bindings formula := by
  induction formula with
  | num value => exact fun facts => Computes.const value
  | var name => exact realized_var name
  | neg operand ih => exact realized_neg ih
  | binary op left right ihl ihr =>
    by_cases isAssign : op = .assign
    · subst isAssign
      exact realized_assign left ihr
    · exact realized_binary isAssign ihl ihr
  | call name args ih => exact realized_call name ih

end Native.Generator

namespace Native.Routine

theorem ofTerm_of_plan_error {bindings : Bindings n} {formula : Term} {error : CompilationError}
    (planned : formula.plan bindings = .error error) :
    ofTerm bindings formula = .error error := by
  have realizes := Generator.realized_term bindings formula []
  rw [planned] at realizes
  rw [ofTerm, realizes]

theorem ofTerm_of_plan_ok {bindings : Bindings n} {formula : Term} {plan : Plan n}
    (planned : formula.plan bindings = .ok plan) :
    ∃ routine, ofTerm bindings formula = .ok routine ∧ routine.run = plan.eval := by
  have computes := Generator.realized_term bindings formula []
  rw [planned] at computes
  obtain ⟨result, draft, ran⟩ := computes.succeeds .empty
  let routine : Routine n := ⟨draft.code, result, draft.imports, draft.slots, draft.registry⟩
  refine ⟨routine, by rw [ofTerm, ran], ?_⟩
  funext memory
  have registered := (computes.grows ran).2 ⟨by simp [Draft.empty, Slots.empty],
    by simp [Draft.empty, Slots.empty]⟩
  have serves : routine.Serves draft := ⟨List.prefix_refl _, registered.cell?⟩
  have reached : Draft.empty.Reached routine memory [] memory [] :=
    ⟨rfl, by simp [Draft.empty, Slots.empty]⟩
  obtain ⟨registers, reached, held⟩ :=
    computes.reaches ran serves reached (by simp [Generator.Facts.Hold])
  have executed : routine.execute [] routine.code memory =
      ⟨registers, (plan.eval memory).memory, (plan.eval memory).accesses⟩ := reached.executed
  have result : registers.number routine.result = (plan.eval memory).value := by
    simp only [Registers.number, show registers[routine.result]? = _ from held]
  simp only [run, Action.bind_apply, executed, result, Action.pure_apply, List.append_nil]

/-- Generation and planning fail together and with the same error; where they succeed, the routine
returns the value of the plan, leaves every cell as the plan does and reads and writes the same
cells in the same order, whatever the cells hold. -/
theorem generation_refines_planning (bindings : Bindings n) (formula : Term) :
    match ofTerm bindings formula, formula.plan bindings with
    | .ok routine, .ok plan => ∀ memory,
      (routine.run memory).value = (plan.eval memory).value ∧
      (∀ cell, (routine.run memory).memory.get cell = (plan.eval memory).memory.get cell) ∧
      (routine.run memory).accesses = (plan.eval memory).accesses
    | .error error, .error error' => error = error'
    | _, _ => False := by
  cases planned : formula.plan bindings with
  | error error => rw [ofTerm_of_plan_error planned]
  | ok plan =>
    obtain ⟨routine, generated, same⟩ := ofTerm_of_plan_ok planned
    rw [generated]
    intro memory
    rw [same]
    exact ⟨rfl, fun cell => rfl, rfl⟩

end Native.Routine
end CellFormula
