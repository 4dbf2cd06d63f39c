import CellFormula.Proofs.Formula.Planning
/-! The routine of a formula is that of its plan: what is generated for a tree depends on the tree,
its names and the bindings only through the plan. Laws of routines are therefore inductions on
plans. -/
namespace CellFormula.Native

namespace Generator

def plan : Plan n → Generator n Nat
  | .const value => emit (.const value)
  | .load cell => do
    let pointer ← pointerTo cell
    emit (.load pointer)
  | .store cell value => do
    let x ← plan value
    let pointer ← pointerTo cell
    let _ ← emit (.store x pointer)
    return x
  | .neg operand => do
    let value ← plan operand
    let minusOne ← emit (.const (-1.0))
    arithmetic .mul minusOne value
  | .binary op left right => do
    let x ← plan left
    let y ← plan right
    binary op x y
  | .apply function operand => do
    let value ← plan operand
    let routine ← importSymbol function.symbol
    emit (.call routine [value])
  | .conditional condition yes no => do
    let test ← plan condition
    let x ← plan yes
    let y ← plan no
    let one ← emit (.const 1.0)
    let flag ← emit (.compare .eq test one)
    emit (.select flag x y)
  | .sign operand => do
    let value ← plan operand
    let origin ← emit (.const 0.0)
    let one ← emit (.const 1.0)
    let minusOne ← emit (.const (-1.0))
    let positive ← emit (.compare .gt value origin)
    let negative ← emit (.compare .lt value origin)
    let notPositive ← emit (.select negative minusOne origin)
    emit (.select positive one notPositive)

theorem term_eq_plan {bindings : Bindings n} {formula : Term} {planned : Plan n}
    (h : Planned bindings formula planned) : term bindings formula = plan planned := by
  induction h with
  | number value => rfl
  | constant named => simp only [term, named, plan]
  | load notConstant bound =>
    simp only [term, namedConstant?_eq_none.2 notConstant, pointerOf, bound, plan]
  | neg planned ih => rw [term, ih, plan]
  | store notConstant planned bound ih =>
    rw [term, if_neg (Bool.eq_false_iff.1 notConstant), ih, pointerOf, bound, plan]
  | binary notAssign plannedLeft plannedRight ihl ihr =>
    rw [term_binary notAssign, ihl, ihr, plan]
  | conditional plannedCondition plannedYes plannedNo ihc ihy ihn =>
    rw [term.eq_def, plan, ← ihc, ← ihy, ← ihn]
    rfl
  | sign planned ih =>
    rw [term.eq_def, plan, ← ih]
    rfl
  | @apply name function arg operand resolved planned ih =>
    obtain ⟨notConditional, notSign⟩ := ElementaryFunction.ofName?_ne resolved
    rw [term.eq_def, plan, ← ih]
    simp only [if_neg notConditional, if_neg notSign, resolved]

end Generator

theorem Routine.ofTerm_congr {bindings bindings' : Bindings n} {formula formula' : Term}
    {plan : Plan n} (h : Planned bindings formula plan) (h' : Planned bindings' formula' plan) :
    ofTerm bindings formula = ofTerm bindings' formula' := by
  rw [ofTerm, ofTerm, Generator.term_eq_plan h, Generator.term_eq_plan h']

end CellFormula.Native
