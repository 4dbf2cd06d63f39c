import Mathlib.Data.List.Forall2
import CellFormula.Proofs.Parsing.Grammar
import CellFormula.Proofs.Parsing.Operators
/-! What a successful reading says about a tree: which operator is on top of it, and how the
operands below were read. -/
namespace CellFormula.Parsing

namespace Reading

inductive Yields : Operator → List Reading → Term → Prop
  | group {reading : Reading} {term : Term} (inner : reading.operand = .ok term) :
      Yields .root [reading] term
  | num {value : Float} {readings : List Reading} :
      Yields (.constant (.number value)) readings (.num value)
  | var {name : String} {readings : List Reading} : Yields (.reference name) readings (.var name)
  | call {name : String} {readings : List Reading} {args : List Term}
      (inner : allArguments readings = .ok args) :
      Yields (.function name) readings (.call name args)
  | neg {reading : Reading} {operand : Term} (inner : reading.operand = .ok operand) :
      Yields .neg [reading] (.neg operand)
  | binary {operator : Operator} {op : Operation} {first : Reading} {rest : List Reading}
      {left term : Term} (meaning : operator.binary? = some op)
      (firstIs : first.operand = .ok left) (others : foldOperands op left rest = .ok term) :
      Yields operator (first :: rest) term

private theorem yields_of_binaryOf {operator : Operator} {op : Operation} {readings : List Reading}
    {term : Term} (meaning : operator.binary? = some op)
    (read : binaryOf op readings = .ok term) : Yields operator readings term := by
  unfold binaryOf at read
  split at read
  · split at read
    · obtain ⟨left, first, others⟩ := of_bind_ok read
      exact .binary meaning first others
    · cases read
  · cases read

theorem yields_of_operandOf {op : Operator} {readings : List Reading} {term : Term}
    (read : operandOf op readings = .ok term) : Yields op readings term := by
  unfold operandOf at read
  split at read
  · exact .group read
  · cases read
  · cases read
    exact .num
  · cases read
  · cases read
    exact .var
  · obtain ⟨args, inner, same⟩ := of_bind_ok read
    cases same
    exact .call inner
  · obtain ⟨operand, inner, same⟩ := of_bind_ok read
    cases same
    exact .neg inner
  · cases read
  · split at read
    · cases read
    · rename_i meaning
      exact yields_of_binaryOf meaning read

inductive Contributes : Operator → List Reading → List Term → Prop
  | empty : Contributes .root [] []
  | group {reading : Reading} {args : List Term} (inner : reading.arguments = .ok args) :
      Contributes .root [reading] args
  | listing {readings : List Reading} {args : List Term}
      (inner : allArguments readings = .ok args) : Contributes .tuple readings args
  | single {op : Operator} {readings : List Reading} {term : Term}
      (yields : Yields op readings term) : Contributes op readings [term]

theorem contributes_of_argumentsOf {op : Operator} {readings : List Reading} {args : List Term}
    (read : argumentsOf op readings = .ok args) : Contributes op readings args := by
  unfold argumentsOf at read
  split at read
  · cases read
    exact .empty
  · exact .group read
  · exact .listing read
  · obtain ⟨term, inner, same⟩ := of_bind_ok read
    cases same
    exact .single (yields_of_operandOf inner)

theorem contributions_of_allArguments {readings : List Reading} {args : List Term}
    (read : allArguments readings = .ok args) :
    ∃ contributions : List (List Term),
      List.Forall₂ (fun reading terms => reading.arguments = .ok terms) readings contributions ∧
        args = contributions.flatten := by
  induction readings generalizing args with
  | nil =>
    cases read
    exact ⟨[], .nil, rfl⟩
  | cons reading rest ih =>
    obtain ⟨here, first, read⟩ := of_bind_ok read
    obtain ⟨behind, others, same⟩ := of_bind_ok read
    cases same
    obtain ⟨contributions, each, rfl⟩ := ih others
    exact ⟨here :: contributions, .cons first each, rfl⟩

theorem allArguments_append {front back : List Reading} {args : List Term}
    (read : allArguments (front ++ back) = .ok args) :
    ∃ first last, allArguments front = .ok first ∧ allArguments back = .ok last ∧
      args = first ++ last := by
  induction front generalizing args with
  | nil => exact ⟨[], args, rfl, read, rfl⟩
  | cons reading front ih =>
    obtain ⟨here, readHere, read⟩ := of_bind_ok read
    obtain ⟨others, readOthers, same⟩ := of_bind_ok read
    cases same
    obtain ⟨first, last, readFirst, readLast, rfl⟩ := ih readOthers
    refine ⟨here ++ first, last, ?_, readLast, (List.append_assoc ..).symm⟩
    rw [allArguments, readHere, readFirst]
    rfl

theorem allArguments_singleton {reading : Reading} {args : List Term}
    (read : allArguments [reading] = .ok args) : reading.arguments = .ok args := by
  obtain ⟨here, readHere, read⟩ := of_bind_ok read
  cases read
  rw [readHere, List.append_nil]

theorem operands_of_foldOperands {op : Operation} {left term : Term} {readings : List Reading}
    (read : foldOperands op left readings = .ok term) :
    ∀ reading ∈ readings, ∃ operand, reading.operand = .ok operand := by
  induction readings generalizing left with
  | nil => exact List.forall_mem_nil _
  | cons reading rest ih =>
    obtain ⟨right, first, others⟩ := of_bind_ok read
    exact List.forall_mem_cons.2 ⟨⟨right, first⟩, ih others⟩

/-- A tree is read as an operand or as arguments. -/
def Succeeds (reading : Reading) : Prop :=
  (∃ term, reading.operand = .ok term) ∨ ∃ args, reading.arguments = .ok args

private theorem succeeds_of_allArguments {readings : List Reading} {args : List Term}
    (read : allArguments readings = .ok args) : ∀ reading ∈ readings, reading.Succeeds := by
  obtain ⟨contributions, each, -⟩ := contributions_of_allArguments read
  clear read
  induction each with
  | nil => exact List.forall_mem_nil _
  | cons first _ ih => exact List.forall_mem_cons.2 ⟨.inr ⟨_, first⟩, ih⟩

end Reading

namespace Operator

def isReadable : Operator → Bool
  | root | constant (.number _) | reference _ | function _ | neg | tuple => true
  | op => op.binary?.isSome

private theorem isReadable_of_binary? {op : Operator} {operation : Operation}
    (h : op.binary? = some operation) : op.isReadable = true := by
  cases op <;> first | rfl | cases h

end Operator

namespace Reading

theorem Yields.readable {op : Operator} {readings : List Reading} {term : Term}
    (h : Yields op readings term) :
    op.isReadable = true ∧ (op.isLeaf = true ∨ ∀ reading ∈ readings, reading.Succeeds) := by
  cases h with
  | group inner => exact ⟨rfl, .inr (List.forall_mem_singleton.2 (.inl ⟨_, inner⟩))⟩
  | num => exact ⟨rfl, .inl rfl⟩
  | var => exact ⟨rfl, .inl rfl⟩
  | call inner => exact ⟨rfl, .inr (succeeds_of_allArguments inner)⟩
  | neg inner => exact ⟨rfl, .inr (List.forall_mem_singleton.2 (.inl ⟨_, inner⟩))⟩
  | binary meaning first others =>
    refine ⟨Operator.isReadable_of_binary? meaning, .inr ?_⟩
    exact List.forall_mem_cons.2
      ⟨.inl ⟨_, first⟩, fun reading mem => .inl (operands_of_foldOperands others reading mem)⟩

theorem Contributes.readable {op : Operator} {readings : List Reading} {args : List Term}
    (h : Contributes op readings args) :
    op.isReadable = true ∧ (op.isLeaf = true ∨ ∀ reading ∈ readings, reading.Succeeds) := by
  cases h with
  | empty => exact ⟨rfl, .inr (List.forall_mem_nil _)⟩
  | group inner => exact ⟨rfl, .inr (List.forall_mem_singleton.2 (.inr ⟨_, inner⟩))⟩
  | listing inner => exact ⟨rfl, .inr (succeeds_of_allArguments inner)⟩
  | single yields => exact yields.readable

theorem readable_of_succeeds {op : Operator} {readings : List Reading}
    (h : (ofNode op readings).Succeeds) :
    op.isReadable = true ∧ (op.isLeaf = true ∨ ∀ reading ∈ readings, reading.Succeeds) := by
  rcases h with ⟨term, read⟩ | ⟨args, read⟩
  · change operandOf op readings = .ok term at read
    exact (yields_of_operandOf read).readable
  · change argumentsOf op readings = .ok args at read
    exact (contributes_of_argumentsOf read).readable

end Reading

namespace OperatorTree

abbrev Bare (tree : OperatorTree) : Prop := tree.All fun _ => True

@[simp] theorem reading_node (op : Operator) (operands : List OperatorTree) :
    (node op operands).reading = .ofNode op (operands.reverse.map reading) := by
  rw [reading, readings_eq]

theorem operands_succeed {op : Operator} {operands : List OperatorTree}
    (bare : op.isLeaf = true → operands = []) (h : (node op operands).reading.Succeeds) :
    op.isReadable = true ∧ ∀ operand ∈ operands, operand.reading.Succeeds := by
  rw [reading_node] at h
  obtain ⟨readable, leaf | below⟩ := Reading.readable_of_succeeds h
  · rw [bare leaf]
    exact ⟨readable, List.forall_mem_nil _⟩
  · exact ⟨readable, fun operand mem => below _ (List.mem_map_of_mem (List.mem_reverse.2 mem))⟩

theorem Bare.all_readable {tree : OperatorTree} (bare : tree.Bare) (h : tree.reading.Succeeds) :
    tree.All fun op => op.isReadable = true := by
  induction bare with
  | node bare _ _ ih =>
    obtain ⟨readable, below⟩ := operands_succeed bare h
    exact .node bare readable fun operand mem => ih operand mem (below operand mem)

theorem bare_of_ofItems {items : List Item} {tree : OperatorTree} (h : ofItems items = .ok tree) :
    tree.Bare := (all_ofItems trivial h).2 fun _ _ => trivial

end OperatorTree

theorem Item.readable_of_reading {items : List Item} {tree : OperatorTree}
    (h : OperatorTree.ofItems items = .ok tree) (read : tree.reading.Succeeds) (op : Operator)
    (mem : .operator op ∈ items) : op.isReadable = true :=
  (OperatorTree.all_ofItems (P := fun op => op.isReadable = true) rfl h).1
    ((OperatorTree.bare_of_ofItems h).all_readable read) op mem

end CellFormula.Parsing
