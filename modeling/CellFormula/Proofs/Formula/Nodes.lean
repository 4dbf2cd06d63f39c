import CellFormula.Term
/-! The nodes of a tree in the order in which an evaluation leaves them. -/
namespace CellFormula.Term

mutual

/-- Every node of the tree, behind its operands, which stand from left to right. -/
def nodes : Term → List Term
  | .num value => [.num value]
  | .var name => [.var name]
  | .neg operand => operand.nodes ++ [.neg operand]
  | .binary op left right => left.nodes ++ right.nodes ++ [.binary op left right]
  | .call name args => argumentNodes args ++ [.call name args]

def argumentNodes : List Term → List Term
  | [] => []
  | arg :: rest => arg.nodes ++ argumentNodes rest

end

@[simp] theorem argumentNodes_eq (args : List Term) : argumentNodes args = args.flatMap nodes := by
  induction args with
  | nil => simp [argumentNodes]
  | cons arg rest ih => simp [argumentNodes, ih]

theorem mem_nodes_self (term : Term) : term ∈ term.nodes := by
  cases term with
  | num | var | neg | binary | call => simp [nodes]

@[simp] theorem var_mem_nodes {term : Term} {name : String} :
    var name ∈ term.nodes ↔ name ∈ term.occurrences := by
  induction term with
  | num value => simp [nodes, occurrences]
  | var other => simp [nodes, occurrences]
  | neg operand ih => simp [nodes, occurrences, ih]
  | binary op left right ihl ihr => simp [nodes, occurrences, ihl, ihr]
  | call function args ih =>
    simpa [nodes, occurrences] using
      exists_congr fun arg => and_congr_right fun mem => ih arg mem

@[simp] theorem forall_mem_nodes_call {good : Term → Prop} {function : String} {args : List Term} :
    (∀ node ∈ (call function args).nodes, good node) ↔
      (∀ arg ∈ args, ∀ node ∈ arg.nodes, good node) ∧ good (call function args) := by
  rw [nodes, argumentNodes_eq, List.forall_mem_append, List.forall_mem_singleton,
    List.forall_mem_flatMap]

theorem nodes_subset_call {function : String} {args : List Term} {arg : Term} (mem : arg ∈ args) :
    arg.nodes ⊆ (call function args).nodes := by
  intro node inside
  simpa [nodes] using .inl ⟨arg, mem, inside⟩

end CellFormula.Term
