import Mathlib.Tactic.Tauto
import CellFormula.Proofs.Parsing.Enclosure
/-! The operators of the tree that items build: those of the items, and what parentheses and
sequences add to them. None is lost on the way, and nothing is put below a constant or a reference.
-/
namespace CellFormula.Parsing

namespace Operator

private theorem isLeaf_of_isSequence {op : Operator} (h : op.isSequence = true) :
    op.isLeaf = false := by
  cases op <;> first | rfl | cases h

private theorem eq_of_isSameSequence {op sequence : Operator}
    (h : op.isSameSequence sequence = true) :
    op = sequence := by
  cases op <;> cases sequence <;> first | rfl | cases h

private theorem isLeaf_of_isRoot {op : Operator} (h : op.isRoot = true) : op.isLeaf = false := by
  cases op <;> first | rfl | cases h

end Operator

namespace OperatorTree

inductive All (P : Operator → Prop) : OperatorTree → Prop
  | node {op : Operator} {operands : List OperatorTree} (bare : op.isLeaf = true → operands = [])
      (here : P op) (below : ∀ operand ∈ operands, All P operand) : All P (node op operands)

variable {P : Operator → Prop}

@[simp] theorem all_node {op : Operator} {operands : List OperatorTree} :
    All P (node op operands) ↔
      (op.isLeaf = true → operands = []) ∧ P op ∧ ∀ operand ∈ operands, All P operand := by
  constructor
  · intro h
    cases h with
    | node bare here below => exact ⟨bare, here, below⟩
  · exact fun h => .node h.1 h.2.1 h.2.2

private theorem all_leaf {op : Operator} : All P (node op []) ↔ P op := by
  simp [all_node]

theorem All.operator {tree : OperatorTree} (h : All P tree) : P tree.operator := by
  obtain ⟨-, here, -⟩ := h
  exact here

private theorem all_push {tree : OperatorTree} (inner : tree.operator.isLeaf = false)
    (operand : OperatorTree) : All P (tree.push operand) ↔ All P tree ∧ All P operand := by
  obtain ⟨op, operands⟩ := tree
  have noLeaf : ¬ op.isLeaf = true := (Bool.not_eq_true _).mpr inner
  simp only [push, all_node, List.forall_mem_cons, noLeaf]
  tauto

private theorem all_displace {outer : Operator} {others : List OperatorTree}
    {last tree after : OperatorTree} (h : displace outer others last tree = .ok after) :
    All P after ↔ All P (node outer (last :: others)) ∧ All P tree := by
  unfold displace at h
  split at h
  · cases h
  · rename_i inner
    split at h
    · cases h
    · split at h
      · cases h
      · cases h
        simp only [all_node, List.forall_mem_cons, List.cons_ne_nil,
          all_push ((Bool.not_eq_true _).mp inner)]
        tauto

theorem all_insert {tree : OperatorTree} :
    ∀ {outer after : OperatorTree}, insert tree outer = .ok after →
      (All P after ↔ All P outer ∧ All P tree)
  | node outer [], after, h => by
    rw [insert] at h
    split at h
    · cases h
    · rename_i inner
      cases h
      simp only [all_node, List.forall_mem_singleton, inner]
      tauto
  | node outer (last :: others), after, h => by
    rw [insert] at h
    split at h
    · cases h
      simp only [all_node, List.forall_mem_cons, List.cons_ne_nil]
      tauto
    · split at h
      · obtain ⟨inner, inserted, same⟩ := of_bind_ok h
        cases same
        simp only [all_node, List.forall_mem_cons, List.cons_ne_nil, all_insert inserted]
        tauto
      · exact all_displace h

private theorem all_insertLast {tree outer after : OperatorTree}
    (h : insertLast tree outer = .ok after)
    (inner : outer.operator.isLeaf = false) : All P after ↔ All P outer ∧ All P tree := by
  obtain ⟨op, operands⟩ := outer
  cases operands with
  | nil =>
    cases h
    exact all_push inner tree
  | cons last others =>
    obtain ⟨extended, inserted, same⟩ := of_bind_ok h
    cases same
    simp only [all_node, List.forall_mem_cons, List.cons_ne_nil, all_insert inserted]
    tauto

end OperatorTree

namespace Stack
open OperatorTree

def Grounded (stack : Stack) : Prop := ∀ tree ∈ stack, tree.operator.isLeaf = false

def All (P : Operator → Prop) (stack : Stack) : Prop := ∀ tree ∈ stack, tree.All P

variable {P : Operator → Prop}

@[simp] private theorem grounded_cons {tree : OperatorTree} {below : Stack} :
    Grounded (tree :: below) ↔ tree.operator.isLeaf = false ∧ Grounded below :=
  List.forall_mem_cons

@[simp] private theorem all_cons {tree : OperatorTree} {below : Stack} :
    All P (tree :: below) ↔ tree.All P ∧ All P below := List.forall_mem_cons

theorem all_foldInto {sequence : Operator} (isSequence : sequence.isSequence = true)
    {tree : OperatorTree} {stack after : Stack} (h : foldInto sequence tree stack = .ok after)
    (grounded : Grounded stack) :
    Grounded after ∧ (All P after ↔ P sequence ∧ tree.All P ∧ All P stack) := by
  induction stack generalizing tree with
  | nil => cases h
  | cons next rest ih =>
    obtain ⟨inner, restGrounded⟩ := grounded_cons.1 grounded
    rw [foldInto] at h
    split at h
    · obtain ⟨afterGrounded, all⟩ := ih h restGrounded
      refine ⟨afterGrounded, ?_⟩
      rw [all, all_push inner, all_cons]
      tauto
    · cases h
      have inner' : (node sequence []).operator.isLeaf = false :=
        Operator.isLeaf_of_isSequence isSequence
      have opened : (node sequence [tree]).All P ↔ P sequence ∧ tree.All P :=
        (all_push inner' tree).trans (and_congr_left fun _ => all_leaf)
      refine ⟨grounded_cons.2 ⟨inner', grounded⟩, ?_⟩
      rw [all_cons, opened, and_assoc]

theorem all_close {tree : OperatorTree} {stack after : Stack} (h : close tree stack = .ok after)
    (grounded : Grounded stack) :
    Grounded after ∧ (All P after ↔ tree.All P ∧ All P stack) := by
  induction stack generalizing tree with
  | nil =>
    rw [close] at h
    split at h
    · rename_i isRoot
      rw [(of_settle h).2]
      exact ⟨grounded_cons.2 ⟨Operator.isLeaf_of_isRoot isRoot, grounded⟩, all_cons⟩
    · cases h
  | cons next rest ih =>
    obtain ⟨inner, restGrounded⟩ := grounded_cons.1 grounded
    rw [close] at h
    split at h
    · rename_i isRoot
      rw [(of_settle h).2]
      exact ⟨grounded_cons.2 ⟨Operator.isLeaf_of_isRoot isRoot, grounded⟩, all_cons⟩
    · obtain ⟨afterGrounded, all⟩ := ih h restGrounded
      refine ⟨afterGrounded, ?_⟩
      rw [all, all_push inner, all_cons]
      tauto

private theorem root_of_close {tree : OperatorTree} {stack after : Stack}
    (h : close tree stack = .ok after) :
    ∃ root below, after = root :: below ∧ root.operator = .root ∧ root.operands.length ≤ 1 := by
  induction stack generalizing tree with
  | nil =>
    rw [close] at h
    split at h
    · rename_i isRoot
      obtain ⟨few, same⟩ := of_settle h
      exact ⟨tree, [], same, Operator.eq_root isRoot, few⟩
    · cases h
  | cons next rest ih =>
    rw [close] at h
    split at h
    · rename_i isRoot
      obtain ⟨few, same⟩ := of_settle h
      exact ⟨tree, next :: rest, same, Operator.eq_root isRoot, few⟩
    · exact ih h

theorem root_of_collapse {stack after : Stack} (h : collapse stack = .ok after) :
    ∃ root below, after = root :: below ∧ root.operator = .root ∧ root.operands.length ≤ 1 := by
  cases stack with
  | nil => cases h
  | cons top below => exact root_of_close h

theorem all_collapse {stack after : Stack} (h : collapse stack = .ok after)
    (grounded : Grounded stack) : Grounded after ∧ (All P after ↔ All P stack) := by
  cases stack with
  | nil => cases h
  | cons top below =>
    obtain ⟨afterGrounded, all⟩ := all_close (P := P) h (grounded_cons.1 grounded).2
    exact ⟨afterGrounded, all.trans all_cons.symm⟩

theorem all_place {tree : OperatorTree} (notSequence : tree.operator.isSequence = false)
    {stack after : Stack} (h : place tree stack = .ok after) (grounded : Grounded stack) :
    Grounded after ∧ (All P after ↔ All P stack ∧ tree.All P) := by
  cases stack with
  | nil => cases h
  | cons top below =>
    obtain ⟨inner, belowGrounded⟩ := grounded_cons.1 grounded
    simp only [place, notSequence, Bool.false_eq_true, if_false] at h
    split at h
    · obtain ⟨extended, inserted, same⟩ := of_bind_ok h
      cases same
      rw [grounded_cons, operator_insertLast inserted]
      refine ⟨⟨inner, belowGrounded⟩, ?_⟩
      rw [all_cons, all_cons, all_insertLast inserted inner]
      tauto
    · obtain ⟨extended, inserted, same⟩ := of_bind_ok h
      cases same
      rw [grounded_cons, operator_insert inserted]
      refine ⟨⟨inner, belowGrounded⟩, ?_⟩
      rw [all_cons, all_cons, all_insert inserted]
      tauto

section Root
variable (root : P .root)
include root

theorem all_started {sequence : Operator} (isSequence : sequence.isSequence = true)
    (tree : OperatorTree) : (node sequence [emptyRoot, tree]).All P ↔ P sequence ∧ tree.All P := by
  have noLeaf : ¬ sequence.isLeaf = true :=
    (Bool.not_eq_true _).mpr (Operator.isLeaf_of_isSequence isSequence)
  have empty : emptyRoot.All P := all_leaf.2 root
  rw [all_node, List.forall_mem_cons, List.forall_mem_singleton]
  tauto

theorem all_separate {sequence : Operator} (isSequence : sequence.isSequence = true)
    {top : OperatorTree} {below after : Stack} (h : separate sequence top below = .ok after)
    (grounded : Grounded (top :: below)) :
    Grounded after ∧ (All P after ↔ All P (top :: below) ∧ P sequence) := by
  have empty : emptyRoot.All P := all_leaf.2 root
  have inner := Operator.isLeaf_of_isSequence isSequence
  obtain ⟨topInner, belowGrounded⟩ := grounded_cons.1 grounded
  have folded (h : foldInto sequence top below = .ok after) :
      Grounded after ∧ (All P after ↔ All P (top :: below) ∧ P sequence) := by
    obtain ⟨afterGrounded, all⟩ := all_foldInto (P := P) isSequence h belowGrounded
    refine ⟨afterGrounded, ?_⟩
    rw [all, all_cons]
    tauto
  unfold separate at h
  split at h
  · rename_i same
    cases h
    have continued : top.All P → P sequence := by
      rw [← Operator.eq_of_isSameSequence same]
      exact All.operator
    rw [grounded_cons, operator_push]
    refine ⟨⟨topInner, belowGrounded⟩, ?_⟩
    rw [all_cons, all_cons, all_push topInner]
    tauto
  · split at h
    · cases h
      refine ⟨grounded_cons.2 ⟨inner, grounded_cons.2 ⟨rfl, belowGrounded⟩⟩, ?_⟩
      rw [all_cons, all_cons, all_cons, all_started root isSequence]
      tauto
    · split at h
      · rename_i outer last others _ _
        split at h
        · cases h
          refine ⟨grounded_cons.2 ⟨inner, grounded_cons.2 ⟨topInner, belowGrounded⟩⟩, ?_⟩
          have others' : (node outer others).operator.isLeaf = false := topInner
          have opened : (node outer (last :: others)).All P ↔ (node outer others).All P ∧ last.All P :=
            all_push others' last
          rw [all_cons, all_cons, all_cons, all_started root isSequence, opened]
          tauto
        · exact folded h
      · exact folded h

theorem all_step {stack after : Stack} {item : Item} (h : step stack item = .ok after)
    (grounded : Grounded stack) :
    Grounded after ∧ (All P after ↔ All P stack ∧ ∀ op, item = .operator op → P op) := by
  cases item with
  | opening =>
    cases h
    refine ⟨grounded_cons.2 ⟨rfl, grounded⟩, ?_⟩
    have empty : emptyRoot.All P := all_leaf.2 root
    simp [all_cons, empty]
  | operator op =>
    simp only [Item.operator.injEq, forall_eq']
    cases isSequence : op.isSequence with
    | false =>
      have notSequence : (node op []).operator.isSequence = false := isSequence
      have placed := all_place (P := P) notSequence h grounded
      rwa [all_leaf] at placed
    | true =>
      cases stack with
      | nil => cases h
      | cons top below =>
        have separates : separate op top below = .ok after := by
          simpa only [step, place, operator, isSequence, if_true] using h
        exact all_separate root isSequence separates grounded
  | closing =>
    rw [step] at h
    split at h
    · cases h
    · obtain ⟨closed, collapses, placed⟩ := of_bind_ok h
      obtain ⟨closedGrounded, all⟩ := all_collapse (P := P) collapses grounded
      obtain ⟨tree, below, rfl, isRoot, -⟩ := root_of_collapse collapses
      have notSequence : tree.operator.isSequence = false := by
        rw [isRoot]
        rfl
      obtain ⟨afterGrounded, all'⟩ :=
        all_place (P := P) notSequence placed (grounded_cons.1 closedGrounded).2
      refine ⟨afterGrounded, ?_⟩
      rw [all', ← all, all_cons]
      simp [and_comm]

theorem all_run {items : List Item} {stack after : Stack}
    (h : items.foldlM step stack = .ok after) (grounded : Grounded stack) :
    Grounded after ∧ (All P after ↔ All P stack ∧ ∀ op, .operator op ∈ items → P op) := by
  induction items generalizing stack with
  | nil =>
    cases h
    simp [grounded]
  | cons item items ih =>
    rw [List.foldlM_cons] at h
    obtain ⟨next, stepped, rest⟩ := of_bind_ok h
    obtain ⟨nextGrounded, here⟩ := all_step root stepped grounded
    obtain ⟨afterGrounded, behind⟩ := ih rest nextGrounded
    refine ⟨afterGrounded, ?_⟩
    rw [behind, here, and_assoc]
    simp only [List.mem_cons, or_imp, forall_and, eq_comm]

end Root
end Stack

/-- What holds of all operators of the items holds of all operators of their tree. -/
theorem OperatorTree.all_ofItems {P : Operator → Prop} (root : P .root) {items : List Item}
    {tree : OperatorTree} (h : ofItems items = .ok tree) :
    tree.All P ↔ ∀ op, .operator op ∈ items → P op := by
  obtain ⟨after, run, h⟩ := of_bind_ok h
  obtain ⟨stack, collapses, h⟩ := of_bind_ok h
  have grounded : Stack.Grounded [emptyRoot] := List.forall_mem_singleton.2 rfl
  obtain ⟨afterGrounded, all⟩ := Stack.all_run root run grounded
  obtain ⟨-, all'⟩ := Stack.all_collapse (P := P) collapses afterGrounded
  match stack, h with
  | [single], h =>
    cases h
    have start : Stack.All P [emptyRoot] := List.forall_mem_singleton.2 (all_leaf.2 root)
    have single : Stack.All P [tree] ↔ tree.All P := List.forall_mem_singleton
    rw [← single, all', all]
    exact and_iff_right start

end CellFormula.Parsing
