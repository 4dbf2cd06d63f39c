import CellFormula.Proofs.Parsing.Enclosure
/-! What an insertion does to a tree. It descends along the right edge to a place that is free
there, or stops at an operand and takes it for its own. -/
namespace CellFormula.Parsing

namespace Operator

theorem isUnary_of_not_admits {outer later : Operator} (h : outer.admits later = false) :
    later.isUnary = false := by
  unfold admits at h
  simp only [Bool.or_eq_false_iff] at h
  exact h.1.2

theorem arity?_of_infix {op : Operator} (notSequence : op.isSequence = false)
    (notLeaf : op.isLeaf = false) (notUnary : op.isUnary = false) (notRoot : op ≠ .root) :
    op.arity? = some 2 := by
  cases op <;> first | rfl | contradiction

private theorem root_admits_isUnary {later : Operator} (h : Operator.root.admits later = true) :
    later.isUnary = true := by
  cases later <;> first | rfl | cases h

theorem tuple_admits {later : Operator} (notSequence : later.isSequence = false) :
    Operator.tuple.admits later = true := by
  cases later <;> first | rfl | cases notSequence

private theorem ends_of_not_admits {outer later : Operator}
    (operand : later.isLeaf = true ∨ later = .root) (h : outer.admits later = false) :
    outer.isLeaf = true ∨ outer = .root := by
  have tight : later.precedence = 200 := by
    rcases operand with leaf | rfl
    · cases later <;> first | rfl | cases leaf
    · rfl
  unfold admits at h
  rw [tight] at h
  cases outer <;> first | exact .inl rfl | exact .inr rfl | simp [precedence] at h

private theorem arity?_of_isLeaf {op : Operator} (leaf : op.isLeaf = true) :
    op.arity? = some 0 := by
  cases op <;> first | rfl | cases leaf

private theorem isLeaf_of_arity? {op : Operator} (h : op.arity? = some 0) : op.isLeaf = true := by
  cases op <;> first | rfl | cases h

theorem arity?_pos {op : Operator} {most : Nat} (arity : op.arity? = some most)
    (notLeaf : op.isLeaf = false) : 0 < most := by
  apply Nat.pos_of_ne_zero
  rintro rfl
  exact absurd (isLeaf_of_arity? arity) ((Bool.not_eq_true _).mpr notLeaf)

theorem arity?_le {op : Operator} {most : Nat} (arity : op.arity? = some most) :
    most ≤ 2 := by
  cases op <;> cases arity <;> decide

private theorem eq_group_of_arity? {op : Operator} (h : op.arity? = some 1)
    (notUnary : op.isUnary = false) :
    op = .root := by
  cases op <;> first | rfl | simp [arity?, isUnary] at h notUnary

end Operator

namespace OperatorTree

/-- What is inserted while items are read: an operator without operands, or what a pair of
parentheses encloses. -/
structure IsPiece (tree : OperatorTree) : Prop where
  notSequence : tree.operator.isSequence = false
  bare_or_group : tree.operands = [] ∨ tree.operator = .root

theorem IsPiece.bare {op : Operator} (notSequence : op.isSequence = false) :
    (node op []).IsPiece := ⟨notSequence, .inl rfl⟩

theorem IsPiece.group {tree : OperatorTree} (h : tree.operator = .root) : tree.IsPiece where
  notSequence := by
    rw [h]
    rfl
  bare_or_group := .inr h

theorem IsPiece.operands_eq_nil {tree : OperatorTree} (h : tree.IsPiece)
    (empty : tree.operator = .root → tree.operands = []) : tree.operands = [] := by
  rcases h.bare_or_group with bare | group
  · exact bare
  · exact empty group

inductive Inserted (tree : OperatorTree) : OperatorTree → OperatorTree → Prop
  | first {outer : Operator} (notLeaf : outer.isLeaf = false) :
      Inserted tree (node outer []) (node outer [tree])
  | next {outer : Operator} {last : OperatorTree} {others : List OperatorTree}
      (free : outer.arity? ≠ some (others.length + 1)) :
      Inserted tree (node outer (last :: others)) (node outer (tree :: last :: others))
  | deeper {outer : Operator} {last inner : OperatorTree} {others : List OperatorTree}
      (full : outer.arity? = some (others.length + 1))
      (admits : last.operator.admits tree.operator = true) (inserted : Inserted tree last inner) :
      Inserted tree (node outer (last :: others)) (node outer (inner :: others))
  | around {outer : Operator} {last : OperatorTree} {others : List OperatorTree}
      (full : outer.arity? = some (others.length + 1))
      (stays : last.operator.admits tree.operator = false)
      (notLeaf : tree.operator.isLeaf = false)
      (empty : tree.operator = .root →
        outer ≠ .root ∧ last.operator ≠ .root ∧ tree.operands = []) :
      Inserted tree (node outer (last :: others)) (node outer (tree.push last :: others))

theorem inserted_of_displace {outer : Operator} {last tree after : OperatorTree}
    {others : List OperatorTree} (full : outer.arity? = some (others.length + 1))
    (stays : last.operator.admits tree.operator = false)
    (h : displace outer others last tree = .ok after) :
    Inserted tree (node outer (last :: others)) after := by
  unfold displace at h
  split at h
  · cases h
  · rename_i notLeaf
    split at h
    · cases h
    · rename_i inRoot
      split at h
      · cases h
      · rename_i asRoot
        cases h
        refine .around full stays ((Bool.not_eq_true _).mp notLeaf) ?_
        intro root
        have isRoot : tree.operator.isRoot = true := by
          rw [root]
          rfl
        simp only [isRoot, or_true, and_true, true_and, not_or, ne_eq, Classical.not_not] at inRoot asRoot
        refine ⟨?_, ?_, asRoot.1⟩
        · rintro rfl
          exact inRoot rfl
        · intro lastRoot
          rw [lastRoot] at asRoot
          exact asRoot.2 rfl

theorem inserted_of_insert {tree : OperatorTree} :
    ∀ {outer after : OperatorTree}, insert tree outer = .ok after → Inserted tree outer after
  | node outer [], after, h => by
    rw [insert] at h
    split at h
    · cases h
    · rename_i notLeaf
      cases h
      exact .first ((Bool.not_eq_true _).mp notLeaf)
  | node outer (last :: others), after, h => by
    rw [insert] at h
    split at h
    · rename_i free
      cases h
      exact .next free
    · rename_i full
      have full := Classical.not_not.mp full
      split at h
      · rename_i admits
        obtain ⟨inner, inserted, same⟩ := of_bind_ok h
        cases same
        exact .deeper full admits (inserted_of_insert inserted)
      · rename_i stays
        exact inserted_of_displace full ((Bool.not_eq_true _).mp stays) h

theorem Inserted.operator {tree outer after : OperatorTree} (h : Inserted tree outer after) :
    after.operator = outer.operator := by
  cases h <;> rfl

theorem Inserted.plain {tree outer after : OperatorTree}
    (h : Inserted tree outer after) (piece : tree.IsPiece)
    (plain : ∀ operand ∈ outer.operands, operand.operator.isSequence = false) :
    ∀ operand ∈ after.operands, operand.operator.isSequence = false := by
  cases h with
  | first _ => exact List.forall_mem_singleton.2 piece.notSequence
  | next _ => exact List.forall_mem_cons.2 ⟨piece.notSequence, plain⟩
  | deeper _ _ inserted =>
    obtain ⟨last, others⟩ := List.forall_mem_cons.1 plain
    exact List.forall_mem_cons.2 ⟨by rw [inserted.operator]; exact last, others⟩
  | around _ _ _ _ =>
    obtain ⟨-, others⟩ := List.forall_mem_cons.1 plain
    exact List.forall_mem_cons.2 ⟨by rw [operator_push]; exact piece.notSequence, others⟩

/-! Trees with room for their operands. -/

/-- Every operator has as many operands as it takes at most, and a listing is in parentheses. -/
inductive WellFormed : OperatorTree → Prop
  | node {op : Operator} {operands : List OperatorTree} {most : Nat}
      (arity : op.arity? = some most) (few : operands.length ≤ most)
      (below : ∀ operand ∈ operands, WellFormed operand) : WellFormed (node op operands)
  | listing {positions : List OperatorTree} (below : ∀ position ∈ positions, WellFormed position) :
      WellFormed (node .root [node .tuple positions])

theorem WellFormed.bare {op : Operator} (notSequence : op.isSequence = false) :
    (OperatorTree.node op []).WellFormed := by
  obtain ⟨most, arity⟩ : ∃ most, op.arity? = some most := by
    cases op <;> first | exact ⟨_, rfl⟩ | cases notSequence
  exact .node arity (Nat.zero_le _) (List.forall_mem_nil _)

theorem WellFormed.notSequence {tree : OperatorTree} (h : tree.WellFormed) :
    tree.operator.isSequence = false := by
  cases h with
  | @node op _ _ arity _ _ => cases op <;> first | rfl | cases arity
  | listing _ => rfl

theorem WellFormed.plain {tree : OperatorTree} (h : tree.WellFormed)
    (noGroup : tree.operator ≠ .root) :
    ∀ operand ∈ tree.operands, operand.operator.isSequence = false := by
  cases h with
  | node _ _ below => exact fun operand mem => (below operand mem).notSequence
  | listing _ => exact absurd rfl noGroup

theorem Inserted.wellFormed_tuple {tree after : OperatorTree} {positions : List OperatorTree}
    (h : Inserted tree (node .tuple positions) after) (wellFormed : tree.WellFormed)
    (below : ∀ position ∈ positions, position.WellFormed) :
    ∃ positions', after = node .tuple positions' ∧
      ∀ position ∈ positions', position.WellFormed := by
  cases h with
  | first _ => exact ⟨_, rfl, List.forall_mem_singleton.2 wellFormed⟩
  | next _ => exact ⟨_, rfl, List.forall_mem_cons.2 ⟨wellFormed, below⟩⟩
  | deeper full _ _ => cases full
  | around full _ _ _ => cases full

theorem Inserted.wellFormed {tree outer after : OperatorTree} (h : Inserted tree outer after)
    (piece : tree.IsPiece) (wellFormed : tree.WellFormed) (outerFormed : outer.WellFormed) :
    after.WellFormed := by
  induction h with
  | first notLeaf =>
    cases outerFormed with
    | node arity _ _ =>
      exact .node arity (Operator.arity?_pos arity notLeaf) (List.forall_mem_singleton.2 wellFormed)
  | @next outer last others free =>
    cases outerFormed with
    | @node _ _ most arity few below =>
      have room : (tree :: last :: others).length ≤ most := by
        rw [arity] at free
        have other : most ≠ others.length + 1 := fun same => free (congrArg some same)
        simp only [List.length_cons] at few ⊢
        omega
      exact .node arity room (List.forall_mem_cons.2 ⟨wellFormed, below⟩)
    | listing below => exact absurd rfl free
  | deeper full _ inserted ih =>
    cases outerFormed with
    | node arity few below =>
      obtain ⟨last, others⟩ := List.forall_mem_cons.1 below
      exact .node arity few (List.forall_mem_cons.2 ⟨ih last, others⟩)
    | listing below =>
      obtain ⟨positions, rfl, below⟩ := inserted.wellFormed_tuple wellFormed below
      exact .listing below
  | @around outer last others full stays notLeaf empty =>
    cases outerFormed with
    | node arity few below =>
      obtain ⟨lastFormed, others⟩ := List.forall_mem_cons.1 below
      have inner : (tree.push last).WellFormed := by
        obtain ⟨op, operands⟩ := tree
        obtain rfl : operands = [] := piece.operands_eq_nil fun group => (empty group).2.2
        cases wellFormed with
        | node arity _ _ =>
          exact .node arity (Operator.arity?_pos arity notLeaf)
            (List.forall_mem_singleton.2 lastFormed)
      exact .node arity few (List.forall_mem_cons.2 ⟨inner, others⟩)
    | listing _ =>
      exact absurd (Operator.tuple_admits piece.notSequence) ((Bool.not_eq_true _).mpr stays)

/-! Right edges that end at closed parentheses. -/

/-- All operators on the right edge have their operands, and it leads to parentheses. Only what
stands in front of its operand can be inserted, and it waits for that operand in vain. -/
inductive Sealed : OperatorTree → Prop
  | here {outer : Operator} {last : OperatorTree} {others : List OperatorTree}
      (full : outer.arity? = some (others.length + 1)) (group : last.operator = .root) :
      Sealed (node outer (last :: others))
  | deeper {outer : Operator} {last : OperatorTree} {others : List OperatorTree}
      (full : outer.arity? = some (others.length + 1)) (inner : Sealed last) :
      Sealed (node outer (last :: others))

theorem Sealed.not_leaf {tree : OperatorTree} (h : tree.Sealed) : tree.operator.isLeaf = false := by
  cases leaf : tree.operator.isLeaf with
  | false => rfl
  | true =>
    have none := Operator.arity?_of_isLeaf leaf
    cases h with
    | here full _ => cases full.symm.trans none
    | deeper full _ => cases full.symm.trans none

theorem Sealed.refuses {tree outer after : OperatorTree} (sealed : outer.Sealed)
    (operand : tree.operator.isLeaf = true ∨ tree.operator = .root) :
    ¬ Inserted tree outer after := by
  have notUnary : tree.operator.isUnary = false := by
    rcases operand with leaf | root
    · cases op : tree.operator <;> rw [op] at leaf <;> first | rfl | cases leaf
    · rw [root]
      rfl
  intro inserted
  induction inserted with
  | first _ => cases sealed
  | next free =>
    cases sealed with
    | here full _ => exact free full
    | deeper full _ => exact free full
  | deeper _ admits _ ih =>
    cases sealed with
    | here _ group =>
      rw [group] at admits
      cases notUnary.symm.trans (Operator.root_admits_isUnary admits)
    | deeper _ last => exact ih last
  | around _ stays notLeaf empty =>
    have group : tree.operator = .root := operand.resolve_left ((Bool.not_eq_true _).mpr notLeaf)
    obtain ⟨-, lastNoGroup, -⟩ := empty group
    cases sealed with
    | here _ group => exact lastNoGroup group
    | deeper _ last =>
      rcases Operator.ends_of_not_admits operand stays with leaf | root
      · cases last.not_leaf.symm.trans leaf
      · exact lastNoGroup root

theorem Inserted.keeps_sealed {tree outer after : OperatorTree} (h : Inserted tree outer after)
    (unary : tree.operator.isUnary = true) (sealed : outer.Sealed) : after.Sealed := by
  induction h with
  | first _ => cases sealed
  | next free =>
    cases sealed with
    | here full _ => exact absurd full free
    | deeper full _ => exact absurd full free
  | deeper full _ inserted ih =>
    cases sealed with
    | here _ group => exact .here full (inserted.operator.trans group)
    | deeper _ last => exact .deeper full (ih last)
  | around _ stays _ _ => cases (Operator.isUnary_of_not_admits stays).symm.trans unary

theorem Inserted.not_sealed {op : Operator} {outer after : OperatorTree}
    (h : Inserted (node op []) outer after) (noGroup : op ≠ .root)
    (free : op.isUnary = true → ¬ outer.Sealed) : ¬ after.Sealed := by
  intro sealed
  induction h with
  | first _ =>
    cases sealed with
    | here _ group => exact noGroup group
    | deeper _ last => cases last
  | next _ =>
    cases sealed with
    | here _ group => exact noGroup group
    | deeper _ last => cases last
  | deeper full admits inserted ih =>
    cases sealed with
    | here _ group =>
      have lastGroup := inserted.operator.symm.trans group
      rw [lastGroup] at admits
      exact free (Operator.root_admits_isUnary admits) (.here full lastGroup)
    | deeper _ last => exact ih (fun unary last => free unary (.deeper full last)) last
  | around full stays _ _ =>
    cases sealed with
    | here _ group => exact noGroup group
    | deeper _ last =>
      have notUnary := Operator.isUnary_of_not_admits stays
      cases last with
      | here full _ => exact noGroup (Operator.eq_group_of_arity? full notUnary)
      | deeper full _ => exact noGroup (Operator.eq_group_of_arity? full notUnary)

end OperatorTree
end CellFormula.Parsing
