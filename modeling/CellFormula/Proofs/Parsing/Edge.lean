import CellFormula.Proofs.Parsing.Chain
import CellFormula.Proofs.Parsing.Enclosure
/-! The right edge of an operator tree. A tree that waits for an operand has a hole at the end of
it. The hole that an operator leaves in the tree of an expression is the one that the extended
expression fills. -/
namespace CellFormula.Parsing
open OperatorTree

structure Branch where
  operator : Operator
  others : List OperatorTree

namespace Branch

def node (branch : Branch) : OperatorTree := .node branch.operator branch.others

def Fits (branch : Branch) : Prop :=
  branch.operator.arity? = some (branch.others.length + 1)

end Branch

def plug (path : List Branch) (tree : OperatorTree) : OperatorTree :=
  path.foldr (fun branch inner => .node branch.operator (inner :: branch.others)) tree

@[simp] private theorem plug_append (path rest : List Branch) (tree : OperatorTree) :
    plug (path ++ rest) tree = plug path (plug rest tree) := by
  simp [plug, List.foldr_append]

def Operator.IsOperand (op : Operator) : Prop := op.precedence = 200 ∨ op.isUnary = true

theorem Operator.IsOperand.not_sequence {op : Operator} (h : op.IsOperand) :
    op.isSequence = false := by
  unfold IsOperand at h
  cases op with
  | tuple => simp [precedence, isUnary] at h
  | chain => simp [precedence, isUnary] at h
  | _ => rfl

theorem Operator.IsOperand.admitted {outer op : Operator} (h : op.IsOperand)
    (loose : outer.precedence < 200) : outer.admits op = true := by
  unfold admits
  rcases h with tight | unary
  · rw [tight]
    simp [loose]
  · simp [unary]

private theorem insert_full {tree : OperatorTree} {outer : Operator} {last : OperatorTree}
    {others : List OperatorTree} (full : outer.arity? = some (others.length + 1)) :
    insert tree (node outer (last :: others)) =
      if last.operator.admits tree.operator then
        (fun inner => node outer (inner :: others)) <$> insert tree last
      else displace outer others last tree := by
  rw [OperatorTree.insert, if_neg (not_not_intro full)]
  rfl

private theorem insert_branch {branch : Branch} (fits : branch.Fits) (tree : OperatorTree) :
    insert tree branch.node = .ok (node branch.operator (tree :: branch.others)) := by
  obtain ⟨op, others⟩ := branch
  unfold Branch.Fits at fits
  dsimp only at fits
  cases others with
  | nil =>
    have noLeaf : ¬ op.isLeaf = true := by
      intro leaf
      cases op with
      | constant value => cases fits
      | reference name => cases fits
      | _ => cases leaf
    rw [Branch.node, OperatorTree.insert, if_neg noLeaf]
  | cons last others =>
    have short : op.arity? ≠ some (others.length + 1) := by
      rw [fits]
      simp
    rw [Branch.node, OperatorTree.insert, if_pos short]

/-- What goes to the end of the right edge passes everything on it but the root. -/
theorem insert_plug {tree : OperatorTree} (operand : tree.operator.IsOperand) {edge : Branch}
    {path : List Branch} (fits : ∀ branch ∈ path ++ [edge], branch.Fits)
    (loose : ∀ branch ∈ (path ++ [edge]).tail, branch.operator.precedence < 200) :
    insert tree (plug path edge.node) = .ok (plug (path ++ [edge]) tree) := by
  induction path with
  | nil => exact insert_branch (fits edge List.mem_cons_self) tree
  | cons branch path ih =>
    have inner : insert tree (plug path edge.node) = .ok (plug (path ++ [edge]) tree) := by
      apply ih
      · intro other mem
        exact fits other (List.mem_cons_of_mem _ mem)
      · intro other mem
        exact loose other (List.mem_of_mem_tail mem)
    have admitted : (plug path edge.node).operator.admits tree.operator = true := by
      cases path with
      | nil => exact operand.admitted (loose edge List.mem_cons_self)
      | cons next path => exact operand.admitted (loose next List.mem_cons_self)
    have full := fits branch List.mem_cons_self
    change insert tree (node branch.operator (plug path edge.node :: branch.others)) = _
    rw [insert_full full, if_pos admitted, inner]
    rfl

/-- The place that waits for an operand in a tree with a root. -/
structure Hole where
  path : List Branch
  edge : Branch
  fits : ∀ branch ∈ path ++ [edge], branch.Fits
  loose : ∀ branch ∈ (path ++ [edge]).tail, branch.operator.precedence < 200
  rooted : (path ++ [edge]).head?.map Branch.operator = some .root

namespace Hole

def tree (hole : Hole) : OperatorTree := plug hole.path hole.edge.node

def fill (hole : Hole) (operand : OperatorTree) : OperatorTree :=
  plug (hole.path ++ [hole.edge]) operand

@[simp] theorem operator_tree (hole : Hole) : hole.tree.operator = .root := by
  have rooted := hole.rooted
  unfold tree
  cases path : hole.path with
  | nil =>
    rw [path] at rooted
    exact Option.some.inj rooted
  | cons branch rest =>
    rw [path] at rooted
    exact Option.some.inj rooted

def start : Hole where
  path := []
  edge := ⟨.root, []⟩
  fits := by
    intro branch mem
    cases List.mem_singleton.1 mem
    rfl
  loose := by simp
  rooted := rfl

def under (hole : Hole) (op : Operator) (unary : op.isUnary = true) : Hole where
  path := hole.path ++ [hole.edge]
  edge := ⟨op, []⟩
  fits := by
    intro branch mem
    rcases List.mem_append.1 mem with mem | mem
    · exact hole.fits branch mem
    · cases List.mem_singleton.1 mem
      cases op with
      | function name => rfl
      | neg => rfl
      | not => rfl
      | _ => cases unary
  loose := by
    intro branch mem
    rw [List.tail_append_of_ne_nil (by simp)] at mem
    rcases List.mem_append.1 mem with mem | mem
    · exact hole.loose branch mem
    · cases List.mem_singleton.1 mem
      cases op with
      | function name => simp [Operator.precedence]
      | neg => decide
      | not => decide
      | _ => cases unary
  rooted := by
    have rooted := hole.rooted
    revert rooted
    cases hole.path with
    | nil => exact id
    | cons branch rest => exact id

@[simp] theorem tree_under (hole : Hole) (op : Operator) (unary : op.isUnary = true) :
    (hole.under op unary).tree = hole.fill (node op []) := rfl

@[simp] theorem fill_under (hole : Hole) (op : Operator) (unary : op.isUnary = true)
    (operand : OperatorTree) :
    (hole.under op unary).fill operand = hole.fill (node op [operand]) := by
  unfold fill under
  rw [plug_append]
  rfl

theorem place (hole : Hole) {operand : OperatorTree} (h : operand.operator.IsOperand) :
    Stack.place operand [hole.tree] = .ok [hole.fill operand] := by
  have noSequence : hole.tree.operator.isSequence = false := by
    rw [hole.operator_tree]
    rfl
  have inserted : insert operand hole.tree = .ok (hole.fill operand) :=
    insert_plug h hole.fits hole.loose
  simp only [Stack.place, h.not_sequence, noSequence, inserted, Bool.false_eq_true, if_false]
  rfl

end Hole

@[simp] private theorem Reading.operandOf_operator (op : Operation) (readings : List Reading) :
    operandOf op.operator readings = binaryOf op readings := by
  cases op <;> rfl

private theorem Reading.binaryOf_pair {op : Operation} {first second : Reading} {left right : Term}
    (readFirst : first.operand = .ok left) (readSecond : second.operand = .ok right) :
    binaryOf op [first, second] = .ok (.binary op left right) := by
  rw [binaryOf, List.isEmpty_nil, Bool.or_true, if_pos rfl, readFirst]
  change foldOperands op left [second] = _
  rw [foldOperands, readSecond]
  rfl

namespace Expression
variable {α : Type}

def tree (leaf : α → OperatorTree) : Expression α → OperatorTree
  | atom a => leaf a
  | neg operand => .node .neg [operand.tree leaf]
  | binary op left right => .node op.operator [right.tree leaf, left.tree leaf]

def term (leaf : α → Term) : Expression α → Term
  | atom a => leaf a
  | neg operand => .neg (operand.term leaf)
  | binary op left right => .binary op (left.term leaf) (right.term leaf)

theorem reading_tree {leaf : α → OperatorTree} {term : α → Term}
    (leaves : ∀ a, (leaf a).reading.operand = .ok (term a)) (e : Expression α) :
    (e.tree leaf).reading.operand = .ok (e.term term) := by
  induction e with
  | atom a => exact leaves a
  | neg operand ih =>
    change Reading.operandOf .neg [(operand.tree leaf).reading] = _
    rw [Reading.operandOf, ih]
    rfl
  | binary op left right ihLeft ihRight =>
    change Reading.operandOf op.operator [(left.tree leaf).reading, (right.tree leaf).reading] = _
    rw [Reading.operandOf_operator, Reading.binaryOf_pair ihLeft ihRight]
    rfl

variable {leaf : α → OperatorTree}

def Closed (leaf : α → OperatorTree) : Prop :=
  ∀ a, ∀ op : Operation, (leaf a).operator.admits op.operator = false

private theorem admits_tree (closed : Closed leaf) (e : Expression α) (op : Operation) :
    (e.tree leaf).operator.admits op.operator = e.admits op := by
  cases e with
  | atom a => exact closed a op
  | neg operand => rfl
  | binary outer left right => rfl

private theorem displace_operation {op : Operation} {outer : Operator} {last : OperatorTree}
    {others : List OperatorTree} (full : outer.arity? = some (others.length + 1)) :
    displace outer others last (.node op.operator []) =
      .ok (.node outer (.node op.operator [last] :: others)) := by
  have noLeaf : ¬ (OperatorTree.node op.operator []).operator.isLeaf = true := by
    cases op <;> decide
  have noRoot : ¬ (OperatorTree.node op.operator []).operator.isRoot = true := by
    cases op <;> decide
  rw [displace, if_neg noLeaf, if_neg, if_neg]
  · rfl
  · intro both
    exact noRoot both.1
  · rintro ⟨root, many | inner⟩
    · have isRoot : outer = .root := Operator.eq_root root
      rw [isRoot] at full
      exact many (List.eq_nil_of_length_eq_zero (Nat.succ.inj (Option.some.inj full)).symm)
    · exact noRoot inner

/-- The part of the right edge below which an operator goes in the tree of an expression, and the
operator itself with its left operand at the end of it. -/
structure Opens (leaf : α → OperatorTree) (op : Operation) (e : Expression α)
    (path : List Branch) (edge : Branch) : Prop where
  fits : ∀ branch ∈ path ++ [edge], branch.Fits
  loose : ∀ branch ∈ path ++ [edge], branch.operator.precedence < 200
  inserts : ∀ outer others, outer.arity? = some (others.length + 1) →
    OperatorTree.insert (.node op.operator []) (.node outer (e.tree leaf :: others)) =
      .ok (.node outer (plug path edge.node :: others))
  fills : ∀ right : Expression α,
    plug (path ++ [edge]) (right.tree leaf) = (e.extend op right).tree leaf

theorem opens_here (closed : Closed leaf) {op : Operation} {e : Expression α}
    (h : e.admits op = false) : Opens leaf op e [] ⟨op.operator, [e.tree leaf]⟩ where
  fits := by
    intro branch mem
    cases List.mem_singleton.1 mem
    cases op <;> rfl
  loose := by
    intro branch mem
    cases List.mem_singleton.1 mem
    exact op.rank_lt
  inserts := by
    intro outer others full
    have stays : ¬ (e.tree leaf).operator.admits (node op.operator []).operator = true := by
      have same := admits_tree closed e op
      rw [h] at same
      exact (Bool.not_eq_true _).mpr same
    rw [insert_full full, if_neg stays]
    exact displace_operation full
  fills := by
    intro right
    rw [extend_of_not_admits h]
    rfl

theorem Opens.below {op : Operation} {e inner : Expression α} {path : List Branch} {edge : Branch}
    (h : Opens leaf op inner path edge) {branch : Branch} (fits : branch.Fits)
    (loose : branch.operator.precedence < 200)
    (admits : branch.operator.admits op.operator = true)
    (tree : e.tree leaf = .node branch.operator (inner.tree leaf :: branch.others))
    (extended : ∀ right : Expression α, (e.extend op right).tree leaf =
      .node branch.operator ((inner.extend op right).tree leaf :: branch.others)) :
    Opens leaf op e (branch :: path) edge where
  fits := by
    intro other mem
    rcases List.mem_cons.1 mem with rfl | mem
    · exact fits
    · exact h.fits other mem
  loose := by
    intro other mem
    rcases List.mem_cons.1 mem with rfl | mem
    · exact loose
    · exact h.loose other mem
  inserts := by
    intro outer others full
    have descends : (e.tree leaf).operator.admits (node op.operator []).operator = true := by
      rw [tree]
      exact admits
    rw [insert_full full, if_pos descends, tree, h.inserts _ _ fits]
    rfl
  fills := by
    intro right
    rw [extended, ← h.fills right]
    rfl

theorem exists_opens (closed : Closed leaf) (op : Operation) (e : Expression α) :
    ∃ path edge, Opens leaf op e path edge := by
  induction e with
  | atom a => exact ⟨_, _, opens_here closed rfl⟩
  | neg operand ih =>
    cases admits : Operator.neg.admits op.operator with
    | false => exact ⟨_, _, opens_here closed admits⟩
    | true =>
      obtain ⟨path, edge, opens⟩ := ih
      refine ⟨⟨.neg, []⟩ :: path, edge, opens.below rfl (by decide) admits rfl ?_⟩
      intro right
      rw [extend, if_pos admits]
      rfl
  | binary outer left right _ ih =>
    cases admits : outer.operator.admits op.operator with
    | false => exact ⟨_, _, opens_here closed admits⟩
    | true =>
      obtain ⟨path, edge, opens⟩ := ih
      have fits : Branch.Fits ⟨outer.operator, [left.tree leaf]⟩ := by cases outer <;> rfl
      refine ⟨_, edge, opens.below fits outer.rank_lt admits rfl ?_⟩
      intro operand
      rw [extend_binary admits]
      rfl

/-- The hole that an operator leaves in a tree with a root. -/
theorem exists_hole (closed : Closed leaf) (op : Operation) (e : Expression α) :
    ∃ hole : Hole,
      Stack.step [.node .root [e.tree leaf]] (.operator op.operator) = .ok [hole.tree] ∧
        ∀ right : Expression α,
          hole.fill (right.tree leaf) = .node .root [(e.extend op right).tree leaf] := by
  obtain ⟨path, edge, opens⟩ := exists_opens closed op e
  refine ⟨⟨⟨.root, []⟩ :: path, edge, ?_, opens.loose, rfl⟩, ?_, ?_⟩
  · intro branch mem
    rcases List.mem_cons.1 mem with rfl | mem
    · rfl
    · exact opens.fits branch mem
  · have noSequence : op.operator.isSequence = false := by cases op <;> rfl
    have rootIsNoSequence : Operator.root.isSequence = false := rfl
    have inserted := opens.inserts .root [] rfl
    simp only [Stack.step, Stack.place, operator, noSequence, rootIsNoSequence, inserted,
      Bool.false_eq_true, if_false]
    rfl
  · intro right
    rw [← opens.fills right]
    rfl

end Expression

end CellFormula.Parsing
