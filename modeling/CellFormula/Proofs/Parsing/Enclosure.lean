import CellFormula.Parsing.OperatorTree
import CellFormula.Proofs.Parsing.Scan
/-! Items of an enclosed text. What the items of a text do to a stack with nothing but a root they
also do in parentheses and behind a comma, unless they put a sequence around the root; a text that
does so is no operand. -/
namespace CellFormula.Parsing
open OperatorTree

theorem Operator.eq_root {op : Operator} (h : op.isRoot = true) : op = .root := by
  cases op <;> first | rfl | cases h

/-- What stands around the root of an enclosed text: the stack below its parenthesis, or the
operands in front of a comma. -/
inductive Enclosure where
  | alone (below : Stack)
  | listed (earlier : List OperatorTree) (below : Stack)

def Enclosure.stack : Enclosure → OperatorTree → Stack
  | alone below, root => root :: below
  | listed earlier below, root => node .tuple (root :: earlier) :: below

namespace Stack

/-- The operator of the last tree, the one right above a root that follows. -/
def lastOperator? (upper : Stack) : Option Operator := upper.getLast?.map OperatorTree.operator

def Intact (upper : Stack) : Prop := ∀ op, upper.lastOperator? = some op → op = .root

def Spoiled (upper : Stack) : Prop := ∃ op, upper.lastOperator? = some op ∧ op.isSequence = true

inductive Continues (upper after : Stack) : Prop
  | kept (h : after.lastOperator? = upper.lastOperator?)
  | opened (h : upper.lastOperator? = none) (h' : after.lastOperator? = some .root)
  | closed (h : upper.lastOperator? = some .root) (h' : after.lastOperator? = none)

theorem Continues.intact {upper after : Stack} (h : Continues upper after) (intact : Intact upper) :
    Intact after := by
  intro op last
  cases h with
  | kept same => exact intact op (same ▸ last)
  | opened _ opened => exact (Option.some.inj (opened.symm.trans last)).symm
  | closed _ closed => cases closed.symm.trans last

theorem Continues.spoiled {upper after : Stack} (h : Continues upper after)
    (spoiled : Spoiled upper) : Spoiled after := by
  obtain ⟨op, last, isSequence⟩ := spoiled
  cases h with
  | kept same => exact ⟨op, same.trans last, isSequence⟩
  | opened empty _ => cases empty.symm.trans last
  | closed root _ =>
    cases root.symm.trans last
    cases isSequence

@[simp] private theorem lastOperator?_cons_cons (first second : OperatorTree) (rest : Stack) :
    lastOperator? (first :: second :: rest) = lastOperator? (second :: rest) := by
  simp [lastOperator?]

private theorem lastOperator?_of_suffix {upper rest : Stack} (h : rest <:+ upper)
    (nonempty : rest ≠ []) :
    lastOperator? rest = lastOperator? upper := by
  obtain ⟨front, rfl⟩ := h
  unfold lastOperator?
  rw [List.getLast?_append, List.getLast?_eq_some_getLast nonempty]
  rfl

private theorem lastOperator?_cons_congr {first other : OperatorTree}
    (same : first.operator = other.operator) (rest : Stack) :
    lastOperator? (first :: rest) = lastOperator? (other :: rest) := by
  cases rest with
  | nil => simp [lastOperator?, same]
  | cons second rest => rw [lastOperator?_cons_cons, lastOperator?_cons_cons]

end Stack

namespace OperatorTree

@[simp] theorem operator_push (tree operand : OperatorTree) :
    (tree.push operand).operator = tree.operator := by
  cases tree
  rfl

private theorem operator_displace {outer : Operator} {others : List OperatorTree}
    {last tree after : OperatorTree} (h : displace outer others last tree = .ok after) :
    after.operator = outer := by
  unfold displace at h
  split at h
  · cases h
  · split at h
    · cases h
    · split at h
      · cases h
      · cases h
        rfl

theorem operator_insert {tree outer after : OperatorTree} (h : insert tree outer = .ok after) :
    after.operator = outer.operator := by
  cases outer with
  | node outer operands =>
    cases operands with
    | nil =>
      rw [insert] at h
      split at h
      · cases h
      · cases h
        rfl
    | cons last others =>
      rw [insert] at h
      split at h
      · cases h
        rfl
      · split at h
        · obtain ⟨inner, -, same⟩ := of_bind_ok h
          cases same
          rfl
        · exact operator_displace h

theorem operator_insertLast {tree outer after : OperatorTree}
    (h : insertLast tree outer = .ok after) : after.operator = outer.operator := by
  cases outer with
  | node outer operands =>
    cases operands with
    | nil =>
      cases h
      rfl
    | cons last others =>
      rw [insertLast] at h
      obtain ⟨inner, -, same⟩ := of_bind_ok h
      cases same
      rfl

end OperatorTree

namespace Stack

/-- Runs of a function on stacks that treat a root alike, whatever stands around it. -/
structure Carries (f : Stack → Except SyntaxError Stack) (upper : Stack) (root : OperatorTree)
    (upper' : Stack) (root' : OperatorTree) : Prop where
  isRoot : root'.operator = .root
  continues : Continues upper upper'
  enclosed : ∀ enclosure : Enclosure,
    f (upper ++ enclosure.stack root) = .ok (upper' ++ enclosure.stack root')

private theorem foldInto_append {sequence : Operator} (isSequence : sequence.isSequence = true)
    {root : OperatorTree} (isRoot : root.operator = .root) {tree : OperatorTree}
    {upper after : Stack} (h : foldInto sequence tree (upper ++ [root]) = .ok after) :
    ∃ first rest, after = first :: rest ++ [root] ∧ rest <:+ upper ∧ rest ≠ [] ∧
      ∀ below, foldInto sequence tree (upper ++ below) = .ok (first :: rest ++ below) := by
  induction upper generalizing tree with
  | nil =>
    -- a sequence never stops at a root
    have folds : sequence.precedence < root.operator.precedence := by
      rw [isRoot]
      cases sequence <;> first | decide | cases isSequence
    rw [List.nil_append, foldInto, if_pos folds] at h
    cases h
  | cons next upper ih =>
    rw [List.cons_append, foldInto] at h
    split at h
    · rename_i folds
      obtain ⟨first, rest, reached, suffix, nonempty, always⟩ := ih h
      refine ⟨first, rest, reached, suffix.trans (List.suffix_cons next upper), nonempty, ?_⟩
      intro below
      rw [List.cons_append, foldInto, if_pos folds]
      exact always below
    · rename_i stops
      cases h
      refine ⟨_, next :: upper, rfl, List.suffix_refl _, List.cons_ne_nil _ _, ?_⟩
      intro below
      rw [List.cons_append, foldInto, if_neg stops]
      rfl

private theorem separate_append {sequence : Operator} (isSequence : sequence.isSequence = true)
    {root : OperatorTree} (isRoot : root.operator = .root) {top : OperatorTree}
    {upper after : Stack} (h : separate sequence top (upper ++ [root]) = .ok after) :
    ∃ upper', after = upper' ++ [root] ∧
      lastOperator? upper' = lastOperator? (top :: upper) ∧
      ∀ below, separate sequence top (upper ++ below) = .ok (upper' ++ below) := by
  have folded : ∀ {after}, foldInto sequence top (upper ++ [root]) = .ok after →
      ∃ upper', after = upper' ++ [root] ∧
        lastOperator? upper' = lastOperator? (top :: upper) ∧
        ∀ below, foldInto sequence top (upper ++ below) = .ok (upper' ++ below) := by
    intro after h
    obtain ⟨first, rest, reached, suffix, nonempty, always⟩ := foldInto_append isSequence isRoot h
    refine ⟨first :: rest, reached, ?_, always⟩
    rw [← lastOperator?_of_suffix (List.suffix_cons first rest) nonempty]
    exact lastOperator?_of_suffix (suffix.trans (List.suffix_cons top upper)) nonempty
  by_cases same : top.operator.isSameSequence sequence = true
  · simp only [separate, if_pos same] at h ⊢
    cases h
    refine ⟨top.push emptyRoot :: upper, rfl, ?_, fun below => rfl⟩
    exact lastOperator?_cons_congr (operator_push top emptyRoot) upper
  by_cases topIsRoot : top.operator.isRoot = true
  · simp only [separate, if_neg same, if_pos topIsRoot] at h ⊢
    cases h
    refine ⟨node sequence [emptyRoot, top] :: emptyRoot :: upper, rfl, ?_, fun below => rfl⟩
    have root : emptyRoot.operator = top.operator := (Operator.eq_root topIsRoot).symm
    rw [lastOperator?_cons_cons, lastOperator?_cons_congr root]
  simp only [separate, if_neg same, if_neg topIsRoot] at h ⊢
  cases top with
  | node outer operands =>
    cases operands with
    | nil => exact folded h
    | cons last others =>
      dsimp only at h ⊢
      split at h
      · rename_i looser
        cases h
        refine ⟨node sequence [emptyRoot, last] :: node outer others :: upper, rfl, ?_, ?_⟩
        · have kept : (node outer others).operator = (node outer (last :: others)).operator := rfl
          rw [lastOperator?_cons_cons, lastOperator?_cons_congr kept]
        · intro below
          rw [if_pos looser]
          rfl
      · rename_i tighter
        simp only [if_neg tighter]
        exact folded h

theorem place_cons_append {tree : OperatorTree} (notSequence : tree.operator.isSequence = false)
    {top : OperatorTree} {below after : Stack} (h : place tree (top :: below) = .ok after) :
    ∃ top', top'.operator = top.operator ∧ after = top' :: below ∧
      ∀ other, place tree (top :: other) = .ok (top' :: other) := by
  simp only [place, notSequence, Bool.false_eq_true, if_false] at h ⊢
  split at h
  · rename_i sequence
    obtain ⟨top', inserted, same⟩ := of_bind_ok h
    cases same
    refine ⟨top', operator_insertLast inserted, rfl, ?_⟩
    intro other
    rw [if_pos sequence, inserted]
    rfl
  · rename_i noSequence
    obtain ⟨top', inserted, same⟩ := of_bind_ok h
    cases same
    refine ⟨top', operator_insert inserted, rfl, ?_⟩
    intro other
    rw [if_neg noSequence, inserted]
    rfl

theorem place_enclosed {tree : OperatorTree} (notSequence : tree.operator.isSequence = false)
    {root : OperatorTree} (isRoot : root.operator = .root) {after : Stack}
    (h : place tree [root] = .ok after) :
    ∃ root', root'.operator = .root ∧ after = [root'] ∧
      ∀ enclosure : Enclosure, place tree (enclosure.stack root) = .ok (enclosure.stack root') := by
  have rootIsNoSequence : root.operator.isSequence = false := by
    rw [isRoot]
    rfl
  simp only [place, notSequence, rootIsNoSequence, Bool.false_eq_true, if_false] at h
  obtain ⟨root', inserted, same⟩ := of_bind_ok h
  cases same
  refine ⟨root', (operator_insert inserted).trans isRoot, rfl, ?_⟩
  intro enclosure
  cases enclosure with
  | alone below =>
    simp only [Enclosure.stack, place, notSequence, rootIsNoSequence, inserted,
      Bool.false_eq_true, if_false]
    rfl
  | listed earlier below =>
    have tuple : (node .tuple (root :: earlier)).operator.isSequence = true := rfl
    simp only [Enclosure.stack, place, notSequence, Bool.false_eq_true, if_false, if_pos tuple,
      insertLast, inserted]
    rfl

theorem place_carries {tree : OperatorTree} (notSequence : tree.operator.isSequence = false)
    {upper after : Stack} {root : OperatorTree} (isRoot : root.operator = .root)
    (h : place tree (upper ++ [root]) = .ok after) :
    ∃ upper' root', after = upper' ++ [root'] ∧ root'.operator = .root ∧
      lastOperator? upper' = lastOperator? upper ∧
      ∀ enclosure : Enclosure,
        place tree (upper ++ enclosure.stack root) = .ok (upper' ++ enclosure.stack root') := by
  cases upper with
  | nil =>
    obtain ⟨root', isRoot', rfl, always⟩ := place_enclosed notSequence isRoot h
    exact ⟨[], root', rfl, isRoot', rfl, always⟩
  | cons top upper =>
    obtain ⟨top', same, rfl, always⟩ := place_cons_append notSequence h
    refine ⟨top' :: upper, root, rfl, isRoot, lastOperator?_cons_congr same upper, ?_⟩
    intro enclosure
    exact always (upper ++ enclosure.stack root)

@[simp] theorem close_root {tree : OperatorTree} (isRoot : tree.operator = .root) (below : Stack) :
    close tree below = close.settle tree below := by
  have root : tree.operator.isRoot = true := by
    rw [isRoot]
    rfl
  cases below with
  | nil => rw [close, if_pos root]
  | cons next rest => rw [close, if_pos root]

theorem close_cons {tree : OperatorTree} (noRoot : tree.operator ≠ .root) (next : OperatorTree)
    (below : Stack) : close tree (next :: below) = close (next.push tree) below := by
  have no : ¬ tree.operator.isRoot = true := fun root => noRoot (Operator.eq_root root)
  rw [close, if_neg no]

theorem of_settle {tree : OperatorTree} {below after : Stack}
    (h : close.settle tree below = .ok after) :
    tree.operands.length ≤ 1 ∧ after = tree :: below := by
  unfold close.settle at h
  split at h
  · cases h
  · rename_i few
    cases h
    exact ⟨Nat.le_of_not_lt few, rfl⟩

theorem close_stops {tree : OperatorTree} (isRoot : tree.operator = .root) {below after : Stack}
    (h : close tree below = .ok after) :
    after = tree :: below ∧ ∀ other, close tree other = .ok (tree :: other) := by
  rw [close_root isRoot] at h
  obtain ⟨few, reached⟩ := of_settle h
  refine ⟨reached, ?_⟩
  intro other
  rw [close_root isRoot, close.settle, if_neg (Nat.not_lt_of_le few)]

/-- Closing stops at the innermost root above the bottom, or gives everything to the bottom. -/
theorem close_append {root : OperatorTree} (isRoot : root.operator = .root) {tree : OperatorTree}
    {upper after : Stack} (h : close tree (upper ++ [root]) = .ok after) :
    (∃ last, after = [root.push last] ∧ root.operands = [] ∧ last.operator ≠ .root ∧
      lastOperator? (tree :: upper) = some last.operator) ∨
    (∃ closed rest, after = closed :: rest ++ [root] ∧ closed.operator = .root ∧
      rest <:+ upper ∧ (rest = [] → lastOperator? (tree :: upper) = some .root) ∧
      ∀ below, close tree (upper ++ below) = .ok (closed :: rest ++ below)) := by
  induction upper generalizing tree with
  | nil =>
    by_cases treeIsRoot : tree.operator = .root
    · obtain ⟨reached, always⟩ := close_stops treeIsRoot h
      exact .inr ⟨tree, [], reached, treeIsRoot, List.suffix_refl _,
        fun _ => congrArg some treeIsRoot, always⟩
    · rw [List.nil_append, close_cons treeIsRoot,
        close_root ((operator_push root tree).trans isRoot)] at h
      obtain ⟨few, reached⟩ := of_settle h
      refine .inl ⟨tree, reached, ?_, treeIsRoot, rfl⟩
      cases root with
      | node op operands =>
        have short : (tree :: operands).length ≤ 1 := few
        rw [List.length_cons] at short
        have empty : operands.length = 0 := by omega
        exact List.eq_nil_of_length_eq_zero empty
  | cons next upper ih =>
    by_cases treeIsRoot : tree.operator = .root
    · obtain ⟨reached, always⟩ := close_stops treeIsRoot h
      exact .inr ⟨tree, next :: upper, reached, treeIsRoot, List.suffix_refl _,
        fun empty => absurd empty (List.cons_ne_nil _ _), fun below => always _⟩
    · rw [List.cons_append, close_cons treeIsRoot] at h
      rw [lastOperator?_cons_cons, ← lastOperator?_cons_congr (operator_push next tree) upper]
      rcases ih h with given | ⟨closed, rest, reached, closedIsRoot, suffix, last, always⟩
      · exact .inl given
      · refine .inr ⟨closed, rest, reached, closedIsRoot,
          suffix.trans (List.suffix_cons next upper), last, ?_⟩
        intro below
        rw [List.cons_append, close_cons treeIsRoot]
        exact always below

private theorem length_enclosure (upper : Stack) (enclosure : Enclosure) (root : OperatorTree) :
    upper.length < (upper ++ enclosure.stack root).length := by
  rw [List.length_append]
  cases enclosure with
  | alone below =>
    rw [Enclosure.stack, List.length_cons]
    omega
  | listed earlier below =>
    rw [Enclosure.stack, List.length_cons]
    omega

theorem closing_carries {upper after : Stack} {root : OperatorTree} (isRoot : root.operator = .root)
    (h : step (upper ++ [root]) .closing = .ok after) :
    ∃ upper' root', after = upper' ++ [root'] ∧
      Carries (fun stack => step stack .closing) upper root upper' root' := by
  cases upper with
  | nil => cases h
  | cons top upper =>
    have some_above : ¬ (top :: upper ++ [root]).length ≤ 1 := by
      simp only [List.length_append, List.length_cons]
      omega
    rw [step, if_neg some_above, List.cons_append, collapse] at h
    obtain ⟨stack, closes, h⟩ := of_bind_ok h
    rcases close_append isRoot closes with
      ⟨last, rfl, -⟩ | ⟨closed, rest, rfl, closedIsRoot, suffix, last, always⟩
    · cases h
    · have notSequence : closed.operator.isSequence = false := by
        rw [closedIsRoot]
        rfl
      obtain ⟨upper', root', rfl, isRoot', last', always'⟩ := place_carries notSequence isRoot h
      refine ⟨upper', root', rfl, isRoot', ?_, ?_⟩
      · by_cases empty : rest = []
        · subst empty
          exact .closed (last rfl) last'
        · refine .kept (last'.trans ?_)
          exact lastOperator?_of_suffix (suffix.trans (List.suffix_cons top upper)) empty
      · intro enclosure
        have longer := length_enclosure (top :: upper) enclosure root
        rw [List.length_cons] at longer
        have some_above : ¬ (top :: upper ++ enclosure.stack root).length ≤ 1 := by omega
        rw [step, if_neg some_above, List.cons_append, collapse, always]
        exact always' enclosure

theorem step_carries {item : Item} {upper after : Stack} {root : OperatorTree}
    (isRoot : root.operator = .root)
    (notAround : ∀ op, item = .operator op → op.isSequence = true → upper ≠ [])
    (h : step (upper ++ [root]) item = .ok after) :
    ∃ upper' root', after = upper' ++ [root'] ∧
      Carries (fun stack => step stack item) upper root upper' root' := by
  cases item with
  | opening =>
    cases h
    refine ⟨emptyRoot :: upper, root, rfl, isRoot, ?_, fun enclosure => rfl⟩
    cases upper with
    | nil => exact .opened rfl rfl
    | cons top upper => exact .kept (lastOperator?_cons_cons ..)
  | operator op =>
    cases isSequence : op.isSequence with
    | false =>
      have notSequence : (node op []).operator.isSequence = false := isSequence
      obtain ⟨upper', root', rfl, isRoot', last, always⟩ := place_carries notSequence isRoot h
      exact ⟨upper', root', rfl, isRoot', .kept last, always⟩
    | true =>
      cases upper with
      | nil => exact absurd rfl (notAround op rfl isSequence)
      | cons top upper =>
        have separates : ∀ below, step (top :: below) (.operator op) = separate op top below := by
          intro below
          simp only [step, place, operator, isSequence, if_true]
        rw [List.cons_append, separates] at h
        obtain ⟨upper', rfl, last, always⟩ := separate_append isSequence isRoot h
        refine ⟨upper', root, rfl, isRoot, .kept last, ?_⟩
        intro enclosure
        rw [List.cons_append, separates]
        exact always (enclosure.stack root)
  | closing => exact closing_carries isRoot h

private theorem spoiled_of_sequence {sequence : Operator} (isSequence : sequence.isSequence = true)
    {root : OperatorTree} (isRoot : root.operator = .root) {after : Stack}
    (h : step [root] (.operator sequence) = .ok after) :
    ∃ upper', after = upper' ++ [emptyRoot] ∧ Spoiled upper' := by
  have separates : separate sequence root [] = .ok after := by
    simpa only [step, place, operator, isSequence, if_true] using h
  have different : ¬ root.operator.isSameSequence sequence = true := by
    rw [isRoot]
    simp [Operator.isSameSequence]
  have topIsRoot : root.operator.isRoot = true := by
    rw [isRoot]
    rfl
  simp only [separate, if_neg different, if_pos topIsRoot] at separates
  cases separates
  exact ⟨[node sequence [emptyRoot, root]], rfl, sequence, rfl, isSequence⟩

private theorem ne_nil_of_spoiled {upper : Stack} (h : Spoiled upper) : upper ≠ [] := by
  rintro rfl
  obtain ⟨op, last, -⟩ := h
  cases last

theorem run_spoiled {items : List Item} {upper after : Stack} {root : OperatorTree}
    (isRoot : root.operator = .root) (spoiled : Spoiled upper)
    (h : items.foldlM step (upper ++ [root]) = .ok after) :
    ∃ upper' root', after = upper' ++ [root'] ∧ root'.operator = .root ∧ Spoiled upper' := by
  induction items generalizing upper root with
  | nil =>
    cases h
    exact ⟨upper, root, rfl, isRoot, spoiled⟩
  | cons item items ih =>
    rw [List.foldlM_cons] at h
    obtain ⟨stack, stepped, h⟩ := of_bind_ok h
    obtain ⟨upper', root', rfl, carries⟩ :=
      step_carries isRoot (fun _ _ _ => ne_nil_of_spoiled spoiled) stepped
    exact ih carries.isRoot (carries.continues.spoiled spoiled) h

/-- The items of a text run alike in every enclosure, unless they put a sequence around the root. -/
theorem run_carries {items : List Item} {upper after : Stack} {root : OperatorTree}
    (isRoot : root.operator = .root) (intact : Intact upper)
    (h : items.foldlM step (upper ++ [root]) = .ok after) :
    ∃ upper' root', after = upper' ++ [root'] ∧ root'.operator = .root ∧
      (Spoiled upper' ∨ Intact upper' ∧ ∀ enclosure : Enclosure,
        items.foldlM step (upper ++ enclosure.stack root) =
          .ok (upper' ++ enclosure.stack root')) := by
  induction items generalizing upper root with
  | nil =>
    cases h
    exact ⟨upper, root, rfl, isRoot, .inr ⟨intact, fun enclosure => rfl⟩⟩
  | cons item items ih =>
    rw [List.foldlM_cons] at h
    obtain ⟨stack, stepped, h⟩ := of_bind_ok h
    by_cases around : ∃ op, item = .operator op ∧ op.isSequence = true ∧ upper = []
    · obtain ⟨op, rfl, isSequence, rfl⟩ := around
      obtain ⟨upper', rfl, spoiled⟩ := spoiled_of_sequence isSequence isRoot stepped
      obtain ⟨upper'', root'', reached, isRoot'', spoiled⟩ := run_spoiled rfl spoiled h
      exact ⟨upper'', root'', reached, isRoot'', .inl spoiled⟩
    · obtain ⟨upper', root', rfl, carries⟩ := step_carries isRoot
        (fun op same isSequence empty => around ⟨op, same, isSequence, empty⟩) stepped
      obtain ⟨upper'', root'', reached, isRoot'', rest⟩ :=
        ih carries.isRoot (carries.continues.intact intact) h
      refine ⟨upper'', root'', reached, isRoot'', rest.imp_right ?_⟩
      rintro ⟨intact, always⟩
      refine ⟨intact, ?_⟩
      intro enclosure
      rw [List.foldlM_cons, carries.enclosed enclosure]
      exact always enclosure

end Stack

end CellFormula.Parsing
