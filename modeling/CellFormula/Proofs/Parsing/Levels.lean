import CellFormula.Proofs.Parsing.Insertion
import CellFormula.Proofs.Parsing.Readings
/-! The stack of a text without semicolons, parenthesis by parenthesis. One level holds what stands
between an open parenthesis and the end of the text so far: finished positions in front of commas
and the tree behind the last comma. -/
namespace CellFormula
namespace Parsing
open OperatorTree

/-- Positions in front of commas, the latest one first, and the tree behind them. -/
structure Level where
  earlier : List OperatorTree
  current : OperatorTree
  rooted : current.operator = .root

namespace Level

def start : Level := ⟨[], emptyRoot, rfl⟩

def positions (level : Level) : List OperatorTree := level.current :: level.earlier

def stack (level : Level) : Stack :=
  match level.earlier with
  | [] => [level.current]
  | _ :: _ => [node .tuple level.positions, emptyRoot]

def group (level : Level) : OperatorTree :=
  match level.earlier with
  | [] => level.current
  | _ :: _ => node .root [node .tuple level.positions]

def next (level : Level) : Level := ⟨level.positions, emptyRoot, rfl⟩

@[simp] theorem operator_group (level : Level) : level.group.operator = .root := by
  obtain ⟨earlier, current, rooted⟩ := level
  cases earlier with
  | nil => exact rooted
  | cons latest earlier => rfl

private theorem stack_ne_nil (level : Level) : level.stack ≠ [] := by
  obtain ⟨earlier, current, rooted⟩ := level
  cases earlier with
  | nil => exact List.cons_ne_nil _ _
  | cons latest earlier => exact List.cons_ne_nil _ _

structure Takes (level : Level) (tree : OperatorTree) (after : Level) : Prop where
  inserted : Inserted tree level.current after.current
  earlier : after.earlier = level.earlier

inductive Step : List Level → Item → List Level → Prop
  | opening {levels : List Level} : Step levels .opening (start :: levels)
  | comma {level : Level} {below : List Level} :
      Step (level :: below) (.operator .tuple) (level.next :: below)
  | operator {op : Operator} {level after : Level} {below : List Level}
      (notSequence : op.isSequence = false) (takes : level.Takes (node op []) after) :
      Step (level :: below) (.operator op) (after :: below)
  | closing {inner level after : Level} {below : List Level}
      (takes : level.Takes inner.group after) :
      Step (inner :: level :: below) .closing (after :: below)

inductive Run : List Level → List Item → List Level → Prop
  | done {levels : List Level} : Run levels [] levels
  | step {levels next after : List Level} {item : Item} {items : List Item}
      (first : Step levels item next) (rest : Run next items after) :
      Run levels (item :: items) after

theorem Step.of_opening {levels next : List Level} (h : Step levels .opening next) :
    next = start :: levels := by
  cases h
  rfl

theorem Step.of_comma {level : Level} {below next : List Level}
    (h : Step (level :: below) (.operator .tuple) next) : next = level.next :: below := by
  cases h with
  | comma => rfl
  | operator notSequence _ => cases notSequence

theorem Step.of_operator {op : Operator} {level : Level} {below next : List Level}
    (h : Step (level :: below) (.operator op) next) (noComma : op ≠ .tuple) :
    ∃ after : Level, level.Takes (node op []) after ∧ next = after :: below := by
  cases h with
  | comma => exact absurd rfl noComma
  | operator _ takes => exact ⟨_, takes, rfl⟩

theorem Step.of_closing {inner level : Level} {below next : List Level}
    (h : Step (inner :: level :: below) .closing next) :
    ∃ after : Level, level.Takes inner.group after ∧ next = after :: below := by
  cases h with
  | closing takes => exact ⟨_, takes, rfl⟩

@[simp] theorem run_nil_iff {levels after : List Level} : Run levels [] after ↔ after = levels := by
  constructor
  · intro h
    cases h
    rfl
  · rintro rfl
    exact .done

@[simp] theorem run_cons_iff {levels after : List Level} {item : Item} {items : List Item} :
    Run levels (item :: items) after ↔ ∃ next, Step levels item next ∧ Run next items after := by
  constructor
  · intro h
    cases h with
    | step first rest => exact ⟨_, first, rest⟩
  · rintro ⟨next, first, rest⟩
    exact .step first rest

private theorem takes_of_place {tree : OperatorTree}
    (notSequence : tree.operator.isSequence = false) {level : Level} {below after : Stack}
    (h : Stack.place tree (level.stack ++ below) = .ok after) :
    ∃ next : Level, level.Takes tree next ∧ after = next.stack ++ below := by
  obtain ⟨earlier, current, rooted⟩ := level
  cases earlier with
  | nil =>
    have rootIsNoSequence : current.operator.isSequence = false := by
      rw [rooted]
      rfl
    change Stack.place tree (current :: below) = _ at h
    simp only [Stack.place, notSequence, rootIsNoSequence, Bool.false_eq_true, if_false] at h
    obtain ⟨inserted, made, same⟩ := of_bind_ok h
    cases same
    have rooted' := (operator_insert made).trans rooted
    exact ⟨⟨[], inserted, rooted'⟩, ⟨inserted_of_insert made, rfl⟩, rfl⟩
  | cons latest earlier =>
    have tuple : (node .tuple (current :: latest :: earlier)).operator.isSequence = true := rfl
    change Stack.place tree (node .tuple (current :: latest :: earlier) :: _) = _ at h
    simp only [Stack.place, notSequence, Bool.false_eq_true, if_false, if_pos tuple] at h
    obtain ⟨listed, extended, same⟩ := of_bind_ok h
    cases same
    obtain ⟨inserted, made, same⟩ := of_bind_ok extended
    cases same
    have rooted' := (operator_insert made).trans rooted
    exact ⟨⟨latest :: earlier, inserted, rooted'⟩, ⟨inserted_of_insert made, rfl⟩, rfl⟩

private theorem next_of_place {level : Level} {below after : Stack}
    (h : Stack.place (node .tuple []) (level.stack ++ below) = .ok after) :
    after = level.next.stack ++ below := by
  obtain ⟨earlier, current, rooted⟩ := level
  cases earlier with
  | nil =>
    have different : ¬ current.operator.isSameSequence .tuple = true := by
      rw [rooted]
      exact Bool.false_ne_true
    have isRoot : current.operator.isRoot = true := by
      rw [rooted]
      rfl
    change Stack.separate .tuple current below = _ at h
    simp only [Stack.separate, if_neg different, if_pos isRoot] at h
    cases h
    rfl
  | cons latest earlier =>
    cases h
    rfl

private theorem group_of_collapse {level : Level} {below after : Stack}
    (h : Stack.collapse (level.stack ++ below) = .ok after) : after = level.group :: below := by
  obtain ⟨earlier, current, rooted⟩ := level
  cases earlier with
  | nil =>
    change Stack.close current below = _ at h
    rw [Stack.close_root rooted] at h
    exact (Stack.of_settle h).2
  | cons latest earlier =>
    change Stack.close (node .tuple (current :: latest :: earlier)) (emptyRoot :: below) = _ at h
    rw [Stack.close_cons (by simp [operator]), Stack.close_root rfl] at h
    exact (Stack.of_settle h).2

def trees (levels : List Level) : Stack := levels.flatMap stack

theorem step_of_stack {levels : List Level} {item : Item} {after : Stack}
    (noChain : item ≠ .operator .chain) (h : Stack.step (trees levels) item = .ok after) :
    ∃ next, Step levels item next ∧ after = trees next := by
  cases item with
  | opening =>
    cases h
    exact ⟨start :: levels, .opening, rfl⟩
  | operator op =>
    cases levels with
    | nil => cases h
    | cons level below =>
      change Stack.place (node op []) (level.stack ++ trees below) = _ at h
      by_cases notSequence : op.isSequence = false
      · obtain ⟨next, takes, rfl⟩ := takes_of_place (IsPiece.bare notSequence).notSequence h
        exact ⟨next :: below, .operator notSequence takes, rfl⟩
      · obtain rfl : op = .tuple := by
          cases op with
          | tuple => rfl
          | chain => exact absurd rfl noChain
          | _ => exact absurd rfl notSequence
        exact ⟨level.next :: below, .comma, next_of_place h⟩
  | closing =>
    rw [Stack.step] at h
    split at h
    · cases h
    · obtain ⟨closed, collapses, placed⟩ := of_bind_ok h
      cases levels with
      | nil => cases collapses
      | cons inner below =>
        change Stack.collapse (inner.stack ++ trees below) = _ at collapses
        obtain rfl := group_of_collapse collapses
        cases below with
        | nil => cases placed
        | cons level below =>
          have notSequence := (IsPiece.group inner.operator_group).notSequence
          obtain ⟨next, takes, rfl⟩ := takes_of_place notSequence placed
          exact ⟨next :: below, .closing takes, rfl⟩

theorem run_of_stack {levels : List Level} {items : List Item} {after : Stack}
    (noChain : .operator .chain ∉ items)
    (h : items.foldlM Stack.step (trees levels) = .ok after) :
    ∃ next, Run levels items next ∧ after = trees next := by
  induction items generalizing levels with
  | nil =>
    cases h
    exact ⟨levels, .done, rfl⟩
  | cons item items ih =>
    rw [List.foldlM_cons] at h
    obtain ⟨between, stepped, h⟩ := of_bind_ok h
    obtain ⟨notHere, notBehind⟩ := List.ne_and_not_mem_of_not_mem_cons noChain
    obtain ⟨next, first, rfl⟩ := step_of_stack notHere.symm stepped
    obtain ⟨last, rest, same⟩ := ih notBehind h
    exact ⟨last, .step first rest, same⟩

theorem run_of_ofItems {items : List Item} {tree : OperatorTree}
    (noChain : .operator .chain ∉ items) (h : ofItems items = .ok tree) :
    ∃ last : Level, Run [start] items [last] ∧ tree = last.group := by
  obtain ⟨after, run, h⟩ := of_bind_ok h
  obtain ⟨closed, collapses, h⟩ := of_bind_ok h
  have started : items.foldlM Stack.step (trees [start]) = .ok after := run
  obtain ⟨levels, levelRun, rfl⟩ := run_of_stack noChain started
  cases levels with
  | nil => cases collapses
  | cons last below =>
    change Stack.collapse (last.stack ++ trees below) = _ at collapses
    obtain rfl := group_of_collapse collapses
    cases below with
    | nil =>
      cases h
      exact ⟨last, levelRun, rfl⟩
    | cons level below =>
      have more : trees (level :: below) ≠ [] :=
        List.append_ne_nil_of_left_ne_nil level.stack_ne_nil _
      split at h
      · rename_i same
        exact absurd (List.cons.inj same).2 more
      · cases h
      · cases h

end Level
end Parsing

namespace Accepted
open Parsing

theorem reading_succeeds (t : Accepted) : t.tree.reading.Succeeds :=
  .inl ⟨t.term, t.ofChars_tree.2⟩

theorem readable_items (t : Accepted) (op : Operator) (mem : .operator op ∈ t.items) :
    op.isReadable = true :=
  Item.readable_of_reading t.ofChars_tokens.2 t.reading_succeeds op mem

theorem run_levels (t : Accepted) :
    ∃ last : Level, Level.Run [.start] t.items [last] ∧ t.tree = last.group := by
  apply Level.run_of_ofItems _ t.ofChars_tokens.2
  intro mem
  cases t.readable_items .chain mem

end Accepted
end CellFormula
