import CellFormula.Proofs.Parsing.Lexemes
/-! Accepted texts go on in places that are open. Behind closed parentheses a function still goes to
the right edge, but its operand never gets there, and the text is refused. -/
namespace CellFormula
namespace Parsing
open OperatorTree

namespace Level

/-! Levels keep trees with room for their operands. -/

structure WellFormed (level : Level) : Prop where
  positions : ∀ position ∈ level.positions, position.WellFormed
  plain : ∀ operand ∈ level.current.operands, operand.operator.isSequence = false

theorem wellFormed_start : start.WellFormed where
  positions := List.forall_mem_singleton.2 (.bare rfl)
  plain := List.forall_mem_nil _

theorem WellFormed.group {level : Level} (h : level.WellFormed) : level.group.WellFormed := by
  obtain ⟨earlier, current, rooted⟩ := level
  cases earlier with
  | nil => exact h.positions current List.mem_cons_self
  | cons latest earlier => exact .listing h.positions

theorem Takes.wellFormed {level after : Level} {tree : OperatorTree} (h : level.Takes tree after)
    (piece : tree.IsPiece) (treeFormed : tree.WellFormed) (wellFormed : level.WellFormed) :
    after.WellFormed where
  positions := by
    obtain ⟨current, earlier⟩ := List.forall_mem_cons.1 wellFormed.positions
    rw [Level.positions, h.earlier]
    exact List.forall_mem_cons.2 ⟨h.inserted.wellFormed piece treeFormed current, earlier⟩
  plain := h.inserted.plain piece wellFormed.plain

theorem Step.wellFormed {levels after : List Level} {item : Item} (h : Step levels item after)
    (wellFormed : ∀ level ∈ levels, level.WellFormed) : ∀ level ∈ after, level.WellFormed := by
  cases h with
  | opening => exact List.forall_mem_cons.2 ⟨wellFormed_start, wellFormed⟩
  | comma =>
    obtain ⟨top, below⟩ := List.forall_mem_cons.1 wellFormed
    have next : WellFormed (next _) :=
      ⟨List.forall_mem_cons.2 ⟨.bare rfl, top.positions⟩, List.forall_mem_nil _⟩
    exact List.forall_mem_cons.2 ⟨next, below⟩
  | operator notSequence takes =>
    obtain ⟨top, below⟩ := List.forall_mem_cons.1 wellFormed
    have after := takes.wellFormed (.bare notSequence) (.bare notSequence) top
    exact List.forall_mem_cons.2 ⟨after, below⟩
  | @closing inner _ _ _ takes =>
    obtain ⟨innerFormed, others⟩ := List.forall_mem_cons.1 wellFormed
    obtain ⟨top, below⟩ := List.forall_mem_cons.1 others
    have after := takes.wellFormed (.group inner.operator_group) innerFormed.group top
    exact List.forall_mem_cons.2 ⟨after, below⟩

theorem Run.wellFormed {levels after : List Level} {items : List Item} (h : Run levels items after)
    (wellFormed : ∀ level ∈ levels, level.WellFormed) : ∀ level ∈ after, level.WellFormed := by
  induction h with
  | done => exact wellFormed
  | step first _ ih => exact ih (first.wellFormed wellFormed)

/-! Levels that no operand can reach. -/

theorem Run.sealed_below {upper below : List Level} {level last : Level} {items : List Item}
    (sealed : level.current.Sealed) (nonempty : upper ≠ []) :
    ¬ Run (upper ++ level :: below) items [last] := by
  intro run
  induction items generalizing upper with
  | nil =>
    rw [run_nil_iff] at run
    have lengths := congrArg List.length run
    have positive := List.length_pos_iff.2 nonempty
    simp only [List.length_append, List.length_cons, List.length_nil] at lengths
    omega
  | cons item items ih =>
    obtain ⟨next, first, rest⟩ := run_cons_iff.1 run
    rcases upper with _ | ⟨top, _ | ⟨second, upper⟩⟩
    · exact nonempty rfl
    · cases first with
      | opening => exact ih (List.cons_ne_nil start [top]) rest
      | comma => exact ih (List.cons_ne_nil top.next []) rest
      | operator _ takes => exact ih (List.cons_ne_nil _ []) rest
      | closing takes => exact sealed.refuses (.inr top.operator_group) takes.inserted
    · cases first with
      | opening => exact ih (List.cons_ne_nil start (top :: second :: upper)) rest
      | comma => exact ih (List.cons_ne_nil top.next (second :: upper)) rest
      | operator _ takes => exact ih (List.cons_ne_nil _ (second :: upper)) rest
      | closing takes => exact ih (List.cons_ne_nil _ upper) rest

end Level

namespace Item

def startsOperand : List Token → Bool
  | .opening :: _ | .identifier _ :: _ | .constant _ :: _ => true
  | _ => false

theorem ofIdentifier_cases (name : String) (tokens : List Token) :
    ofIdentifier name tokens.head? = .operator (.reference name) ∨
      ofIdentifier name tokens.head? = .operator (.function name) ∧
        startsOperand tokens = true := by
  cases tokens with
  | nil => exact .inl rfl
  | cons token tokens => cases token <;> first | exact .inl rfl | exact .inr ⟨rfl, rfl⟩

def isPrefix : Item → Bool
  | .operator op => op.isUnary
  | .opening | .closing => false

end Item

namespace Level

/-- No operand goes behind closed parentheses, with functions in between or without. -/
theorem Run.sealed_top {tokens : List Token} {level last : Level} {below : List Level}
    (sealed : level.current.Sealed) (starts : Item.startsOperand tokens = true) :
    ¬ Run (level :: below) (Item.ofTokens true tokens) [last] := by
  intro run
  induction tokens generalizing level with
  | nil => cases starts
  | cons token tokens ih =>
    cases token with
    | opening =>
      obtain ⟨next, first, rest⟩ := run_cons_iff.1 run
      cases first
      exact Run.sealed_below sealed (List.cons_ne_nil start []) rest
    | constant value =>
      obtain ⟨next, first, -⟩ := run_cons_iff.1 run
      cases first with
      | operator _ takes => exact sealed.refuses (.inl rfl) takes.inserted
    | identifier name =>
      rw [Item.ofTokens] at run
      obtain ⟨next, first, rest⟩ := run_cons_iff.1 run
      rcases Item.ofIdentifier_cases name tokens with reference | ⟨function, starts⟩
      · rw [reference] at first
        cases first with
        | operator _ takes => exact sealed.refuses (.inl rfl) takes.inserted
      · rw [function] at first
        cases first with
        | operator _ takes => exact ih (takes.inserted.keeps_sealed rfl sealed) starts rest
    | closing => cases starts
    | minus => cases starts
    | operator op => cases starts

def AreOpen : List Level → Prop
  | [] => True
  | level :: _ => ¬ level.current.Sealed

/-- Runs in which everything that stands in front of its operand goes to an open place. -/
inductive CleanRun : List Level → List Item → List Level → Prop
  | done {levels : List Level} : CleanRun levels [] levels
  | step {levels next after : List Level} {item : Item} {items : List Item}
      (first : Step levels item next) (free : item.isPrefix = true → AreOpen levels)
      (rest : CleanRun next items after) : CleanRun levels (item :: items) after

theorem CleanRun.run {levels after : List Level} {items : List Item}
    (h : CleanRun levels items after) : Run levels items after := by
  induction h with
  | done => exact .done
  | step first _ _ ih => exact .step first ih

theorem cleanRun_append {levels after : List Level} {items items' : List Item}
    (h : CleanRun levels (items ++ items') after) :
    ∃ between, CleanRun levels items between ∧ CleanRun between items' after := by
  induction items generalizing levels with
  | nil => exact ⟨levels, .done, h⟩
  | cons item items ih =>
    cases h with
    | step first free rest =>
      obtain ⟨between, front, back⟩ := ih rest
      exact ⟨between, .step first free front, back⟩

end Level

/-- Operators that formulas have between operands. -/
def Operator.isBetween (op : Operator) : Bool := op = .tuple || op.binary?.isSome

private theorem Operator.isUnary_of_isBetween {op : Operator} (h : op.isBetween = true) :
    op.isUnary = false := by
  cases op <;> first | rfl | cases h

private theorem Operator.isBetween_ne_root {op : Operator} (h : op.isBetween = true) :
    op ≠ .root := by
  rintro rfl
  cases h

private theorem Operator.isBetween_of_mark {op : Operator} {mark : Mark}
    (mem : .operator op ∈ mark.tokens) (readable : op.isReadable = true) : op.isBetween = true := by
  cases op <;> first | rfl | cases readable | skip
  all_goals cases mark <;> simp [Mark.tokens, Mark.usage] at mem

namespace Level

theorem Step.areOpen {levels after : List Level} {op : Operator}
    (h : Step levels (.operator op) after) (noGroup : op ≠ .root)
    (free : op.isUnary = true → AreOpen levels) : AreOpen after := by
  cases h with
  | comma =>
    intro sealed
    cases sealed
  | operator _ takes => exact takes.inserted.not_sealed noGroup free

/-- Accepted runs are clean: a function is in front of an operand, and a minus in front of one is
behind no other. -/
theorem clean_of_run {tokens : List Token} {behindOperand : Bool} {levels : List Level}
    {last : Level} (between : ∀ op, .operator op ∈ tokens → op.isBetween = true)
    (areOpen : behindOperand = false → AreOpen levels)
    (run : Run levels (Item.ofTokens behindOperand tokens) [last]) :
    CleanRun levels (Item.ofTokens behindOperand tokens) [last] := by
  induction tokens generalizing behindOperand levels with
  | nil =>
    rw [Item.ofTokens, run_nil_iff] at run
    subst run
    exact .done
  | cons token tokens ih =>
    have others : ∀ op, .operator op ∈ tokens → op.isBetween = true :=
      fun op mem => between op (List.mem_cons_of_mem _ mem)
    have behind {levels : List Level} (same : true = false) : AreOpen levels := by cases same
    have noPrefix {levels : List Level} (same : false = true) : AreOpen levels := by cases same
    cases token with
    | constant value =>
      obtain ⟨next, first, rest⟩ := run_cons_iff.1 run
      exact .step first noPrefix (ih others behind rest)
    | identifier name =>
      rw [Item.ofTokens] at run ⊢
      obtain ⟨next, first, rest⟩ := run_cons_iff.1 run
      refine .step first ?_ (ih others behind rest)
      intro isPrefix
      rcases Item.ofIdentifier_cases name tokens with reference | ⟨function, starts⟩
      · rw [reference] at isPrefix
        cases isPrefix
      · rw [function] at first
        cases first with
        | operator _ takes =>
          intro sealed
          exact Run.sealed_top (takes.inserted.keeps_sealed rfl sealed) starts rest
    | opening =>
      obtain ⟨next, first, rest⟩ := run_cons_iff.1 run
      cases first
      have areOpen : AreOpen (start :: levels) := by
        intro sealed
        cases sealed
      exact .step .opening noPrefix (ih others (fun _ => areOpen) rest)
    | closing =>
      obtain ⟨next, first, rest⟩ := run_cons_iff.1 run
      exact .step first noPrefix (ih others behind rest)
    | minus =>
      rw [Item.ofTokens] at run ⊢
      obtain ⟨next, first, rest⟩ := run_cons_iff.1 run
      cases behindOperand with
      | true =>
        have open' := first.areOpen (by decide) noPrefix
        exact .step first noPrefix (ih others (fun _ => open') rest)
      | false =>
        have open' := first.areOpen (by decide) fun _ => areOpen rfl
        exact .step first (fun _ => areOpen rfl) (ih others (fun _ => open') rest)
    | operator op =>
      obtain ⟨next, first, rest⟩ := run_cons_iff.1 run
      have isBetween := between op List.mem_cons_self
      have notUnary : ¬ op.isUnary = true :=
        (Bool.not_eq_true _).mpr (Operator.isUnary_of_isBetween isBetween)
      have open' := first.areOpen (Operator.isBetween_ne_root isBetween) fun unary =>
        absurd unary notUnary
      exact .step first (fun unary => absurd unary notUnary) (ih others (fun _ => open') rest)

end Level

theorem Item.mem_ofTokens {op : Operator} {tokens : List Token} (mem : .operator op ∈ tokens)
    (behindOperand : Bool) : .operator op ∈ ofTokens behindOperand tokens := by
  induction tokens generalizing behindOperand with
  | nil => cases mem
  | cons token tokens ih =>
    rcases List.mem_cons.1 mem with rfl | later
    · exact List.mem_cons_self
    · cases token <;> exact List.mem_cons_of_mem _ (ih later _)

end Parsing

namespace Accepted
open Parsing

theorem isBetween (t : Accepted) (op : Operator) (mem : .operator op ∈ t.tokens) :
    op.isBetween = true := by
  obtain ⟨mark, isMark⟩ := Token.mark_of_operator t.ofChars_tokens.1 mem
  exact Operator.isBetween_of_mark isMark (t.readable_items op (Item.mem_ofTokens mem false))

theorem run_clean (t : Accepted) :
    ∃ last : Level, Level.CleanRun [.start] t.items [last] ∧ t.tree = last.group := by
  obtain ⟨last, run, same⟩ := t.run_levels
  have areOpen : Level.AreOpen [.start] := by
    intro sealed
    cases sealed
  exact ⟨last, Level.clean_of_run t.isBetween (fun _ => areOpen) run, same⟩

end Accepted
end CellFormula
