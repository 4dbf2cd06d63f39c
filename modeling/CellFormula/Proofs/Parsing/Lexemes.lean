import CellFormula.Proofs.Parsing.Levels
/-! Every number and every name of an accepted text is one of the formula, in the order of the text.
An insertion adds behind everything in the tree, and an operator that takes an operand in front of
it for its own has no number or name itself. -/
namespace CellFormula

inductive Lexeme where
  | number (value : Float)
  | name (name : String)
deriving DecidableEq, Repr

namespace Term

mutual

/-- The numbers and names of a formula: that of a function before those of its arguments, and those
of a left operand before those of a right one. -/
def lexemes : Term → List Lexeme
  | .num value => [.number value]
  | .var name => [.name name]
  | .neg operand => operand.lexemes
  | .binary _ left right => left.lexemes ++ right.lexemes
  | .call name args => .name name :: argumentLexemes args

def argumentLexemes : List Term → List Lexeme
  | [] => []
  | arg :: rest => arg.lexemes ++ argumentLexemes rest

end

@[simp] private theorem argumentLexemes_eq (args : List Term) :
    argumentLexemes args = args.flatMap lexemes := by
  induction args with
  | nil => rfl
  | cons arg rest ih => rw [argumentLexemes, ih, List.flatMap_cons]

theorem lexemes_ne_nil (term : Term) : term.lexemes ≠ [] := by
  induction term with
  | num value => simp [lexemes]
  | var name => simp [lexemes]
  | neg operand ih => exact ih
  | binary op left right ih _ => simp [lexemes, ih]
  | call name args _ => simp [lexemes]

end Term

namespace Parsing
open OperatorTree

def Token.lexeme? : Token → Option Lexeme
  | .constant (.number value) => some (.number value)
  | .identifier name => some (.name name)
  | _ => none

def Operator.lexeme? : Operator → Option Lexeme
  | .constant (.number value) => some (.number value)
  | .reference name | .function name => some (.name name)
  | _ => none

@[simp] theorem Operator.lexeme?_of_binary? {op : Operator} {operation : Operation}
    (h : op.binary? = some operation) : op.lexeme? = none := by
  cases op <;> first | rfl | cases h

def Item.lexeme? : Item → Option Lexeme
  | .operator op => op.lexeme?
  | .opening | .closing => none

/-! From tokens to items. -/

theorem Mark.lexeme?_eq_none {mark : Mark} {op : Operator} (mem : .operator op ∈ mark.tokens) :
    op.lexeme? = none := by
  cases mark <;> simp [Mark.tokens, Mark.usage] at mem <;>
    first | subst mem; rfl | (rcases mem with rfl | rfl <;> rfl)

theorem Token.mark_of_operator {chars : List Char} {tokens : List Token}
    (h : Token.ofChars chars = .ok tokens) {op : Operator} (mem : .operator op ∈ tokens) :
    ∃ mark : Mark, .operator op ∈ mark.tokens := by
  obtain ⟨pieces, -, lexed⟩ := of_bind_ok h
  cases comesFrom_ofPieces lexed _ mem with
  | mark isMark => exact ⟨_, isMark⟩

private theorem Item.lexeme?_ofIdentifier (name : String) (next : Option Token) :
    (ofIdentifier name next).lexeme? = some (.name name) := by
  unfold ofIdentifier
  split <;> rfl

theorem Item.ofTokens_cons {token : Token} (mark : ∀ op, token = .operator op → op.lexeme? = none)
    (behindOperand : Bool) (tokens : List Token) :
    ∃ item behind, ofTokens behindOperand (token :: tokens) = item :: ofTokens behind tokens ∧
      item.lexeme? = token.lexeme? := by
  cases token with
  | constant value => exact ⟨_, true, rfl, by cases value <;> rfl⟩
  | identifier name => exact ⟨_, true, rfl, lexeme?_ofIdentifier name tokens.head?⟩
  | opening => exact ⟨.opening, false, rfl, rfl⟩
  | closing => exact ⟨.closing, true, rfl, rfl⟩
  | minus => exact ⟨_, false, rfl, by cases behindOperand <;> rfl⟩
  | operator op => exact ⟨.operator op, false, rfl, mark op rfl⟩

theorem Item.lexemes_ofTokens {tokens : List Token}
    (marks : ∀ op, .operator op ∈ tokens → op.lexeme? = none) (behindOperand : Bool) :
    (ofTokens behindOperand tokens).filterMap lexeme? = tokens.filterMap Token.lexeme? := by
  induction tokens generalizing behindOperand with
  | nil => rfl
  | cons token tokens ih =>
    have here : ∀ op, token = .operator op → op.lexeme? = none := by
      rintro op rfl
      exact marks op List.mem_cons_self
    obtain ⟨item, behind, same, lexeme⟩ := ofTokens_cons here behindOperand tokens
    have rest := ih (fun op mem => marks op (List.mem_cons_of_mem _ mem)) behind
    rw [same, List.filterMap_cons, List.filterMap_cons, lexeme, rest]

/-! From items to trees. -/

namespace OperatorTree

mutual

def lexemes : OperatorTree → List Lexeme
  | node op operands => op.lexeme?.toList ++ lexemesOf operands

def lexemesOf : List OperatorTree → List Lexeme
  | [] => []
  | latest :: earlier => lexemesOf earlier ++ latest.lexemes

end

@[simp] theorem lexemesOf_eq (operands : List OperatorTree) :
    lexemesOf operands = operands.reverse.flatMap lexemes := by
  induction operands with
  | nil => rfl
  | cons latest earlier ih => simp [lexemesOf, ih]

theorem lexeme?_of_infix {op : Operator} (notLeaf : op.isLeaf = false)
    (notUnary : op.isUnary = false) : op.lexeme? = none := by
  cases op <;> first | rfl | contradiction

theorem Inserted.lexemes {tree outer after : OperatorTree} (h : Inserted tree outer after)
    (piece : tree.IsPiece) : after.lexemes = outer.lexemes ++ tree.lexemes := by
  induction h with
  | first _ => simp [OperatorTree.lexemes, lexemesOf]
  | next _ => simp [OperatorTree.lexemes, lexemesOf]
  | deeper _ _ _ ih => simp [OperatorTree.lexemes, lexemesOf, ih]
  | around _ stays notLeaf empty =>
    obtain ⟨op, operands⟩ := tree
    have noLexeme := lexeme?_of_infix notLeaf (Operator.isUnary_of_not_admits stays)
    obtain rfl : operands = [] := piece.operands_eq_nil fun group => (empty group).2.2
    change op.lexeme? = none at noLexeme
    simp [OperatorTree.lexemes, lexemesOf, push, noLexeme]

end OperatorTree

namespace Level

def lexemes (level : Level) : List Lexeme := lexemesOf level.positions

@[simp] theorem lexemes_group (level : Level) : level.group.lexemes = level.lexemes := by
  obtain ⟨earlier, current, rooted⟩ := level
  cases earlier with
  | nil => simp [group, lexemes, positions]
  | cons latest earlier =>
    simp [group, lexemes, positions, OperatorTree.lexemes, Operator.lexeme?]

theorem Takes.lexemes {level after : Level} {tree : OperatorTree} (h : level.Takes tree after)
    (piece : tree.IsPiece) : after.lexemes = level.lexemes ++ tree.lexemes := by
  unfold Level.lexemes positions
  rw [lexemesOf, lexemesOf, h.earlier, h.inserted.lexemes piece, List.append_assoc]

def lexemesOf (levels : List Level) : List Lexeme := levels.reverse.flatMap lexemes

@[simp] theorem lexemesOf_cons (level : Level) (below : List Level) :
    lexemesOf (level :: below) = lexemesOf below ++ level.lexemes := by
  simp [lexemesOf]

@[simp] theorem lexemes_emptyRoot : emptyRoot.lexemes = [] := rfl

theorem Step.lexemes {levels after : List Level} {item : Item} (h : Step levels item after) :
    lexemesOf after = lexemesOf levels ++ item.lexeme?.toList := by
  cases h with
  | opening => simp [start, Level.lexemes, positions, Item.lexeme?]
  | comma => simp [next, Level.lexemes, positions, Item.lexeme?, Operator.lexeme?]
  | operator notSequence takes =>
    simp [takes.lexemes (.bare notSequence), OperatorTree.lexemes, Item.lexeme?]
  | @closing inner _ _ _ takes =>
    simp [takes.lexemes (.group inner.operator_group), Item.lexeme?]

theorem Run.lexemes {levels after : List Level} {items : List Item} (h : Run levels items after) :
    lexemesOf after = lexemesOf levels ++ items.filterMap Item.lexeme? := by
  induction h with
  | done => simp
  | step first _ ih =>
    rw [List.filterMap_eq_flatMap_toList] at ih ⊢
    rw [ih, first.lexemes, List.append_assoc, List.flatMap_cons]

end Level

/-! From trees to formulas. -/

structure Reading.Spells (reading : Reading) (lexemes : List Lexeme) : Prop where
  operand : ∀ term, reading.operand = .ok term → term.lexemes = lexemes
  arguments : ∀ args, reading.arguments = .ok args → args.flatMap Term.lexemes = lexemes

namespace Reading

section Operands
variable {op : Operator} {readings : List Reading} {parts : List (List Lexeme)}
  (each : List.Forall₂ Spells readings parts)
include each

theorem lexemes_allArguments {args : List Term} (read : allArguments readings = .ok args) :
    args.flatMap Term.lexemes = parts.flatten := by
  induction each generalizing args with
  | nil =>
    cases read
    rfl
  | cons first _ ih =>
    obtain ⟨here, readHere, read⟩ := of_bind_ok read
    obtain ⟨behind, readBehind, same⟩ := of_bind_ok read
    cases same
    rw [List.flatMap_append, first.arguments here readHere, ih readBehind, List.flatten_cons]

private theorem lexemes_foldOperands {operation : Operation} {left term : Term}
    (read : foldOperands operation left readings = .ok term) :
    term.lexemes = left.lexemes ++ parts.flatten := by
  induction each generalizing left with
  | nil =>
    cases read
    exact (List.append_nil _).symm
  | cons first _ ih =>
    obtain ⟨right, readRight, others⟩ := of_bind_ok read
    rw [ih others, Term.lexemes, first.operand right readRight, List.flatten_cons,
      List.append_assoc]

theorem Yields.lexemes {term : Term} (h : Yields op readings term)
    (bare : op.isLeaf = true → readings = []) :
    term.lexemes = op.lexeme?.toList ++ parts.flatten := by
  cases h with
  | group inner =>
    cases each with
    | cons only rest =>
      cases rest
      simp [Operator.lexeme?, only.operand _ inner]
  | num =>
    cases bare rfl
    cases each
    rfl
  | var =>
    cases bare rfl
    cases each
    rfl
  | call inner =>
    have args := lexemes_allArguments each inner
    simp [Term.lexemes, Term.argumentLexemes_eq, args, Operator.lexeme?]
  | neg inner =>
    cases each with
    | cons only rest =>
      cases rest
      simp [Term.lexemes, Operator.lexeme?, only.operand _ inner]
  | binary meaning readFirst others =>
    have noLexeme := Operator.lexeme?_of_binary? meaning
    cases each with
    | cons first rest =>
      simp [noLexeme, lexemes_foldOperands rest others, first.operand _ readFirst]

theorem Contributes.lexemes {args : List Term} (h : Contributes op readings args)
    (bare : op.isLeaf = true → readings = []) :
    args.flatMap Term.lexemes = op.lexeme?.toList ++ parts.flatten := by
  cases h with
  | empty =>
    cases each
    rfl
  | group inner =>
    cases each with
    | cons only rest =>
      cases rest
      simp [Operator.lexeme?, only.arguments _ inner]
  | listing inner =>
    rw [lexemes_allArguments each inner]
    rfl
  | single yields =>
    rw [List.flatMap_singleton]
    exact yields.lexemes each bare

theorem spells_ofNode (bare : op.isLeaf = true → readings = []) :
    (ofNode op readings).Spells (op.lexeme?.toList ++ parts.flatten) where
  operand term read := by
    change operandOf op readings = .ok term at read
    exact (yields_of_operandOf read).lexemes each bare
  arguments args read := by
    change argumentsOf op readings = .ok args at read
    exact (contributes_of_argumentsOf read).lexemes each bare

end Operands
end Reading

namespace OperatorTree

private theorem forall₂_spells {operands : List OperatorTree}
    (h : ∀ operand ∈ operands, operand.reading.Spells operand.lexemes) :
    List.Forall₂ Reading.Spells (operands.reverse.map reading) (operands.reverse.map lexemes) := by
  rw [List.forall₂_map_left_iff, List.forall₂_map_right_iff, List.forall₂_same]
  exact fun operand mem => h operand (List.mem_reverse.1 mem)

theorem Bare.spells {tree : OperatorTree} (bare : tree.Bare) :
    tree.reading.Spells tree.lexemes := by
  induction bare with
  | @node op operands bare _ _ ih =>
    rw [reading_node, lexemes, lexemesOf_eq, List.flatMap_def]
    apply Reading.spells_ofNode (forall₂_spells ih)
    intro leaf
    rw [bare leaf]
    rfl

theorem lexemes_readings {operands : List OperatorTree}
    (bare : ∀ operand ∈ operands, operand.Bare) {args : List Term}
    (read : Reading.allArguments (operands.reverse.map reading) = .ok args) :
    args.flatMap Term.lexemes = lexemesOf operands := by
  rw [lexemesOf_eq, List.flatMap_def (f := lexemes)]
  exact Reading.lexemes_allArguments (forall₂_spells fun operand mem => (bare operand mem).spells)
    read

end OperatorTree
end Parsing

namespace Accepted
open Parsing

private theorem lexemes_items (t : Accepted) :
    t.items.filterMap Item.lexeme? = t.tokens.filterMap Token.lexeme? := by
  apply Item.lexemes_ofTokens
  intro op mem
  obtain ⟨mark, isMark⟩ := Token.mark_of_operator t.ofChars_tokens.1 mem
  exact Mark.lexeme?_eq_none isMark

private theorem lexemes_term (t : Accepted) :
    t.term.lexemes = t.tokens.filterMap Token.lexeme? := by
  obtain ⟨last, run, same⟩ := t.run_levels
  have bare := OperatorTree.bare_of_ofItems t.ofChars_tokens.2
  have lexemes := run.lexemes
  simp only [Level.lexemesOf_cons] at lexemes
  rw [bare.spells.operand t.term t.ofChars_tree.2, same, last.lexemes_group, ← t.lexemes_items]
  exact lexemes

end Accepted

/-- A text that is accepted is a formula with exactly the numbers and names of the text, in their
order. -/
theorem parse_keeps_lexemes {text : String} {term : Term} (accepted : parse text = .ok term) :
    ∃ tokens, Parsing.Token.ofChars text.toList = .ok tokens ∧
      term.lexemes = tokens.filterMap Parsing.Token.lexeme? :=
  let t : Accepted := ⟨text, term, accepted⟩
  ⟨t.tokens, t.ofChars_tokens.1, t.lexemes_term⟩

theorem parse_keeps_lexemes_of_juxtaposed :
    ∃ term, parse "sin x + pow(y,,z)" = .ok term ∧
      ∃ tokens, Parsing.Token.ofChars "sin x + pow(y,,z)".toList = .ok tokens ∧
        term.lexemes = tokens.filterMap Parsing.Token.lexeme? := by
  let arguments : Parsing.OperatorTree :=
    .node .tuple [.node .root [.node (.reference "z") []], .emptyRoot,
      .node .root [.node (.reference "y") []]]
  let tree : Parsing.OperatorTree :=
    .node .root [.node .add [.node (.function "pow") [.node .root [arguments]],
      .node (.function "sin") [.node (.reference "x") []]]]
  have made : Parsing.OperatorTree.ofChars "sin x + pow(y,,z)".toList = .ok tree := rfl
  have read : tree.toTerm =
      .ok (.binary .add (.call "sin" [.var "x"]) (.call "pow" [.var "y", .var "z"])) := rfl
  exact ⟨_, parse_of_tree made read, parse_keeps_lexemes (parse_of_tree made read)⟩

end CellFormula
