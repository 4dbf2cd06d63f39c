import CellFormula.Parse
import CellFormula.Proofs.Parsing.Enclosure
import CellFormula.Proofs.Parsing.Tokens
/-! Accepted texts in a larger text. Behind an opening parenthesis or a comma, and with a newline
behind it, a text that is a formula contributes the operator tree that it has by itself. -/
namespace CellFormula

theorem parse_of_ofChars {text : String} {tree : Parsing.OperatorTree}
    (made : Parsing.OperatorTree.ofChars text.toList = .ok tree) :
    parse text = tree.toTerm.mapError .ofGrammar := by
  unfold parse parseChars
  rw [made]
  dsimp only
  cases tree.toTerm <;> rfl

theorem parse_of_tree {text : String} {tree : Parsing.OperatorTree} {term : Term}
    (made : Parsing.OperatorTree.ofChars text.toList = .ok tree)
    (read : tree.toTerm = .ok term) : parse text = .ok term := by
  rw [parse_of_ofChars made, read]
  rfl

/-- A text that is a formula by itself. -/
structure Accepted where
  text : String
  term : Term
  accepted : parse text = .ok term

namespace Parsing
open OperatorTree

namespace Reading

theorem argumentsOf_eq {op : Operator} (noRoot : op ≠ .root) (noTuple : op ≠ .tuple)
    (readings : List Reading) :
    argumentsOf op readings = (fun term => [term]) <$> operandOf op readings := by
  cases op with
  | root => exact absurd rfl noRoot
  | tuple => exact absurd rfl noTuple
  | _ => rfl

theorem operandOf_sequence {op : Operator} (isSequence : op.isSequence = true)
    (readings : List Reading) : operandOf op readings = .error (.unsupportedOperator op) := by
  cases op with
  | tuple => rfl
  | chain => rfl
  | _ => cases isSequence

end Reading

namespace OperatorTree

@[simp] private theorem length_readings (operands : List OperatorTree) :
    (readings operands).length = operands.length := by
  induction operands with
  | nil => rfl
  | cons latest earlier ih => rw [readings, List.length_append, ih]; rfl

theorem of_operand_root {operands : List OperatorTree} {term : Term}
    (h : (node .root operands).reading.operand = .ok term) :
    ∃ child, operands = [child] ∧ child.reading.operand = .ok term := by
  have length := length_readings operands
  change Reading.operandOf .root (readings operands) = _ at h
  match operands, h, length with
  | [], h, _ => cases h
  | [child], h, _ => exact ⟨child, rfl, h⟩
  | first :: second :: others, h, length =>
    generalize readings (first :: second :: others) = all at h length
    match all, h, length with
    | _ :: _ :: _, h, _ => cases h

theorem arguments_of_operand {term : Term} :
    ∀ {tree : OperatorTree}, tree.reading.operand = .ok term →
      tree.reading.arguments = .ok [term]
  | node op operands, h => by
    by_cases root : op = .root
    · subst root
      obtain ⟨child, rfl, operand⟩ := of_operand_root h
      have inner : child.reading.arguments = .ok [term] := arguments_of_operand operand
      exact inner
    · have noTuple : op ≠ .tuple := by
        rintro rfl
        cases h
      change Reading.argumentsOf op (readings operands) = _
      change Reading.operandOf op (readings operands) = _ at h
      rw [Reading.argumentsOf_eq root noTuple, h]
      rfl

end OperatorTree

namespace Stack

private theorem singleton_ne_append {tree closed root : OperatorTree} {rest : Stack} :
    [tree] ≠ closed :: rest ++ [root] := by
  intro same
  have lengths := congrArg List.length same
  rw [List.length_append] at lengths
  simp only [List.length_cons, List.length_nil] at lengths
  omega

private theorem collapse_spoiled {upper : Stack} {root tree : OperatorTree}
    (isRoot : root.operator = .root) (spoiled : Spoiled upper)
    (h : collapse (upper ++ [root]) = .ok [tree]) (term : Term) : tree.toTerm ≠ .ok term := by
  intro read
  obtain ⟨op, last, isSequence⟩ := spoiled
  cases upper with
  | nil => cases last
  | cons top upper =>
    rw [List.cons_append, collapse] at h
    rcases close_append isRoot h with ⟨given, reached, empty, -, same⟩ | ⟨closed, rest, reached, -⟩
    · cases reached
      cases Option.some.inj (last.symm.trans same)
      cases root with
      | node outer operands =>
        obtain rfl : outer = .root := isRoot
        obtain ⟨child, only, operand⟩ := of_operand_root read
        cases only
        cases given with
        | node op operands =>
          have unsupported := Reading.operandOf_sequence isSequence (readings operands)
          cases unsupported.symm.trans operand
    · exact singleton_ne_append reached

private theorem collapse_intact {upper : Stack} {root tree : OperatorTree}
    (isRoot : root.operator = .root) (intact : Intact upper)
    (h : collapse (upper ++ [root]) = .ok [tree]) : upper = [] ∧ tree = root := by
  cases upper with
  | nil =>
    obtain ⟨same, -⟩ := close_stops isRoot h
    cases same
    exact ⟨rfl, rfl⟩
  | cons top upper =>
    rw [List.cons_append, collapse] at h
    rcases close_append isRoot h with
      ⟨last, -, -, noRoot, same⟩ | ⟨closed, rest, reached, -⟩
    · exact absurd (intact last.operator same) noRoot
    · exact (singleton_ne_append reached).elim

end Stack

theorem run_enclosed {items : List Item} {tree : OperatorTree} {term : Term}
    (h : ofItems items = .ok tree) (read : tree.toTerm = .ok term) :
    (∃ child, tree = node .root [child] ∧ child.reading.operand = .ok term) ∧
      ∀ enclosure : Enclosure,
        items.foldlM Stack.step (enclosure.stack emptyRoot) = .ok (enclosure.stack tree) := by
  obtain ⟨after, run, h⟩ := of_bind_ok h
  obtain ⟨stack, collapses, h⟩ := of_bind_ok h
  obtain rfl : stack = [tree] := by
    match stack, h with
    | [single], h =>
      cases h
      rfl
  have intact : Stack.Intact [] := fun op last => by cases last
  have alone : items.foldlM Stack.step ([] ++ [emptyRoot]) = .ok after := run
  obtain ⟨upper, root, rfl, isRoot, behaves⟩ := Stack.run_carries rfl intact alone
  rcases behaves with spoiled | ⟨intact, always⟩
  · exact absurd read (Stack.collapse_spoiled isRoot spoiled collapses term)
  · obtain ⟨rfl, rfl⟩ := Stack.collapse_intact isRoot intact collapses
    refine ⟨?_, always⟩
    cases tree with
    | node op operands =>
      obtain rfl : op = .root := isRoot
      obtain ⟨child, rfl, operand⟩ := of_operand_root read
      exact ⟨child, rfl, operand⟩

end Parsing

namespace Accepted
open Parsing

def glyphs (t : Accepted) : List Glyph :=
  (Mode.plain.glyphs (t.text.toList ++ ['\n'])).toOption.getD []

def tokens (t : Accepted) : List Token := (Token.ofChars t.text.toList).toOption.getD []

def items (t : Accepted) : List Item := Item.ofTokens false t.tokens

def tree (t : Accepted) : OperatorTree :=
  (OperatorTree.ofChars t.text.toList).toOption.getD .emptyRoot

theorem ofChars_tree (t : Accepted) :
    OperatorTree.ofChars t.text.toList = .ok t.tree ∧ t.tree.toTerm = .ok t.term := by
  have accepted := t.accepted
  unfold parse parseChars at accepted
  unfold tree
  cases made : OperatorTree.ofChars t.text.toList with
  | error error =>
    rw [made] at accepted
    cases accepted
  | ok tree =>
    rw [made] at accepted
    refine ⟨rfl, ?_⟩
    change tree.toTerm = _
    dsimp only at accepted
    cases read : tree.toTerm with
    | error error =>
      rw [read] at accepted
      cases accepted
    | ok term =>
      rw [read] at accepted
      cases accepted
      rfl

theorem ofChars_tokens (t : Accepted) :
    Token.ofChars t.text.toList = .ok t.tokens ∧ OperatorTree.ofItems t.items = .ok t.tree := by
  obtain ⟨tokens, lexed, made⟩ := of_bind_ok t.ofChars_tree.1
  unfold items Accepted.tokens
  rw [lexed]
  exact ⟨rfl, made⟩

theorem scans_and_lexes (t : Accepted) :
    Scans (t.text.toList ++ ['\n']) t.glyphs ∧
      ∀ rest, startsSeparated rest = true → Lexes t.glyphs t.tokens rest := by
  obtain ⟨pieces, cut, lexed⟩ := of_bind_ok t.ofChars_tokens.1
  obtain ⟨own, scanned, same⟩ := of_bind_ok cut
  cases same
  obtain ⟨blanks, areBlank, continues⟩ := Mode.glyphs_newline scanned
  have whole : t.glyphs = own ++ blanks := by
    have alone := continues (rfl : Mode.plain.glyphs [] = .ok [])
    rw [List.append_nil] at alone
    unfold glyphs
    rw [alone]
    rfl
  rw [whole]
  constructor
  · intro behind rest scanned
    rw [List.append_assoc]
    exact continues scanned
  · intro rest separated
    have separated' : startsSeparated (blanks ++ rest) = true := by
      cases blanks with
      | nil => exact separated
      | cons glyph blanks =>
        rw [areBlank glyph List.mem_cons_self]
        rfl
    have both := (Lexes.text lexed separated').append (Lexes.blanks areBlank rest)
    rwa [List.append_nil] at both

theorem run (t : Accepted) :
    (∃ child, t.tree = .node .root [child] ∧ child.reading.operand = .ok t.term) ∧
      ∀ enclosure : Enclosure,
        t.items.foldlM Stack.step (enclosure.stack .emptyRoot) = .ok (enclosure.stack t.tree) :=
  run_enclosed t.ofChars_tokens.2 t.ofChars_tree.2

end Accepted
end CellFormula
