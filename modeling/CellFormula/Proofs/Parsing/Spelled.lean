import CellFormula.Proofs.Parsing.Numeral
import CellFormula.Proofs.Parsing.Readings
import CellFormula.Proofs.Parsing.Writing
/-! The names and numbers of an accepted text are words of it: its names spell no constants, and its
numbers have no sign. Both come from the pieces, and neither tokens nor trees add to them. -/
namespace CellFormula.Parsing

def IsName (name : String) : Prop := ∃ identifier : Identifier, identifier.text = name

namespace Glyph

def IsLegible : Glyph → Prop
  | letter c => ofChar c = .letter c ∧ c ≠ '"'
  | mark _ | blank | quoted _ => True

theorem legible_ofChar {c : Char} (quote : c ≠ '"') : (ofChar c).IsLegible := by
  cases glyph : ofChar c with
  | letter d =>
    have same : c = d := by
      unfold ofChar at glyph
      split at glyph
      · cases glyph
      · split at glyph
        · cases glyph
        · exact letter.inj glyph
    subst same
    exact ⟨glyph, quote⟩
  | mark m => trivial
  | blank => trivial
  | quoted contents => trivial

end Glyph

namespace Mode

private theorem legible_readPlain (c : Char) : ∀ glyph ∈ (readPlain c).2, glyph.IsLegible := by
  unfold readPlain
  split
  · exact List.forall_mem_nil _
  · rename_i quote
    split
    · exact List.forall_mem_nil _
    · exact List.forall_mem_singleton.2 (Glyph.legible_ofChar quote)

private theorem legible_step {mode next : Mode} {c : Char} {settled : List Glyph}
    (h : mode.step c = .ok (next, settled)) : ∀ glyph ∈ settled, glyph.IsLegible := by
  cases mode with
  | plain =>
    have read : readPlain c = (next, settled) := Except.ok.inj h
    have legible := legible_readPlain c
    rwa [read] at legible
  | slash =>
    rw [step] at h
    split at h
    · cases h
      exact List.forall_mem_nil _
    · split at h
      · cases h
        exact List.forall_mem_nil _
      · cases h
        exact List.forall_mem_cons.2 ⟨trivial, legible_readPlain c⟩
  | lineComment =>
    cases h
    exact List.forall_mem_nil _
  | blockComment =>
    cases h
    exact List.forall_mem_nil _
  | blockStar =>
    cases h
    exact List.forall_mem_nil _
  | quoted contents =>
    rw [step] at h
    split at h
    · cases h
      exact List.forall_mem_singleton.2 trivial
    · split at h
      · cases h
        exact List.forall_mem_nil _
      · cases h
        exact List.forall_mem_nil _
  | escaped contents =>
    rw [step] at h
    split at h
    · cases h
      exact List.forall_mem_nil _
    · cases h

theorem legible_glyphs {mode : Mode} {chars : List Char} {glyphs : List Glyph}
    (h : mode.glyphs chars = .ok glyphs) : ∀ glyph ∈ glyphs, glyph.IsLegible := by
  induction chars generalizing mode glyphs with
  | nil =>
    cases mode with
    | plain =>
      cases h
      exact List.forall_mem_nil _
    | slash =>
      cases h
      exact List.forall_mem_singleton.2 trivial
    | lineComment =>
      cases h
      exact List.forall_mem_nil _
    | blockComment => cases h
    | blockStar => cases h
    | quoted contents => cases h
    | escaped contents => cases h
  | cons c chars ih =>
    obtain ⟨next, settled, rest, step, scanned, rfl⟩ := of_glyphs_cons h
    exact List.forall_mem_append.2 ⟨legible_step step, ih scanned⟩

end Mode

namespace Piece

/-- Letters of a word that can be written again. -/
def IsLegible : Piece → Prop
  | word letters => ∃ spelled : Word, spelled.letters = letters
  | mark _ | blank | quoted _ => True

private theorem legible_join {glyph : Glyph} {pieces : List Piece} (h : glyph.IsLegible)
    (h' : ∀ piece ∈ pieces, piece.IsLegible) : ∀ piece ∈ join glyph pieces, piece.IsLegible := by
  cases glyph with
  | letter c =>
    have alone : (word [c]).IsLegible :=
      ⟨⟨[c], List.cons_ne_nil _ _, List.forall_mem_singleton.2 h⟩, rfl⟩
    cases pieces with
    | nil => exact List.forall_mem_singleton.2 alone
    | cons piece rest =>
      cases piece with
      | word letters =>
        obtain ⟨⟨spelled, same⟩, others⟩ := List.forall_mem_cons.1 h'
        subst same
        have longer : (word (c :: spelled.letters)).IsLegible :=
          ⟨⟨c :: spelled.letters, List.cons_ne_nil _ _,
            List.forall_mem_cons.2 ⟨h, spelled.letter⟩⟩, rfl⟩
        exact List.forall_mem_cons.2 ⟨longer, others⟩
      | mark m => exact List.forall_mem_cons.2 ⟨alone, h'⟩
      | blank => exact List.forall_mem_cons.2 ⟨alone, h'⟩
      | quoted contents => exact List.forall_mem_cons.2 ⟨alone, h'⟩
  | mark m => exact List.forall_mem_cons.2 ⟨trivial, h'⟩
  | blank => exact List.forall_mem_cons.2 ⟨trivial, h'⟩
  | quoted contents => exact List.forall_mem_cons.2 ⟨trivial, h'⟩

theorem legible_ofGlyphs {glyphs : List Glyph} (h : ∀ glyph ∈ glyphs, glyph.IsLegible) :
    ∀ piece ∈ ofGlyphs glyphs, piece.IsLegible := by
  induction glyphs with
  | nil => exact List.forall_mem_nil _
  | cons glyph rest ih =>
    obtain ⟨first, others⟩ := List.forall_mem_cons.1 h
    exact legible_join first (ih others)

end Piece

def Operator.IsSpelled : Operator → Prop
  | .constant (.number value) => Number.IsUnsigned value
  | .reference name | .function name => IsName name
  | _ => True

namespace Token

def IsSpelled : Token → Prop
  | .constant value => (Operator.constant value).IsSpelled
  | .identifier name => IsName name
  | .operator op => op.IsSpelled
  | .opening | .closing | .minus => True

private theorem spelled_constant {letters : List Char} {value : Constant}
    (h : Constant.ofWord? letters = some value) : (Token.constant value).IsSpelled := by
  cases value with
  | number x => exact Number.isUnsigned_ofWord? h
  | text contents => trivial
  | truth value => trivial

private theorem spelled_signed {letters digits : List Char} {sign : Mark} {value : Constant}
    (h : Constant.ofSignedExponent? letters sign digits = some value) :
    (Token.constant value).IsSpelled := by
  cases value with
  | number x => exact Number.isUnsigned_ofSignedExponent? h
  | text contents => trivial
  | truth value => trivial

private theorem spelled_identifier {letters : List Char}
    (noConstant : Constant.ofWord? letters = none) (h : (Piece.word letters).IsLegible) :
    (Token.identifier (String.ofList letters)).IsSpelled := by
  obtain ⟨word, rfl⟩ := h
  exact ⟨⟨word, noConstant⟩, rfl⟩

private theorem spelled_mark (mark : Mark) : ∀ token ∈ mark.tokens, token.IsSpelled := by
  cases mark <;> simp [Mark.tokens, Mark.usage, IsSpelled, Operator.IsSpelled]

theorem spelled_ofPieces {pieces : List Piece} {tokens : List Token}
    (legible : ∀ piece ∈ pieces, piece.IsLegible) (h : ofPieces pieces = .ok tokens) :
    ∀ token ∈ tokens, token.IsSpelled := by
  intro token mem
  cases comesFrom_ofPieces h token mem with
  | quoted => trivial
  | word spelled => exact spelled_constant spelled
  | signed spelled => exact spelled_signed spelled
  | identifier isWord noConstant =>
    exact spelled_identifier noConstant (legible _ isWord)
  | mark isMark => exact spelled_mark _ token isMark

end Token

theorem Item.spelled_ofTokens {tokens : List Token} (h : ∀ token ∈ tokens, token.IsSpelled)
    (behindOperand : Bool) :
    ∀ op, .operator op ∈ ofTokens behindOperand tokens → op.IsSpelled := by
  induction tokens generalizing behindOperand with
  | nil =>
    intro op mem
    cases mem
  | cons token tokens ih =>
    obtain ⟨spelled, others⟩ := List.forall_mem_cons.1 h
    intro op mem
    cases token with
    | constant value =>
      rcases List.mem_cons.1 mem with same | mem
      · cases same
        exact spelled
      · exact ih others true op mem
    | identifier name =>
      rcases List.mem_cons.1 mem with same | mem
      · unfold ofIdentifier at same
        split at same
        · cases same
          exact spelled
        · cases same
          exact spelled
        · cases same
          exact spelled
        · cases same
          exact spelled
      · exact ih others true op mem
    | opening =>
      rcases List.mem_cons.1 mem with same | mem
      · cases same
      · exact ih others false op mem
    | closing =>
      rcases List.mem_cons.1 mem with same | mem
      · cases same
      · exact ih others true op mem
    | minus =>
      rcases List.mem_cons.1 mem with same | mem
      · cases behindOperand <;> cases same <;> trivial
      · exact ih others false op mem
    | operator op' =>
      rcases List.mem_cons.1 mem with same | mem
      · cases same
        exact spelled
      · exact ih others false op mem

end CellFormula.Parsing

namespace CellFormula
open Parsing

inductive Term.IsSpelled : Term → Prop
  | num {value : Float} (unsigned : Number.IsUnsigned value) : IsSpelled (.num value)
  | var {name : String} (isName : IsName name) : IsSpelled (.var name)
  | neg {operand : Term} (spelled : IsSpelled operand) : IsSpelled (.neg operand)
  | binary {op : Operation} {left right : Term} (leftSpelled : IsSpelled left)
      (rightSpelled : IsSpelled right) : IsSpelled (.binary op left right)
  | call {name : String} {args : List Term} (isName : IsName name)
      (spelled : ∀ arg ∈ args, IsSpelled arg) : IsSpelled (.call name args)

namespace Parsing

structure Reading.IsSpelled (reading : Reading) : Prop where
  operand : ∀ term, reading.operand = .ok term → term.IsSpelled
  arguments : ∀ args, reading.arguments = .ok args → ∀ arg ∈ args, arg.IsSpelled

namespace Reading

private theorem spelled_allArguments {readings : List Reading}
    (h : ∀ reading ∈ readings, reading.IsSpelled)
    {args : List Term} (read : allArguments readings = .ok args) : ∀ arg ∈ args, arg.IsSpelled := by
  induction readings generalizing args with
  | nil =>
    cases read
    exact List.forall_mem_nil _
  | cons reading rest ih =>
    obtain ⟨first, others⟩ := List.forall_mem_cons.1 h
    obtain ⟨here, readHere, read⟩ := of_bind_ok read
    obtain ⟨behind, readBehind, same⟩ := of_bind_ok read
    cases same
    exact List.forall_mem_append.2 ⟨first.arguments here readHere, ih others readBehind⟩

private theorem spelled_foldOperands {op : Operation} {left term : Term} {readings : List Reading}
    (h : ∀ reading ∈ readings, reading.IsSpelled) (spelled : left.IsSpelled)
    (read : foldOperands op left readings = .ok term) : term.IsSpelled := by
  induction readings generalizing left with
  | nil =>
    cases read
    exact spelled
  | cons reading rest ih =>
    obtain ⟨first, others⟩ := List.forall_mem_cons.1 h
    obtain ⟨right, readRight, read⟩ := of_bind_ok read
    exact ih others (.binary spelled (first.operand right readRight)) read

theorem spelled_of_yields {op : Operator} (spelled : op.IsSpelled) {readings : List Reading}
    (h : ∀ reading ∈ readings, reading.IsSpelled) {term : Term}
    (yields : Yields op readings term) : term.IsSpelled := by
  cases yields with
  | group inner => exact (List.forall_mem_singleton.1 h).operand term inner
  | num => exact .num spelled
  | var => exact .var spelled
  | call inner => exact .call spelled (spelled_allArguments h inner)
  | neg inner => exact .neg ((List.forall_mem_singleton.1 h).operand _ inner)
  | binary _ readFirst others =>
    obtain ⟨first, rest⟩ := List.forall_mem_cons.1 h
    exact spelled_foldOperands rest (first.operand _ readFirst) others

theorem spelled_ofNode {op : Operator} (spelled : op.IsSpelled) {readings : List Reading}
    (h : ∀ reading ∈ readings, reading.IsSpelled) : (ofNode op readings).IsSpelled where
  operand term read := spelled_of_yields spelled h (yields_of_operandOf read)
  arguments args read := by
    change argumentsOf op readings = .ok args at read
    cases contributes_of_argumentsOf read with
    | empty => exact List.forall_mem_nil _
    | group inner => exact (List.forall_mem_singleton.1 h).arguments args inner
    | listing inner => exact spelled_allArguments h inner
    | single yields => exact List.forall_mem_singleton.2 (spelled_of_yields spelled h yields)

end Reading

theorem OperatorTree.spelled_readings {operands : List OperatorTree}
    (h : ∀ operand ∈ operands, operand.reading.IsSpelled) :
    ∀ reading ∈ readings operands, reading.IsSpelled := by
  induction operands with
  | nil =>
    intro reading mem
    cases mem
  | cons latest earlier ih =>
    obtain ⟨first, others⟩ := List.forall_mem_cons.1 h
    rw [readings]
    exact List.forall_mem_append.2 ⟨ih others, List.forall_mem_singleton.2 first⟩

theorem OperatorTree.All.reading {tree : OperatorTree} (h : tree.All Operator.IsSpelled) :
    tree.reading.IsSpelled := by
  induction h with
  | node _ here _ ih => exact Reading.spelled_ofNode here (spelled_readings ih)

end Parsing

theorem Accepted.spelled (t : Accepted) : t.term.IsSpelled := by
  obtain ⟨pieces, cut, lexed⟩ := of_bind_ok t.ofChars_tokens.1
  obtain ⟨glyphs, scanned, same⟩ := of_bind_ok cut
  cases same
  have tokens := Token.spelled_ofPieces (Piece.legible_ofGlyphs (Mode.legible_glyphs scanned)) lexed
  have all := (OperatorTree.all_ofItems trivial t.ofChars_tokens.2).2
    (Item.spelled_ofTokens tokens false)
  exact all.reading.operand t.term t.ofChars_tree.2

end CellFormula
