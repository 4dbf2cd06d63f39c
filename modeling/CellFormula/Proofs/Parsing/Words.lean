import CellFormula.Proofs.Parsing.Printing
/-! Texts of one word, and assignments to a word. A word that spells a constant is that constant
wherever it stands, also as the target of an assignment; all other words are variables. Few words
without a digit spell one. -/
namespace CellFormula.Parsing
open OperatorTree

/-- A character of words that is no digit. All letters are such characters. -/
def IsLetter (c : Char) : Prop := Glyph.ofChar c = .letter c ∧ c ≠ '"' ∧ c.isDigit = false

instance (c : Char) : Decidable (IsLetter c) :=
  inferInstanceAs (Decidable (Glyph.ofChar c = .letter c ∧ c ≠ '"' ∧ c.isDigit = false))

theorem isLetter_of_isAlpha {c : Char} (h : c.isAlpha = true) : IsLetter c := by
  have bounds : c.toNat < 123 := by
    simp only [Char.isAlpha, Char.isUpper, Char.isLower, Char.reduceVal, ge_iff_le,
      UInt32.le_iff_toNat_le, UInt32.reduceToNat, Char.toNat_val, Bool.decide_and, Bool.or_eq_true,
      Bool.and_eq_true, decide_eq_true_eq] at h
    omega
  have all : ∀ code < 123, (Char.ofNat code).isAlpha = true → IsLetter (Char.ofNat code) := by
    decide +kernel
  have letter := all c.toNat bounds
  rw [Char.ofNat_toNat] at letter
  exact letter h

/-- The names without a digit that read as constants. -/
def IsConstantWord (name : String) : Prop :=
  name.toList.map Char.toLower ∈ ["inf".toList, "infinity".toList, "nan".toList] ∨
    name ∈ ["true", "false"]

instance (name : String) : Decidable (IsConstantWord name) :=
  inferInstanceAs (Decidable (name.toList.map Char.toLower ∈ _ ∨ name ∈ _))

section Letters
variable {letters : List Char}

private theorem integer?_letters (h : ∀ c ∈ letters, c.isDigit = false) :
    Constant.integer? letters = none := by
  unfold Constant.integer?
  split
  · rename_i digits
    cases h '0' List.mem_cons_self
  · unfold Constant.integer?.bounded
    rw [if_neg]
    rintro ⟨nonempty, digits, -⟩
    obtain ⟨c, rest, rfl⟩ := List.exists_cons_of_ne_nil nonempty
    have digit := List.all_eq_true.1 digits c List.mem_cons_self
    rw [h c List.mem_cons_self] at digit
    cases digit

private theorem takeWhile_letters (h : ∀ c ∈ letters, c.isDigit = false) :
    letters.takeWhile Char.isDigit = [] ∧ letters.dropWhile Char.isDigit = letters := by
  obtain ⟨none, all⟩ := Decimal.takeWhile_digits (List.forall_mem_nil _ : AreDigits []) letters
    fun c first => h c (List.mem_of_head? first)
  rw [List.nil_append] at none all
  exact ⟨none, all⟩

private theorem read?_letters (h : ∀ c ∈ letters, c.isDigit = false) :
    Decimal.read? letters = none := by
  obtain ⟨whole, rest⟩ := takeWhile_letters h
  have fraction : (Decimal.splitFraction letters).1 = [] := by
    unfold Decimal.splitFraction
    split
    · rename_i behind
      exact (takeWhile_letters fun c mem => h c (List.mem_cons_of_mem _ mem)).1
    · rfl
  unfold Decimal.read?
  rw [whole, rest]
  simp [fraction]

theorem ofWord?_eq_none_iff {name : String} (h : ∀ c ∈ name.toList, c.isDigit = false) :
    Constant.ofWord? name.toList = none ↔ ¬ IsConstantWord name := by
  have membership : IsConstantWord name ↔
      (name.toList.map Char.toLower = "inf".toList ∨
        name.toList.map Char.toLower = "infinity".toList) ∨
      name.toList.map Char.toLower = "nan".toList ∨
      name.toList = "true".toList ∨ name.toList = "false".toList := by
    unfold IsConstantWord
    simp only [List.mem_cons, List.not_mem_nil, or_false, String.toList_inj, or_assoc]
  rw [membership, Constant.ofWord?, integer?_letters h, Number.readUnsigned?, read?_letters h,
    Option.map_none]
  dsimp only
  split_ifs with infinite notANumber yes no
  · exact iff_of_false not_false (not_not_intro (.inl infinite))
  · exact iff_of_false not_false (not_not_intro (.inr (.inl notANumber)))
  · exact iff_of_false not_false (not_not_intro (.inr (.inr (.inl yes))))
  · exact iff_of_false not_false (not_not_intro (.inr (.inr (.inr no))))
  · refine iff_of_true rfl ?_
    rintro (spelled | spelled | spelled | spelled)
    · exact infinite spelled
    · exact notANumber spelled
    · exact yes spelled
    · exact no spelled

end Letters

namespace Word

def text (word : Word) : String := String.ofList word.letters

@[simp] theorem toList_text (word : Word) : word.text.toList = word.letters := String.toList_ofList

theorem text_injective {word other : Word} (h : word.text = other.text) : word = other := by
  obtain ⟨letters, nonempty, letter⟩ := word
  obtain ⟨others, _, _⟩ := other
  obtain rfl : letters = others := String.ofList_injective h
  rfl

def operator (word : Word) : Operator :=
  match Constant.ofWord? word.letters with
  | some value => .constant value
  | none => .reference word.text

def token (word : Word) : Token :=
  match Constant.ofWord? word.letters with
  | some value => .constant value
  | none => .identifier word.text

def tree (word : Word) : OperatorTree := .node word.operator []

theorem lexes (word : Word) {rest : List Glyph} (noWord : Piece.startsWord rest = false)
    (noSign : ∀ sign after, Piece.ofGlyphs rest = .mark sign :: after →
      sign ≠ .plus ∧ sign ≠ .minus) :
    Lexes (word.letters.map .letter) [word.token] rest := by
  unfold token
  cases spelled : Constant.ofWord? word.letters with
  | some value => exact Lexes.constant word.nonempty spelled noWord
  | none =>
    apply Lexes.identifier word.nonempty spelled noWord
    intro sign digits after same
    obtain ⟨plus, minus⟩ := noSign sign _ same
    exact Token.ofSignedExponent?_eq_none plus minus _ _

theorem ofTokens (word : Word) {rest : List Token} (h : BehindVariable rest) :
    Item.ofTokens false (word.token :: rest) =
      .operator word.operator :: Item.ofTokens true rest := by
  unfold token operator
  cases Constant.ofWord? word.letters with
  | some value => rfl
  | none => exact congrArg (· :: Item.ofTokens true rest) (h word.text)

private theorem operator_cases (word : Word) :
    (∃ value, word.operator = .constant value) ∨ word.operator = .reference word.text := by
  unfold operator
  cases Constant.ofWord? word.letters with
  | some value => exact .inl ⟨value, rfl⟩
  | none => exact .inr rfl

theorem run (word : Word) :
    [Item.operator word.operator].foldlM Stack.step [emptyRoot] =
      .ok [.node .root [word.tree]] := by
  apply run_operator .start
  obtain ⟨value, same⟩ | same := word.operator_cases
  · rw [same]
    exact .inl rfl
  · rw [same]
    exact .inl rfl

theorem parse_eq (word : Word) : parse word.text = word.tree.toTerm.mapError .ofGrammar := by
  have spells : Spells word.letters (word.letters.map .letter) [word.token] := by
    refine ⟨word.scans, fun rest ends => word.lexes ends.startsWord ?_⟩
    exact fun sign after same => ends.no_sign same
  have made : OperatorTree.ofTokens [word.token] = .ok (.node .root [word.tree]) := by
    rw [OperatorTree.ofTokens, word.ofTokens fun name => rfl, Item.ofTokens, OperatorTree.ofItems,
      word.run]
    rfl
  have read := spells.parse_eq made
  exact read

theorem toTerm_tree (word : Word) :
    word.tree.toTerm =
      match Constant.ofWord? word.letters with
      | none => .ok (.var word.text)
      | some (.number value) => .ok (.num value)
      | some value => .error (.nonNumericConstant value) := by
  unfold tree operator
  cases Constant.ofWord? word.letters with
  | none => rfl
  | some value => cases value <;> rfl

end Word

structure Assignment where
  before : Gap
  target : Word
  behind : Gap
  value : Operand Atom

namespace Assignment

def text (a : Assignment) : List Char :=
  a.before.chars ++ (a.target.letters ++ (a.behind.chars ++ (['='] ++ a.value.text)))

def glyphs (a : Assignment) : List Glyph :=
  a.before.glyphs ++ (a.target.letters.map .letter ++
    (a.behind.glyphs ++ ([.mark .equals] ++ a.value.glyphs)))

def tokens (a : Assignment) : List Token :=
  [a.target.token] ++ ([.operator .assign] ++ a.value.tokens)

theorem spells (a : Assignment) : Spells a.text a.glyphs a.tokens where
  scans := by
    have joint := Operation.assign.scans a.value.scans a.value.opens
    exact a.before.scans.append (a.target.scans.append (a.behind.scans.append joint))
  lexes rest ends := by
    have value : Lexes a.value.glyphs a.value.tokens rest := by
      apply a.value.lexes ends.startsWord
      intro _ _ sign digits after same
      exact ends.no_sign same
    have joint : Lexes [.mark .equals] [.operator .assign] (a.value.glyphs ++ rest) :=
      Operation.assign.lexes (a.value.opens.startsEquals rest)
    have target : Lexes (a.target.letters.map .letter) [a.target.token]
        ((a.behind.glyphs ++ ([.mark .equals] ++ a.value.glyphs)) ++ rest) := by
      rw [List.append_assoc, List.append_assoc, List.singleton_append]
      obtain ⟨noWord, onlyEquals⟩ := gap_then_mark a.behind .equals (a.value.glyphs ++ rest)
      apply a.target.lexes noWord
      intro sign after same
      rw [onlyEquals sign after same]
      decide
    have behind := (a.behind.lexes _).append (joint.append value)
    exact (a.before.lexes _).append (target.append behind)

def hole (target : OperatorTree) : Hole where
  path := [⟨.root, []⟩]
  edge := ⟨.assign, [target]⟩
  fits := List.forall_mem_cons.2 ⟨rfl, List.forall_mem_singleton.2 rfl⟩
  loose := List.forall_mem_singleton.2 Operation.assign.rank_lt
  rooted := rfl

theorem step_assign (word : Word) :
    Stack.step [.node .root [word.tree]] (.operator .assign) = .ok [(hole word.tree).tree] := by
  unfold Word.tree
  obtain ⟨value, same⟩ | same := word.operator_cases
  · rw [same]
    rfl
  · rw [same]
    rfl

theorem ofTokens (a : Assignment) : OperatorTree.ofTokens a.tokens =
    .ok (.node .root [.node .assign [a.value.expression.tree Atom.tree, a.target.tree]]) := by
  have behind : BehindVariable [] := fun name => rfl
  have value := a.value.ofTokens behind
  rw [List.append_nil, Item.ofTokens, List.append_nil] at value
  have items : Item.ofTokens false a.tokens =
      [.operator a.target.operator] ++ ([.operator .assign] ++ a.value.items) := by
    rw [← value]
    exact a.target.ofTokens fun name => rfl
  have run := run_append a.target.run (run_append (run_single (step_assign a.target))
    (run_operand a.value (hole a.target.tree)))
  rw [OperatorTree.ofTokens, items, OperatorTree.ofItems, run]
  rfl

theorem parse_eq (a : Assignment) :
    parse (String.ofList a.text) = (a.target.tree.toTerm.map fun target =>
      Term.binary .assign target (a.value.expression.term Atom.term)).mapError .ofGrammar := by
  have value := Expression.reading_tree reading_atom a.value.expression
  have read : (node .root [.node .assign [a.value.expression.tree Atom.tree, a.target.tree]]).toTerm =
      a.target.tree.toTerm.map fun target =>
        Term.binary .assign target (a.value.expression.term Atom.term) := by
    change (do
      let left ← a.target.tree.toTerm
      let right ← (a.value.expression.tree Atom.tree).reading.operand
      return Term.binary .assign left right) = _
    rw [value]
    cases a.target.tree.toTerm <;> rfl
  rw [a.spells.parse_eq a.ofTokens, read]

end Assignment
end CellFormula.Parsing
