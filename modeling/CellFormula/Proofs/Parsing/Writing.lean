import CellFormula.Proofs.Parsing.Accepted
import CellFormula.Proofs.Parsing.Chain
/-! Written chains: their texts, and the glyphs, tokens and items that the texts contribute. An atom
is a number, an identifier, or an accepted text in parentheses, and a call takes any number of
accepted texts. -/
namespace CellFormula.Parsing

structure Word where
  letters : List Char
  nonempty : letters ≠ []
  letter : ∀ c ∈ letters, Glyph.ofChar c = .letter c ∧ c ≠ '"'

structure Identifier extends Word where
  noConstant : Constant.ofWord? letters = none

def Identifier.text (name : Identifier) : String := String.ofList name.letters

/-- An accepted text, a newline and blanks. -/
structure Enclosed where
  content : Accepted
  behind : Gap

inductive Atom where
  | number (word : Word) (value : Float)
      (spelled : Constant.ofWord? word.letters = some (.number value))
  /-- A number whose exponent carries a sign. -/
  | scaled (word : Word) (sign : Mark) (digits : Word) (value : Float)
      (noConstant : Constant.ofWord? word.letters = none)
      (spelled : Constant.ofSignedExponent? word.letters sign digits.letters =
        some (.number value))
  | identifier (name : Identifier)
  | group (inner : Enclosed)
  | call (function : Identifier) (gap inside : Gap) (arguments : List Enclosed)

def listing (write : Enclosed → List β) (comma : β) : List Enclosed → List β
  | [] => []
  | first :: rest => write first ++ rest.flatMap fun argument => comma :: write argument

namespace Enclosed

def text (e : Enclosed) : List Char := e.content.text.toList ++ ['\n'] ++ e.behind.chars

def glyphs (e : Enclosed) : List Glyph := e.content.glyphs ++ e.behind.glyphs

def tokens (e : Enclosed) : List Token := e.content.tokens

def items (e : Enclosed) : List Item := e.content.items

end Enclosed

namespace Atom

def text : Atom → List Char
  | number word .. => word.letters
  | scaled word sign digits .. => word.letters ++ sign.char :: digits.letters
  | identifier name => name.letters
  | group inner => ['('] ++ inner.text ++ [')']
  | call function gap inside arguments =>
    function.letters ++ gap.chars ++ ['('] ++ inside.chars ++
      listing Enclosed.text ',' arguments ++ [')']

def glyphs : Atom → List Glyph
  | number word .. => word.letters.map .letter
  | scaled word sign digits .. => word.letters.map .letter ++ .mark sign :: digits.letters.map .letter
  | identifier name => name.letters.map .letter
  | group inner => [.mark .opening] ++ inner.glyphs ++ [.mark .closing]
  | call function gap inside arguments =>
    function.letters.map .letter ++ gap.glyphs ++ [.mark .opening] ++ inside.glyphs ++
      listing Enclosed.glyphs (.mark .comma) arguments ++ [.mark .closing]

def tokens : Atom → List Token
  | number _ value _ | scaled _ _ _ value .. => [.constant (.number value)]
  | identifier name => [.identifier name.text]
  | group inner => [.opening] ++ inner.tokens ++ [.closing]
  | call function _ _ arguments =>
    [.identifier function.text, .opening] ++
      listing Enclosed.tokens (.operator .tuple) arguments ++ [.closing]

def items : Atom → List Item
  | number _ value _ | scaled _ _ _ value .. => [.operator (.constant (.number value))]
  | identifier name => [.operator (.reference name.text)]
  | group inner => [.opening] ++ inner.items ++ [.closing]
  | call function _ _ arguments =>
    [.operator (.function function.text), .opening] ++
      listing Enclosed.items (.operator .tuple) arguments ++ [.closing]

def term : Atom → Term
  | number _ value _ | scaled _ _ _ value .. => .num value
  | identifier name => .var name.text
  | group inner => inner.content.term
  | call function _ _ arguments =>
    .call function.text (arguments.map fun argument => argument.content.term)

/-- An identifier that a sign and digits right behind it can turn into a number. -/
def OpensExponent : Atom → Prop
  | identifier name =>
    ∃ sign digits, Constant.ofSignedExponent? name.letters sign digits ≠ none
  | _ => False

end Atom

namespace Operand

def text (x : Operand Atom) : List Char :=
  x.before.chars ++ x.minuses.flatMap (fun gap => '-' :: gap.chars) ++ x.atom.text ++
    x.behind.chars

def glyphs (x : Operand Atom) : List Glyph :=
  x.before.glyphs ++ x.minuses.flatMap (fun gap => .mark .minus :: gap.glyphs) ++
    x.atom.glyphs ++ x.behind.glyphs

def tokens (x : Operand Atom) : List Token :=
  List.replicate x.minuses.length .minus ++ x.atom.tokens

def items (x : Operand Atom) : List Item :=
  List.replicate x.minuses.length (.operator .neg) ++ x.atom.items

end Operand

namespace Chain

def spell (operand : α → List β) (joint : Operation → List β) : Chain α → List β
  | single only => operand only
  | snoc front op x => front.spell operand joint ++ joint op ++ operand x

end Chain
end CellFormula.Parsing

namespace CellFormula.Operation
open Parsing

def glyphs : Operation → List Glyph
  | assign => [.mark .equals]
  | add => [.mark .plus]
  | sub => [.mark .minus]
  | mul => [.mark .star]
  | div => [.mark .slash]
  | pow => [.mark .caret]
  | lt => [.mark .less]
  | gt => [.mark .greater]
  | le => [.mark .less, .mark .equals]
  | ge => [.mark .greater, .mark .equals]
  | eq => [.mark .equals, .mark .equals]
  | ne => [.mark .bang, .mark .equals]

def token : Operation → Token
  | sub => .minus
  | op => .operator op.operator

end CellFormula.Operation

namespace CellFormula.Parsing.Chain

def text (chain : Chain (Operand Atom)) : List Char :=
  chain.spell Operand.text fun op => op.symbol.toList

def glyphs (chain : Chain (Operand Atom)) : List Glyph :=
  chain.spell Operand.glyphs Operation.glyphs

def tokens (chain : Chain (Operand Atom)) : List Token :=
  chain.spell Operand.tokens fun op => [op.token]

def items (chain : Chain (Operand Atom)) : List Item :=
  chain.spell Operand.items fun op => [.operator op.operator]

/-- There is a blank between an identifier that opens an exponent and a sign. -/
def Apart : Chain (Operand Atom) → Prop
  | single _ => True
  | snoc front op _ =>
    front.Apart ∧ (front.last.atom.OpensExponent → op = .add ∨ op = .sub →
      front.last.behind.chars ≠ [])

end CellFormula.Parsing.Chain

namespace CellFormula.Parsing

theorem Scans.mark {mark : Mark} (h : mark ≠ .slash) : Scans [mark.char] [.mark mark] := by
  have glyph : Glyph.ofChar mark.char = .mark mark := by
    rw [Glyph.ofChar, Mark.ofChar?_char]
  rw [← glyph]
  apply Scans.char
  · cases mark <;> decide
  · cases mark <;> first | decide | exact absurd rfl h

theorem Word.scans (word : Word) : Scans word.letters (word.letters.map .letter) := by
  have glyphs : word.letters.map Glyph.ofChar = word.letters.map .letter :=
    List.map_congr_left fun c mem => (word.letter c mem).1
  rw [← glyphs]
  apply Scans.map
  intro c mem
  obtain ⟨letter, quote⟩ := word.letter c mem
  refine ⟨quote, ?_⟩
  rintro rfl
  cases letter

namespace Enclosed

theorem scans (e : Enclosed) : Scans e.text e.glyphs :=
  e.content.scans_and_lexes.1.append e.behind.scans

theorem lexes (e : Enclosed) {rest : List Glyph} (h : startsSeparated rest = true) :
    Lexes e.glyphs e.tokens rest := by
  have separated : startsSeparated (e.behind.glyphs ++ rest) = true := by
    unfold Gap.glyphs
    cases e.behind.chars with
    | nil => exact h
    | cons c chars => rfl
  have both := (e.content.scans_and_lexes.2 _ separated).append (e.behind.lexes rest)
  rwa [List.append_nil] at both

theorem ofTokens (e : Enclosed) {rest : List Token} (h : Item.startsClosed rest = true) :
    Item.ofTokens false (e.tokens ++ rest) = e.items ++ Item.ofTokens true rest :=
  Item.ofTokens_append h false e.tokens

end Enclosed

/-! The arguments of a call. -/

private theorem scans_listing (arguments : List Enclosed) :
    Scans (listing Enclosed.text ',' arguments)
      (listing Enclosed.glyphs (.mark .comma) arguments) := by
  cases arguments with
  | nil => exact Scans.nil
  | cons first rest =>
    refine first.scans.append ?_
    induction rest with
    | nil => exact Scans.nil
    | cons next rest ih =>
      have comma : Scans [','] [.mark .comma] := Scans.mark (by decide : Mark.comma ≠ .slash)
      exact (comma.append next.scans).append ih

private theorem startsSeparated_listing (arguments : List Enclosed) {rest : List Glyph}
    (h : startsSeparated rest = true) :
    startsSeparated (arguments.flatMap (fun e => .mark .comma :: e.glyphs) ++ rest) = true := by
  cases arguments with
  | nil => exact h
  | cons next arguments => rfl

theorem lexes_listing (arguments : List Enclosed) {rest : List Glyph}
    (h : startsSeparated rest = true) :
    Lexes (listing Enclosed.glyphs (.mark .comma) arguments)
      (listing Enclosed.tokens (.operator .tuple) arguments) rest := by
  cases arguments with
  | nil => exact Lexes.nil rest
  | cons first arguments =>
    refine (first.lexes (startsSeparated_listing arguments h)).append ?_
    induction arguments with
    | nil => exact Lexes.nil rest
    | cons next arguments ih =>
      have comma : Lexes [.mark .comma] [.operator .tuple] (next.glyphs ++
          (arguments.flatMap (fun e => .mark .comma :: e.glyphs) ++ rest)) := Lexes.alone rfl _
      exact (comma.append (next.lexes (startsSeparated_listing arguments h))).append ih

private theorem startsClosed_listing (arguments : List Enclosed) (rest : List Token) :
    Item.startsClosed (arguments.flatMap (fun e => .operator .tuple :: e.tokens) ++
      .closing :: rest) = true := by
  cases arguments with
  | nil => rfl
  | cons next arguments => rfl

theorem ofTokens_listing (arguments : List Enclosed) (rest : List Token) :
    Item.ofTokens false (listing Enclosed.tokens (.operator .tuple) arguments ++
      .closing :: rest) =
      listing Enclosed.items (.operator .tuple) arguments ++ .closing :: Item.ofTokens true rest := by
  cases arguments with
  | nil => rfl
  | cons first arguments =>
    unfold listing
    rw [List.append_assoc, first.ofTokens (startsClosed_listing arguments rest), List.append_assoc]
    congr 1
    induction arguments with
    | nil => rfl
    | cons next arguments ih =>
      rw [List.flatMap_cons, List.flatMap_cons, List.append_assoc, List.append_assoc, ← ih,
        List.cons_append, Item.ofTokens, next.ofTokens (startsClosed_listing arguments rest)]
      rfl

/-- An operand opens no comment behind a slash, and no comparison behind another sign. -/
def OpensOperand (text : List Char) (glyphs : List Glyph) : Prop :=
  ∃ c chars glyph others, text = c :: chars ∧ glyphs = glyph :: others ∧
    c ≠ '/' ∧ c ≠ '*' ∧ glyph ≠ .mark .equals

namespace OpensOperand

theorem append {text : List Char} {glyphs : List Glyph} (h : OpensOperand text glyphs)
    (chars : List Char) (others : List Glyph) :
    OpensOperand (text ++ chars) (glyphs ++ others) := by
  obtain ⟨c, behind, glyph, rest, rfl, rfl, apart⟩ := h
  exact ⟨c, behind ++ chars, glyph, rest ++ others, rfl, rfl, apart⟩

theorem startsEquals {text : List Char} {glyphs : List Glyph} (h : OpensOperand text glyphs)
    (rest : List Glyph) : startsEquals (glyphs ++ rest) = false := by
  obtain ⟨c, chars, glyph, others, -, rfl, -, -, noEquals⟩ := h
  unfold Parsing.startsEquals
  split
  · rename_i same
    exact absurd (List.cons.inj same).1 noEquals
  · rfl

theorem behind_gap (gap : Gap) {text : List Char} {glyphs : List Glyph}
    (h : OpensOperand text glyphs) :
    OpensOperand (gap.chars ++ text) (gap.glyphs ++ glyphs) := by
  obtain ⟨chars, blank⟩ := gap
  cases chars with
  | nil => exact h
  | cons c chars =>
    have isBlank := blank c List.mem_cons_self
    refine ⟨c, chars ++ text, .blank, _, rfl, rfl, ?_, ?_, by decide⟩
    · rintro rfl
      cases isBlank
    · rintro rfl
      cases isBlank

theorem word (word : Word) : OpensOperand word.letters (word.letters.map .letter) := by
  obtain ⟨letters, nonempty, letter⟩ := word
  cases letters with
  | nil => exact absurd rfl nonempty
  | cons c chars =>
    have isLetter := (letter c List.mem_cons_self).1
    refine ⟨c, chars, .letter c, _, rfl, rfl, ?_, ?_, by simp⟩
    · rintro rfl
      cases isLetter
    · rintro rfl
      cases isLetter

end OpensOperand

private theorem sign_of_exponent {letters digits : List Char} {sign : Mark} {value : Constant}
    (h : Constant.ofSignedExponent? letters sign digits = some value) :
    sign = .plus ∨ sign = .minus := by
  unfold Constant.ofSignedExponent? at h
  split at h
  · assumption
  · cases h

theorem gap_then_mark (gap : Gap) (mark : Mark) (rest : List Glyph) :
    Piece.startsWord (gap.glyphs ++ .mark mark :: rest) = false ∧
      ∀ sign after, Piece.ofGlyphs (gap.glyphs ++ .mark mark :: rest) = .mark sign :: after →
        sign = mark := by
  obtain ⟨chars, blank⟩ := gap
  cases chars with
  | nil =>
    refine ⟨rfl, ?_⟩
    intro sign after same
    cases (List.cons.inj same).1
    rfl
  | cons c chars =>
    refine ⟨rfl, ?_⟩
    intro sign after same
    cases (List.cons.inj same).1

namespace Atom

theorem opens (a : Atom) : OpensOperand a.text a.glyphs := by
  cases a with
  | number word value spelled => exact .word word
  | scaled word sign digits value noConstant spelled => exact (OpensOperand.word word).append _ _
  | identifier name => exact .word name.toWord
  | group inner =>
    exact ⟨'(', _, .mark .opening, _, rfl, rfl, by decide, by decide, by decide⟩
  | call function gap inside arguments =>
    have opens := OpensOperand.word function.toWord
    unfold text glyphs
    simp only [List.append_assoc]
    exact opens.append _ _

theorem scans (a : Atom) : Scans a.text a.glyphs := by
  have opening : Scans ['('] [.mark .opening] := Scans.mark (by decide : Mark.opening ≠ .slash)
  have closing : Scans [')'] [.mark .closing] := Scans.mark (by decide : Mark.closing ≠ .slash)
  cases a with
  | number word value spelled => exact word.scans
  | scaled word sign digits value noConstant spelled =>
    have noSlash : sign ≠ .slash := by
      rcases sign_of_exponent spelled with rfl | rfl
      · decide
      · decide
    exact word.scans.append ((Scans.mark noSlash).append digits.scans)
  | identifier name => exact name.toWord.scans
  | group inner => exact (opening.append inner.scans).append closing
  | call function gap inside arguments =>
    have front := ((function.toWord.scans.append gap.scans).append opening).append inside.scans
    exact (front.append (scans_listing arguments)).append closing

/-- The tokens of an atom do not depend on what follows, unless a sign and digits continue an
identifier. -/
theorem lexes (a : Atom) {rest : List Glyph} (noWord : Piece.startsWord rest = false)
    (apart : a.OpensExponent → ∀ sign digits after,
      Piece.ofGlyphs rest = .mark sign :: .word digits :: after → sign ≠ .plus ∧ sign ≠ .minus) :
    Lexes a.glyphs a.tokens rest := by
  have opening (rest : List Glyph) : Lexes [.mark .opening] [.opening] rest := Lexes.alone rfl rest
  have closing (rest : List Glyph) : Lexes [.mark .closing] [.closing] rest := Lexes.alone rfl rest
  cases a with
  | number word value spelled => exact Lexes.constant word.nonempty spelled noWord
  | scaled word sign digits value noConstant spelled =>
    exact Lexes.signed word.nonempty digits.nonempty noConstant spelled noWord
  | identifier name =>
    apply Lexes.identifier name.nonempty name.noConstant noWord
    intro sign digits after same
    by_cases exponent : Constant.ofSignedExponent? name.letters sign digits = none
    · exact exponent
    · obtain ⟨plus, minus⟩ := apart ⟨sign, digits, exponent⟩ sign digits after same
      exact Token.ofSignedExponent?_eq_none plus minus _ _
  | group inner =>
    have content : Lexes inner.glyphs inner.tokens ([.mark .closing] ++ rest) := inner.lexes rfl
    exact ((opening _).append content).append (closing rest)
  | call function gap inside arguments =>
    have content : Lexes (listing Enclosed.glyphs (.mark .comma) arguments) _
        ([.mark .closing] ++ rest) := lexes_listing arguments rfl
    have behind := (gap.lexes _).append ((opening _).append ((inside.lexes _).append
      (content.append (closing rest))))
    have name : Lexes (function.letters.map .letter) [.identifier function.text]
        (gap.glyphs ++ ([.mark .opening] ++ (inside.glyphs ++
          (listing Enclosed.glyphs (.mark .comma) arguments ++ [.mark .closing]))) ++ rest) := by
      rw [List.append_assoc]
      obtain ⟨noWord, noSign⟩ := gap_then_mark gap .opening _
      apply Lexes.identifier function.nonempty function.noConstant noWord
      intro sign digits after same
      rw [noSign sign _ same]
      exact Token.ofSignedExponent?_eq_none (by decide) (by decide) _ _
    unfold glyphs tokens
    simp only [List.append_assoc]
    exact name.append behind

end Atom

namespace Operand

theorem opens (x : Operand Atom) : OpensOperand x.text x.glyphs := by
  unfold text glyphs
  simp only [List.append_assoc]
  apply OpensOperand.behind_gap
  cases x.minuses with
  | nil => exact x.atom.opens.append _ _
  | cons gap minuses =>
    exact ⟨'-', _, .mark .minus, _, rfl, rfl, by decide, by decide, by decide⟩

theorem scans (x : Operand Atom) : Scans x.text x.glyphs := by
  have minuses : Scans (x.minuses.flatMap fun gap => '-' :: gap.chars)
      (x.minuses.flatMap fun gap => .mark .minus :: gap.glyphs) := by
    induction x.minuses with
    | nil => exact Scans.nil
    | cons gap minuses ih =>
      have minus : Scans ['-'] [.mark .minus] := Scans.mark (by decide : Mark.minus ≠ .slash)
      exact (minus.append gap.scans).append ih
  exact ((x.before.scans.append minuses).append x.atom.scans).append x.behind.scans

private theorem startsEquals_gap (gap : Gap) {rest : List Glyph} (h : startsEquals rest = false) :
    startsEquals (gap.glyphs ++ rest) = false := by
  obtain ⟨chars, blank⟩ := gap
  cases chars with
  | nil => exact h
  | cons c chars => rfl

private theorem startsEquals_minuses (minuses : List Gap) {rest : List Glyph}
    (h : startsEquals rest = false) :
    startsEquals (minuses.flatMap (fun gap => .mark .minus :: gap.glyphs) ++ rest) = false := by
  cases minuses with
  | nil => exact h
  | cons gap minuses => rfl

private theorem lexes_minuses (minuses : List Gap) {rest : List Glyph}
    (h : startsEquals rest = false) :
    Lexes (minuses.flatMap fun gap => .mark .minus :: gap.glyphs)
      (List.replicate minuses.length .minus) rest := by
  induction minuses with
  | nil => exact Lexes.nil rest
  | cons gap minuses ih =>
    have minus : Lexes [.mark .minus] [.minus] (gap.glyphs ++
        (minuses.flatMap (fun gap => .mark .minus :: gap.glyphs) ++ rest)) :=
      Lexes.beforeEquals rfl (startsEquals_gap gap (startsEquals_minuses minuses h))
    exact (minus.append (gap.lexes _)).append ih

theorem lexes (x : Operand Atom) {rest : List Glyph} (noWord : Piece.startsWord rest = false)
    (apart : x.atom.OpensExponent → x.behind.chars = [] → ∀ sign digits after,
      Piece.ofGlyphs rest = .mark sign :: .word digits :: after → sign ≠ .plus ∧ sign ≠ .minus) :
    Lexes x.glyphs x.tokens rest := by
  have atom : Lexes x.atom.glyphs x.atom.tokens (x.behind.glyphs ++ rest) := by
    unfold Gap.glyphs
    cases behind : x.behind.chars with
    | nil =>
      apply x.atom.lexes noWord
      intro opens
      exact apart opens behind
    | cons c chars =>
      apply x.atom.lexes rfl
      intro _ sign digits after same
      cases (List.cons.inj same).1
  have minuses := lexes_minuses x.minuses (x.atom.opens.startsEquals (x.behind.glyphs ++ rest))
  have all := (((x.before.lexes _).append minuses).append atom).append (x.behind.lexes rest)
  rwa [List.append_nil] at all

end Operand

end CellFormula.Parsing

namespace CellFormula.Operation
open Parsing

theorem scans (op : Operation) {text : List Char} {glyphs : List Glyph} (h : Scans text glyphs)
    (opens : OpensOperand text glyphs) :
    Scans (op.symbol.toList ++ text) (op.glyphs ++ glyphs) := by
  have mark (mark : Mark) (noSlash : mark ≠ .slash) : Scans [mark.char] [.mark mark] :=
    Scans.mark noSlash
  have equals := mark .equals (by decide)
  cases op with
  | assign => exact equals.append h
  | add => exact (mark .plus (by decide)).append h
  | sub => exact (mark .minus (by decide)).append h
  | mul => exact (mark .star (by decide)).append h
  | div =>
    obtain ⟨c, chars, glyph, others, rfl, -, slash, star, -⟩ := opens
    exact h.slash slash star
  | pow => exact (mark .caret (by decide)).append h
  | lt => exact (mark .less (by decide)).append h
  | gt => exact (mark .greater (by decide)).append h
  | le => exact ((mark .less (by decide)).append equals).append h
  | ge => exact ((mark .greater (by decide)).append equals).append h
  | eq => exact (equals.append equals).append h
  | ne => exact ((mark .bang (by decide)).append equals).append h

theorem lexes (op : Operation) {rest : List Glyph} (h : startsEquals rest = false) :
    Lexes op.glyphs [op.token] rest := by
  cases op with
  | le =>
    have usage : Mark.less.usage = .beforeEquals (.operator .lt) .le := rfl
    exact Lexes.combined usage rest
  | ge =>
    have usage : Mark.greater.usage = .beforeEquals (.operator .gt) .ge := rfl
    exact Lexes.combined usage rest
  | eq =>
    have usage : Mark.equals.usage = .beforeEquals (.operator .assign) .eq := rfl
    exact Lexes.combined usage rest
  | ne =>
    have usage : Mark.bang.usage = .beforeEquals (.operator .not) .ne := rfl
    exact Lexes.combined usage rest
  | _ => exact Lexes.beforeEquals rfl h

@[simp] private theorem glyphs_eq (op : Operation) :
    ∃ mark others, op.glyphs = .mark mark :: others ∧
      (¬ (op = .add ∨ op = .sub) → mark ≠ .plus ∧ mark ≠ .minus) := by
  cases op <;> exact ⟨_, _, rfl, by decide⟩

end CellFormula.Operation

namespace CellFormula.Parsing.Chain

theorem scans (chain : Chain (Operand Atom)) : Scans chain.text chain.glyphs := by
  induction chain with
  | single only => exact only.scans
  | snoc front op x ih =>
    have both := ih.append (op.scans x.scans x.opens)
    unfold text glyphs spell
    simp only [List.append_assoc]
    exact both

theorem lexes {chain : Chain (Operand Atom)} (apart : chain.Apart) {rest : List Glyph}
    (noWord : Piece.startsWord rest = false)
    (last_apart : chain.last.atom.OpensExponent → chain.last.behind.chars = [] →
      ∀ sign digits after, Piece.ofGlyphs rest = .mark sign :: .word digits :: after →
        sign ≠ .plus ∧ sign ≠ .minus) :
    Lexes chain.glyphs chain.tokens rest := by
  induction chain generalizing rest with
  | single only => exact only.lexes noWord last_apart
  | snoc front op x ih =>
    obtain ⟨front_apart, sign_apart⟩ := apart
    have operand := x.lexes noWord last_apart
    have joint := op.lexes (x.opens.startsEquals rest)
    obtain ⟨mark, others, glyphs_op, noSign⟩ := op.glyphs_eq
    have before : Lexes front.glyphs front.tokens ((op.glyphs ++ x.glyphs) ++ rest) := by
      apply ih front_apart
      · rw [glyphs_op]
        rfl
      · intro opens empty sign digits after same
        rw [glyphs_op] at same
        cases (List.cons.inj same).1
        apply noSign
        intro sum
        exact sign_apart opens sum empty
    have all := before.append (joint.append operand)
    unfold glyphs tokens spell
    simp only [List.append_assoc]
    exact all

end CellFormula.Parsing.Chain
