import CellFormula.Proofs.Parsing.Grammar
import CellFormula.Proofs.Parsing.Spelled
/-! What a printed formula reads as. The printed form of a negation is only a minus in front of
parentheses, and so a negated base gives its minus away to its power. All other trees read back as
they are. -/
namespace CellFormula

namespace Term

mutual

/-- The tree in which the minus of every negated base covers the power. -/
def regrouped : Term → Term
  | .num value => .num value
  | .var name => .var name
  | .neg operand => .neg operand.regrouped
  | .binary .pow (.neg base) exponent => .neg (.binary .pow base.regrouped exponent.regrouped)
  | .binary op left right => .binary op left.regrouped right.regrouped
  | .call name args => .call name (regroupedArguments args)

def regroupedArguments : List Term → List Term
  | [] => []
  | arg :: rest => arg.regrouped :: regroupedArguments rest

end

mutual

def hasNegatedBase : Term → Bool
  | .num _ | .var _ => false
  | .neg operand => operand.hasNegatedBase
  | .binary .pow (.neg _) _ => true
  | .binary _ left right => left.hasNegatedBase || right.hasNegatedBase
  | .call _ args => haveNegatedBase args

def haveNegatedBase : List Term → Bool
  | [] => false
  | arg :: rest => arg.hasNegatedBase || haveNegatedBase rest

end

@[simp] private theorem regroupedArguments_eq (args : List Term) :
    regroupedArguments args = args.map regrouped := by
  induction args with
  | nil => simp [regroupedArguments]
  | cons arg rest ih => simp [regroupedArguments, ih]

@[simp] private theorem haveNegatedBase_eq (args : List Term) :
    haveNegatedBase args = args.any hasNegatedBase := by
  induction args with
  | nil => simp [haveNegatedBase]
  | cons arg rest ih => simp [haveNegatedBase, ih]

def IsNegatedBase (op : Operation) (left : Term) : Prop := op = .pow ∧ ∃ base, left = .neg base

private theorem regrouped_binary {op : Operation} {left : Term} (h : ¬ IsNegatedBase op left)
    (right : Term) :
    (binary op left right).regrouped = .binary op left.regrouped right.regrouped := by
  rw [regrouped]
  exact fun base pow negated => h ⟨pow, base, negated⟩

private theorem hasNegatedBase_binary {op : Operation} {left : Term} (h : ¬ IsNegatedBase op left)
    (right : Term) :
    (binary op left right).hasNegatedBase = (left.hasNegatedBase || right.hasNegatedBase) := by
  rw [hasNegatedBase]
  exact fun base pow negated => h ⟨pow, base, negated⟩

@[simp] theorem regrouped_eq_iff (term : Term) :
    term.regrouped = term ↔ term.hasNegatedBase = false := by
  induction term with
  | num value => simp [regrouped, hasNegatedBase]
  | var name => simp [regrouped, hasNegatedBase]
  | neg operand ih => simpa [regrouped, hasNegatedBase] using ih
  | binary op left right ihl ihr =>
    by_cases negated : IsNegatedBase op left
    · obtain ⟨rfl, base, rfl⟩ := negated
      simp [regrouped, hasNegatedBase]
    · rw [regrouped_binary negated, hasNegatedBase_binary negated, Bool.or_eq_false_iff, ← ihl,
        ← ihr]
      simp
  | call name args ih =>
    rw [regrouped, hasNegatedBase, regroupedArguments_eq, haveNegatedBase_eq]
    have each := List.map_inj_left (f := regrouped) (g := id) (l := args)
    rw [List.map_id] at each
    simp only [call.injEq, true_and, List.any_eq_false, each, id_eq, Bool.not_eq_true]
    exact forall₂_congr ih

end Term

namespace Parsing

/-- What ends a word: the end of the text, or something that separates. -/
def EndsWord (rest : List Glyph) : Prop := rest = [] ∨ startsSeparated rest = true

namespace EndsWord
variable {rest : List Glyph}

theorem startsWord (h : EndsWord rest) : Piece.startsWord rest = false := by
  rcases h with rfl | separated
  · rfl
  · exact startsWord_of_separated separated

theorem no_sign (h : EndsWord rest) {mark : Mark} {after : List Piece}
    (same : Piece.ofGlyphs rest = .mark mark :: after) : mark ≠ .plus ∧ mark ≠ .minus := by
  rcases h with rfl | separated
  · cases same
  · exact no_sign_of_separated separated same

end EndsWord

/-- The glyphs and tokens that characters contribute in front of what ends a word. -/
structure Spells (chars : List Char) (glyphs : List Glyph) (tokens : List Token) : Prop where
  scans : Scans chars glyphs
  lexes : ∀ rest, EndsWord rest → Lexes glyphs tokens rest

namespace Spells
variable {chars : List Char} {glyphs : List Glyph} {tokens : List Token}

theorem ofChars (h : Spells chars glyphs tokens) : Token.ofChars chars = .ok tokens := by
  have scanned := h.scans (rfl : Mode.plain.glyphs [] = .ok [])
  have lexed := h.lexes [] (.inl rfl) (rfl : Token.ofPieces (Piece.ofGlyphs []) = .ok [])
  rw [List.append_nil, List.append_nil] at scanned lexed
  unfold Token.ofChars Piece.ofChars
  rw [scanned]
  exact lexed

theorem nil : Spells [] [] [] := ⟨Scans.nil, fun rest _ => Lexes.nil rest⟩

theorem number (word : Word) {value : Float}
    (spelled : Constant.ofWord? word.letters = some (.number value)) :
    Spells word.letters (word.letters.map .letter) [.constant (.number value)] where
  scans := word.scans
  lexes _ ends := Lexes.constant word.nonempty spelled ends.startsWord

theorem identifier (name : Identifier) :
    Spells name.letters (name.letters.map .letter) [.identifier name.text] where
  scans := name.scans
  lexes rest ends := by
    apply Lexes.identifier name.nonempty name.noConstant ends.startsWord
    intro sign digits after same
    obtain ⟨plus, minus⟩ := ends.no_sign same
    exact Token.ofSignedExponent?_eq_none plus minus name.letters digits

theorem group (h : Spells chars glyphs tokens) :
    Spells (['('] ++ chars ++ [')']) ([Glyph.mark .opening] ++ glyphs ++ [Glyph.mark .closing])
      ([Token.opening] ++ tokens ++ [Token.closing]) where
  scans := by
    have opening : Scans ['('] [.mark .opening] := Scans.mark (by decide : Mark.opening ≠ .slash)
    have closing : Scans [')'] [.mark .closing] := Scans.mark (by decide : Mark.closing ≠ .slash)
    exact (opening.append h.scans).append closing
  lexes rest _ := by
    have opens : Lexes [.mark .opening] [.opening] (glyphs ++ ([Glyph.mark .closing] ++ rest)) :=
      Lexes.alone rfl _
    have closes : Lexes [.mark .closing] [.closing] rest := Lexes.alone rfl _
    exact (opens.append (h.lexes ([Glyph.mark .closing] ++ rest) (.inr rfl))).append closes

theorem minus (h : Spells chars glyphs tokens)
    (noEquals : ∀ rest, startsEquals (glyphs ++ rest) = false) :
    Spells (['-'] ++ chars) ([Glyph.mark .minus] ++ glyphs) ([Token.minus] ++ tokens) where
  scans := by
    have sign : Scans ['-'] [.mark .minus] := Scans.mark (by decide : Mark.minus ≠ .slash)
    exact sign.append h.scans
  lexes rest ends := by
    have sign : Lexes [.mark .minus] [.minus] (glyphs ++ rest) :=
      Lexes.beforeEquals rfl (noEquals rest)
    exact sign.append (h.lexes rest ends)

theorem space : Scans [' '] [.blank] := Scans.char (by decide) (by decide)

theorem blank (rest : List Glyph) : Lexes [.blank] [] rest :=
  Lexes.blanks (List.forall_mem_singleton.2 rfl) rest

theorem binary (op : Operation) {right : List Char} {glyphs' : List Glyph} {tokens' : List Token}
    (h : Spells chars glyphs tokens) (h' : Spells right glyphs' tokens') :
    Spells (chars ++ [' '] ++ op.symbol.toList ++ [' '] ++ right)
      (glyphs ++ [Glyph.blank] ++ op.glyphs ++ [Glyph.blank] ++ glyphs')
      (tokens ++ [op.token] ++ tokens') where
  scans := by
    have opens : OpensOperand ([' '] ++ right) ([Glyph.blank] ++ glyphs') :=
      ⟨' ', right, .blank, glyphs', rfl, rfl, by decide, by decide, by decide⟩
    have all := h.scans.append (space.append (op.scans (space.append h'.scans) opens))
    simpa only [List.append_assoc] using all
  lexes rest ends := by
    have behind : EndsWord ([Glyph.blank] ++ (op.glyphs ++ ([Glyph.blank] ++ glyphs')) ++ rest) :=
      .inr rfl
    have joint : Lexes op.glyphs [op.token] ([Glyph.blank] ++ glyphs' ++ rest) := op.lexes rfl
    have operand := (blank (glyphs' ++ rest)).append (h'.lexes rest ends)
    have all := (h.lexes _ behind).append ((blank _).append (joint.append operand))
    simpa only [List.append_assoc, List.nil_append] using all

theorem listed {others : List Char} {glyphs' : List Glyph} {tokens' : List Token}
    (h : Spells chars glyphs tokens) (h' : Spells others glyphs' tokens') :
    Spells (chars ++ ([','] ++ ([' '] ++ others)))
      (glyphs ++ ([Glyph.mark .comma] ++ ([Glyph.blank] ++ glyphs')))
      (tokens ++ ([Token.operator .tuple] ++ tokens')) where
  scans := by
    have comma : Scans [','] [.mark .comma] := Scans.mark (by decide : Mark.comma ≠ .slash)
    exact h.scans.append (comma.append (space.append h'.scans))
  lexes rest ends := by
    have comma : Lexes [.mark .comma] [.operator .tuple] ([Glyph.blank] ++ glyphs' ++ rest) :=
      Lexes.alone rfl _
    have argument := (blank (glyphs' ++ rest)).append (h'.lexes rest ends)
    have front := h.lexes ([Glyph.mark .comma] ++ ([Glyph.blank] ++ glyphs') ++ rest) (.inr rfl)
    exact front.append (comma.append argument)

theorem call (function : Identifier) (h : Spells chars glyphs tokens) :
    Spells (function.letters ++ (['('] ++ chars ++ [')']))
      (function.letters.map Glyph.letter ++
        ([Glyph.mark .opening] ++ glyphs ++ [Glyph.mark .closing]))
      ([Token.identifier function.text] ++ ([Token.opening] ++ tokens ++ [Token.closing])) where
  scans := function.scans.append h.group.scans
  lexes rest ends := by
    refine Lexes.append ?_ (h.group.lexes rest ends)
    apply Lexes.identifier function.nonempty function.noConstant rfl
    intro sign digits after same
    cases (List.cons.inj same).1
    exact Token.ofSignedExponent?_eq_none (by decide) (by decide) _ _

end Spells

theorem Spells.parse_eq {chars : List Char} {glyphs : List Glyph} {tokens : List Token}
    (h : Spells chars glyphs tokens) {tree : OperatorTree}
    (made : OperatorTree.ofTokens tokens = .ok tree) :
    parse (String.ofList chars) = tree.toTerm.mapError .ofGrammar := by
  apply parse_of_ofChars
  unfold OperatorTree.ofChars
  rw [String.toList_ofList, h.ofChars]
  exact made

theorem parse_of_tokens {chars : List Char} {glyphs : List Glyph} (chain : Chain (Operand Atom))
    (h : Spells chars glyphs chain.tokens) :
    parse (String.ofList chars) = .ok (chain.expression.term Atom.term) := by
  have items : Item.ofTokens false chain.tokens = chain.items := by
    have behind : BehindVariable [] := fun name => rfl
    have whole := chain.ofTokens behind
    rwa [List.append_nil, Item.ofTokens, List.append_nil] at whole
  have made : OperatorTree.ofTokens chain.tokens =
      .ok (.node .root [chain.expression.tree Atom.tree]) := by
    rw [OperatorTree.ofTokens, items, OperatorTree.ofItems, run_chain]
    rfl
  have read : (OperatorTree.node .root [chain.expression.tree Atom.tree]).toTerm =
      .ok (chain.expression.term Atom.term) :=
    Expression.reading_tree reading_atom chain.expression
  rw [h.parse_eq made, read]
  rfl

end Parsing

namespace Term

def signs : Term → Nat
  | .neg _ => 1
  | _ => 0

def unsigned : Term → Term
  | .neg operand => operand
  | term => term

end Term

namespace Parsing

structure IsPrinted (term : Term) (x : Operand Atom) : Prop where
  spells : ∃ glyphs, Spells term.print glyphs x.tokens
  minuses : x.minuses.length = term.signs
  atom : x.atom.term = term.unsigned.regrouped

private theorem Gap.blank_nil : ∀ c ∈ ([] : List Char), Text.isBlank c = true := nofun

def Gap.tight : Gap := ⟨[], blank_nil⟩

theorem exists_enclosed {chars : List Char} {glyphs : List Glyph} (chain : Chain (Operand Atom))
    (h : Spells chars glyphs chain.tokens) :
    ∃ e : Enclosed, Spells chars glyphs e.tokens ∧
      e.content.term = chain.expression.term Atom.term := by
  refine ⟨⟨⟨String.ofList chars, _, parse_of_tokens chain h⟩, .tight⟩, ?_, rfl⟩
  unfold Enclosed.tokens Accepted.tokens
  rw [String.toList_ofList, h.ofChars]
  exact h

namespace IsPrinted
variable {term : Term} {x : Operand Atom}

theorem expression_term (h : IsPrinted term x) :
    x.expression.term Atom.term = term.regrouped := by
  unfold Operand.expression
  rw [h.minuses]
  cases term with
  | neg operand => exact congrArg Term.neg h.atom
  | _ => exact h.atom

theorem exists_enclosed (h : IsPrinted term x) :
    ∃ e : Enclosed, (∃ glyphs, Spells term.print glyphs e.tokens) ∧
      e.content.term = term.regrouped := by
  obtain ⟨glyphs, spells⟩ := h.spells
  obtain ⟨e, spells, read⟩ := Parsing.exists_enclosed (.single x) spells
  rw [Chain.expression_single, h.expression_term] at read
  exact ⟨e, ⟨glyphs, spells⟩, read⟩

theorem not_admits {left : Term} (h : IsPrinted left x) {op : Operation}
    (noBase : ¬ Term.IsNegatedBase op left) : x.expression.admits op = false := by
  unfold Operand.expression
  rw [h.minuses]
  cases left with
  | neg base =>
    change Operator.neg.admits op.operator = false
    rw [← Bool.not_eq_true, Operation.neg_admits_operator]
    exact fun pow => noBase ⟨pow, base, rfl⟩
  | _ => rfl

theorem extend_term {left right : Term} {y : Operand Atom} (h : IsPrinted left x)
    (h' : IsPrinted right y) (op : Operation) :
    (x.expression.extend op y.expression).term Atom.term =
      (Term.binary op left right).regrouped := by
  by_cases negated : Term.IsNegatedBase op left
  · obtain ⟨rfl, base, rfl⟩ := negated
    have atom : x.atom.term = base.regrouped := h.atom
    have exponent := h'.expression_term
    unfold Operand.expression at exponent ⊢
    rw [h.minuses, Expression.extend_negate]
    change Term.neg (.binary .pow x.atom.term _) = _
    rw [atom, exponent]
    rfl
  · rw [Expression.extend_of_not_admits (h.not_admits negated), Expression.term,
      h.expression_term, h'.expression_term, Term.regrouped_binary negated]

end IsPrinted

private theorem exists_arguments {args : List Term}
    (h : ∀ arg ∈ args, ∃ x, IsPrinted arg x) :
    ∃ arguments : List Enclosed,
      (∃ glyphs, Spells (Term.printArguments args) glyphs
        (listing Enclosed.tokens (.operator .tuple) arguments)) ∧
      arguments.map (fun e => e.content.term) = args.map Term.regrouped := by
  induction args with
  | nil =>
    refine ⟨[], ⟨[], ?_⟩, rfl⟩
    rw [Term.printArguments]
    exact Spells.nil
  | cons arg rest ih =>
    obtain ⟨⟨x, printed⟩, others⟩ := List.forall_mem_cons.1 h
    obtain ⟨e, ⟨glyphs, spells⟩, read⟩ := printed.exists_enclosed
    obtain ⟨arguments, ⟨glyphs', spells'⟩, reads⟩ := ih others
    refine ⟨e :: arguments, ?_, by rw [List.map_cons, List.map_cons, read, reads]⟩
    cases rest with
    | nil =>
      obtain rfl : arguments = [] := List.map_eq_nil_iff.1 reads
      rw [Term.printArguments, listing, List.flatMap_nil, List.append_nil]
      exact ⟨glyphs, spells⟩
    | cons next rest =>
      obtain ⟨e', arguments, rfl⟩ : ∃ e' others, arguments = e' :: others := by
        cases arguments with
        | nil => cases reads
        | cons e' others => exact ⟨e', others, rfl⟩
      have both := spells.listed spells'
      have text : Term.printArguments (arg :: next :: rest) =
          arg.print ++ ([','] ++ ([' '] ++ Term.printArguments (next :: rest))) := by
        rw [Term.printArguments, List.append_assoc]
        · rfl
        · exact List.cons_ne_nil next rest
      rw [text]
      exact ⟨_, both⟩

theorem exists_printed {term : Term} (h : term.IsSpelled) : ∃ x, IsPrinted term x := by
  induction h with
  | num unsigned =>
    obtain ⟨nonempty, letters⟩ := Number.letters_text unsigned
    have spelled := Number.ofWord?_text unsigned
    let word : Word := ⟨_, nonempty, letters⟩
    refine ⟨⟨.tight, [], .number word _ spelled, .tight⟩, ⟨?_, rfl, rfl⟩⟩
    exact ⟨_, Spells.number word spelled⟩
  | var isName =>
    obtain ⟨name, rfl⟩ := isName
    refine ⟨⟨.tight, [], .identifier name, .tight⟩, ⟨?_, rfl, rfl⟩⟩
    unfold Term.print Identifier.text
    rw [String.toList_ofList]
    exact ⟨_, Spells.identifier name⟩
  | @neg operand spelled ih =>
    obtain ⟨x, printed⟩ := ih
    obtain ⟨e, ⟨glyphs, spells⟩, read⟩ := printed.exists_enclosed
    refine ⟨⟨.tight, [.tight], .group e, .tight⟩, ⟨?_, rfl, read⟩⟩
    unfold Term.print
    exact ⟨_, spells.group.minus fun _ => rfl⟩
  | @binary op left right leftSpelled rightSpelled ihLeft ihRight =>
    obtain ⟨x, leftPrinted⟩ := ihLeft
    obtain ⟨y, rightPrinted⟩ := ihRight
    obtain ⟨_, leftSpells⟩ := leftPrinted.spells
    obtain ⟨_, rightSpells⟩ := rightPrinted.spells
    have spells := leftSpells.binary op rightSpells
    obtain ⟨e, spells, read⟩ := exists_enclosed ((Chain.single x).snoc op y) spells
    rw [Chain.expression_snoc, Chain.expression_single,
      leftPrinted.extend_term rightPrinted] at read
    have text : (Term.binary op left right).print = ['('] ++
        (left.print ++ [' '] ++ op.symbol.toList ++ [' '] ++ right.print) ++ [')'] := by
      simp only [Term.print, List.append_assoc]
      rfl
    refine ⟨⟨.tight, [], .group e, .tight⟩, ⟨?_, rfl, read⟩⟩
    rw [text]
    exact ⟨_, spells.group⟩
  | @call name args isName spelled ih =>
    obtain ⟨arguments, ⟨glyphs, spells⟩, reads⟩ := exists_arguments ih
    obtain ⟨function, rfl⟩ := isName
    have text : (Term.call function.text args).print = function.letters ++
        (['('] ++ Term.printArguments args ++ [')']) := by
      simp only [Term.print, Identifier.text, String.toList_ofList, List.append_assoc]
      rfl
    have read : (Atom.call function .tight .tight arguments).term =
        (Term.call function.text args).regrouped := by
      rw [Atom.term, reads, Term.regrouped, Term.regroupedArguments_eq]
    refine ⟨⟨.tight, [], .call function .tight .tight arguments, .tight⟩, ⟨?_, rfl, read⟩⟩
    rw [text]
    exact ⟨_, spells.call function⟩

end Parsing

open Parsing

theorem parse_text {term : Term} (h : term.IsSpelled) :
    parse term.text = .ok term.regrouped := by
  obtain ⟨x, printed⟩ := exists_printed h
  obtain ⟨glyphs, spells⟩ := printed.spells
  have read := parse_of_tokens (.single x) spells
  rwa [Chain.expression_single, printed.expression_term] at read

/-- A printed formula is a formula again, and only its powers of negations read back differently:
the minus of the base then covers the power. So a formula reads back as itself exactly if it has no
such power. -/
theorem parse_printed (text : String) (term : Term) (accepted : parse text = .ok term) :
    parse term.text = .ok term.regrouped ∧
      (parse term.text = .ok term ↔ term.hasNegatedBase = false) := by
  have spelled : term.IsSpelled := (⟨text, term, accepted⟩ : Accepted).spelled
  rw [parse_text spelled]
  refine ⟨rfl, ?_⟩
  rw [Except.ok.injEq, Term.regrouped_eq_iff]

/-- The printed form of `(-x)^y` is read as `-(x^y)`. -/
theorem parse_printed_base :
    parse "(-x)^y" = .ok (.binary .pow (.neg (.var "x")) (.var "y")) ∧
      (Term.binary .pow (.neg (.var "x")) (.var "y")).text = "(-(x) ^ y)" ∧
      parse "(-(x) ^ y)" = .ok (.neg (.binary .pow (.var "x") (.var "y"))) := by
  have accepted : parse "(-x)^y" = .ok (.binary .pow (.neg (.var "x")) (.var "y")) := rfl
  exact ⟨accepted, rfl, (parse_printed _ _ accepted).1⟩

end CellFormula
