import CellFormula.Proofs.Parsing.Occurrence
/-! The positions of a call. Commas cut the text between the parentheses of a call into positions,
and each position contributes the arguments with its own numbers and names: at least one if it has
any number or name, and none otherwise. -/
namespace CellFormula
namespace Parsing
open OperatorTree

namespace Token

/-- Whether tokens at a depth of parentheses of a position get out of them, and never to a
parenthesis or a comma around the position. -/
def staysInside : Nat → List Token → Bool
  | depth, [] => depth = 0
  | depth, .opening :: rest => staysInside (depth + 1) rest
  | depth, .closing :: rest => depth ≠ 0 && staysInside (depth - 1) rest
  | depth, .operator .tuple :: rest => depth ≠ 0 && staysInside depth rest
  | depth, _ :: rest => staysInside depth rest

/-- The tokens between two commas of a call, or between a comma and a parenthesis of it. -/
def IsPosition (tokens : List Token) : Prop := staysInside 0 tokens = true

abbrev Matches (tokens : List Token) (tree : OperatorTree) : Prop :=
  tree.lexemes = tokens.filterMap lexeme?

end Token

namespace Level

theorem Step.operator_above {upper below next : List Level} {level : Level} {op : Operator}
    (h : Step (upper ++ level :: below) (.operator op) next) (noComma : op ≠ .tuple) :
    ∃ upper' level', next = upper' ++ level' :: below ∧ upper'.length = upper.length ∧
      level'.earlier = level.earlier := by
  cases upper with
  | nil =>
    obtain ⟨after, takes, rfl⟩ := h.of_operator noComma
    exact ⟨[], after, rfl, rfl, takes.earlier⟩
  | cons top upper =>
    obtain ⟨after, -, rfl⟩ := h.of_operator noComma
    exact ⟨after :: upper, level, rfl, rfl, rfl⟩

theorem Run.inside {tokens : List Token} {behindOperand : Bool}
    {upper below after : List Level} {level : Level}
    (inside : Token.staysInside upper.length tokens = true)
    (run : Run (upper ++ level :: below) (Item.ofTokens behindOperand tokens) after) :
    ∃ level', after = level' :: below ∧ level'.earlier = level.earlier := by
  induction tokens generalizing behindOperand upper level with
  | nil =>
    rw [Item.ofTokens, run_nil_iff] at run
    obtain rfl : upper = [] := by simpa [Token.staysInside] using inside
    exact ⟨level, run, rfl⟩
  | cons token tokens ih =>
    have single {op : Operator} {behind : Bool} (noComma : op ≠ .tuple)
        (inside : Token.staysInside upper.length tokens = true)
        (run : Run (upper ++ level :: below) (.operator op :: Item.ofTokens behind tokens) after) :
        ∃ level', after = level' :: below ∧ level'.earlier = level.earlier := by
      obtain ⟨next, first, rest⟩ := run_cons_iff.1 run
      obtain ⟨upper', level', rfl, length, earlier⟩ := first.operator_above noComma
      rw [← length] at inside
      obtain ⟨last, same, earlier'⟩ := ih inside rest
      exact ⟨last, same, earlier'.trans earlier⟩
    cases token with
    | constant value => exact single (by simp) inside run
    | identifier name =>
      rw [Item.ofTokens] at run
      rcases Item.ofIdentifier_cases name tokens with reference | ⟨function, -⟩
      · rw [reference] at run
        exact single (by simp) inside run
      · rw [function] at run
        exact single (by simp) inside run
    | opening =>
      obtain ⟨next, first, rest⟩ := run_cons_iff.1 run
      obtain rfl := first.of_opening
      have inner : Token.staysInside (start :: upper).length tokens = true := inside
      exact ih inner rest
    | closing =>
      obtain ⟨next, first, rest⟩ := run_cons_iff.1 run
      rcases upper with _ | ⟨top, _ | ⟨second, upper⟩⟩
      · cases inside
      · obtain ⟨after, takes, rfl⟩ := first.of_closing
        have outer : Token.staysInside ([] : List Level).length tokens = true := inside
        obtain ⟨last, same, earlier⟩ := ih outer rest
        exact ⟨last, same, earlier.trans takes.earlier⟩
      · obtain ⟨after, -, rfl⟩ := first.of_closing
        have outer : Token.staysInside (after :: upper).length tokens = true := inside
        exact ih outer rest
    | minus =>
      rw [Item.ofTokens] at run
      cases behindOperand <;> exact single (by simp) inside run
    | operator op =>
      by_cases comma : op = .tuple
      · subst comma
        obtain ⟨next, first, rest⟩ := run_cons_iff.1 run
        cases upper with
        | nil => cases inside
        | cons top upper =>
          obtain rfl := first.of_comma
          have inner : Token.staysInside (top.next :: upper).length tokens = true := inside
          exact ih inner rest
      · have inside' : Token.staysInside upper.length tokens = true := by
          cases op <;> first | exact inside | exact absurd rfl comma
        exact single comma inside' run

/-- The tokens of a position leave everything outside of it as it is. -/
theorem Run.position {tokens : List Token} {behindOperand : Bool} {below after : List Level}
    {level : Level} (inside : Token.IsPosition tokens)
    (run : Run (level :: below) (Item.ofTokens behindOperand tokens) after) :
    ∃ level', after = level' :: below ∧ level'.earlier = level.earlier := by
  have inside' : Token.staysInside ([] : List Level).length tokens = true := inside
  exact Run.inside inside' run

theorem Run.lexemes_position {tokens : List Token} {behindOperand : Bool} {below : List Level}
    {level after : Level} (marks : ∀ op, .operator op ∈ tokens → op.lexeme? = none)
    (fresh : level.current = emptyRoot) (earlier : after.earlier = level.earlier)
    (run : Run (level :: below) (Item.ofTokens behindOperand tokens) (after :: below)) :
    after.current.lexemes = tokens.filterMap Token.lexeme? := by
  have lexemes := run.lexemes
  rw [Item.lexemes_ofTokens marks, lexemesOf_cons, lexemesOf_cons, List.append_assoc] at lexemes
  have own := List.append_cancel_left lexemes
  unfold Level.lexemes positions at own
  rw [OperatorTree.lexemesOf, OperatorTree.lexemesOf, fresh, earlier, lexemes_emptyRoot,
    List.append_nil] at own
  exact List.append_cancel_left own

theorem CleanRun.positions {position : List Token} {positions : List (List Token)}
    {behindOperand : Bool} {below after : List Level} {level : Level}
    (inside : ∀ tokens ∈ position :: positions, Token.IsPosition tokens)
    (marks : ∀ tokens ∈ position :: positions, ∀ op, .operator op ∈ tokens → op.lexeme? = none)
    (fresh : level.current = emptyRoot)
    (run : CleanRun (level :: below)
      (Item.ofTokens behindOperand
        (List.intercalate [.operator .tuple] (position :: positions))) after) :
    ∃ (last : Level) (trees : List OperatorTree), after = last :: below ∧
      last.positions = trees.reverse ++ level.earlier ∧
      List.Forall₂ Token.Matches (position :: positions) trees := by
  induction positions generalizing position behindOperand level with
  | nil =>
    rw [List.intercalate_singleton] at run
    obtain ⟨last, rfl, earlier⟩ :=
      Run.position (inside position List.mem_cons_self) run.run
    have lexemes :=
      run.run.lexemes_position (marks position List.mem_cons_self) fresh earlier
    refine ⟨last, [last.current], rfl, ?_, .cons lexemes .nil⟩
    rw [Level.positions, earlier]
    rfl
  | cons second positions ih =>
    obtain ⟨insideFirst, insideOthers⟩ := List.forall_mem_cons.1 inside
    obtain ⟨marksFirst, marksOthers⟩ := List.forall_mem_cons.1 marks
    rw [List.intercalate_cons_cons, List.append_assoc, List.singleton_append,
      Item.ofTokens_append rfl, Item.ofTokens] at run
    obtain ⟨between, front, back⟩ := cleanRun_append run
    obtain ⟨mid, rfl, earlier⟩ := Run.position insideFirst front.run
    have lexemes := front.run.lexemes_position marksFirst fresh earlier
    cases back with
    | step comma _ rest =>
      obtain rfl := comma.of_comma
      obtain ⟨last, trees, rfl, positions, each⟩ := ih insideOthers marksOthers rfl rest
      refine ⟨last, mid.current :: trees, rfl, ?_, .cons lexemes each⟩
      rw [positions]
      change trees.reverse ++ (mid.current :: mid.earlier) = _
      rw [earlier, List.reverse_cons, List.append_assoc]
      rfl

private theorem group_of_positions {level : Level} {trees : List OperatorTree}
    (h : level.positions = trees) (several : 2 ≤ trees.length) :
    level.group = node .root [node .tuple trees] := by
  obtain ⟨earlier, current, rooted⟩ := level
  subst h
  cases earlier with
  | nil => simp [positions] at several
  | cons latest earlier => rfl

theorem CleanRun.call {name : String} {first : List Token} {others : List (List Token)}
    {levels after : List Level} {items : List Item}
    (wellFormed : ∀ level ∈ levels, level.WellFormed)
    (inside : ∀ position ∈ first :: others, Token.IsPosition position)
    (marks : ∀ position ∈ first :: others, ∀ op, .operator op ∈ position → op.lexeme? = none)
    (several : 1 ≤ others.length)
    (run : CleanRun levels (.operator (.function name) :: .opening ::
      (Item.ofTokens false (List.intercalate [.operator .tuple] (first :: others)) ++
        .closing :: items)) after) :
    ∃ (trees : List OperatorTree) (next : List Level),
      CleanRun next items after ∧
      Holds name (node .root [node .tuple trees.reverse]) next (lexemesOf levels) ∧
      List.Forall₂ Token.Matches (first :: others) trees := by
  cases run with
  | step function free run =>
    cases function with
    | @operator _ level called below _ takesFunction =>
      cases run with
      | step opening _ run =>
        obtain rfl := opening.of_opening
        obtain ⟨between, positionsRun, run⟩ := cleanRun_append run
        obtain ⟨inner, trees, rfl, positions, each⟩ :=
          positionsRun.positions inside marks rfl
        cases run with
        | step closing _ rest =>
          obtain ⟨closed, takes, rfl⟩ := closing.of_closing
          have noEarlier : inner.positions = trees.reverse := positions.trans (List.append_nil _)
          have count : 2 ≤ trees.reverse.length := by
            have lengths := each.length_eq
            simp only [List.length_cons, List.length_reverse] at lengths ⊢
            omega
          have takes := takes
          rw [group_of_positions noEarlier count] at takes
          have levelFormed := wellFormed level List.mem_cons_self
          have settled := takesFunction.inserted.settles takes.inserted
            (levelFormed.positions _ List.mem_cons_self) levelFormed.plain (free rfl)
          have holds : Holds name _ (closed :: below) _ := .here (.of_current settled)
          refine ⟨trees, closed :: below, rest, ?_, each⟩
          rw [takes.earlier, takesFunction.earlier] at holds
          rw [lexemesOf_cons]
          exact holds

end Level

private theorem mem_intercalate {separator part : List α} {parts : List (List α)} {x : α}
    (isPart : part ∈ parts) (mem : x ∈ part) : x ∈ List.intercalate separator parts := by
  induction parts with
  | nil => cases isPart
  | cons first others ih =>
    cases others with
    | nil =>
      cases List.mem_singleton.1 isPart
      rwa [List.intercalate_singleton]
    | cons second others =>
      rw [List.intercalate_cons_cons]
      rcases List.mem_cons.1 isPart with rfl | later
      · exact List.mem_append_left _ (List.mem_append_left _ mem)
      · exact List.mem_append_right _ (ih later)

/-- Tokens in front of others: only the last of them may look further than to their end. -/
private theorem Item.ofTokens_prefix {front : List Token}
    (marks : ∀ op, .operator op ∈ front → op.lexeme? = none) (behindOperand : Bool)
    (back : List Token) :
    ∃ items behind, ofTokens behindOperand (front ++ back) = items ++ ofTokens behind back ∧
      items.filterMap lexeme? = front.filterMap Token.lexeme? := by
  induction front generalizing behindOperand with
  | nil => exact ⟨[], behindOperand, rfl, rfl⟩
  | cons token front ih =>
    have here : ∀ op, token = .operator op → op.lexeme? = none := by
      rintro op rfl
      exact marks op List.mem_cons_self
    obtain ⟨item, behind, same, lexeme⟩ := ofTokens_cons here behindOperand (front ++ back)
    obtain ⟨items, behind', rest, lexemes⟩ :=
      ih (fun op mem => marks op (List.mem_cons_of_mem _ mem)) behind
    refine ⟨item :: items, behind', ?_, ?_⟩
    · rw [List.cons_append, same, rest, List.cons_append]
    · rw [List.filterMap_cons, List.filterMap_cons, lexeme, lexemes]

end Parsing

namespace Accepted
open Parsing

theorem lexeme?_eq_none (t : Accepted) (op : Operator) (mem : .operator op ∈ t.tokens) :
    op.lexeme? = none := by
  obtain ⟨mark, isMark⟩ := Token.mark_of_operator t.ofChars_tokens.1 mem
  exact Mark.lexeme?_eq_none isMark

theorem settled_call (t : Accepted) {before after : List Token} {name : String}
    {positions : List (List Token)}
    (tokens : t.tokens = before ++ .identifier name :: .opening ::
      (List.intercalate [.operator .tuple] positions ++ .closing :: after))
    (inside : ∀ position ∈ positions, Token.IsPosition position)
    (several : 2 ≤ positions.length) :
    ∃ trees : List OperatorTree,
      OperatorTree.Settled name (.node .root [.node .tuple trees.reverse]) t.tree
        (before.filterMap Token.lexeme?) ∧
      List.Forall₂ Token.Matches positions trees := by
  obtain ⟨last, run, same⟩ := t.run_clean
  have marks (op : Operator) (mem : .operator op ∈ t.tokens) := t.lexeme?_eq_none op mem
  unfold Accepted.items at run
  rw [tokens] at run marks
  obtain ⟨front, behind, split, frontLexemes⟩ := Item.ofTokens_prefix
    (fun op mem => marks op (List.mem_append_left _ mem)) false (.identifier name :: .opening ::
      (List.intercalate [.operator .tuple] positions ++ .closing :: after))
  obtain ⟨first, others, rfl⟩ := List.exists_cons_of_length_pos (by omega : 0 < positions.length)
  rw [split, Item.ofTokens, Item.ofTokens, Item.ofTokens_append rfl, Item.ofTokens] at run
  obtain ⟨levels, frontRun, run⟩ := Level.cleanRun_append run
  have startFormed : ∀ level ∈ [Level.start], level.WellFormed :=
    List.forall_mem_singleton.2 Level.wellFormed_start
  have marks' : ∀ position ∈ first :: others, ∀ op, .operator op ∈ position →
      op.lexeme? = none := by
    intro position mem op isOperator
    have inCall : .operator op ∈ List.intercalate [.operator .tuple] (first :: others) :=
      mem_intercalate mem isOperator
    apply marks op
    simp [inCall]
  obtain ⟨trees, next, rest, holds, each⟩ :=
    run.call (frontRun.run.wellFormed startFormed) inside marks' (by simpa using several)
  have levelsLexemes : Level.lexemesOf levels = before.filterMap Token.lexeme? := by
    rw [frontRun.run.lexemes, frontLexemes]
    rfl
  rw [levelsLexemes] at holds
  refine ⟨trees, ?_, each⟩
  rw [same]
  cases rest.holds rfl holds with
  | here settled => exact settled.group
  | above holds => cases holds

end Accepted

namespace Parsing
open OperatorTree

private theorem forall₂_contributions {positions : List (List Token)} {trees : List OperatorTree}
    {contributions : List (List Term)} (bare : ∀ tree ∈ trees, tree.Bare)
    (each : List.Forall₂ Token.Matches positions trees)
    (read : List.Forall₂ (fun tree args => (reading tree).arguments = .ok args) trees
      contributions) :
    List.Forall₂ (fun position args =>
        args.flatMap Term.lexemes = position.filterMap Token.lexeme? ∧
          (args = [] ↔ position.filterMap Token.lexeme? = []))
      positions contributions := by
  induction each generalizing contributions with
  | nil =>
    cases read
    exact .nil
  | cons lexemes _ ih =>
    cases read with
    | @cons _ args _ _ first rest =>
      obtain ⟨firstBare, restBare⟩ := List.forall_mem_cons.1 bare
      have own := (Bare.spells firstBare).arguments args first
      rw [lexemes] at own
      refine .cons ⟨own, ?_⟩ (ih restBare rest)
      rw [← own, List.flatMap_eq_nil_iff]
      constructor
      · rintro rfl
        exact List.forall_mem_nil _
      · intro none
        cases args with
        | nil => rfl
        | cons arg args => exact absurd (none arg List.mem_cons_self) arg.lexemes_ne_nil

private theorem length_le_of_forall₂ {R : α → List β → Prop} {parts : List α}
    {lists : List (List β)} (each : List.Forall₂ R parts lists)
    (nonempty : ∀ part ∈ parts, ∀ list, R part list → list ≠ []) :
    parts.length ≤ lists.flatten.length := by
  induction each with
  | nil => exact Nat.le_refl _
  | @cons _ list _ _ first _ ih =>
    obtain ⟨here, others⟩ := List.forall_mem_cons.1 nonempty
    have positive := List.length_pos_iff.2 (here list first)
    have rest := ih others
    rw [List.flatten_cons, List.length_append, List.length_cons]
    omega

end Parsing

open Parsing in
/-- Each position of a call contributes the arguments with its own numbers and names. So a position
with none of them contributes no argument, and if there is no such position, there are at least as
many arguments as positions. -/
theorem parse_call_positions {text name : String} {term : Term} {before after : List Token}
    {positions : List (List Token)} (accepted : parse text = .ok term)
    (tokens : Token.ofChars text.toList = .ok (before ++ .identifier name :: .opening ::
      (List.intercalate [.operator .tuple] positions ++ .closing :: after)))
    (inside : ∀ position ∈ positions, Token.IsPosition position)
    (several : 2 ≤ positions.length) :
    ∃ contributions : List (List Term),
      Term.Occurs (.call name contributions.flatten) term (before.filterMap Token.lexeme?) ∧
      List.Forall₂ (fun position args =>
          args.flatMap Term.lexemes = position.filterMap Token.lexeme? ∧
            (args = [] ↔ position.filterMap Token.lexeme? = []))
        positions contributions ∧
      ((∀ position ∈ positions, position.filterMap Token.lexeme? ≠ []) →
        positions.length ≤ contributions.flatten.length) := by
  let t : Accepted := ⟨text, term, accepted⟩
  have own : t.tokens = _ := Except.ok.inj (t.ofChars_tokens.1.symm.trans tokens)
  obtain ⟨trees, settled, each⟩ := t.settled_call own inside several
  have bare := OperatorTree.bare_of_ofItems t.ofChars_tokens.2
  have occurs := settled.resolve_right (bare.not_misplaced t.reading_succeeds)
  obtain ⟨contributions, isCall, read⟩ :=
    OperatorTree.of_call_succeeds (bare.succeeds_of_occurs occurs t.reading_succeeds)
  rw [List.reverse_reverse] at read
  have treesBare : ∀ tree ∈ trees, tree.Bare := fun tree mem =>
    (bare.of_occurs occurs).of_position (List.mem_reverse.2 mem)
  have contributes := forall₂_contributions treesBare each read
  refine ⟨contributions, ?_, contributes, ?_⟩
  · have whole := OperatorTree.arguments_of_operand t.ofChars_tree.2
    exact Term.occursAmong_singleton.1 (bare.occurs isCall occurs whole)
  · intro nonempty
    refine length_le_of_forall₂ contributes ?_
    intro position mem args contributed empty
    exact nonempty position mem (contributed.2.1 empty)

theorem parse_call_positions_of_empty :
    parse "sin(,x)" = .ok (.call "sin" [.var "x"]) ∧
      ∃ contributions : List (List Term),
        Term.Occurs (.call "sin" contributions.flatten) (.call "sin" [.var "x"]) [] ∧
        List.Forall₂ (fun position args =>
            args.flatMap Term.lexemes = position.filterMap Parsing.Token.lexeme? ∧
              (args = [] ↔ position.filterMap Parsing.Token.lexeme? = []))
          [[], [.identifier "x"]] contributions := by
  have accepted : parse "sin(,x)" = .ok (.call "sin" [.var "x"]) := rfl
  have tokens : Parsing.Token.ofChars "sin(,x)".toList = .ok ([] ++ .identifier "sin" :: .opening ::
      (List.intercalate [.operator .tuple] [[], [.identifier "x"]] ++ .closing :: [])) := rfl
  have inside : ∀ position ∈ [[], [Parsing.Token.identifier "x"]],
      Parsing.Token.IsPosition position :=
    List.forall_mem_cons.2 ⟨rfl, List.forall_mem_singleton.2 rfl⟩
  obtain ⟨contributions, occurs, each, -⟩ :=
    parse_call_positions accepted tokens inside (Nat.le_refl 2)
  exact ⟨accepted, contributions, occurs, each⟩

end CellFormula
