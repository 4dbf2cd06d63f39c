import CellFormula.Proofs.Parsing.Edge
import CellFormula.Proofs.Parsing.Writing
/-! Every written chain is a formula, and its tree is the grouping of the chain. -/
namespace CellFormula.Parsing
open OperatorTree

/-! Items of atoms, operands and chains. -/

def BehindVariable (rest : List Token) : Prop :=
  ∀ name, Item.ofIdentifier name rest.head? = .operator (.reference name)

namespace Atom

theorem ofTokens (a : Atom) {rest : List Token} (h : BehindVariable rest) :
    Item.ofTokens false (a.tokens ++ rest) = a.items ++ Item.ofTokens true rest := by
  cases a with
  | number word value spelled => rfl
  | scaled word sign digits value noConstant spelled => rfl
  | identifier name =>
    change Item.ofIdentifier name.text rest.head? :: Item.ofTokens true rest = _
    rw [h]
    rfl
  | group inner =>
    unfold tokens items
    simp only [List.append_assoc]
    change .opening :: Item.ofTokens false (inner.tokens ++ .closing :: rest) = _
    rw [inner.ofTokens rfl]
    rfl
  | call function gap inside arguments =>
    unfold tokens items
    simp only [List.append_assoc]
    change .operator (.function function.text) :: .opening ::
      Item.ofTokens false (listing Enclosed.tokens (.operator .tuple) arguments ++
        .closing :: rest) = _
    rw [ofTokens_listing]
    rfl

end Atom

namespace Operand

theorem ofTokens (x : Operand Atom) {rest : List Token} (h : BehindVariable rest) :
    Item.ofTokens false (x.tokens ++ rest) = x.items ++ Item.ofTokens true rest := by
  unfold tokens items
  rw [List.append_assoc, List.append_assoc, ← x.atom.ofTokens h]
  induction x.minuses.length with
  | zero => rfl
  | succ count ih =>
    rw [List.replicate_succ, List.replicate_succ, List.cons_append, List.cons_append, ← ih]
    rfl

end Operand

namespace Chain

theorem ofTokens (chain : Chain (Operand Atom)) {rest : List Token} (h : BehindVariable rest) :
    Item.ofTokens false (chain.tokens ++ rest) = chain.items ++ Item.ofTokens true rest := by
  induction chain generalizing rest with
  | single only => exact only.ofTokens h
  | snoc front op x ih =>
    have behind : BehindVariable (op.token :: (x.tokens ++ rest)) := by
      intro name
      cases op <;> rfl
    have joint : Item.ofTokens true (op.token :: (x.tokens ++ rest)) =
        .operator op.operator :: Item.ofTokens false (x.tokens ++ rest) := by
      cases op <;> rfl
    have front_items := ih behind
    rw [joint, x.ofTokens h] at front_items
    unfold tokens items spell
    simp only [List.append_assoc]
    exact front_items

end Chain

/-! Trees of atoms. -/

@[simp] theorem readings_eq (operands : List OperatorTree) :
    readings operands = operands.reverse.map reading := by
  induction operands with
  | nil => rfl
  | cons latest earlier ih => simp [readings, ih]

def argumentTree : List Enclosed → OperatorTree
  | [] => emptyRoot
  | [only] => only.content.tree
  | arguments => node .root [node .tuple (arguments.map fun e => e.content.tree).reverse]

namespace Atom

def tree : Atom → OperatorTree
  | number _ value _ | scaled _ _ _ value .. => node (.constant (.number value)) []
  | identifier name => node (.reference name.text) []
  | group inner => inner.content.tree
  | call function _ _ arguments => node (.function function.text) [argumentTree arguments]

end Atom

private theorem operator_content (e : Enclosed) : e.content.tree.operator = .root := by
  obtain ⟨child, same, -⟩ := e.content.run.1
  rw [same]
  rfl

private theorem closed_atom : Expression.Closed Atom.tree := by
  intro a op
  cases a with
  | number word value spelled => cases op <;> rfl
  | scaled word sign digits value noConstant spelled => cases op <;> rfl
  | identifier name => cases op <;> rfl
  | group inner =>
    unfold Atom.tree
    rw [operator_content]
    cases op <;> decide
  | call function gap inside arguments => cases op <;> rfl

private theorem allArguments_contents (arguments : List Enclosed) :
    Reading.allArguments (arguments.map fun e => e.content.tree.reading) =
      .ok (arguments.map fun e => e.content.term) := by
  induction arguments with
  | nil => rfl
  | cons e arguments ih =>
    have operand : e.content.tree.reading.operand = .ok e.content.term := e.content.ofChars_tree.2
    rw [List.map_cons, Reading.allArguments, arguments_of_operand operand, ih]
    rfl

@[simp] theorem arguments_argumentTree (arguments : List Enclosed) :
    (argumentTree arguments).reading.arguments = .ok (arguments.map fun e => e.content.term) := by
  match arguments with
  | [] => rfl
  | [only] => exact arguments_of_operand only.content.ofChars_tree.2
  | first :: second :: rest =>
    have contents := allArguments_contents (first :: second :: rest)
    change Reading.allArguments (readings _) = _
    rw [readings_eq, List.reverse_reverse, List.map_map]
    exact contents

@[simp] theorem reading_atom (a : Atom) : a.tree.reading.operand = .ok a.term := by
  cases a with
  | number word value spelled => rfl
  | scaled word sign digits value noConstant spelled => rfl
  | identifier name => rfl
  | group inner => exact inner.content.ofChars_tree.2
  | call function gap inside arguments =>
    change Reading.operandOf (.function function.text) [(argumentTree arguments).reading] = _
    rw [Reading.operandOf, Reading.allArguments, arguments_argumentTree]
    change Except.ok (Term.call function.text (_ ++ [])) = _
    rw [List.append_nil]
    rfl

/-! The items of a chain, one step after the other. -/

theorem run_append {first rest : List Item} {before between after : Stack}
    (h : first.foldlM Stack.step before = .ok between)
    (h' : rest.foldlM Stack.step between = .ok after) :
    (first ++ rest).foldlM Stack.step before = .ok after := by
  rw [List.foldlM_append, h]
  exact h'

theorem run_single {item : Item} {before after : Stack} (h : Stack.step before item = .ok after) :
    [item].foldlM Stack.step before = .ok after := by
  rw [List.foldlM_cons, h]
  rfl

private theorem run_opening (below : Stack) :
    [.opening].foldlM Stack.step below = .ok (emptyRoot :: below) := rfl

private theorem step_closing (hole : Hole) {stack : Stack} {operands : List OperatorTree}
    (several : ¬ stack.length ≤ 1)
    (closes : Stack.collapse stack = .ok [node .root operands, hole.tree]) :
    Stack.step stack .closing = .ok [hole.fill (node .root operands)] := by
  have operand : (node .root operands).operator.IsOperand := .inl rfl
  rw [Stack.step, if_neg several, closes]
  exact hole.place operand

private theorem run_closing (hole : Hole) (operands : List OperatorTree) (h : operands.length ≤ 1) :
    [Item.closing].foldlM Stack.step [node .root operands, hole.tree] =
      .ok [hole.fill (node .root operands)] := by
  have few : ¬ 1 < operands.length := by omega
  apply run_single
  apply step_closing hole (by simp)
  rw [Stack.collapse, Stack.close_root rfl, Stack.close.settle]
  exact if_neg few

private theorem run_closing_tuple (hole : Hole) (trees : List OperatorTree) :
    [Item.closing].foldlM Stack.step [node .tuple trees, emptyRoot, hole.tree] =
      .ok [hole.fill (node .root [node .tuple trees])] := by
  apply run_single
  exact step_closing hole (by simp) rfl

theorem run_listed (arguments : List Enclosed) (earlier : List OperatorTree) (below : Stack) :
    (arguments.flatMap fun e => .operator .tuple :: e.items).foldlM Stack.step
        (node .tuple earlier :: below) =
      .ok (node .tuple ((arguments.map fun e => e.content.tree).reverse ++ earlier) :: below) := by
  induction arguments generalizing earlier with
  | nil => rfl
  | cons next arguments ih =>
    have comma : [Item.operator .tuple].foldlM Stack.step (node .tuple earlier :: below) =
        .ok (node .tuple (emptyRoot :: earlier) :: below) := rfl
    have content := next.content.run.2 (.listed earlier below)
    rw [List.flatMap_cons, List.map_cons, List.reverse_cons, List.append_assoc]
    exact run_append (run_append comma content) (ih (next.content.tree :: earlier))

theorem run_arguments (hole : Hole) (arguments : List Enclosed) :
    (listing Enclosed.items (.operator .tuple) arguments ++ [Item.closing]).foldlM Stack.step
        [emptyRoot, hole.tree] = .ok [hole.fill (argumentTree arguments)] := by
  match arguments with
  | [] => exact run_closing hole [] (Nat.zero_le 1)
  | [only] =>
    obtain ⟨⟨child, tree, -⟩, content⟩ := only.content.run
    have closes := run_closing hole [child] (Nat.le_refl 1)
    rw [← tree] at closes
    rw [listing, List.flatMap_nil, List.append_nil]
    exact run_append (content (.alone [hole.tree])) closes
  | first :: second :: rest =>
    have content := first.content.run.2 (.alone [hole.tree])
    have comma : [Item.operator .tuple].foldlM Stack.step [first.content.tree, hole.tree] =
        .ok [node .tuple [emptyRoot, first.content.tree], emptyRoot, hole.tree] := by
      obtain ⟨child, tree, -⟩ := first.content.run.1
      rw [tree]
      rfl
    have content' := second.content.run.2 (.listed [first.content.tree] [emptyRoot, hole.tree])
    have listed := run_listed rest [second.content.tree, first.content.tree]
      [emptyRoot, hole.tree]
    have opened := run_append content (run_append (run_append comma content') listed)
    have all := run_append opened (run_closing_tuple hole _)
    have trees : argumentTree (first :: second :: rest) = node .root [node .tuple
        ((rest.map fun e => e.content.tree).reverse ++
          [second.content.tree, first.content.tree])] := by
      simp [argumentTree]
    rw [trees]
    exact all

theorem run_operator (hole : Hole) (op : Operator) (h : op.IsOperand) :
    [Item.operator op].foldlM Stack.step [hole.tree] = .ok [hole.fill (node op [])] :=
  run_single (hole.place h)

theorem run_atom (a : Atom) (hole : Hole) :
    a.items.foldlM Stack.step [hole.tree] = .ok [hole.fill a.tree] := by
  cases a with
  | number word value spelled => exact run_operator hole _ (.inl rfl)
  | scaled word sign digits value noConstant spelled => exact run_operator hole _ (.inl rfl)
  | identifier name => exact run_operator hole _ (.inl rfl)
  | group inner =>
    obtain ⟨⟨child, tree, -⟩, content⟩ := inner.content.run
    have closes := run_closing hole [child] (Nat.le_refl 1)
    rw [← tree] at closes
    exact run_append (run_append (run_opening [hole.tree]) (content (.alone [hole.tree]))) closes
  | call function gap inside arguments =>
    have unary : (Operator.function function.text).isUnary = true := rfl
    have named := run_operator hole (.function function.text) (.inr unary)
    have behind := run_arguments (hole.under _ unary) arguments
    rw [hole.tree_under, hole.fill_under] at behind
    rw [Atom.items, List.append_assoc]
    exact run_append (run_append named (run_opening _)) behind

theorem run_operand (x : Operand Atom) (hole : Hole) :
    x.items.foldlM Stack.step [hole.tree] = .ok [hole.fill (x.expression.tree Atom.tree)] := by
  unfold Operand.items Operand.expression
  induction x.minuses.length generalizing hole with
  | zero => exact run_atom x.atom hole
  | succ count ih =>
    have unary : Operator.neg.isUnary = true := rfl
    have minus := run_operator hole .neg (.inr unary)
    have behind := ih (hole.under .neg unary)
    rw [hole.tree_under, hole.fill_under] at behind
    rw [List.replicate_succ, List.cons_append]
    exact run_append minus behind

theorem run_chain (chain : Chain (Operand Atom)) :
    chain.items.foldlM Stack.step [emptyRoot] =
      .ok [node .root [chain.expression.tree Atom.tree]] := by
  induction chain with
  | single only =>
    rw [Chain.expression_single]
    exact run_operand only .start
  | snoc front op x ih =>
    obtain ⟨hole, joint, fills⟩ := Expression.exists_hole closed_atom op front.expression
    have operand := run_operand x hole
    rw [fills, ← Chain.expression_snoc] at operand
    exact run_append (run_append ih (run_single joint)) operand

end CellFormula.Parsing

namespace CellFormula
open Parsing

/-- Every written chain is a formula, that of its grouping: powers group tightest, then minuses,
products, sums, comparisons and assignments, and assignments group to the right. A text in
parentheses contributes its own formula, and so does every argument of a call. -/
theorem parse_chain (chain : Chain (Operand Atom)) (apart : chain.Apart) :
    parse (String.ofList chain.text) = .ok (chain.expression.term Atom.term) := by
  have scanned : Mode.plain.glyphs chain.text = .ok chain.glyphs := by
    have whole := chain.scans (rfl : Mode.plain.glyphs [] = .ok [])
    rwa [List.append_nil, List.append_nil] at whole
  have lexed : Token.ofPieces (Piece.ofGlyphs chain.glyphs) = .ok chain.tokens := by
    have lexes : Lexes chain.glyphs chain.tokens [] :=
      Chain.lexes apart rfl fun _ _ _ _ _ same => by cases same
    have whole := lexes (rfl : Token.ofPieces (Piece.ofGlyphs []) = .ok [])
    rwa [List.append_nil, List.append_nil] at whole
  have items : Item.ofTokens false chain.tokens = chain.items := by
    have behind : BehindVariable [] := fun name => rfl
    have whole := chain.ofTokens behind
    rwa [List.append_nil, Item.ofTokens, List.append_nil] at whole
  have tree : OperatorTree.ofChars chain.text =
      .ok (.node .root [chain.expression.tree Atom.tree]) := by
    unfold OperatorTree.ofChars Token.ofChars Piece.ofChars
    rw [scanned]
    change (Token.ofPieces (Piece.ofGlyphs chain.glyphs) >>= OperatorTree.ofTokens) = _
    rw [lexed]
    change OperatorTree.ofItems (Item.ofTokens false chain.tokens) = _
    rw [items, OperatorTree.ofItems, run_chain]
    rfl
  have read : (OperatorTree.node .root [chain.expression.tree Atom.tree]).toTerm =
      .ok (chain.expression.term Atom.term) :=
    Expression.reading_tree reading_atom chain.expression
  unfold parse parseChars
  rw [String.toList_ofList, tree]
  dsimp only
  rw [read]

/-- The chain `-1e -3^f(x)`: without the blank behind `1e`, the sign would be the one of an
exponent. -/
def signedChain : Chain (Operand Atom) :=
  let tight : Gap := ⟨[], by simp⟩
  let space : Gap := ⟨[' '], List.forall_mem_singleton.2 rfl⟩
  let three : Word := ⟨['3'], by decide, List.forall_mem_singleton.2 (by decide)⟩
  let f : Word := ⟨['f'], by decide, List.forall_mem_singleton.2 (by decide)⟩
  let mantissa : Word := ⟨['1', 'e'], by decide,
    List.forall_mem_cons.2 ⟨by decide, List.forall_mem_singleton.2 (by decide)⟩⟩
  let x : Enclosed := ⟨⟨"x", .var "x", rfl⟩, tight⟩
  ((Chain.single ⟨tight, [tight], .identifier ⟨mantissa, by decide⟩, space⟩).snoc .sub
    ⟨tight, [], .number three (Number.ofMagnitudeBits (Number.nearestBits 3 1)) rfl, tight⟩).snoc .pow
    ⟨tight, [], .call ⟨f, by decide⟩ tight tight [x], tight⟩

theorem parse_signedChain :
    signedChain.Apart ∧ signedChain.text = "-1e -3^f(x\n)".toList ∧
      parse (String.ofList signedChain.text) =
        .ok (.binary .sub (.neg (.var "1e"))
          (.binary .pow (.num (Number.ofMagnitudeBits (Number.nearestBits 3 1)))
            (.call "f" [.var "x"]))) := by
  have apart : signedChain.Apart :=
    ⟨⟨trivial, fun _ _ => List.cons_ne_nil _ _⟩, fun opens _ => opens.elim⟩
  exact ⟨apart, rfl, parse_chain signedChain apart⟩

end CellFormula
