import CellFormula.Parsing.Reading
import CellFormula.Proofs.Parsing.Tokens
/-! Chains of operands between binary operators, cut at their loosest operators first. One more
operator descends along the right edge of the grouping, past the operators that bind less tightly,
and takes what it meets there as its left operand. -/
namespace CellFormula

namespace Operation

def operator : Operation → Parsing.Operator
  | assign => .assign
  | add => .add
  | sub => .sub
  | mul => .mul
  | div => .div
  | pow => .pow
  | lt => .lt
  | gt => .gt
  | le => .le
  | ge => .ge
  | eq => .eq
  | ne => .ne

def rank (op : Operation) : Nat := op.operator.precedence

theorem rank_lt (op : Operation) : op.rank < 200 := by
  cases op <;> decide

theorem admits_operator (op later : Operation) :
    op.operator.admits later.operator = true ↔
      op.rank < later.rank ∨ op = .assign ∧ later = .assign := by
  cases op <;> cases later <;> decide

@[simp] theorem neg_admits_operator (op : Operation) :
    Parsing.Operator.neg.admits op.operator = true ↔ op = .pow := by
  cases op <;> decide

def isFactor : Operation → Bool
  | mul | div => true
  | _ => false

def isSummand : Operation → Bool
  | add | sub => true
  | _ => false

end Operation

namespace Parsing

inductive Chain (α : Type) where
  | single (only : α)
  | snoc (front : Chain α) (op : Operation) (last : α)

structure Operand (α : Type) where
  before : Gap
  minuses : List Gap
  atom : α
  behind : Gap

inductive Expression (α : Type) where
  | atom (atom : α)
  | neg (operand : Expression α)
  | binary (op : Operation) (left right : Expression α)
deriving DecidableEq, Repr

namespace Expression

def negate (e : Expression α) : Nat → Expression α
  | 0 => e
  | count + 1 => neg (e.negate count)

end Expression

namespace Operand

def expression (x : Operand α) : Expression α := (Expression.atom x.atom).negate x.minuses.length

end Operand

namespace Chain

def last : Chain α → α
  | single only => only
  | snoc _ _ last => last

def growLast (parts : Chain (Chain α)) (op : Operation) (x : α) : Chain (Chain α) :=
  match parts with
  | single part => single (part.snoc op x)
  | snoc front joint part => front.snoc joint (part.snoc op x)

/-- Cuts a chain at some of its operators, which then stand between the parts. -/
def cut (isCut : Operation → Bool) : Chain α → Chain (Chain α)
  | single only => single (single only)
  | snoc front op x =>
    if isCut op then (front.cut isCut).snoc op (single x) else (front.cut isCut).growLast op x

def foldLeft (group : α → Expression β) : Chain α → Expression β
  | single only => group only
  | snoc front op x => .binary op (front.foldLeft group) (group x)

/-- Folds a chain from the right, onto what already stands to the right of it. -/
def foldRightOnto (group : α → Expression β) (op : Operation) (right : Expression β) :
    Chain α → Expression β
  | single only => .binary op (group only) right
  | snoc front joint x => front.foldRightOnto group joint (.binary op (group x) right)

def foldRight (group : α → Expression β) : Chain α → Expression β
  | single only => group only
  | snoc front op x => front.foldRightOnto group op (group x)

def leadingMinuses : Chain (Operand α) → Nat
  | single only => only.minuses.length
  | snoc front _ _ => front.leadingMinuses

/-- A power chain without the minuses in front of it. Those of an exponent cover only the exponent. -/
def unsigned : Chain (Operand α) → Expression α
  | single only => .atom only.atom
  | snoc front op x => .binary op front.unsigned x.expression

def power (chain : Chain (Operand α)) : Expression α :=
  chain.unsigned.negate chain.leadingMinuses

def product (chain : Chain (Operand α)) : Expression α :=
  (chain.cut Operation.isFactor).foldLeft power

def sum (chain : Chain (Operand α)) : Expression α :=
  (chain.cut Operation.isSummand).foldLeft product

def comparison (chain : Chain (Operand α)) : Expression α :=
  (chain.cut Operation.isComparison).foldLeft sum

def expression (chain : Chain (Operand α)) : Expression α :=
  (chain.cut (· = .assign)).foldRight comparison

end Chain

namespace Expression

def admits (later : Operation) : Expression α → Bool
  | atom _ => false
  | neg _ => Operator.neg.admits later.operator
  | binary op _ _ => op.operator.admits later.operator

/-- Adds an operator and its right operand at the right edge. -/
def extend : Expression α → Operation → Expression α → Expression α
  | atom a, op, right => binary op (atom a) right
  | neg operand, op, right =>
    if Operator.neg.admits op.operator then neg (operand.extend op right)
    else binary op (neg operand) right
  | binary outer first second, op, right =>
    if outer.operator.admits op.operator then binary outer first (second.extend op right)
    else binary op (binary outer first second) right

theorem extend_of_not_admits {e : Expression α} {op : Operation} (h : e.admits op = false)
    (right : Expression α) : e.extend op right = binary op e right := by
  cases e with
  | atom a => rfl
  | neg operand =>
    have stays : ¬ Operator.neg.admits op.operator = true := (Bool.not_eq_true _).mpr h
    rw [extend, if_neg stays]
  | binary outer first second =>
    have stays : ¬ outer.operator.admits op.operator = true := (Bool.not_eq_true _).mpr h
    rw [extend, if_neg stays]

theorem extend_binary {outer op : Operation} (h : outer.operator.admits op.operator = true)
    (first second right : Expression α) :
    (binary outer first second).extend op right = binary outer first (second.extend op right) := by
  rw [extend, if_pos h]

@[simp] theorem extend_negate (e right : Expression α) (count : Nat) :
    (e.negate count).extend .pow right = (e.extend .pow right).negate count := by
  induction count with
  | zero => rfl
  | succ count ih =>
    have descends : Operator.neg.admits Operation.pow.operator = true := by decide
    rw [negate, extend, if_pos descends, ih, negate]

end Expression

namespace Chain

def Forall (joint : Operation → Prop) (part : α → Prop) : Chain α → Prop
  | single only => part only
  | snoc front op x => front.Forall joint part ∧ joint op ∧ part x

def Above (level : Nat) (chain : Chain α) : Prop :=
  chain.Forall (fun op => level < op.rank) fun _ => True

theorem Above.snoc {level : Nat} {front : Chain α} {op : Operation} (h : front.Above level)
    (above : level < op.rank) (x : α) : (front.snoc op x).Above level :=
  ⟨h, above, trivial⟩

theorem above_zero (chain : Chain α) : chain.Above 0 := by
  induction chain with
  | single only => trivial
  | snoc front op x ih =>
    have positive : 0 < op.rank := by cases op <;> decide
    exact ih.snoc positive x

/-- The operators above a lower level are those of the next level, where chains are cut, and those
above that one. -/
def CutsLevel (lower level : Nat) (isCut : Operation → Bool) : Prop :=
  ∀ op : Operation, lower < op.rank → if isCut op then op.rank = level else level < op.rank

/-- The parts of a chain that is cut at a level: only operators of the level stand between them, and
only tighter ones inside. -/
abbrev CutAt (level : Nat) (parts : Chain (Chain α)) : Prop :=
  parts.Forall (fun op => op.rank = level) (Above level)

theorem CutAt.growLast {level : Nat} {parts : Chain (Chain α)} (h : parts.CutAt level)
    {op : Operation} (above : level < op.rank) (x : α) : (parts.growLast op x).CutAt level := by
  cases parts with
  | single part => exact h.snoc above x
  | snoc rest joint part =>
    obtain ⟨rest_parts, joint_rank, part_above⟩ := h
    exact ⟨rest_parts, joint_rank, part_above.snoc above x⟩

theorem cutAt_cut {lower level : Nat} {isCut : Operation → Bool}
    (cuts : CutsLevel lower level isCut) {chain : Chain α} (h : chain.Above lower) :
    (chain.cut isCut).CutAt level := by
  induction chain with
  | single only => trivial
  | snoc front op x ih =>
    obtain ⟨front_above, above, -⟩ := h
    have parts := ih front_above
    have position := cuts op above
    unfold cut
    split at position
    · rename_i isCut
      rw [if_pos isCut]
      exact ⟨parts, position, trivial⟩
    · rename_i notCut
      rw [if_neg notCut]
      exact parts.growLast position x

/-- A grouping of the chains above a level, as far as longer chains are concerned. -/
structure Groups (level : Nat) (group : Chain (Operand α) → Expression α) : Prop where
  single : ∀ x : Operand α, group (.single x) = x.expression
  snoc : ∀ {front : Chain (Operand α)} {op : Operation} (x : Operand α), front.Above level →
    level < op.rank → group (front.snoc op x) = (group front).extend op x.expression
  closed : ∀ {chain : Chain (Operand α)} {op : Operation}, chain.Above level →
    op.rank ≤ level → (group chain).admits op = false

private theorem eq_pow_of_rank {op : Operation} (h : 100 < op.rank) : op = .pow := by
  cases op <;> first | rfl | exact absurd h (by decide)

private theorem unsigned_closed {chain : Chain (Operand α)} (h : chain.Above 100) (op : Operation) :
    chain.unsigned.admits op = false := by
  cases chain with
  | single only => rfl
  | snoc front joint x =>
    obtain ⟨-, above, -⟩ := h
    rw [eq_pow_of_rank above]
    unfold unsigned
    cases op <;> rfl

theorem groups_power : Groups 100 (@power α) where
  single x := rfl
  snoc {front op} x above tighter := by
    rw [eq_pow_of_rank tighter, power, power, Expression.extend_negate,
      Expression.extend_of_not_admits (unsigned_closed above .pow)]
    rfl
  closed {chain op} above looser := by
    unfold power
    cases chain.leadingMinuses with
    | zero => exact unsigned_closed above op
    | succ count =>
      have ne : op ≠ .pow := by
        rintro rfl
        exact absurd looser (by decide)
      rw [Expression.negate, Expression.admits, ← Bool.not_eq_true,
        Operation.neg_admits_operator]
      exact ne

private theorem not_admits_of_rank {op later : Operation} (le : later.rank ≤ op.rank)
    (above : 50 < op.rank) : op.operator.admits later.operator = false := by
  rw [← Bool.not_eq_true, Operation.admits_operator]
  rintro (lt | ⟨rfl, -⟩)
  · omega
  · exact absurd above (by decide)

section Level
variable {lower level : Nat} {isCut : Operation → Bool}
  {group : Chain (Operand α) → Expression α}

theorem Groups.not_admits_foldLeft (h : Groups level group) (above : 50 < level)
    {parts : Chain (Chain (Operand α))} (cut : parts.CutAt level) {op : Operation}
    (looser : op.rank ≤ level) : (parts.foldLeft group).admits op = false := by
  cases parts with
  | single part => exact h.closed cut looser
  | snoc rest joint part =>
    obtain ⟨-, joint_rank, -⟩ := cut
    exact not_admits_of_rank (by omega) (by omega)

theorem Groups.foldLeft_growLast (h : Groups level group) {parts : Chain (Chain (Operand α))}
    (cut : parts.CutAt level) {op : Operation} (tighter : level < op.rank) (x : Operand α) :
    (parts.growLast op x).foldLeft group = (parts.foldLeft group).extend op x.expression := by
  cases parts with
  | single part => exact h.snoc x cut tighter
  | snoc rest joint part =>
    obtain ⟨-, joint_rank, part_above⟩ := cut
    have descends : joint.operator.admits op.operator = true := by
      rw [Operation.admits_operator]
      omega
    rw [growLast, Chain.foldLeft, Chain.foldLeft, h.snoc x part_above tighter,
      Expression.extend_binary descends]

theorem Groups.foldLeft (h : Groups level group) (le : 50 < level) (lt : lower < level)
    (cuts : CutsLevel lower level isCut) :
    Groups lower (fun chain => (chain.cut isCut).foldLeft group) where
  single x := h.single x
  snoc {front op} x above tighter := by
    have parts := cutAt_cut cuts above
    have position := cuts op tighter
    rw [cut]
    split at position
    · rename_i isCut
      have closed := h.not_admits_foldLeft le parts (Nat.le_of_eq position)
      rw [if_pos isCut, Chain.foldLeft, h.single, Expression.extend_of_not_admits closed]
    · rename_i notCut
      rw [if_neg notCut]
      exact h.foldLeft_growLast parts position x
  closed {chain op} above looser :=
    h.not_admits_foldLeft le (cutAt_cut cuts above) (by omega)

end Level

theorem groups_product : Groups 95 (@product α) :=
  groups_power.foldLeft (by omega) (by omega) (by intro op; cases op <;> decide)

theorem groups_sum : Groups 80 (@sum α) :=
  groups_product.foldLeft (by omega) (by omega) (by intro op; cases op <;> decide)

theorem groups_comparison : Groups 50 (@comparison α) :=
  groups_sum.foldLeft (by omega) (by omega) (by intro op; cases op <;> decide)

private theorem eq_assign_of_rank {op : Operation} (h : op.rank ≤ 50) : op = .assign := by
  cases op <;> first | rfl | exact absurd h (by decide)

private theorem assign_admits (op : Operation) :
    Operation.assign.operator.admits op.operator = true := by
  cases op <;> decide

/-- An assignment admits every operator, so a longer chain only changes what stands rightmost. -/
private theorem extend_foldRightOnto (group : α → Expression β) {part : α → Prop} {parts : Chain α}
    (assigns : parts.Forall (fun op => op.rank = 50) part) {joint : Operation}
    (joint_rank : joint.rank = 50) (op : Operation) (value right : Expression β) :
    (parts.foldRightOnto group joint value).extend op right =
      parts.foldRightOnto group joint (value.extend op right) := by
  induction parts generalizing joint value with
  | single only =>
    rw [eq_assign_of_rank (Nat.le_of_eq joint_rank), foldRightOnto, foldRightOnto]
    exact Expression.extend_binary (assign_admits op) _ _ _
  | snoc front inner x ih =>
    obtain ⟨front_assigns, inner_rank, -⟩ := assigns
    rw [foldRightOnto, foldRightOnto, ih front_assigns inner_rank,
      eq_assign_of_rank (Nat.le_of_eq joint_rank), Expression.extend_binary (assign_admits op)]

section Assignment
variable {group : Chain (Operand α) → Expression α} {parts : Chain (Chain (Operand α))}

theorem Groups.foldRight_snoc (h : Groups 50 group) (cut : parts.CutAt 50) (x : Operand α) :
    (parts.snoc .assign (.single x)).foldRight group =
      (parts.foldRight group).extend .assign x.expression := by
  cases parts with
  | single part =>
    have closed : (group part).admits .assign = false := h.closed cut (by decide)
    rw [foldRight, foldRight, foldRightOnto, h.single, Expression.extend_of_not_admits closed]
  | snoc rest joint part =>
    obtain ⟨rest_assigns, joint_rank, part_above⟩ := cut
    have closed : (group part).admits .assign = false := h.closed part_above (by decide)
    rw [foldRight, foldRightOnto, h.single, foldRight,
      extend_foldRightOnto _ rest_assigns joint_rank, Expression.extend_of_not_admits closed]

theorem Groups.foldRight_growLast (h : Groups 50 group) (cut : parts.CutAt 50) {op : Operation}
    (tighter : 50 < op.rank) (x : Operand α) :
    (parts.growLast op x).foldRight group = (parts.foldRight group).extend op x.expression := by
  cases parts with
  | single part => exact h.snoc x cut tighter
  | snoc rest joint part =>
    obtain ⟨rest_assigns, joint_rank, part_above⟩ := cut
    rw [growLast, foldRight, foldRight, extend_foldRightOnto _ rest_assigns joint_rank,
      h.snoc x part_above tighter]

end Assignment

@[simp] theorem expression_single (x : Operand α) : (single x).expression = x.expression :=
  groups_comparison.single x

@[simp] theorem expression_snoc (front : Chain (Operand α)) (op : Operation) (x : Operand α) :
    (front.snoc op x).expression = front.expression.extend op x.expression := by
  have cuts : CutsLevel 0 50 (· = .assign) := by
    intro op
    cases op <;> decide
  have parts := cutAt_cut cuts front.above_zero
  unfold expression
  rw [cut]
  by_cases assigns : op = .assign
  · subst assigns
    rw [if_pos (by decide)]
    exact groups_comparison.foldRight_snoc parts x
  · have tighter : 50 < op.rank :=
      Nat.lt_of_not_le fun looser => assigns (eq_assign_of_rank looser)
    rw [if_neg (by simpa using assigns)]
    exact groups_comparison.foldRight_growLast parts tighter x

/-- The minus of an exponent covers only the exponent. -/
example (gap : Gap) :
    (((single ⟨gap, [], 'a', gap⟩).snoc .pow ⟨gap, [gap], 'b', gap⟩).snoc .pow
      ⟨gap, [], 'c', gap⟩).expression =
      .binary .pow (.binary .pow (.atom 'a') (.neg (.atom 'b'))) (.atom 'c') := rfl

/-- Any other minus covers the whole power. -/
example (gap : Gap) :
    (((single ⟨gap, [gap], 'a', gap⟩).snoc .pow ⟨gap, [], 'b', gap⟩).snoc .pow
      ⟨gap, [], 'c', gap⟩).expression =
      .neg (.binary .pow (.binary .pow (.atom 'a') (.atom 'b')) (.atom 'c')) := rfl

end Chain
end Parsing
end CellFormula
