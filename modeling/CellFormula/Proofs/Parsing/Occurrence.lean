import CellFormula.Proofs.Parsing.Sealing
/-! Calls in a tree under construction. Behind its closing parenthesis a call changes no more. If a
listing in parentheses does not get to the function in front of it, it is an operand where none can
be, and the text is refused. -/
namespace CellFormula

namespace Term

mutual

/-- A part of a formula, right behind these numbers and names. -/
inductive Occurs (part : Term) : Term → List Lexeme → Prop
  | here : Occurs part part []
  | neg {operand : Term} {before : List Lexeme} (h : Occurs part operand before) :
      Occurs part (.neg operand) before
  | left {op : Operation} {left right : Term} {before : List Lexeme}
      (h : Occurs part left before) : Occurs part (.binary op left right) before
  | right {op : Operation} {left right : Term} {before : List Lexeme}
      (h : Occurs part right before) :
      Occurs part (.binary op left right) (left.lexemes ++ before)
  | argument {name : String} {args : List Term} {before : List Lexeme}
      (h : OccursAmong part args before) : Occurs part (.call name args) (.name name :: before)

inductive OccursAmong (part : Term) : List Term → List Lexeme → Prop
  | first {arg : Term} {rest : List Term} {before : List Lexeme} (h : Occurs part arg before) :
      OccursAmong part (arg :: rest) before
  | later {arg : Term} {rest : List Term} {before : List Lexeme}
      (h : OccursAmong part rest before) : OccursAmong part (arg :: rest) (arg.lexemes ++ before)

end

theorem OccursAmong.append_left {part : Term} {before : List Lexeme} :
    ∀ {args : List Term}, OccursAmong part args before → ∀ more : List Term,
      OccursAmong part (args ++ more) before
  | _ :: _, .first h, _ => .first h
  | _ :: _, .later h, more => .later (h.append_left more)

theorem OccursAmong.append_right {part : Term} {more : List Term} {before : List Lexeme}
    (h : OccursAmong part more before) (args : List Term) :
    OccursAmong part (args ++ more) (args.flatMap lexemes ++ before) := by
  induction args with
  | nil => exact h
  | cons arg args ih =>
    rw [List.flatMap_cons, List.append_assoc]
    exact .later ih

@[simp] theorem occursAmong_singleton {part term : Term} {before : List Lexeme} :
    OccursAmong part [term] before ↔ Occurs part term before := by
  constructor
  · intro h
    cases h with
    | first h => exact h
    | later h => cases h
  · exact .first

end Term

namespace Parsing
open OperatorTree

namespace OperatorTree

mutual

inductive Occurs (part : OperatorTree) : OperatorTree → List Lexeme → Prop
  | here : Occurs part part []
  | operand {op : Operator} {operands : List OperatorTree} {before : List Lexeme}
      (h : OccursAmong part operands before) :
      Occurs part (node op operands) (op.lexeme?.toList ++ before)

inductive OccursAmong (part : OperatorTree) : List OperatorTree → List Lexeme → Prop
  | last {tree : OperatorTree} {others : List OperatorTree} {before : List Lexeme}
      (h : Occurs part tree before) :
      OccursAmong part (tree :: others) (lexemesOf others ++ before)
  | other {tree : OperatorTree} {others : List OperatorTree} {before : List Lexeme}
      (h : OccursAmong part others before) : OccursAmong part (tree :: others) before

end

/-- Some listing in parentheses is an operand of an operator between operands. -/
inductive Misplaced : OperatorTree → Prop
  | here {op : Operator} {operands positions : List OperatorTree} (arity : op.arity? = some 2)
      (mem : node .root [node .tuple positions] ∈ operands) : Misplaced (node op operands)
  | operand {op : Operator} {operands : List OperatorTree} {inner : OperatorTree}
      (mem : inner ∈ operands) (h : Misplaced inner) : Misplaced (node op operands)

def call (name : String) (group : OperatorTree) : OperatorTree := node (.function name) [group]

/-! A call is left alone by what is inserted behind it. -/

private theorem operand_of_function_admits {name : String} {later : Operator}
    (admits : (Operator.function name).admits later = true) (notUnary : later.isUnary = false) :
    later.isLeaf = true ∨ later = .root := by
  cases later <;>
    first | exact .inl rfl | exact .inr rfl | (cases notUnary; done) | cases admits

private theorem call_refuses {name : String} {group tree after : OperatorTree}
    (isGroup : group.operator = .root)
    (admits : (Operator.function name).admits tree.operator = true)
    (free : tree.operator.isUnary = true → ¬ (call name group).Sealed) :
    ¬ Inserted tree (call name group) after := by
  have sealed : (call name group).Sealed := .here rfl isGroup
  have notUnary : tree.operator.isUnary = false :=
    (Bool.not_eq_true _).mp fun unary => free unary sealed
  exact sealed.refuses (operand_of_function_admits admits notUnary)

theorem Inserted.occurs {name : String} {group tree outer after : OperatorTree}
    {before : List Lexeme} (isGroup : group.operator = .root) (h : Inserted tree outer after)
    (piece : tree.IsPiece) (free : tree.operator.isUnary = true → ¬ outer.Sealed)
    (reached : outer.operator = .root ∨ outer.operator.admits tree.operator = true)
    (occurs : Occurs (call name group) outer before) : Occurs (call name group) after before := by
  induction h generalizing before with
  | first _ =>
    cases occurs with
    | operand among => cases among
  | next unfilled =>
    cases occurs with
    | here => exact absurd rfl unfilled
    | operand among => exact .operand (.other among)
  | deeper full admits inserted ih =>
    cases occurs with
    | here =>
      have admits' := reached.resolve_left fun root => by cases root
      exact (call_refuses isGroup admits' free (.deeper full admits inserted)).elim
    | operand among =>
      cases among with
      | last h => exact .operand (.last (ih (fun unary inner => free unary (.deeper full inner))
          (.inr admits) h))
      | other h => exact .operand (.other h)
  | around full stays notLeaf empty =>
    cases occurs with
    | here =>
      have admits := reached.resolve_left fun root => by cases root
      exact (call_refuses isGroup admits free (.around full stays notLeaf empty)).elim
    | operand among =>
      cases among with
      | last h =>
        obtain ⟨op, operands⟩ := tree
        have noLexeme : op.lexeme? = none :=
          lexeme?_of_infix notLeaf (Operator.isUnary_of_not_admits stays)
        obtain rfl : operands = [] := piece.operands_eq_nil fun group => (empty group).2.2
        have inner : Occurs (call name group) (node op [_]) _ := .operand (.last h)
        rw [noLexeme] at inner
        exact .operand (.last inner)
      | other h => exact .operand (.other h)

theorem Inserted.occurs_in {part tree outer after : OperatorTree} {before : List Lexeme}
    (h : Inserted tree outer after) (group : tree.operator = .root) (some : tree.operands ≠ [])
    (occurs : Occurs part tree before) : Occurs part after (outer.lexemes ++ before) := by
  induction h with
  | first _ =>
    rw [OperatorTree.lexemes, List.append_assoc]
    exact .operand (.last occurs)
  | next _ =>
    rw [OperatorTree.lexemes, List.append_assoc]
    exact .operand (.last occurs)
  | deeper _ _ _ ih =>
    rw [OperatorTree.lexemes, lexemesOf, List.append_assoc, List.append_assoc]
    exact .operand (.last ih)
  | around _ _ _ empty => exact absurd (empty group).2.2 some

/-! A misplaced listing stays misplaced. -/

theorem Inserted.listing {tree after : OperatorTree} {positions : List OperatorTree}
    (h : Inserted tree (node .root [node .tuple positions]) after)
    (notSequence : tree.operator.isSequence = false) :
    ∃ positions', after = node .root [node .tuple positions'] := by
  cases h with
  | next free => exact absurd rfl free
  | deeper _ _ inserted =>
    cases inserted with
    | first _ => exact ⟨_, rfl⟩
    | next _ => exact ⟨_, rfl⟩
    | deeper full _ _ => cases full
    | around full _ _ _ => cases full
  | around _ stays _ _ => cases (Operator.tuple_admits notSequence).symm.trans stays

theorem Inserted.misplaced {tree outer after : OperatorTree} (h : Inserted tree outer after)
    (notSequence : tree.operator.isSequence = false) (misplaced : outer.Misplaced) :
    after.Misplaced := by
  induction h with
  | first _ =>
    cases misplaced with
    | here _ mem => cases mem
    | operand mem _ => cases mem
  | next _ =>
    cases misplaced with
    | here arity mem => exact .here arity (List.mem_cons_of_mem _ mem)
    | operand mem inner => exact .operand (List.mem_cons_of_mem _ mem) inner
  | deeper _ _ inserted ih =>
    cases misplaced with
    | here arity mem =>
      rcases List.mem_cons.1 mem with rfl | mem
      · obtain ⟨positions', rfl⟩ := inserted.listing notSequence
        exact .here arity List.mem_cons_self
      · exact .here arity (List.mem_cons_of_mem _ mem)
    | operand mem inner =>
      rcases List.mem_cons.1 mem with rfl | mem
      · exact .operand List.mem_cons_self (ih inner)
      · exact .operand (List.mem_cons_of_mem _ mem) inner
  | around _ stays notLeaf empty =>
    obtain ⟨op, operands⟩ := tree
    cases misplaced with
    | here arity mem =>
      rcases List.mem_cons.1 mem with rfl | mem
      · have arity' := Operator.arity?_of_infix notSequence notLeaf
          (Operator.isUnary_of_not_admits stays) fun group => (empty group).2.1 rfl
        exact .operand List.mem_cons_self (.here arity' List.mem_cons_self)
      · exact .here arity (List.mem_cons_of_mem _ mem)
    | operand mem inner =>
      rcases List.mem_cons.1 mem with rfl | mem
      · exact .operand List.mem_cons_self (.operand List.mem_cons_self inner)
      · exact .operand (List.mem_cons_of_mem _ mem) inner

theorem Inserted.misplaced_in {tree outer after : OperatorTree} (h : Inserted tree outer after)
    (group : tree.operator = .root) (some : tree.operands ≠ []) (misplaced : tree.Misplaced) :
    after.Misplaced := by
  induction h with
  | first _ => exact .operand List.mem_cons_self misplaced
  | next _ => exact .operand List.mem_cons_self misplaced
  | deeper _ _ _ ih => exact .operand List.mem_cons_self ih
  | around _ _ _ empty => exact absurd (empty group).2.2 some

/-- A call is at its place among the numbers and names, or the text is lost. -/
def Settled (name : String) (group tree : OperatorTree) (before : List Lexeme) : Prop :=
  Occurs (call name group) tree before ∨ tree.Misplaced

theorem Settled.operands_ne_nil {name : String} {group tree : OperatorTree} {before : List Lexeme}
    (h : Settled name group tree before) (isGroup : tree.operator = .root) :
    tree.operands ≠ [] := by
  obtain ⟨op, operands⟩ := tree
  rintro rfl
  rcases h with occurs | misplaced
  · cases occurs with
    | operand among => cases among
  · cases misplaced with
    | here _ mem => cases mem
    | operand mem _ => cases mem

/-- A listing in parentheses goes to the function right in front of it, if that is at an open place
of a tree with room for it. -/
theorem Inserted.settles {name : String} {positions : List OperatorTree}
    {outer between after : OperatorTree}
    (first : Inserted (node (.function name) []) outer between)
    (second : Inserted (node .root [node .tuple positions]) between after)
    (wellFormed : outer.WellFormed)
    (plain : ∀ operand ∈ outer.operands, operand.operator.isSequence = false)
    (isOpen : ¬ outer.Sealed) :
    Settled name (node .root [node .tuple positions]) after outer.lexemes := by
  have whole : (node .root [node .tuple positions]).operator = .root := rfl
  induction first generalizing after with
  | @first outer notLeaf =>
    cases wellFormed with
    | @node _ _ most arity _ _ =>
      cases second with
      | next free =>
        have two : most = 2 := by
          have atMost := Operator.arity?_le arity
          have positive := Operator.arity?_pos arity notLeaf
          have notOne : most ≠ 1 := by
            rintro rfl
            exact free arity
          omega
        subst two
        exact .inr (.here arity List.mem_cons_self)
      | deeper _ _ inserted =>
        cases inserted with
        | first _ =>
          rw [OperatorTree.lexemes]
          exact .inl (.operand (.last .here))
      | around _ _ _ empty => cases (empty whole).2.2
  | @next outer last others free =>
    cases wellFormed with
    | @node _ _ most arity few _ =>
      cases second with
      | next free' =>
        have atMost := Operator.arity?_le arity
        have more : most ≠ others.length + 1 := by
          rintro rfl
          exact free arity
        have more' : most ≠ (last :: others).length + 1 := by
          rintro rfl
          exact free' arity
        simp only [List.length_cons] at few more'
        omega
      | deeper _ _ inserted =>
        cases inserted with
        | first _ =>
          have occurs : Occurs (call name (node .root [node .tuple positions]))
              (node outer (call name (node .root [node .tuple positions]) :: last :: others))
              (outer.lexeme?.toList ++ (lexemesOf (last :: others) ++ [])) :=
            .operand (.last .here)
          rw [List.append_nil] at occurs
          exact .inl occurs
      | around _ _ _ empty => cases (empty whole).2.2
    | listing _ => exact absurd rfl free
  | @deeper outer last inner others full admits inserted ih =>
    cases second with
    | next free => exact absurd full free
    | deeper _ _ second =>
      have noGroup : last.operator ≠ .root := fun group => isOpen (.here full group)
      cases wellFormed with
      | node _ _ below =>
        have lastFormed := below last List.mem_cons_self
        rcases ih second lastFormed (lastFormed.plain noGroup)
          (fun inner => isOpen (.deeper full inner)) with occurs | misplaced
        · exact .inl (.operand (.last occurs))
        · exact .inr (.operand List.mem_cons_self misplaced)
      | listing _ => cases plain _ List.mem_cons_self
    | around _ _ _ empty => cases (empty whole).2.2
  | around _ stays _ _ => cases Operator.isUnary_of_not_admits stays

end OperatorTree

namespace Level

def Settled (name : String) (group : OperatorTree) (level : Level) (before : List Lexeme) : Prop :=
  OccursAmong (call name group) level.positions before ∨
    ∃ position ∈ level.positions, position.Misplaced

theorem Settled.of_current {name : String} {group : OperatorTree} {level : Level}
    {before : List Lexeme} (h : OperatorTree.Settled name group level.current before) :
    level.Settled name group (OperatorTree.lexemesOf level.earlier ++ before) := by
  rcases h with occurs | misplaced
  · exact .inl (.last occurs)
  · exact .inr ⟨_, List.mem_cons_self, misplaced⟩

theorem Settled.group {name : String} {group : OperatorTree} {level : Level}
    {before : List Lexeme} (h : level.Settled name group before) :
    OperatorTree.Settled name group level.group before := by
  obtain ⟨earlier, current, rooted⟩ := level
  cases earlier with
  | nil =>
    rcases h with among | ⟨position, mem, misplaced⟩
    · cases among with
      | last occurs => exact .inl occurs
      | other among => cases among
    · cases List.mem_singleton.1 mem
      exact .inr misplaced
  | cons latest earlier =>
    rcases h with among | ⟨position, mem, misplaced⟩
    · have listing : Occurs _ (node .tuple (current :: latest :: earlier)) before := .operand among
      exact .inl (.operand (.last listing))
    · exact .inr (.operand List.mem_cons_self (.operand mem misplaced))

theorem Settled.takes {name : String} {group tree : OperatorTree} {level after : Level}
    {before : List Lexeme} (h : level.Settled name group before) (isGroup : group.operator = .root)
    (takes : level.Takes tree after) (piece : tree.IsPiece)
    (free : tree.operator.isUnary = true → ¬ level.current.Sealed) :
    after.Settled name group before := by
  unfold Settled positions at h ⊢
  rw [takes.earlier]
  rcases h with among | ⟨position, mem, misplaced⟩
  · cases among with
    | last occurs =>
      exact .inl (.last (takes.inserted.occurs isGroup piece free (.inl level.rooted) occurs))
    | other among => exact .inl (.other among)
  · rcases List.mem_cons.1 mem with rfl | mem
    · exact .inr ⟨_, List.mem_cons_self, takes.inserted.misplaced piece.notSequence misplaced⟩
    · exact .inr ⟨position, List.mem_cons_of_mem _ mem, misplaced⟩

theorem Settled.closes {name : String} {group : OperatorTree} {inner level after : Level}
    {before : List Lexeme} (h : inner.Settled name group before)
    (takes : level.Takes inner.group after) :
    after.Settled name group (level.lexemes ++ before) := by
  have inParentheses := h.group
  have some := inParentheses.operands_ne_nil inner.operator_group
  unfold Level.lexemes positions
  rw [OperatorTree.lexemesOf, List.append_assoc, ← takes.earlier]
  apply Settled.of_current
  rcases inParentheses with occurs | misplaced
  · exact .inl (takes.inserted.occurs_in inner.operator_group some occurs)
  · exact .inr (takes.inserted.misplaced_in inner.operator_group some misplaced)

inductive Holds (name : String) (group : OperatorTree) : List Level → List Lexeme → Prop
  | here {level : Level} {below : List Level} {before : List Lexeme}
      (h : level.Settled name group before) :
      Holds name group (level :: below) (lexemesOf below ++ before)
  | above {level : Level} {below : List Level} {before : List Lexeme}
      (h : Holds name group below before) : Holds name group (level :: below) before

theorem Step.holds {name : String} {group : OperatorTree} {levels after : List Level} {item : Item}
    {before : List Lexeme} (isGroup : group.operator = .root) (h : Step levels item after)
    (free : item.isPrefix = true → AreOpen levels) (holds : Holds name group levels before) :
    Holds name group after before := by
  cases h with
  | opening => exact .above holds
  | comma =>
    cases holds with
    | here settled =>
      rcases settled with among | ⟨position, mem, misplaced⟩
      · exact .here (.inl (.other among))
      · exact .here (.inr ⟨position, List.mem_cons_of_mem _ mem, misplaced⟩)
    | above holds => exact .above holds
  | operator notSequence takes =>
    cases holds with
    | here settled => exact .here (settled.takes isGroup takes (.bare notSequence) free)
    | above holds => exact .above holds
  | @closing inner level _ _ takes =>
    cases holds with
    | here settled =>
      rw [lexemesOf_cons, List.append_assoc]
      exact .here (settled.closes takes)
    | above holds =>
      cases holds with
      | here settled =>
        have notUnary : ¬ inner.group.operator.isUnary = true := by
          rw [inner.operator_group]
          exact Bool.false_ne_true
        exact .here (settled.takes isGroup takes (.group inner.operator_group) fun unary =>
          absurd unary notUnary)
      | above holds => exact .above holds

theorem CleanRun.holds {name : String} {group : OperatorTree} {levels after : List Level}
    {items : List Item} {before : List Lexeme} (isGroup : group.operator = .root)
    (h : CleanRun levels items after) (holds : Holds name group levels before) :
    Holds name group after before := by
  induction h with
  | done => exact holds
  | step first free _ ih => exact ih (first.holds isGroup free holds)

end Level

/-! What is read of a tree with a call. -/

namespace OperatorTree

private theorem operands_of_single {operands : List OperatorTree} {only : Reading}
    (h : operands.reverse.map reading = [only]) :
    ∃ operand, operands = [operand] ∧ operand.reading = only := by
  obtain ⟨operand, same, read⟩ := List.map_eq_singleton_iff.1 h
  exact ⟨operand, by rw [← List.reverse_reverse operands, same]; rfl, read⟩

inductive Grouped (op : Operation) : List OperatorTree → Term → Prop
  | first {tree : OperatorTree} {left : Term} (read : tree.reading.operand = .ok left) :
      Grouped op [tree] left
  | next {tree : OperatorTree} {others : List OperatorTree} {left right : Term}
      (h : Grouped op others left) (read : tree.reading.operand = .ok right) :
      Grouped op (tree :: others) (.binary op left right)

theorem Grouped.foldOperands {op : Operation} {others operands : List OperatorTree}
    {left term : Term} (h : Grouped op others left)
    (read : Reading.foldOperands op left (operands.map reading) = .ok term) :
    Grouped op (operands.reverse ++ others) term := by
  induction operands generalizing others left with
  | nil =>
    cases read
    exact h
  | cons operand rest ih =>
    obtain ⟨right, readRight, read⟩ := of_bind_ok read
    rw [List.reverse_cons, List.append_assoc]
    exact ih (h.next readRight) read

private theorem grouped_of_foldOperands {op : Operation} {operands : List OperatorTree}
    {first : Reading}
    {rest : List Reading} {left term : Term} (h : operands.reverse.map reading = first :: rest)
    (readFirst : first.operand = .ok left)
    (read : Reading.foldOperands op left rest = .ok term) : Grouped op operands term := by
  obtain ⟨operand, behind, same, rfl, rfl⟩ := List.map_eq_cons_iff.1 h
  rw [← List.reverse_reverse operands, same, List.reverse_cons]
  exact Grouped.foldOperands (.first readFirst) read

theorem Grouped.lexemes {op : Operation} {operands : List OperatorTree} {term : Term}
    (h : Grouped op operands term) (bare : ∀ operand ∈ operands, operand.Bare) :
    term.lexemes = lexemesOf operands := by
  induction h with
  | first read =>
    rw [lexemesOf, lexemesOf, List.nil_append]
    exact (List.forall_mem_singleton.1 bare).spells.operand _ read
  | next _ read ih =>
    obtain ⟨latest, earlier⟩ := List.forall_mem_cons.1 bare
    rw [Term.lexemes, lexemesOf, ih earlier, latest.spells.operand _ read]

theorem Grouped.occurs {op : Operation} {part : OperatorTree} {call : Term}
    {operands : List OperatorTree} {term : Term} (h : Grouped op operands term)
    (bare : ∀ operand ∈ operands, operand.Bare)
    (each : ∀ operand ∈ operands, ∀ {before : List Lexeme} {term : Term},
      Occurs part operand before → operand.reading.operand = .ok term →
        Term.Occurs call term before)
    {before : List Lexeme} (among : OccursAmong part operands before) :
    Term.Occurs call term before := by
  induction h generalizing before with
  | first read =>
    cases among with
    | last occurs => exact each _ List.mem_cons_self occurs read
    | other among => cases among
  | next grouped read ih =>
    obtain ⟨-, earlier⟩ := List.forall_mem_cons.1 bare
    cases among with
    | last occurs =>
      rw [← grouped.lexemes earlier]
      exact .right (each _ List.mem_cons_self occurs read)
    | other among =>
      exact .left (ih earlier (fun operand mem => each operand (List.mem_cons_of_mem _ mem)) among)

theorem operand_of_succeeds {op : Operator} {readings : List Reading} (arity : op.arity? = some 2)
    (h : (Reading.ofNode op readings).Succeeds) :
    ∀ reading ∈ readings, ∃ term, reading.operand = .ok term := by
  have of_yields {term : Term} (yields : Reading.Yields op readings term) :
      ∀ reading ∈ readings, ∃ term, reading.operand = .ok term := by
    cases yields with
    | group _ => cases arity
    | num => cases arity
    | var => cases arity
    | call _ => cases arity
    | neg _ => cases arity
    | binary _ first others =>
      exact List.forall_mem_cons.2 ⟨⟨_, first⟩, Reading.operands_of_foldOperands others⟩
  rcases h with ⟨term, read⟩ | ⟨args, read⟩
  · exact of_yields (Reading.yields_of_operandOf read)
  · cases Reading.contributes_of_argumentsOf read with
    | empty => cases arity
    | group _ => cases arity
    | listing _ => cases arity
    | single yields => exact of_yields yields

theorem Bare.not_misplaced {tree : OperatorTree} (bare : tree.Bare)
    (h : tree.reading.Succeeds) : ¬ tree.Misplaced := by
  intro misplaced
  induction bare with
  | @node op operands bare _ _ ih =>
    cases misplaced with
    | @here _ _ positions arity mem =>
      rw [reading_node] at h
      have mem' := List.mem_map_of_mem (f := reading) (List.mem_reverse.2 mem)
      obtain ⟨term, read⟩ := operand_of_succeeds arity h _ mem'
      obtain ⟨child, same, operand⟩ := of_operand_root read
      cases same
      change Reading.operandOf .tuple (readings positions) = _ at operand
      rw [Reading.operandOf_sequence rfl] at operand
      cases operand
    | @operand _ _ inner mem misplaced =>
      exact ih inner mem ((operands_succeed bare h).2 inner mem) misplaced

theorem OccursAmong.read {part : OperatorTree} {call : Term} {operands : List OperatorTree}
    (bare : ∀ operand ∈ operands, operand.Bare)
    (ih : ∀ operand ∈ operands, ∀ {before args}, Occurs part operand before →
      operand.reading.arguments = .ok args → Term.OccursAmong call args before)
    {before : List Lexeme} {args : List Term} (among : OccursAmong part operands before)
    (read : Reading.allArguments (operands.reverse.map reading) = .ok args) :
    Term.OccursAmong call args before := by
  induction operands generalizing before args with
  | nil => cases among
  | cons latest earlier tail =>
    obtain ⟨latestBare, earlierBare⟩ := List.forall_mem_cons.1 bare
    rw [List.reverse_cons, List.map_append] at read
    obtain ⟨front, back, readFront, readBack, rfl⟩ := Reading.allArguments_append read
    cases among with
    | last occurs =>
      have inBack := ih latest List.mem_cons_self occurs (Reading.allArguments_singleton readBack)
      have lexemes := lexemes_readings earlierBare readFront
      rw [← lexemes]
      exact inBack.append_right front
    | other among =>
      exact (tail earlierBare (fun operand mem => ih operand (List.mem_cons_of_mem _ mem)) among
        readFront).append_left back

theorem OccursAmong.exists_mem {part : OperatorTree} :
    ∀ {operands : List OperatorTree} {before : List Lexeme}, OccursAmong part operands before →
      ∃ operand ∈ operands, ∃ inner, Occurs part operand inner
  | _ :: _, _, .last occurs => ⟨_, List.mem_cons_self, _, occurs⟩
  | _ :: _, _, .other among =>
    have ⟨operand, mem, inner, occurs⟩ := among.exists_mem
    ⟨operand, List.mem_cons_of_mem _ mem, inner, occurs⟩

theorem Bare.succeeds_of_occurs {part tree : OperatorTree} (bare : tree.Bare)
    {before : List Lexeme} (occurs : Occurs part tree before) (h : tree.reading.Succeeds) :
    part.reading.Succeeds := by
  induction bare generalizing before with
  | node bare _ _ ih =>
    cases occurs with
    | here => exact h
    | operand among =>
      obtain ⟨operand, mem, inner, occurs⟩ := among.exists_mem
      exact ih operand mem occurs ((operands_succeed bare h).2 operand mem)

theorem Bare.of_occurs {part tree : OperatorTree} (bare : tree.Bare) {before : List Lexeme}
    (occurs : Occurs part tree before) : part.Bare := by
  induction bare generalizing before with
  | node bare here below ih =>
    cases occurs with
    | here => exact .node bare here below
    | operand among =>
      obtain ⟨operand, mem, inner, occurs⟩ := among.exists_mem
      exact ih operand mem occurs

theorem Bare.of_position {name : String} {position : OperatorTree} {positions : List OperatorTree}
    (bare : (call name (node .root [node .tuple positions])).Bare) (mem : position ∈ positions) :
    position.Bare := by
  have group := (all_node.1 bare).2.2 _ (List.mem_singleton_self _)
  have listing := (all_node.1 group).2.2 _ (List.mem_singleton_self _)
  exact (all_node.1 listing).2.2 position mem

theorem of_call_succeeds {name : String} {positions : List OperatorTree}
    (h : (call name (node .root [node .tuple positions])).reading.Succeeds) :
    ∃ contributions : List (List Term),
      (call name (node .root [node .tuple positions])).reading.operand =
          .ok (.call name contributions.flatten) ∧
        List.Forall₂ (fun position args => (reading position).arguments = .ok args)
          positions.reverse contributions := by
  obtain ⟨term, read⟩ :
      ∃ term, (call name (node .root [node .tuple positions])).reading.operand = .ok term := by
    rcases h with read | ⟨args, read⟩
    · exact read
    · change Reading.argumentsOf (.function name) _ = _ at read
      rw [Reading.argumentsOf_eq (by simp) (by simp), map_eq_pure_bind] at read
      obtain ⟨term, read, -⟩ := of_bind_ok read
      exact ⟨term, read⟩
  change Reading.operandOf (.function name) [reading (node .root [node .tuple positions])] = _
    at read
  cases Reading.yields_of_operandOf read with
  | call inner =>
    have listed := Reading.allArguments_singleton inner
    change Reading.allArguments (readings positions) = _ at listed
    rw [readings_eq] at listed
    obtain ⟨contributions, each, rfl⟩ := Reading.contributions_of_allArguments listed
    exact ⟨contributions, read, List.forall₂_map_left_iff.1 each⟩
  | binary meaning _ _ => cases meaning

/-- A part of a tree is a part of what is read, behind the same numbers and names. -/
theorem Bare.occurs {part tree : OperatorTree} {call : Term} (bare : tree.Bare)
    (isCall : part.reading.operand = .ok call) {before : List Lexeme} {args : List Term}
    (occurs : Occurs part tree before) (read : tree.reading.arguments = .ok args) :
    Term.OccursAmong call args before := by
  induction bare generalizing before args with
  | @node op operands bare _ below ih =>
    cases occurs with
    | here =>
      rw [arguments_of_operand isCall] at read
      cases read
      exact .first .here
    | @operand _ _ before among =>
      have listed {args : List Term}
          (read : Reading.allArguments (operands.reverse.map reading) = .ok args) :
          Term.OccursAmong call args before :=
        among.read below (fun operand mem => ih operand mem) read
      have single {reading : Reading} {term : Term}
          (only : operands.reverse.map OperatorTree.reading = [reading])
          (read : reading.operand = .ok term) : Term.Occurs call term before := by
        obtain ⟨operand, rfl, rfl⟩ := operands_of_single only
        cases among with
        | last occurs =>
          exact Term.occursAmong_singleton.1
            (ih operand List.mem_cons_self occurs (arguments_of_operand read))
        | other among => cases among
      rw [reading_node] at read
      change Reading.argumentsOf op (operands.reverse.map reading) = .ok args at read
      have contributes := Reading.contributes_of_argumentsOf read
      generalize same : operands.reverse.map reading = readings at contributes
      cases contributes with
      | empty =>
        obtain rfl : operands = [] := by simpa using same
        cases among
      | group inner =>
        obtain ⟨operand, rfl, rfl⟩ := operands_of_single same
        cases among with
        | last occurs => exact ih operand List.mem_cons_self occurs inner
        | other among => cases among
      | listing inner =>
        subst same
        exact listed inner
      | single yields =>
        cases yields with
        | group inner => exact .first (single same inner)
        | num =>
          rw [bare rfl] at among
          cases among
        | var =>
          rw [bare rfl] at among
          cases among
        | call inner =>
          subst same
          exact .first (.argument (listed inner))
        | neg inner => exact .first (.neg (single same inner))
        | binary meaning first others =>
          rw [Operator.lexeme?_of_binary? meaning]
          refine .first ((grouped_of_foldOperands same first others).occurs below ?_ among)
          intro operand mem before term occurs read
          exact Term.occursAmong_singleton.1
            (ih operand mem occurs (arguments_of_operand read))

end OperatorTree
end Parsing
end CellFormula
