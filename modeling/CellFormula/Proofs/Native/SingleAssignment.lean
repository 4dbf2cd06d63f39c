import CellFormula.Proofs.Native.Slots
/-! Generated routines are in single assignment form: every operand is the result of an earlier
instruction. The tree decides how many addresses, imports, loads, stores and calls there are. -/
namespace CellFormula.Native

namespace Instruction

def operands : Instruction → List Nat
  | const _ | address _ => []
  | load pointer => [pointer]
  | store value pointer => [value, pointer]
  | arithmetic _ left right | compare _ left right => [left, right]
  | select flag yes no => [flag, yes, no]
  | call _ arguments => arguments

/-- A store has no result; its register is never filled. -/
def hasResult : Instruction → Bool
  | store .. => false
  | _ => true

end Instruction

namespace Routine
variable {routine : Routine n}

private theorem operands_of_kind? {kinds : List Kind} {instruction : Instruction} {kind : Kind}
    (h : routine.kind? kinds instruction = some kind) :
    ∀ operand ∈ instruction.operands, ∃ own, kinds[operand]? = some own ∧ own ≠ .nothing := by
  cases instruction with
  | const value => exact nofun
  | address symbol => exact nofun
  | load pointer =>
    obtain ⟨held, -⟩ := Option.ite_none_right_eq_some.1 h
    exact List.forall_mem_singleton.2 ⟨.pointer, held, nofun⟩
  | store value pointer =>
    obtain ⟨⟨number, held⟩, -⟩ := Option.ite_none_right_eq_some.1 h
    simp [Instruction.operands, number, held]
  | arithmetic op left right | compare op left right =>
    obtain ⟨⟨first, second⟩, -⟩ := Option.ite_none_right_eq_some.1 h
    simp [Instruction.operands, first, second]
  | select flag yes no =>
    obtain ⟨⟨test, first, second⟩, -⟩ := Option.ite_none_right_eq_some.1 h
    simp [Instruction.operands, test, first, second]
  | call target arguments =>
    obtain ⟨⟨-, numbers⟩, -⟩ := Option.ite_none_right_eq_some.1 h
    exact fun operand mem => ⟨.number, numbers operand mem, nofun⟩

private theorem hasResult_of_kind? {kinds : List Kind} {instruction : Instruction} {kind : Kind}
    (h : routine.kind? kinds instruction = some kind) (filled : kind ≠ .nothing) :
    instruction.hasResult = true := by
  cases instruction with
  | store value pointer =>
    obtain ⟨-, same⟩ := Option.ite_none_right_eq_some.1 h
    cases same
    contradiction
  | const | address | load | arithmetic | compare | select | call => rfl

private theorem prefix_kindsFrom? {kinds after : List Kind} {code : List Instruction}
    (h : routine.kindsFrom? kinds code = some after) : kinds <+: after := by
  induction code generalizing kinds with
  | nil =>
    cases h
    exact List.prefix_refl _
  | cons instruction rest ih =>
    obtain ⟨kind, -, h⟩ := Option.bind_eq_some_iff.1 h
    exact (List.prefix_append ..).trans (ih h)

private theorem kind?_of_kindsFrom? {kinds after : List Kind} {code : List Instruction}
    (h : routine.kindsFrom? kinds code = some after) {position : Nat} {instruction : Instruction}
    (found : code[position]? = some instruction) :
    ∃ kind, after[kinds.length + position]? = some kind ∧
      routine.kind? (after.take (kinds.length + position)) instruction = some kind := by
  induction code generalizing kinds position with
  | nil => cases found
  | cons head rest ih =>
    obtain ⟨kind, accepted, checked⟩ := Option.bind_eq_some_iff.1 h
    cases position with
    | zero =>
      cases found
      obtain ⟨later, rfl⟩ := prefix_kindsFrom? checked
      rw [List.append_assoc]
      exact ⟨kind, by simp, by simpa using accepted⟩
    | succ position =>
      have behind := ih checked (by simpa using found)
      simpa [Nat.add_assoc, Nat.add_comm 1 position] using behind

private theorem exists_result {kinds : List Kind}
    (checked : routine.kindsFrom? [] routine.code = some kinds)
    {register : Nat} {kind : Kind} (found : kinds[register]? = some kind)
    (filled : kind ≠ .nothing) :
    ∃ instruction, routine.code[register]? = some instruction ∧ instruction.hasResult = true := by
  obtain ⟨lt, -⟩ := List.getElem?_eq_some_iff.1 found
  have length := length_kindsFrom? checked
  rw [List.length_nil, Nat.zero_add] at length
  have here : routine.code[register]? = some routine.code[register] :=
    List.getElem?_eq_getElem (length ▸ lt)
  obtain ⟨own, same, accepted⟩ := kind?_of_kindsFrom? checked here
  rw [List.length_nil, Nat.zero_add, found] at same
  cases same
  exact ⟨_, here, hasResult_of_kind? accepted filled⟩

theorem operands_defined (h : routine.isWellFormed = true) {register : Nat}
    {instruction : Instruction} (found : routine.code[register]? = some instruction) :
    ∀ operand ∈ instruction.operands, operand < register ∧
      ∃ earlier, routine.code[operand]? = some earlier ∧ earlier.hasResult = true := by
  intro operand mem
  unfold isWellFormed at h
  split at h
  · rename_i kinds checked
    obtain ⟨kind, -, accepted⟩ := kind?_of_kindsFrom? checked found
    obtain ⟨own, held, filled⟩ := operands_of_kind? accepted operand mem
    rw [List.length_nil, Nat.zero_add, List.getElem?_take] at held
    split at held
    · rename_i earlier
      exact ⟨earlier, exists_result checked held filled⟩
    · cases held
  · cases h

theorem result_defined (h : routine.isWellFormed = true) :
    ∃ last, routine.code[routine.result]? = some last ∧ last.hasResult = true := by
  unfold isWellFormed at h
  split at h
  · rename_i kinds checked
    exact exists_result checked (of_decide_eq_true h) nofun
  · cases h

end Routine

theorem Draft.Composed.mem_imports {bindings : Bindings n} {formula : Term} {plan : Plan n}
    {draft : Draft n} (h : draft.Composed plan.demands) (planned : Planned bindings formula plan)
    (symbol : String) : symbol ∈ draft.imports ↔ symbol ∈ formula.routines := by
  have demanded : symbol ∈ formula.routines ↔ .call symbol ∈ plan.demands := by
    rw [← planned.routines_eq]
    simp [Demand.called?_eq_some]
  rw [demanded]
  refine ⟨h.called symbol, fun called => ?_⟩
  obtain ⟨instruction, -, meets⟩ := h.meets_of_demand called
  cases meets with
  | call linked => exact List.mem_of_getElem? linked

namespace Routine
variable {bindings : Bindings n} {formula : Term} {routine : Routine n}

private theorem loads_iff
    (loads : (routine.code.filterMap Instruction.loaded?).map routine.pointee? =
      formula.reads.map bindings.cell?) (cell : Fin n) :
    (∃ pointer, .load pointer ∈ routine.code ∧ routine.pointee? pointer = some cell) ↔
      ∃ name ∈ formula.reads, bindings.cell? name = some cell := by
  have listed : ∀ pointer, pointer ∈ routine.code.filterMap Instruction.loaded? ↔
      .load pointer ∈ routine.code := by
    intro pointer
    rw [List.mem_filterMap]
    constructor
    · rintro ⟨instruction, mem, same⟩
      cases instruction with
      | load =>
        cases same
        exact mem
      | const | address | store | arithmetic | compare | select | call => cases same
    · exact fun mem => ⟨_, mem, rfl⟩
  have mapped := congrArg (some cell ∈ ·) loads
  simpa only [List.mem_map, listed, eq_iff_iff] using mapped

/-- The routine is in single assignment form, and the formula decides what it is composed of. -/
structure IsComposedOf (routine : Routine n) (bindings : Bindings n) (formula : Term) : Prop where
  operands : ∀ (register : Nat) (instruction : Instruction),
    routine.code[register]? = some instruction → ∀ operand ∈ instruction.operands,
      operand < register ∧ ∃ earlier : Instruction,
        routine.code[operand]? = some earlier ∧ earlier.hasResult = true
  result : ∃ last : Instruction, routine.code[routine.result]? = some last ∧ last.hasResult = true
  /-- No address is computed twice. -/
  nodup_addresses : (routine.code.filterMap Instruction.symbol?).Nodup
  mem_addresses : ∀ symbol, symbol ∈ routine.code.filterMap Instruction.symbol? ↔
    ∃ name ∈ formula.names, ∃ cell, bindings.cell? name = some cell ∧ slotSymbol cell = symbol
  /-- No symbol is imported twice. -/
  nodup_imports : routine.imports.Nodup
  mem_imports : ∀ symbol, symbol ∈ routine.imports ↔ symbol ∈ formula.routines
  calls : (routine.code.filterMap Instruction.called?).map (routine.imports[·]?) =
    formula.routines.map some
  loads : (routine.code.filterMap Instruction.loaded?).length = formula.reads.length
  stores : (routine.code.filterMap Instruction.stored?).length = formula.assignments.length
  loaded : ∀ cell, (∃ pointer, .load pointer ∈ routine.code ∧ routine.pointee? pointer = some cell) ↔
    ∃ name ∈ formula.reads, bindings.cell? name = some cell

/-- The composition of generated routines: operands are defined before their use, each cell of a name
has one address and each called symbol one import, and the loads, stores and calls are those of the
tree in their order. So the verifier never refuses a generated routine. -/
theorem single_assignment (h : ofTerm bindings formula = .ok routine) :
    routine.IsComposedOf bindings formula ∧ Pass.verify.apply routine = .ok routine ∧
    (∀ function other : ElementaryFunction, function.symbol = other.symbol → function = other) ∧
    (∀ function : ElementaryFunction, function.symbol ≠ ElementaryFunction.powerSymbol) ∧
    ElementaryFunction.ofName? "log" = ElementaryFunction.ofName? "log10" := by
  obtain ⟨plan, planned, composed⟩ := composed_of_ofTerm h
  have wellFormed := isWellFormed_of_ofTerm h
  have symbols : routine.code.filterMap Instruction.symbol? =
      (routine.slots.toList.map Slot.cell).map slotSymbol := by
    refine composed.addresses.trans ?_
    rw [List.map_map]
    exact List.map_congr_left composed.registered.symbol
  have cells : ∀ cell, cell ∈ routine.slots.toList.map Slot.cell ↔
      ∃ name ∈ formula.names, bindings.cell? name = some cell := composed.mem_cells planned
  have loads := composed.toLinked.loads.trans planned.loads_eq
  have stores := composed.toLinked.stores.trans planned.stored_eq
  have calls := composed.toLinked.calls
  rw [planned.routines_eq] at calls
  refine ⟨?_, if_pos wellFormed, fun _ _ => ElementaryFunction.symbol_injective,
    ElementaryFunction.symbol_ne_powerSymbol, rfl⟩
  constructor
  · exact fun _ _ => operands_defined wellFormed
  · exact result_defined wellFormed
  · rw [symbols]
    exact composed.cells.map fun _ _ => slotSymbol_injective
  · intro symbol
    rw [symbols, List.mem_map]
    constructor
    · rintro ⟨cell, mem, rfl⟩
      obtain ⟨name, named, bound⟩ := (cells cell).1 mem
      exact ⟨name, named, cell, bound, rfl⟩
    · rintro ⟨name, named, cell, bound, rfl⟩
      exact ⟨cell, (cells cell).2 ⟨name, named, bound⟩, rfl⟩
  · exact composed.imports
  · exact composed.mem_imports planned
  · exact calls
  · simpa using congrArg List.length loads
  · simpa using congrArg List.length stores
  · exact loads_iff loads

/-- The formula `y=log(x)^log10(x)` calls one function under two names and never loads `y`. -/
theorem single_assignment_of_logarithms :
    let bindings : Bindings 2 := ⟨[("x", 1), ("y", 0)]⟩
    let formula : Term := .binary .assign (.var "y")
      (.binary .pow (.call "log" [.var "x"]) (.call "log10" [.var "x"]))
    ∃ routine : Routine 2, ofTerm bindings formula = .ok routine ∧
      (routine.code.filterMap Instruction.loaded?).length = 2 ∧
      (routine.code.filterMap Instruction.stored?).length = 1 ∧
      (routine.code.filterMap Instruction.called?).map (routine.imports[·]?) =
        [some "log10", some "log10", some "pow"] ∧
      (¬ ∃ pointer, .load pointer ∈ routine.code ∧ routine.pointee? pointer = some 0) ∧
      Pass.verify.apply routine = .ok routine := by
  intro bindings formula
  have planned : formula.plan bindings =
      .ok (.store 0 (.binary .pow (.apply .log10 (.load 1)) (.apply .log10 (.load 1)))) := rfl
  obtain ⟨routine, generated, -⟩ := ofTerm_of_plan_ok planned
  obtain ⟨composed, verified, -⟩ := single_assignment generated
  refine ⟨routine, generated, composed.loads, composed.stores, composed.calls, ?_, verified⟩
  rw [composed.loaded]
  decide

end Routine
end CellFormula.Native
