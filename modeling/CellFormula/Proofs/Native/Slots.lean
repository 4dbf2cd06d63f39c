import CellFormula.Proofs.Native.Composition
import Mathlib.Data.List.Dedup
import Mathlib.Data.List.Nodup
/-! The slots of a generated routine: one for each cell of a name of the formula, linked to that
cell. -/
namespace CellFormula.Native

theorem Slots.contains_iff {slots : Slots n} {cell : Fin n} :
    slots.contains cell = true ↔ cell ∈ slots.toList.map Slot.cell := by
  simp [contains, find?]

theorem Draft.Composed.mem_cells {bindings : Bindings n} {formula : Term} {plan : Plan n}
    {draft : Draft n} (h : draft.Composed plan.demands) (planned : Planned bindings formula plan)
    (cell : Fin n) : cell ∈ draft.slots.toList.map Slot.cell ↔ formula.Uses bindings cell := by
  rw [planned.uses_iff]
  constructor
  · intro mem
    obtain ⟨slot, listed, rfl⟩ := List.mem_map.1 mem
    exact h.demanded slot listed
  · rintro (loaded | stored)
    · obtain ⟨instruction, -, meets⟩ := h.meets_of_demand loaded
      cases meets with
      | load mem => exact List.mem_map_of_mem mem
    · obtain ⟨instruction, -, meets⟩ := h.meets_of_demand stored
      cases meets with
      | store mem => exact List.mem_map_of_mem mem

namespace Routine
variable {bindings : Bindings n} {formula : Term} {routine : Routine n}

/-- There is one slot for each cell that is bound to a name of the formula, be it read or assigned,
and the linker gives its address to the register of the slot in every run. -/
theorem slots_of_names (h : ofTerm bindings formula = .ok routine) :
    (routine.slots.toList.map Slot.cell).Nodup ∧
    (∀ cell, routine.slots.contains cell = true ↔
      ∃ name ∈ formula.names, bindings.cell? name = some cell) ∧
    routine.slots.size = (formula.names.filterMap bindings.cell?).dedup.length ∧
    (routine.slots.isEmpty = true ↔ formula.names = []) ∧
    (∀ slot ∈ routine.slots.toList, slot.symbol = slotSymbol slot.cell ∧
      routine.registry.cell? slot.symbol = some slot.cell ∧
      ∀ memory, (routine.execute [] routine.code memory).value[slot.pointer]? =
        some (.pointer slot.cell)) ∧
    (∀ (m : Nat) (cell other : Fin m), slotSymbol cell = slotSymbol other → cell = other) ∧
    (routine.code.filterMap Instruction.loaded?).map routine.pointee? =
      formula.reads.map bindings.cell? ∧
    (routine.code.filterMap Instruction.stored?).map routine.pointee? =
      formula.assignments.map fun assignment => bindings.target? assignment.1 := by
  obtain ⟨plan, planned, composed⟩ := composed_of_ofTerm h
  have distinct : (routine.slots.toList.map Slot.cell).Nodup := composed.cells
  have cells : ∀ cell, cell ∈ routine.slots.toList.map Slot.cell ↔
      ∃ name ∈ formula.names, bindings.cell? name = some cell := composed.mem_cells planned
  refine ⟨distinct, fun cell => Slots.contains_iff.trans (cells cell), ?_, ?_, ?_,
    fun _ _ _ => slotSymbol_injective, ?_, ?_⟩
  · have same : (routine.slots.toList.map Slot.cell).Perm
        (formula.names.filterMap bindings.cell?).dedup := by
      rw [List.perm_ext_iff_of_nodup distinct (List.nodup_dedup _)]
      intro cell
      rw [cells, List.mem_dedup, List.mem_filterMap]
    exact (List.length_map ..).symm.trans same.length_eq
  · rw [Slots.isEmpty, List.isEmpty_iff]
    constructor
    · intro none
      refine List.eq_nil_iff_forall_not_mem.2 fun name mem => ?_
      obtain ⟨cell, bound⟩ := Option.isSome_iff_exists.1 (planned.supplies name mem)
      have listed := (cells cell).2 ⟨name, mem, bound⟩
      simp [none] at listed
    · intro none
      refine List.eq_nil_iff_forall_not_mem.2 fun slot mem => ?_
      obtain ⟨name, listed, -⟩ := (cells slot.cell).1 (List.mem_map_of_mem mem)
      simp [none] at listed
  · intro slot mem
    have linked : routine.registry.cell? slot.symbol = some slot.cell :=
      composed.registered.cell? slot mem
    refine ⟨composed.registered.symbol slot mem, linked, fun memory => ?_⟩
    have run := execute_address linked (composed.pointers slot mem) [] memory
    rwa [List.length_nil, Nat.zero_add] at run
  · rw [composed.toLinked.loads, planned.loads_eq]
  · rw [composed.toLinked.stores, planned.stored_eq]

/-- The formula `z=x+(y=pi)`, in which `x` and `z` share a cell and `y` is never read. -/
theorem slots_of_shared_cell :
    let bindings : Bindings 3 := ⟨[("x", 2), ("y", 0), ("z", 2)]⟩
    let formula : Term := .binary .assign (.var "z")
      (.binary .add (.var "x") (.binary .assign (.var "y") (.var "pi")))
    ∃ routine : Routine 3, ofTerm bindings formula = .ok routine ∧ routine.slots.size = 2 ∧
      routine.slots.contains 0 = true ∧ routine.slots.contains 1 = false ∧
      (routine.code.filterMap Instruction.loaded?).map routine.pointee? = [some 2] ∧
      (routine.code.filterMap Instruction.stored?).map routine.pointee? = [some 0, some 2] := by
  intro bindings formula
  have planned : formula.plan bindings =
      .ok (.store 2 (.binary .add (.load 2) (.store 0 (.const (Float.ofBits 0x400921fb54442d18))))) :=
    rfl
  obtain ⟨routine, generated, -⟩ := ofTerm_of_plan_ok planned
  obtain ⟨-, contains, size, -, -, -, loads, stores⟩ := slots_of_names generated
  refine ⟨routine, generated, size, (contains 0).2 ⟨"y", by decide, rfl⟩, ?_, loads, stores⟩
  rw [Bool.eq_false_iff, Ne, contains]
  decide

end Routine
end CellFormula.Native
