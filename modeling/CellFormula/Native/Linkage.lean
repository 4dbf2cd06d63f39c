/-! Storage slots of native routines. A routine names each cell it touches by a symbol and holds one
slot for it. The registry tells the linker which cell a symbol stands for. -/
namespace CellFormula.Native

/-- The symbol of a cell, its number in hexadecimal digits. -/
def slotSymbol (cell : Fin n) : String :=
  "formula_slot_" ++ String.ofList (Nat.toDigits 16 cell.val)

structure Slot (n : Nat) where
  cell : Fin n
  symbol : String
  pointer : Nat
deriving DecidableEq, Repr

structure Slots (n : Nat) where
  toList : List (Slot n)
deriving DecidableEq, Repr

namespace Slots

def empty : Slots n := ⟨[]⟩

def find? (slots : Slots n) (cell : Fin n) : Option (Slot n) :=
  slots.toList.find? fun slot => slot.cell = cell

def add (slots : Slots n) (slot : Slot n) : Slots n := ⟨slots.toList ++ [slot]⟩

def size (slots : Slots n) : Nat := slots.toList.length

def isEmpty (slots : Slots n) : Bool := slots.toList.isEmpty

def contains (slots : Slots n) (cell : Fin n) : Bool := (slots.find? cell).isSome

def cells (slots : Slots n) : List (Fin n) := (List.finRange n).filter slots.contains

@[simp] theorem mem_cells {slots : Slots n} {cell : Fin n} :
    cell ∈ slots.cells ↔ slots.contains cell = true := by
  simp [cells]

end Slots

structure Registry (n : Nat) where
  entries : List (String × Fin n)
deriving DecidableEq, Repr

namespace Registry

def empty : Registry n := ⟨[]⟩

def register (registry : Registry n) (symbol : String) (cell : Fin n) : Registry n :=
  ⟨(symbol, cell) :: registry.entries⟩

def cell? (registry : Registry n) (symbol : String) : Option (Fin n) :=
  registry.entries.lookup symbol

@[simp] theorem cell?_register (registry : Registry n) (symbol : String) (cell : Fin n)
    (other : String) :
    (registry.register symbol cell).cell? other =
      if other = symbol then some cell else registry.cell? other := by
  by_cases h : other = symbol
  · simp [register, cell?, h]
  · simp [register, cell?, List.lookup_cons, h, beq_eq_false_iff_ne.2 h]

end Registry
end CellFormula.Native
