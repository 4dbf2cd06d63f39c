/-! Strictly increasing lists of names, in code point order. -/
namespace CellFormula.Names

def Increasing (names : List String) : Prop := names.Pairwise (· < ·)

def insert (name : String) : List String → List String
  | [] => [name]
  | head :: rest =>
    if name < head then name :: head :: rest
    else if name = head then head :: rest
    else head :: insert name rest

/-- The names of a list in increasing order, each of them once. -/
def ofList (names : List String) : List String := names.foldr insert []

@[simp] theorem mem_insert {name other : String} {names : List String} :
    other ∈ insert name names ↔ other = name ∨ other ∈ names := by
  induction names with
  | nil => simp [insert]
  | cons head rest ih =>
    simp only [insert]
    split
    · simp
    · split <;> grind

@[simp] theorem mem_ofList {name : String} {names : List String} :
    name ∈ ofList names ↔ name ∈ names := by
  induction names with
  | nil => simp [ofList]
  | cons head rest ih => simp_all [ofList]

theorem increasing_insert {name : String} {names : List String} (h : Increasing names) :
    Increasing (insert name names) := by
  induction names with
  | nil => simp [insert, Increasing]
  | cons head rest ih =>
    obtain ⟨least, increasing⟩ := List.pairwise_cons.1 h
    simp only [insert]
    split
    · rename_i less
      refine List.pairwise_cons.2 ⟨fun other mem => ?_, h⟩
      rcases List.mem_cons.1 mem with rfl | mem
      · exact less
      · exact String.lt_trans less (least other mem)
    · split
      · exact h
      · rename_i notLess different
        refine List.pairwise_cons.2 ⟨fun other mem => ?_, ih increasing⟩
        rcases mem_insert.1 mem with rfl | mem
        · exact Std.lt_of_le_of_ne (String.not_lt.1 notLess) (Ne.symm different)
        · exact least other mem

theorem increasing_ofList (names : List String) : Increasing (ofList names) := by
  induction names with
  | nil => simp [ofList, Increasing]
  | cons head rest ih => exact increasing_insert ih

end CellFormula.Names
