import CellFormula.Bindings
/-! Bindings list their names in increasing order, whatever was bound before, and a binding that is
reported as unchanged leaves them as they are. -/
namespace CellFormula.Bindings

private theorem mem_map_put {name other : String} {cell : Fin n} {entries : List (String × Fin n)} :
    other ∈ (put name cell entries).map Prod.fst ↔
      other = name ∨ other ∈ entries.map Prod.fst := by
  induction entries with
  | nil => simp [put]
  | cons entry rest ih =>
    obtain ⟨head, old⟩ := entry
    simp only [put]
    split
    · simp
    · split <;> grind

theorem increasing_put {name : String} {cell : Fin n} {entries : List (String × Fin n)}
    (h : Names.Increasing (entries.map Prod.fst)) :
    Names.Increasing ((put name cell entries).map Prod.fst) := by
  induction entries with
  | nil => simp [put, Names.Increasing]
  | cons entry rest ih =>
    obtain ⟨head, old⟩ := entry
    obtain ⟨least, increasing⟩ := List.pairwise_cons.1 h
    simp only [put]
    split
    · rename_i less
      refine List.pairwise_cons.2 ⟨fun other mem => ?_, h⟩
      rcases List.mem_cons.1 mem with rfl | mem
      · exact less
      · exact String.lt_trans less (least other mem)
    · split
      · rename_i same
        subst same
        exact h
      · rename_i notLess different
        refine List.pairwise_cons.2 ⟨fun other mem => ?_, ih increasing⟩
        rcases mem_map_put.1 mem with rfl | mem
        · exact Std.lt_of_le_of_ne (String.not_lt.1 notLess) (Ne.symm different)
        · exact least other mem

private theorem mem_of_lookup {name : String} {cell : Fin n} {entries : List (String × Fin n)}
    (bound : entries.lookup name = some cell) : (name, cell) ∈ entries := by
  induction entries with
  | nil => cases bound
  | cons entry rest ih =>
    obtain ⟨head, old⟩ := entry
    rw [lookup_cons_ite] at bound
    split at bound
    · rename_i same
      subst same
      cases bound
      exact List.mem_cons_self
    · exact List.mem_cons_of_mem _ (ih bound)

theorem lookup_of_mem {name : String} {cell : Fin n} {entries : List (String × Fin n)}
    (h : Names.Increasing (entries.map Prod.fst)) (mem : (name, cell) ∈ entries) :
    entries.lookup name = some cell := by
  induction entries with
  | nil => cases mem
  | cons entry rest ih =>
    obtain ⟨head, old⟩ := entry
    obtain ⟨least, increasing⟩ := List.pairwise_cons.1 h
    rw [lookup_cons_ite]
    rcases List.mem_cons.1 mem with first | later
    · cases first
      exact if_pos rfl
    · have less : head < name := least name (List.mem_map_of_mem later)
      have different : name ≠ head := fun same => String.lt_irrefl _ (same ▸ less)
      rw [if_neg different, ih increasing later]

theorem mem_names {bindings : Bindings n} (h : Names.Increasing bindings.names) {name : String} :
    name ∈ bindings.names ↔ (bindings.cell? name).isSome := by
  rw [Option.isSome_iff_exists]
  constructor
  · intro mem
    obtain ⟨⟨_, cell⟩, listed, rfl⟩ := List.mem_map.1 mem
    exact ⟨cell, lookup_of_mem h listed⟩
  · rintro ⟨cell, bound⟩
    exact List.mem_map.2 ⟨(name, cell), mem_of_lookup bound, rfl⟩

private theorem put_of_lookup {name : String} {cell : Fin n} {entries : List (String × Fin n)}
    (h : Names.Increasing (entries.map Prod.fst)) (bound : entries.lookup name = some cell) :
    put name cell entries = entries := by
  induction entries with
  | nil => cases bound
  | cons entry rest ih =>
    obtain ⟨head, old⟩ := entry
    obtain ⟨least, increasing⟩ := List.pairwise_cons.1 h
    rw [lookup_cons_ite] at bound
    simp only [put]
    split at bound
    · rename_i same
      subst same
      cases bound
      simp
    · rename_i different
      -- the name lies in the rest, all of which is greater than the head
      have mem : name ∈ rest.map Prod.fst := by
        rw [List.mem_map]
        exact ⟨(name, cell), mem_of_lookup bound, rfl⟩
      have notLess : ¬ name < head := fun less =>
        String.lt_irrefl _ (String.lt_trans less (least name mem))
      rw [if_neg notLess, if_neg different, ih increasing bound]

theorem increasing_names_bind {bindings : Bindings n} (h : Names.Increasing bindings.names)
    (name : String) (cell : Option (Fin n)) : Names.Increasing (bindings.bind name cell).names := by
  unfold bind bind?
  cases cell with
  | none => exact h
  | some cell =>
    by_cases isBindable : isBindable name
    · simp only [isBindable, if_true]
      exact increasing_put h
    · simpa [isBindable] using h

theorem bind_of_bind? {bindings after : Bindings n} {name : String} {cell : Option (Fin n)}
    {change : BindingChange} (accepted : bindings.bind? name cell = some (change, after)) :
    bindings.bind name cell = after := by
  rw [bind, accepted]

theorem eq_of_unchanged {bindings after : Bindings n} {name : String} {cell : Option (Fin n)}
    (h : Names.Increasing bindings.names)
    (unchanged : bindings.bind? name cell = some (.unchanged, after)) : after = bindings := by
  unfold bind? at unchanged
  cases cell with
  | none => cases unchanged
  | some cell =>
    dsimp only at unchanged
    split at unchanged
    · obtain ⟨change, rfl⟩ := Prod.mk.inj (Option.some.inj unchanged)
      have bound : bindings.cell? name = some cell := by
        unfold changeOf at change
        split at change
        · cases change
        · rename_i old found
          split at change
          · rw [found]
            simp_all
          · cases change
      rw [put_of_lookup h bound]
    · cases unchanged

end CellFormula.Bindings
