import CellFormula.CommandLine.Run
import CellFormula.Proofs.Formula.Renaming
/-! What the variable options bind. Each option has a cell of its own. A name that is given again
moves on to the cell of its last option, and no name stays with the cells of its earlier ones. -/
namespace CellFormula

private theorem Bindings.last_of_cell?_bindAll {entries : List (String × Fin n)} {name : String}
    {cell : Fin n}
    (bound : ((∅ : Bindings n).bindAll
      (entries.map fun entry => (entry.1, some entry.2))).cell? name = some cell) :
    isBindable name = true ∧ ∃ before behind, entries = before ++ (name, cell) :: behind ∧
      name ∉ behind.map Prod.fst := by
  have last : lastGranted? (entries.map fun entry => (entry.1, some entry.2)) name = some cell := by
    rw [cell?_bindAll] at bound
    exact Option.or_none.symm.trans bound
  obtain ⟨before, behind, split, bindable, passed⟩ := exists_lastGranted last
  refine ⟨bindable, ?_⟩
  obtain ⟨front, back, rfl, -, mapped⟩ := List.map_eq_append_iff.1 split
  obtain ⟨entry, rest, rfl, own, rfl⟩ := List.map_eq_cons_iff.1 mapped
  cases own
  refine ⟨front, rest, rfl, ?_⟩
  intro again
  obtain ⟨later, mem, same⟩ := List.mem_map.1 again
  have nothing := passed _ (List.mem_map_of_mem mem) same
  rw [granted?_eq_ite, same, if_pos bindable] at nothing
  cases nothing

namespace CommandLine.Arguments
variable {arguments : Arguments}

def bindings (arguments : Arguments) : Bindings arguments.values.length :=
  (∅ : Bindings _).bindAll (arguments.targets.map fun target => (target.1, some target.2))

@[simp] theorem map_fst_targets :
    arguments.targets.map Prod.fst = arguments.values.map Prod.fst := by
  rw [targets, List.map_map]
  refine List.ext_getElem (by simp) fun i _ _ => ?_
  simp

@[simp] theorem mem_targets {target : String × Fin arguments.values.length} :
    target ∈ arguments.targets ↔ (arguments.values.get target.2).1 = target.1 := by
  rw [targets, List.mem_map]
  constructor
  · rintro ⟨i, -, rfl⟩
    rfl
  · intro name
    exact ⟨target.2, List.mem_finRange _, Prod.ext name rfl⟩

private theorem pairwise_targets :
    arguments.targets.Pairwise fun target later => target.2 < later.2 := by
  rw [targets, List.pairwise_map]
  exact List.pairwise_lt_finRange _

theorem cell?_bindings {name : String} {i : Fin arguments.values.length} :
    arguments.bindings.cell? name = some i ↔
      Bindings.isBindable name = true ∧ (arguments.values.get i).1 = name ∧
        ∀ j, i < j → (arguments.values.get j).1 ≠ name := by
  have last : ∀ {k}, arguments.bindings.cell? name = some k →
      Bindings.isBindable name = true ∧ (arguments.values.get k).1 = name ∧
        ∀ j, k < j → (arguments.values.get j).1 ≠ name := by
    intro k bound
    obtain ⟨bindable, before, behind, split, apart⟩ := Bindings.last_of_cell?_bindAll bound
    have own : (name, k) ∈ arguments.targets := split ▸ List.mem_append_cons_self
    refine ⟨bindable, mem_targets.1 own, fun j later same => ?_⟩
    have mem : (name, j) ∈ arguments.targets := mem_targets.2 same
    have order := arguments.pairwise_targets
    rw [split, List.pairwise_append] at order
    obtain ⟨-, -, earlier⟩ := order
    rw [split, List.mem_append, List.mem_cons] at mem
    rcases mem with mem | mem | mem
    · have less := earlier _ mem _ List.mem_cons_self
      exact absurd later less.asymm
    · cases mem
      exact absurd later (lt_irrefl _)
    · exact apart (List.mem_map.2 ⟨_, mem, rfl⟩)
  refine ⟨last, ?_⟩
  rintro ⟨bindable, named, unnamed⟩
  have given : (name, some i) ∈
      arguments.targets.map fun target => (target.1, some target.2) :=
    List.mem_map.2 ⟨(name, i), mem_targets.2 named, rfl⟩
  have some : (arguments.bindings.cell? name).isSome :=
    Bindings.isSome_cell?_bindAll (.inr ⟨bindable, i, given⟩)
  obtain ⟨k, bound⟩ := Option.isSome_iff_exists.1 some
  obtain ⟨-, namedLast, unnamedLast⟩ := last bound
  rcases lt_trichotomy i k with less | rfl | less
  · exact absurd namedLast (unnamed k less)
  · exact bound
  · exact absurd named (unnamedLast i less)

theorem cell?_bindings_ne {i j : Fin arguments.values.length} (later : i < j)
    (same : (arguments.values.get i).1 = (arguments.values.get j).1) (name : String) :
    arguments.bindings.cell? name ≠ some i := by
  intro bound
  obtain ⟨-, named, unnamed⟩ := cell?_bindings.1 bound
  exact unnamed j later (same.symm.trans named)

end CommandLine.Arguments
end CellFormula
