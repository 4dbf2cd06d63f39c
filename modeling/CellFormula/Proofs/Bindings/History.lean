import CellFormula.Proofs.Bindings
import CellFormula.Proofs.Text.Bytes
/-! Bindings after a history of attempts. Whether an attempt is granted does not depend on those
before it, and the last granted attempt of a name decides its cell. -/
namespace CellFormula.Bindings

def bindAll (bindings : Bindings n) (attempts : List (String × Option (Fin n))) : Bindings n :=
  attempts.foldl (fun bindings attempt => bindings.bind attempt.1 attempt.2) bindings

/-- The cell that an attempt gives to its name. It gives none if the cell is absent, and none to the
three names that cannot be bound. -/
def granted? (attempt : String × Option (Fin n)) : Option (Fin n) :=
  if attempt.1 ∈ ["", "pi", "e"] then none else attempt.2

/-- The cell that the last granted attempt of a name gives to it. -/
def lastGranted? (attempts : List (String × Option (Fin n))) (name : String) : Option (Fin n) :=
  attempts.reverse.findSome? fun attempt => if attempt.1 = name then granted? attempt else none

theorem isBindable_eq (name : String) : isBindable name = decide (name ∉ ["", "pi", "e"]) := by
  unfold isBindable isConstant namedConstant?
  by_cases pi : name = "pi"
  · simp [pi]
  · by_cases e : name = "e"
    · simp [e]
    · simp [pi, e]

theorem granted?_eq_ite (name : String) (cell : Option (Fin n)) :
    granted? (name, cell) = if isBindable name then cell else none := by
  rw [isBindable_eq, granted?]
  by_cases listed : name ∈ ["", "pi", "e"]
  · simp only [listed, if_true, not_true, decide_false, Bool.false_eq_true, if_false]
  · simp only [listed, if_false, not_false_iff, decide_true, if_true]

theorem granted?_eq_some_iff {name : String} {cell : Option (Fin n)} {own : Fin n} :
    granted? (name, cell) = some own ↔ isBindable name = true ∧ cell = some own := by
  rw [granted?_eq_ite]
  split
  · rename_i bindable
    simp [bindable]
  · rename_i refused
    simp [refused]

theorem bind?_eq_map_granted? (bindings : Bindings n) (name : String) (cell : Option (Fin n)) :
    bindings.bind? name cell = (granted? (name, cell)).map fun own =>
      (bindings.changeOf name own, ⟨put name own bindings.entries⟩) := by
  rw [granted?_eq_ite]
  cases cell with
  | none => simp [bind?]
  | some cell =>
    rw [bind?]
    split
    · rfl
    · rfl

theorem bind?_of_isBindable {name : String} (h : isBindable name = true) (bindings : Bindings n)
    (cell : Fin n) : ∃ change after, bindings.bind? name (some cell) = some (change, after) := by
  rw [bind?, if_pos h]
  exact ⟨_, _, rfl⟩

@[simp] theorem cell?_bind (bindings : Bindings n) (name : String) (cell : Option (Fin n))
    (other : String) :
    (bindings.bind name cell).cell? other =
      (if name = other then granted? (name, cell) else none).or (bindings.cell? other) := by
  rw [bind, bind?_eq_map_granted?]
  cases granted? (name, cell) with
  | none => simp
  | some own =>
    change (put name own bindings.entries).lookup other = _
    by_cases same : name = other
    · simp [same]
    · simp [same, Ne.symm same, cell?]

private theorem lastGranted?_cons (attempt : String × Option (Fin n))
    (rest : List (String × Option (Fin n))) (name : String) :
    lastGranted? (attempt :: rest) name =
      (lastGranted? rest name).or (if attempt.1 = name then granted? attempt else none) := by
  simp [lastGranted?, List.findSome?_append]

/-- The last granted attempt of a name decides its cell, and without one its cell stays. -/
theorem cell?_bindAll (bindings : Bindings n) (attempts : List (String × Option (Fin n)))
    (name : String) :
    (bindings.bindAll attempts).cell? name =
      (lastGranted? attempts name).or (bindings.cell? name) := by
  induction attempts generalizing bindings with
  | nil => rfl
  | cons attempt rest ih =>
    change ((bindings.bind attempt.1 attempt.2).bindAll rest).cell? name = _
    rw [ih, cell?_bind, lastGranted?_cons, Option.or_assoc]

private theorem isSome_lastGranted? {attempts : List (String × Option (Fin n))} {name : String} :
    (lastGranted? attempts name).isSome ↔
      ∃ attempt ∈ attempts, attempt.1 = name ∧ (granted? attempt).isSome := by
  rw [lastGranted?, List.findSome?_isSome_iff]
  constructor
  · rintro ⟨attempt, mem, given⟩
    split at given
    · exact ⟨attempt, List.mem_reverse.1 mem, ‹_›, given⟩
    · cases given
  · rintro ⟨attempt, mem, own, given⟩
    exact ⟨attempt, List.mem_reverse.2 mem, by rwa [if_pos own]⟩

theorem isSome_cell?_bindAll {bindings : Bindings n} {name : String}
    {attempts : List (String × Option (Fin n))}
    (h : (bindings.cell? name).isSome ∨
      isBindable name = true ∧ ∃ cell, (name, some cell) ∈ attempts) :
    ((bindings.bindAll attempts).cell? name).isSome := by
  rw [cell?_bindAll, Option.isSome_or, Bool.or_eq_true]
  rcases h with bound | ⟨bindable, cell, mem⟩
  · exact .inr bound
  · left
    apply isSome_lastGranted?.2
    refine ⟨_, mem, rfl, ?_⟩
    rw [granted?_eq_ite, if_pos bindable]
    rfl

theorem cell?_bindAll_of_not_mem {name : String} {attempts : List (String × Option (Fin n))}
    (h : name ∉ attempts.map Prod.fst) (bindings : Bindings n) :
    (bindings.bindAll attempts).cell? name = bindings.cell? name := by
  have none : lastGranted? attempts name = none := by
    apply Option.not_isSome_iff_eq_none.1
    intro given
    obtain ⟨attempt, mem, own, -⟩ := isSome_lastGranted?.1 given
    exact h (List.mem_map.2 ⟨attempt, mem, own⟩)
  rw [cell?_bindAll, none, Option.none_or]

theorem exists_lastGranted {attempts : List (String × Option (Fin n))} {name : String}
    {cell : Fin n} (last : lastGranted? attempts name = some cell) :
    ∃ before behind, attempts = before ++ (name, some cell) :: behind ∧
      isBindable name = true ∧ ∀ later ∈ behind, later.1 = name → granted? later = none := by
  rw [lastGranted?, List.findSome?_eq_some_iff] at last
  obtain ⟨behind, attempt, before, reversed, given, passed⟩ := last
  split at given
  · rename_i own
    obtain ⟨other, target⟩ := attempt
    obtain rfl : other = name := own
    obtain ⟨bindable, rfl⟩ := granted?_eq_some_iff.1 given
    refine ⟨before.reverse, behind.reverse, ?_, bindable, ?_⟩
    · rw [← List.reverse_reverse attempts, reversed]
      simp
    · intro later mem same
      have nothing := passed later (List.mem_reverse.1 mem)
      rwa [if_pos same] at nothing
  · cases given

theorem increasing_names_bindAll {bindings : Bindings n} (h : Names.Increasing bindings.names)
    (attempts : List (String × Option (Fin n))) :
    Names.Increasing (bindings.bindAll attempts).names := by
  induction attempts generalizing bindings with
  | nil => exact h
  | cons attempt rest ih => exact ih (increasing_names_bind h attempt.1 attempt.2)

theorem changeOf_cases (bindings : Bindings n) (name : String) (cell : Fin n) :
    (bindings.changeOf name cell = .added ↔ bindings.cell? name = none) ∧
    (bindings.changeOf name cell = .unchanged ↔ bindings.cell? name = some cell) ∧
    (bindings.changeOf name cell = .replaced ↔
      ∃ old, bindings.cell? name = some old ∧ old ≠ cell) := by
  unfold changeOf
  cases bindings.cell? name with
  | none => simp
  | some old =>
    by_cases same : old = cell
    · simp [same]
    · simp [same]

theorem bind?_cases (bindings : Bindings n) (name : String) (cell : Option (Fin n)) :
    match bindings.bind? name cell with
    | none => granted? (name, cell) = none ∧ bindings.bind name cell = bindings
    | some (change, after) => (granted? (name, cell)).isSome ∧ bindings.bind name cell = after ∧
      (change = .added ↔ bindings.cell? name = none) ∧
      (change = .unchanged ↔ bindings.cell? name = cell) ∧
      (change = .replaced ↔ ∃ old, bindings.cell? name = some old ∧ some old ≠ cell) := by
  rw [bind, bind?_eq_map_granted?]
  cases given : granted? (name, cell) with
  | none => exact ⟨rfl, rfl⟩
  | some own =>
    obtain ⟨-, rfl⟩ := granted?_eq_some_iff.1 given
    obtain ⟨added, unchanged, replaced⟩ := bindings.changeOf_cases name own
    refine ⟨rfl, rfl, added, unchanged, ?_⟩
    simpa using replaced

/-- The last granted attempt of a name decides its cell. The next attempt is refused exactly if it
gives no cell, and otherwise reports whether its name had no cell, the same or another. -/
theorem bindings_of_attempts (attempts : List (String × Option (Fin n))) :
    let bindings := (∅ : Bindings n).bindAll attempts
    (∀ entry ∈ bindings.entries,
      entry.1 ∉ ["", "pi", "e"] ∧ (entry.1, some entry.2) ∈ attempts) ∧
    (∀ name, bindings.cell? name = lastGranted? attempts name) ∧
    (∀ name cell,
      let next := (∅ : Bindings n).bindAll (attempts ++ [(name, cell)])
      match bindings.bind? name cell with
      | none => granted? (name, cell) = none ∧ next = bindings
      | some (change, after) => (granted? (name, cell)).isSome ∧ next = after ∧
        (change = .added ↔ lastGranted? attempts name = none) ∧
        (change = .unchanged ↔ lastGranted? attempts name = cell) ∧
        (change = .replaced ↔ ∃ old, lastGranted? attempts name = some old ∧ some old ≠ cell)) ∧
    bindings.names.Pairwise (fun name later => Text.bytes name < Text.bytes later) ∧
    (∀ name, name ∈ bindings.names ↔
      ∃ attempt ∈ attempts, attempt.1 = name ∧ (granted? attempt).isSome) ∧
    bindings.size = bindings.names.length := by
  intro bindings
  have cells (name : String) : bindings.cell? name = lastGranted? attempts name := by
    rw [cell?_bindAll]
    exact Option.or_none
  have increasing : Names.Increasing bindings.names := by
    apply increasing_names_bindAll
    exact List.Pairwise.nil
  refine ⟨?_, cells, ?_, ?_, ?_, ?_⟩
  · rintro ⟨name, cell⟩ mem
    have bound : bindings.cell? name = some cell := lookup_of_mem increasing mem
    rw [cells] at bound
    obtain ⟨before, behind, rfl, bindable, -⟩ := exists_lastGranted bound
    rw [isBindable_eq, decide_eq_true_iff] at bindable
    exact ⟨bindable, List.mem_append_cons_self⟩
  · intro name cell next
    have step : next = bindings.bind name cell := by
      simp only [next, bindings, bindAll, List.foldl_append, List.foldl_cons, List.foldl_nil]
    rw [step, ← cells]
    exact bindings.bind?_cases name cell
  · exact increasing.imp Text.bytes_lt_of_lt
  · intro name
    rw [mem_names increasing, cells, isSome_lastGranted?]
  · exact (List.length_map Prod.fst).symm

example :
    let bindings : Bindings 2 := (∅ : Bindings 2).bindAll
      [("z", some 0), ("pi", some 1), ("a", none), ("m", some 1), ("", some 0), ("z", some 1)]
    bindings.names = ["m", "z"] ∧ bindings.cell? "z" = some 1 := by decide

end CellFormula.Bindings
