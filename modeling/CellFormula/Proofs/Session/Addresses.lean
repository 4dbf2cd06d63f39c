import CellFormula.Proofs.Formula.Footprint
import CellFormula.Proofs.Session.Reference
/-! Which cells an evaluation touches in a session: those that names of the current text are bound
to at that moment. A cell that was unbound from every name is out of reach until it is bound again.
-/
namespace CellFormula

namespace Formula

def Sourced (formula : Formula n) : Prop :=
  ∀ term, formula.term = some term → parse formula.source = .ok term

private theorem sourced_new (backend : Backend) : (new backend : Formula n).Sourced := by
  intro term given
  cases given

theorem Sourced.edit {formula : Formula n} (h : formula.Sourced) (source : String) :
    (formula.edit source).1.Sourced := by
  unfold Formula.edit
  cases parsed : parse source with
  | error error => exact h
  | ok tree =>
    intro term given
    cases given
    exact parsed

theorem Sourced.bind {formula : Formula n} (h : formula.Sourced) (name : String)
    (cell : Option (Fin n)) : (formula.bind name cell).1.Sourced := by
  unfold Formula.bind
  split
  · exact h
  · exact h
  · exact h

theorem Sourced.evaluate {formula : Formula n} (h : formula.Sourced) (memory : Memory n) :
    (formula.evaluate memory).1.Sourced := by
  have fresh : formula.refresh.Sourced := by
    unfold Formula.refresh
    split
    · exact h
    · exact h
  unfold Formula.evaluate
  dsimp only
  split
  · exact fresh
  · exact fresh

theorem Coherent.accesses_evaluate {formula : Formula n} (h : formula.Coherent)
    (memory : Memory n) :
    ∀ access ∈ (formula.evaluate memory).2.accesses, formula.declaration.Touches access.cell := by
  rw [h.evaluate_eq]
  rcases formula.declaration.evaluate_within with ⟨failure, fails⟩ | ⟨action, within, performs⟩
  · rw [fails]
    simp
  · rw [performs]
    exact within.accesses memory

end Formula

namespace Session

private theorem forall_run {P : Formula n → Prop} (new : ∀ backend, P (Formula.new backend))
    (edit : ∀ formula source, P formula → P (formula.edit source).1)
    (bind : ∀ formula name cell, P formula → P (formula.bind name cell).1)
    (evaluate : ∀ formula memory, P formula → P (formula.evaluate memory).1)
    {session : Session n k} (h : ∀ i, P (session.formulas.get i)) (history : List (Step n k)) :
    ∀ i, P ((session.run history).1.formulas.get i) := by
  have put : ∀ {session : Session n k} {j formula}, (∀ i, P (session.formulas.get i)) → P formula →
      ∀ i, P ((session.put j formula).formulas.get i) := by
    intro session j formula all good i
    by_cases same : j = i
    · simpa [same] using good
    · simpa [same] using all i
  induction history generalizing session with
  | nil => exact h
  | cons step steps ih =>
    apply ih
    cases step with
    | poke cell value => exact h
    | bind j name cell => exact put h (bind _ name cell (h j))
    | edit j source => exact put h (edit _ source (h j))
    | evaluate j => exact put h (evaluate _ session.memory (h j))
    | replace j backend => exact put h (new backend)

theorem sourced_run_start (memory : Memory n) (backends : Vector Backend k)
    (history : List (Step n k)) (i : Fin k) :
    (((start memory backends).run history).1.formulas.get i).Sourced := by
  apply forall_run Formula.sourced_new (fun _ source h => h.edit source)
    (fun _ name cell h => h.bind name cell) (fun _ memory h => h.evaluate memory)
  intro i
  simpa using Formula.sourced_new _

end Session

namespace Bindings

def Free (bindings : Bindings n) (cell : Fin n) : Prop := ∀ name, bindings.cell? name ≠ some cell

theorem Free.bind {bindings : Bindings n} {cell : Fin n} (h : bindings.Free cell) (name : String)
    {target : Option (Fin n)} (refused : target = some cell → isBindable name = false) :
    (bindings.bind name target).Free cell := by
  unfold Bindings.bind
  split
  · rename_i change after accepted
    cases target with
    | none => cases accepted
    | some target =>
      intro other bound
      rw [cell?_of_bind? accepted] at bound
      split at bound
      · rw [bind?, refused bound] at accepted
        cases accepted
      · exact h other bound
  · exact h

end Bindings

theorem Declaration.free_step {declaration : Declaration n} {cell : Fin n}
    (h : declaration.bindings.Free cell) (i : Fin k) {step : Session.Step n k}
    (refused : ∀ name, step = .bind i name (some cell) → Bindings.isBindable name = false) :
    (declaration.step i step).bindings.Free cell := by
  cases step with
  | poke cell value => exact h
  | evaluate j => exact h
  | edit j source =>
    simp only [Declaration.step, Declaration.edit]
    split
    · cases parse source with
      | error error => exact h
      | ok term => exact h
    · exact h
  | bind j name target =>
    simp only [Declaration.step]
    split
    · rename_i same
      subst same
      exact h.bind name fun same => refused name (by rw [same])
    · exact h
  | replace j backend =>
    simp only [Declaration.step]
    split
    · intro name bound
      cases bound
    · exact h

theorem Declaration.free_run {declaration : Declaration n} {cell : Fin n}
    (h : declaration.bindings.Free cell) (i : Fin k) {history : List (Session.Step n k)}
    (refused : ∀ name, .bind i name (some cell) ∈ history → Bindings.isBindable name = false) :
    (history.foldl (Declaration.step i) declaration).bindings.Free cell := by
  induction history generalizing declaration with
  | nil => exact h
  | cons step steps ih =>
    apply ih
    · exact free_step h i fun name same => refused name (same ▸ List.mem_cons_self)
    · exact fun name mem => refused name (List.mem_cons_of_mem _ mem)

namespace Session

/-- After any history, an evaluation reads and writes only cells that names of the current text are
bound to. From the moment at which no name is bound to a cell, no evaluation touches it, whatever
else is done, until a binding to it is accepted. -/
theorem accesses_are_bound (memory : Memory n) (backends : Vector Backend k)
    (history : List (Step n k)) (i : Fin k) :
    let session := ((start memory backends).run history).1
    let formula := session.formulas.get i
    (∀ access ∈ (formula.evaluate session.memory).2.accesses,
      ∃ term, parse formula.source = .ok term ∧
        ∃ name ∈ term.occurrences, formula.bindings.cell? name = some access.cell) ∧
    ∀ cell, (∀ name, formula.bindings.cell? name ≠ some cell) →
      ∀ later : List (Step n k),
        (∀ name, .bind i name (some cell) ∈ later → Bindings.isBindable name = false) →
        let after := (session.run later).1
        ∀ access ∈ ((after.formulas.get i).evaluate after.memory).2.accesses,
          access.cell ≠ cell := by
  have tracks := tracks_run_start memory backends history i
  have sourced := sourced_run_start memory backends history i
  dsimp only
  generalize ((start memory backends).run history).1 = session at tracks sourced ⊢
  constructor
  · intro access mem
    obtain ⟨term, given, name, occurs, bound⟩ :=
      tracks.coherent.accesses_evaluate session.memory access mem
    exact ⟨term, sourced term given, name, occurs, bound⟩
  · rintro cell free later refused access mem rfl
    have tracks' := tracks.run later
    obtain ⟨term, -, name, -, bound⟩ :=
      tracks'.coherent.accesses_evaluate (session.run later).1.memory access mem
    have free' : (Declaration.after i (backends.get i) history).bindings.Free access.cell := by
      rw [← tracks.declared]
      exact free
    have later_free := Declaration.free_run free' i refused
    rw [← tracks'.declared] at later_free
    exact later_free name bound

def rebinding (i : Fin k) (cell operand elsewhere : Fin n) : List (Step n k) :=
  [.bind i "x" (some cell), .bind i "y" (some operand), .edit i "x = y * y", .evaluate i,
    .bind i "x" (some elsewhere)]

def refusals (i : Fin k) (cell : Fin n) : List (Step n k) :=
  [.bind i "pi" (some cell), .edit i "(", .evaluate i]

theorem accesses_after_rebinding :
    let session := ((start #v[1, 2, 3] #v[.compiling]).run (rebinding 0 0 1 2)).1
    let after := (session.run (refusals 0 0)).1
    let accesses := ((after.formulas.get 0).evaluate after.memory).2.accesses
    (∀ name, (session.formulas.get 0).bindings.cell? name ≠ some 0) ∧
      accesses.map Access.cell = [1, 1, 2] ∧ ∀ access ∈ accesses, access.cell ≠ 0 := by
  dsimp only
  have free : ∀ name, (((start #v[1, 2, 3] #v[.compiling]).run (rebinding 0 0 1 2)).1.formulas.get
      0).bindings.cell? name ≠ some 0 := by
    have bindings : (((start #v[1, 2, 3] #v[.compiling]).run (rebinding 0 0 1 2)).1.formulas.get
        0).bindings = ⟨[("x", 2), ("y", 1)]⟩ := by decide +kernel
    intro name
    rw [bindings]
    simp only [Bindings.cell?, Bindings.lookup_cons_ite, List.lookup_nil]
    split
    · decide
    · split
      · decide
      · decide
  have refused : ∀ name, Step.bind 0 name (some 0) ∈ refusals (0 : Fin 1) (0 : Fin 3) →
      Bindings.isBindable name = false := by
    intro name mem
    have same : name = "pi" := by simpa [refusals] using mem
    rw [same]
    decide
  refine ⟨free, by decide +kernel, ?_⟩
  exact (accesses_are_bound #v[1, 2, 3] #v[.compiling] (rebinding 0 0 1 2) 0).2 0 free
    (refusals 0 0) refused

end Session
end CellFormula
