import CellFormula.Proofs.Formula.Footprint
import CellFormula.Proofs.Session.Reference
/-! Formulas that share cells. Operations on different formulas may change places, evaluations as
long as neither formula assigns a cell that the other one reads or assigns. -/
namespace CellFormula

namespace Session

def Step.action (step : Step n k) (formula : Formula n) : Action n (Formula n × Answer) :=
  match step with
  | poke .. => pure (formula, .nothing)
  | bind _ name cell => pure ((formula.bind name cell).1, .accepted (formula.bind name cell).2)
  | edit _ source => pure ((formula.edit source).1, .accepted (formula.edit source).2)
  | evaluate _ => fun memory =>
    let (after, outcome) := formula.evaluate memory
    ⟨(after, .value outcome.value), outcome.memory, outcome.accesses⟩
  | replace _ backend => pure (Formula.new backend, .nothing)

theorem step_eq_action {step : Step n k} {i : Fin k} (h : step.formula? = some i)
    (session : Session n k) :
    session.step step =
      let outcome := step.action (session.formulas.get i) session.memory
      ({ session.put i outcome.value.1 with memory := outcome.memory }, outcome.value.2) := by
  cases step with
  | poke cell value => cases h
  | bind j name cell =>
    cases h
    rfl
  | edit j source =>
    cases h
    rfl
  | evaluate j =>
    cases h
    rfl
  | replace j backend =>
    cases h
    rfl

/-- Two steps lead to one session in either order, and answer the same. -/
def Commutes (session : Session n k) (first second : Step n k) : Prop :=
  ((session.step first).1.step second).1 = ((session.step second).1.step first).1 ∧
    ((session.step second).1.step first).2 = (session.step first).2 ∧
    ((session.step first).1.step second).2 = (session.step second).2

private theorem put_comm (session : Session n k) {i j : Fin k} (different : i ≠ j)
    (formula other : Formula n) :
    (session.put i formula).put j other = (session.put j other).put i formula := by
  have places : i.val ≠ j.val := fun same => different (Fin.ext same)
  unfold put
  dsimp only
  rw [Vector.set_comm _ _ places]

theorem commutes_of_within {touched assigned touched' assigned' : Fin n → Prop}
    {session : Session n k} {first second : Step n k} {i j : Fin k} (different : i ≠ j)
    (about : first.formula? = some i) (about' : second.formula? = some j)
    (within : (first.action (session.formulas.get i)).Within touched assigned)
    (within' : (second.action (session.formulas.get j)).Within touched' assigned')
    (apart : ∀ cell, assigned cell → ¬ touched' cell ∧ ¬ assigned' cell)
    (apart' : ∀ cell, assigned' cell → ¬ touched cell ∧ ¬ assigned cell) :
    session.Commutes first second := by
  obtain ⟨behind, before, cells⟩ := within.commute within' apart apart' session.memory
  have kept : ∀ formula memory,
      ({ session.put i formula with memory } : Session n k).formulas.get j =
        session.formulas.get j := fun formula memory => by
    simp [different]
  have kept' : ∀ formula memory,
      ({ session.put j formula with memory } : Session n k).formulas.get i =
        session.formulas.get i := fun formula memory => by
    simp [different.symm]
  have formulas := congrArg Session.formulas (put_comm session different
    (first.action (session.formulas.get i) session.memory).value.1
    (second.action (session.formulas.get j) session.memory).value.1)
  unfold Commutes
  simp only [step_eq_action about, step_eq_action about', kept, kept', behind, before, cells]
  exact ⟨congrArg (Session.mk _) formulas, trivial, trivial⟩

def Step.Declares : Step n k → Prop
  | bind .. | edit .. | replace .. => True
  | poke .. | evaluate _ => False

theorem Step.Declares.within {step : Step n k} (h : step.Declares) (formula : Formula n) :
    (step.action formula).Within (fun _ => False) (fun _ => False) := by
  cases step with
  | poke cell value => cases h
  | evaluate i => cases h
  | bind i name cell => exact .pure _
  | edit i source => exact .pure _
  | replace i backend => exact .pure _

end Session

private theorem Action.within_all (action : Action n α) :
    action.Within (fun _ => True) (fun _ => True) where
  accesses _ _ _ := trivial
  kept _ _ notAssigned := absurd trivial notAssigned
  framed {memory other} agree := by
    have same : memory = other := Vector.ext fun i lt => agree ⟨i, lt⟩ trivial
    rw [same]
    exact ⟨rfl, fun _ _ => rfl⟩

theorem Formula.Coherent.within_evaluate {formula : Formula n} (h : formula.Coherent) (i : Fin k) :
    ((Session.Step.evaluate i).action formula).Within formula.declaration.Touches
      formula.declaration.Assigns := by
  rcases formula.declaration.evaluate_within with ⟨failure, fails⟩ | ⟨action, within, performs⟩
  · have same : (Session.Step.evaluate i).action formula =
        pure ({ formula.compile with failure := some failure }, .value Number.nan) := by
      funext memory
      simp only [Session.Step.action, h.evaluate_eq, fails]
      rfl
    rw [same]
    exact .pure _
  · have same : (Session.Step.evaluate i).action formula =
        action >>= fun value => pure ({ formula.compile with failure := none }, .value value) := by
      funext memory
      simp only [Session.Step.action, h.evaluate_eq, performs, Action.bind_apply, Action.pure_apply,
        List.append_nil]
    rw [same]
    exact within.bind fun _ => .pure _

namespace Declaration

/-- One of the two assigns a cell that the other one reads or assigns. -/
def Conflicts (first second : Declaration n) : Prop :=
  ∃ cell, first.Assigns cell ∧ second.Touches cell ∨ second.Assigns cell ∧ first.Touches cell

instance (first second : Declaration n) : Decidable (first.Conflicts second) :=
  inferInstanceAs (Decidable (∃ cell, first.Assigns cell ∧ second.Touches cell ∨
    second.Assigns cell ∧ first.Touches cell))

theorem Conflicts.symm {first second : Declaration n} (h : first.Conflicts second) :
    second.Conflicts first := by
  obtain ⟨cell, conflict⟩ := h
  exact ⟨cell, conflict.symm⟩

/-- What is declared of the `i`-th formula at each of its evaluations in a history. -/
def evaluated (i : Fin k) (declaration : Declaration n) :
    List (Session.Step n k) → List (Declaration n)
  | [] => []
  | .evaluate j :: rest =>
    if j = i then declaration :: evaluated i declaration rest else evaluated i declaration rest
  | step :: rest => evaluated i (declaration.step i step) rest

private theorem evaluated_other {i : Fin k} (declaration : Declaration n) {step : Session.Step n k}
    (other : step.formula? ≠ some i) (rest : List (Session.Step n k)) :
    declaration.evaluated i (step :: rest) = declaration.evaluated i rest := by
  have different : ∀ j, step.formula? = some j → j ≠ i := by
    rintro j about rfl
    exact other about
  cases step with
  | poke cell value => rfl
  | evaluate j => exact if_neg (different j rfl)
  | bind j name cell => simp only [evaluated, step, if_neg (different j rfl)]
  | edit j source => simp only [evaluated, step, if_neg (different j rfl)]
  | replace j backend => simp only [evaluated, step, if_neg (different j rfl)]

private theorem evaluated_step {i : Fin k} {declaration met : Declaration n}
    (step : Session.Step n k)
    {rest : List (Session.Step n k)} (h : met ∈ (declaration.step i step).evaluated i rest) :
    met ∈ declaration.evaluated i (step :: rest) := by
  cases step with
  | evaluate j =>
    simp only [evaluated]
    split
    · exact List.mem_cons_of_mem _ h
    · exact h
  | poke | bind | edit | replace => exact h

end Declaration

namespace Session

theorem commutes_of_declares {session : Session n k} {first second : Step n k} {i j : Fin k}
    (different : i ≠ j) (about : first.formula? = some i) (about' : second.formula? = some j)
    (declares : first.Declares) : session.Commutes first second :=
  commutes_of_within different about about' (declares.within _) (Action.within_all _)
    (fun _ none => none.elim) (fun _ _ => ⟨id, id⟩)

theorem Commutes.symm {session : Session n k} {first second : Step n k}
    (h : session.Commutes first second) : session.Commutes second first :=
  ⟨h.1.symm, h.2.2, h.2.1⟩

theorem commutes_evaluate {session : Session n k} {i j : Fin k} (different : i ≠ j)
    {declaration other : Declaration n} (tracks : session.Tracks i declaration)
    (tracks' : session.Tracks j other) (apart : ¬ declaration.Conflicts other) :
    session.Commutes (.evaluate i) (.evaluate j) := by
  have within := tracks.coherent.within_evaluate i
  have within' := tracks'.coherent.within_evaluate j
  rw [tracks.declared] at within
  rw [tracks'.declared] at within'
  have left : ∀ cell, declaration.Assigns cell → ¬ other.Touches cell :=
    fun cell assigned touched => apart ⟨cell, .inl ⟨assigned, touched⟩⟩
  have right : ∀ cell, other.Assigns cell → ¬ declaration.Touches cell :=
    fun cell assigned touched => apart ⟨cell, .inr ⟨assigned, touched⟩⟩
  apply commutes_of_within different rfl rfl within within'
  · exact fun cell assigned => ⟨left cell assigned, fun other => left cell assigned other.touches⟩
  · exact fun cell assigned => ⟨right cell assigned, fun other => right cell assigned other.touches⟩

theorem Step.declares_or_evaluates {step : Step n k} {i : Fin k} (h : step.formula? = some i) :
    step.Declares ∨ step = .evaluate i := by
  cases step with
  | poke cell value => cases h
  | evaluate j => exact .inr (congrArg _ (Option.some.inj h))
  | bind j name cell => exact .inl trivial
  | edit j source => exact .inl trivial
  | replace j backend => exact .inl trivial

theorem get_step_other {step : Step n k} {i j : Fin k} (different : i ≠ j)
    (about : step.formula? = some j) (session : Session n k) :
    (session.step step).1.formulas.get i = session.formulas.get i := by
  simp [step_eq_action about, different.symm]

theorem get_run_other {i j : Fin k} (different : i ≠ j) {steps : List (Step n k)}
    (about : ∀ step ∈ steps, step.formula? = some j) (session : Session n k) :
    (session.run steps).1.formulas.get i = session.formulas.get i := by
  induction steps generalizing session with
  | nil => rfl
  | cons step rest ih =>
    rw [List.forall_mem_cons] at about
    have kept := get_step_other different about.1 session
    exact (ih about.2 (session.step step).1).trans kept

theorem Tracks.step_other {session : Session n k} {i j : Fin k} {declaration : Declaration n}
    (h : session.Tracks i declaration) (different : i ≠ j) {step : Step n k}
    (about : step.formula? = some j) : (session.step step).1.Tracks i declaration := by
  have kept := get_step_other different about session
  constructor
  · rw [kept]
    exact h.coherent
  · rw [kept]
    exact h.declared

theorem run_step_comm {session : Session n k} {i j : Fin k} (different : i ≠ j) {step : Step n k}
    (about : step.formula? = some i) (steps : List (Step n k))
    (about' : ∀ step ∈ steps, step.formula? = some j) {declaration other : Declaration n}
    (tracks : session.Tracks i declaration) (tracks' : session.Tracks j other)
    (apart : step = .evaluate i → ∀ met ∈ other.evaluated j steps, ¬ declaration.Conflicts met) :
    (session.step step).1.run steps =
      (((session.run steps).1.step step).1, (session.run steps).2) := by
  induction steps generalizing session other with
  | nil => rfl
  | cons next rest ih =>
    rw [List.forall_mem_cons] at about'
    have commutes : session.Commutes step next := by
      rcases Step.declares_or_evaluates about with declares | rfl
      · exact commutes_of_declares different about about'.1 declares
      · rcases Step.declares_or_evaluates about'.1 with declares | rfl
        · exact (commutes_of_declares different.symm about'.1 about declares).symm
        · have met : other ∈ other.evaluated j (.evaluate j :: rest) := by
            simp [Declaration.evaluated]
          exact commutes_evaluate different tracks tracks' (apart rfl other met)
    have behind := ih about'.2 (tracks.step_other different about'.1) (tracks'.step next)
      fun evaluates met mem => apart evaluates met (Declaration.evaluated_step next mem)
    obtain ⟨same, -, answer⟩ := commutes
    simp only [run]
    rw [same, answer, behind]

def stepsAbout (i : Fin k) (history : List (Step n k)) : List (Step n k) :=
  history.filter fun step => step.formula? = some i

def answersTo (i : Fin k) (session : Session n k) : List (Step n k) → List Answer
  | [] => []
  | step :: rest =>
    let (next, answer) := session.step step
    if step.formula? = some i then answer :: next.answersTo i rest else next.answersTo i rest

private theorem of_mem_stepsAbout {i : Fin k} {history : List (Step n k)} {step : Step n k}
    (h : step ∈ stepsAbout i history) : step.formula? = some i := by
  simpa using List.of_mem_filter h

private theorem evaluated_stepsAbout (i : Fin k) (declaration : Declaration n)
    (history : List (Step n k)) :
    declaration.evaluated i (stepsAbout i history) = declaration.evaluated i history := by
  induction history generalizing declaration with
  | nil => rfl
  | cons step rest ih =>
    unfold stepsAbout at ih ⊢
    by_cases about : step.formula? = some i
    · rw [List.filter_cons_of_pos (by simpa using about)]
      cases step with
      | poke cell value => cases about
      | evaluate j => simp only [Declaration.evaluated, ih]
      | bind j name cell => exact ih _
      | edit j source => exact ih _
      | replace j backend => exact ih _
    · rw [List.filter_cons_of_neg (by simpa using about), ih]
      exact (Declaration.evaluated_other _ about _).symm

/-- A mixed history of two formulas answers the steps about one of them as if they were alone, and
leaves the cells as one formula's steps after the other's do. -/
theorem run_interleaved {session : Session n k} {i j : Fin k} (different : i ≠ j)
    {mixed : List (Step n k)}
    (about : ∀ step ∈ mixed, step.formula? = some i ∨ step.formula? = some j)
    {declaration other : Declaration n} (tracks : session.Tracks i declaration)
    (tracks' : session.Tracks j other)
    (apart : ∀ mine ∈ declaration.evaluated i mixed, ∀ theirs ∈ other.evaluated j mixed,
      ¬ mine.Conflicts theirs) :
    session.answersTo i mixed = (session.run (stepsAbout i mixed)).2 ∧
      (session.run mixed).1 = (session.run (stepsAbout i mixed ++ stepsAbout j mixed)).1 := by
  induction mixed generalizing session declaration other with
  | nil => exact ⟨rfl, rfl⟩
  | cons step rest ih =>
    rw [List.forall_mem_cons] at about
    obtain ⟨answers, state⟩ := ih about.2 (tracks.step step) (tracks'.step step)
      fun mine mem theirs mem' => apart mine (Declaration.evaluated_step step mem) theirs
        (Declaration.evaluated_step step mem')
    rcases about.1 with mine | theirs
    · have notTheirs : step.formula? ≠ some j := by
        rw [mine]
        exact fun same => different (Option.some.inj same)
      have kept : stepsAbout i (step :: rest) = step :: stepsAbout i rest :=
        List.filter_cons_of_pos (by simpa using mine)
      have dropped : stepsAbout j (step :: rest) = stepsAbout j rest :=
        List.filter_cons_of_neg (by simpa using notTheirs)
      rw [kept, dropped]
      simp only [answersTo, if_pos mine, run, List.cons_append]
      exact ⟨congrArg _ answers, state⟩
    · have notMine : step.formula? ≠ some i := by
        rw [theirs]
        exact fun same => different (Option.some.inj same).symm
      have kept : stepsAbout j (step :: rest) = step :: stepsAbout j rest :=
        List.filter_cons_of_pos (by simpa using theirs)
      have dropped : stepsAbout i (step :: rest) = stepsAbout i rest :=
        List.filter_cons_of_neg (by simpa using notMine)
      have late := run_step_comm different.symm theirs (stepsAbout i rest)
        (fun _ => of_mem_stepsAbout) tracks' tracks <| by
        rintro rfl met mem conflict
        rw [evaluated_stepsAbout] at mem
        have mine : met ∈ declaration.evaluated i (.evaluate j :: rest) := by
          rw [Declaration.evaluated_other _ notMine]
          exact mem
        exact apart met mine other (by simp [Declaration.evaluated]) conflict.symm
      rw [kept, dropped]
      simp only [answersTo, if_neg notMine, run]
      rw [answers, state, run_append, run_append, late]
      exact ⟨rfl, rfl⟩

/-- Steps about different formulas may change places unless both are evaluations and one formula
assigns a cell that the other one reads or assigns. As long as no two evaluations are in that
conflict, each formula ends as its own steps alone leave it. -/
theorem formulas_are_independent (memory : Memory n) (backends : Vector Backend k)
    (history : List (Step n k)) {f g : Fin k} (different : f ≠ g) :
    let session := ((start memory backends).run history).1
    let declared := fun i => Declaration.after i (backends.get i) history
    (∀ first second : Step n k, first.formula? = some f → second.formula? = some g →
      first.Declares → session.Commutes first second) ∧
    (¬ (declared f).Conflicts (declared g) → session.Commutes (.evaluate f) (.evaluate g)) ∧
    ∀ mixed : List (Step n k),
      (∀ step ∈ mixed, step.formula? = some f ∨ step.formula? = some g) →
      (∀ first ∈ (declared f).evaluated f mixed, ∀ second ∈ (declared g).evaluated g mixed,
        ¬ first.Conflicts second) →
      (∀ i, i = f ∨ i = g →
        session.answersTo i mixed = (session.run (stepsAbout i mixed)).2 ∧
        (session.run mixed).1.formulas.get i =
          (session.run (stepsAbout i mixed)).1.formulas.get i) ∧
      (session.run mixed).1 = (session.run (stepsAbout f mixed ++ stepsAbout g mixed)).1 := by
  have tracks := tracks_run_start memory backends history
  dsimp only
  generalize ((start memory backends).run history).1 = session at tracks ⊢
  refine ⟨fun first second => commutes_of_declares different,
    commutes_evaluate different (tracks f) (tracks g), ?_⟩
  intro mixed about apart
  have alone : ∀ {i j : Fin k}, i ≠ j →
      (session.run mixed).1 = (session.run (stepsAbout i mixed ++ stepsAbout j mixed)).1 →
      (session.run mixed).1.formulas.get i =
        (session.run (stepsAbout i mixed)).1.formulas.get i := by
    intro i j different state
    rw [state, run_append]
    exact get_run_other different (fun _ => of_mem_stepsAbout) _
  obtain ⟨answers, state⟩ := run_interleaved different about (tracks f) (tracks g) apart
  obtain ⟨answers', state'⟩ := run_interleaved different.symm
    (fun step mem => (about step mem).symm) (tracks g) (tracks f)
    fun first mem second mem' conflict => apart second mem' first mem conflict.symm
  refine ⟨?_, state⟩
  rintro i (rfl | rfl)
  · exact ⟨answers, alone different state⟩
  · exact ⟨answers', alone different.symm state'⟩

def sharing (i j : Fin k) (shared first second : Fin n) : List (Step n k) :=
  [.bind i "s" (some shared), .bind i "a" (some first), .edit i "a = s * s",
    .bind j "s" (some shared), .bind j "b" (some second), .edit j "b = s"]

def turns (i j : Fin k) : List (Step n k) :=
  [.evaluate j, .evaluate i, .edit j "s + b", .evaluate i, .evaluate j]

theorem turns_of_sharing :
    let session := ((start #v[1, 2, 3] #v[.interpreting, .compiling]).run (sharing 0 1 2 0 1)).1
    session.Commutes (.evaluate 0) (.evaluate 1) ∧
      session.Commutes (.edit 0 "b") (.evaluate 1) ∧
      session.answersTo 1 (turns 0 1) =
        (session.run [.evaluate 1, .edit 1 "s + b", .evaluate 1]).2 ∧
      (session.run (turns 0 1)).1 =
        (session.run (stepsAbout 0 (turns 0 1) ++ stepsAbout 1 (turns 0 1))).1 := by
  obtain ⟨declares, evaluates, interleaved⟩ := formulas_are_independent #v[1, 2, 3]
    #v[.interpreting, .compiling] (sharing 0 1 2 0 1) (f := 0) (g := 1) (by decide)
  obtain ⟨each, state⟩ := interleaved (turns 0 1) (by decide) (by decide +kernel)
  refine ⟨evaluates (by decide +kernel), declares _ _ rfl rfl trivial, ?_, state⟩
  exact (each 1 (.inr rfl)).1

end Session
end CellFormula
