import CellFormula.Proofs.CommandLine.Options
import CellFormula.Proofs.Number.SignedText
import CellFormula.Proofs.Formula.Noninterference
import CellFormula.Proofs.Session.Reporting
/-! How a run of the command line ends. Everything that can fail has failed before the first
evaluation is over, so that the evaluations of a run are one action, performed again and again. -/
namespace CellFormula

namespace Action
variable {action : Action n α}

private theorem getLast?_replicate (action : Action n α) (more : Nat) (memory : Memory n) :
    (action.replicate (more + 2) memory).value.getLast? =
      (action.replicate (more + 1) (action memory).memory).value.getLast? :=
  List.getLast?_cons_cons

theorem Within.replicate {touched assigned : Fin n → Prop} (h : action.Within touched assigned)
    (count : Nat) : (action.replicate count).Within touched assigned := by
  induction count with
  | zero => exact .pure []
  | succ count ih => exact h.bind fun value => ih.bind fun rest => .pure (value :: rest)

end Action

theorem Backend.get_replicate_of_unnamed {backend : Backend} {bindings : Bindings n} {term : Term}
    {executable : Executable n} (h : backend.compile bindings term = .ok executable)
    {cell : Fin n} (unnamed : ∀ name, bindings.cell? name ≠ some cell) (count : Nat)
    (memory : Memory n) :
    (executable.action.replicate count memory).memory.get cell = memory.get cell := by
  obtain ⟨plan, planned, computes⟩ := action_of_compile h
  rw [computes]
  refine ((Term.within_of_plan planned).replicate count).kept memory cell ?_
  rintro ⟨name, _, bound⟩
  exact unnamed name bound

namespace CommandLine
variable {formula : Formula n} {targets : List (String × Fin n)}

private theorem bindAll_cons (formula : Formula n) (name : String) (cell : Fin n)
    (rest : List (String × Fin n)) :
    bindAll formula ((name, cell) :: rest) =
      if Bindings.isBindable name then bindAll (formula.bind name (some cell)).1 rest
      else .error (Failure.cannotBind name).message := by
  cases bindable : Bindings.isBindable name with
  | true =>
    obtain ⟨change, after, accepted⟩ := formula.bindings.bind?_of_isBindable bindable cell
    simp only [bindAll, Formula.bind, accepted]
    cases change <;> rfl
  | false =>
    have refused : formula.bindings.bind? name (some cell) = none := by
      rw [Bindings.bind?, if_neg (Bool.eq_false_iff.1 bindable)]
    simp only [bindAll, Formula.bind, refused]
    rfl

theorem bindAll_ok (h : formula.Coherent)
    (bindable : ∀ target ∈ targets, Bindings.isBindable target.1 = true) :
    ∃ bound, bindAll formula targets = .ok bound ∧ bound.Coherent ∧ bound.declaration =
      { formula.declaration with
        bindings := formula.bindings.bindAll
          (targets.map fun target => (target.1, some target.2)) } := by
  induction targets generalizing formula with
  | nil => exact ⟨formula, rfl, h, rfl⟩
  | cons target rest ih =>
    obtain ⟨name, cell⟩ := target
    obtain ⟨bindableName, bindableRest⟩ := List.forall_mem_cons.1 bindable
    obtain ⟨bound, made, coherent, declared⟩ := ih (h.bind name (some cell)) bindableRest
    refine ⟨bound, ?_, coherent, ?_⟩
    · rw [bindAll_cons, if_pos bindableName, made]
    · have first := formula.declaration_bind name (some cell)
      rw [declared, first]
      have bindings := congrArg Declaration.bindings first
      change (formula.bind name (some cell)).1.bindings = _ at bindings
      rw [bindings]
      rfl

private theorem bindAll_error {name : String}
    (first : (targets.map Prod.fst).find? (fun name => !Bindings.isBindable name) = some name) :
    bindAll formula targets = .error (Failure.cannotBind name).message := by
  induction targets generalizing formula with
  | nil => cases first
  | cons target rest ih =>
    obtain ⟨other, cell⟩ := target
    rw [List.map_cons, List.find?_cons] at first
    rw [bindAll_cons]
    cases bindable : Bindings.isBindable other with
    | true =>
      simp only [bindable, Bool.not_true] at first
      exact ih first
    | false =>
      simp only [bindable, Bool.not_false] at first
      cases first
      rfl

theorem edit_ok {source : String} {term : Term} (parsed : parse source = .ok term)
    (h : formula.Coherent) :
    ∃ edited, edit formula source = .ok edited ∧ edited.Coherent ∧
      edited.declaration = { formula.declaration with term := some term } := by
  have coherent := h.edit source
  have declared := formula.declaration_edit source
  simp only [Declaration.edit, parsed] at declared
  refine ⟨(formula.edit source).1, ?_, coherent, declared⟩
  simp only [edit, Formula.edit, parsed]

private theorem edit_error {source : String} {error : ParseError}
    (malformed : parse source = .error error) :
    edit formula source = .error (Failure.parse error).message := by
  simp only [edit, Formula.edit, malformed]
  rfl

/-- The string that a formula reports tells failed evaluations from others. -/
theorem evaluate_eq (h : formula.Coherent) (memory : Memory n) :
    evaluate formula memory =
      match formula.declaration.evaluate memory with
      | .ok outcome => .ok ({ formula.compile with failure := none }, outcome)
      | .error failure => .error failure.message := by
  rw [evaluate, h.evaluate_eq]
  cases formula.declaration.evaluate memory with
  | ok outcome => rfl
  | error failure => exact if_neg failure.message_ne_empty

section
variable {backend : Backend} {term : Term} {bindings : Bindings n} {executable : Executable n}

theorem evaluate_ok (h : formula.Coherent)
    (declared : formula.declaration = ⟨backend, some term, bindings⟩)
    (compiled : backend.compile bindings term = .ok executable) (memory : Memory n) :
    ∃ next, evaluate formula memory = .ok (next, executable.action memory) ∧ next.Coherent ∧
      next.declaration = ⟨backend, some term, bindings⟩ ∧
      next.listing? = executable.listing? := by
  refine ⟨{ formula.compile with failure := none }, ?_, h.of_compile none, declared, ?_⟩
  · rw [evaluate_eq h, declared]
    simp only [Declaration.evaluate, compiled]
  · have sameBackend : formula.backend = backend := congrArg Declaration.backend declared
    have sameTerm : formula.term = some term := congrArg Declaration.term declared
    have sameBindings : formula.bindings = bindings := congrArg Declaration.bindings declared
    simp only [Formula.listing?, Formula.compile, sameBackend, sameTerm, sameBindings, compiled]

/-- A run of evaluations is one action performed again and again: each evaluation finds the
executable ready, and starts on the memory that the one before it left. -/
theorem evaluateRepeatedly_ok (h : formula.Coherent)
    (declared : formula.declaration = ⟨backend, some term, bindings⟩)
    (compiled : backend.compile bindings term = .ok executable) (more : Nat) (memory : Memory n) :
    ∃ last outcome, evaluateRepeatedly formula memory more = .ok (last, outcome) ∧
      last.backend = backend ∧ last.listing? = executable.listing? ∧
      (executable.action.replicate (more + 1) memory).value.getLast? = some outcome.value ∧
      (executable.action.replicate (more + 1) memory).memory = outcome.memory := by
  induction more generalizing formula memory with
  | zero =>
    obtain ⟨last, evaluated, _, declared, listing⟩ := evaluate_ok h declared compiled memory
    exact ⟨last, _, evaluated, congrArg Declaration.backend declared, listing, rfl, rfl⟩
  | succ more ih =>
    obtain ⟨next, evaluated, coherent, declared, _⟩ := evaluate_ok h declared compiled memory
    obtain ⟨last, outcome, repeated, backend, listing, value, cells⟩ :=
      ih coherent declared (executable.action memory).memory
    refine ⟨last, outcome, ?_, backend, listing, ?_, cells⟩
    · simp only [evaluateRepeatedly, evaluated, repeated]
    · rw [Action.getLast?_replicate, value]

theorem evaluateRepeatedly_error {error : CompilationError} (h : formula.Coherent)
    (declared : formula.declaration = ⟨backend, some term, bindings⟩)
    (failed : backend.compile bindings term = .error error) (more : Nat) (memory : Memory n) :
    evaluateRepeatedly formula memory more = .error (Failure.compilation error).message := by
  have evaluated : evaluate formula memory = .error (Failure.compilation error).message := by
    rw [evaluate_eq h, declared]
    simp only [Declaration.evaluate, failed]
  cases more with
  | zero => exact evaluated
  | succ more => simp only [evaluateRepeatedly, evaluated]

end

namespace Arguments

def BindsNames (arguments : Arguments) : Prop :=
  ∀ binding ∈ arguments.values, Bindings.isBindable binding.1 = true

instance (arguments : Arguments) : Decidable arguments.BindsNames :=
  inferInstanceAs (Decidable (∀ binding ∈ arguments.values, _))

/-- The first thing that is wrong with the arguments has the message: each case holds what comes
before it. -/
inductive Refused (arguments : Arguments) : String → Prop
  | backend {unknown : UnknownBackend}
      (h : BackendRequest.ofName arguments.backend = .error unknown) :
      Refused arguments unknown.message
  | name {request : BackendRequest} {name : String}
      (known : BackendRequest.ofName arguments.backend = .ok request)
      (first : (arguments.values.map Prod.fst).find? (fun name => !Bindings.isBindable name) =
        some name) :
      Refused arguments (Failure.cannotBind name).message
  | expression {request : BackendRequest} {error : ParseError}
      (known : BackendRequest.ofName arguments.backend = .ok request)
      (bindable : arguments.BindsNames)
      (malformed : parse arguments.expression = .error error) :
      Refused arguments (Failure.parse error).message
  | compilation {request : BackendRequest} {term : Term} {error : CompilationError}
      (known : BackendRequest.ofName arguments.backend = .ok request)
      (bindable : arguments.BindsNames)
      (parsed : parse arguments.expression = .ok term)
      (failed : request.backend.compile arguments.bindings term = .error error) :
      Refused arguments (Failure.compilation error).message

/-- Nothing is wrong with the arguments, and they lead to the executable. -/
structure Compiles (arguments : Arguments) (backend : Backend)
    (executable : Executable arguments.values.length) : Prop where
  known : (BackendRequest.ofName arguments.backend).map BackendRequest.backend = .ok backend
  bindable : arguments.BindsNames
  compiled : ∃ term, parse arguments.expression = .ok term ∧
    backend.compile arguments.bindings term = .ok executable

def shownListing? (arguments : Arguments) (executable : Executable n) : Option String :=
  if arguments.wantsListing then
    match executable.listing? with
    | some listing => some ("CLIF IR:\n" ++ listing)
    | none => some "No IR: the formula is interpreted"
  else none

theorem refused_or_compiles (arguments : Arguments) :
    (∃ message, arguments.Refused message) ∨
      ∃ backend executable, arguments.Compiles backend executable := by
  cases known : BackendRequest.ofName arguments.backend with
  | error unknown => exact .inl ⟨_, .backend known⟩
  | ok request =>
    cases first : (arguments.values.map Prod.fst).find? (fun name => !Bindings.isBindable name) with
    | some name => exact .inl ⟨_, .name known first⟩
    | none =>
      have bindable : arguments.BindsNames := by
        intro binding mem
        have accepted := List.find?_eq_none.1 first binding.1 (List.mem_map_of_mem mem)
        simpa using accepted
      cases parsed : parse arguments.expression with
      | error error => exact .inl ⟨_, .expression known bindable parsed⟩
      | ok term =>
        cases compiled : request.backend.compile arguments.bindings term with
        | error error => exact .inl ⟨_, .compilation known bindable parsed compiled⟩
        | ok executable =>
          have chosen : (BackendRequest.ofName arguments.backend).map BackendRequest.backend =
              .ok request.backend := by
            rw [known]
            rfl
          exact .inr ⟨_, _, chosen, bindable, term, parsed, compiled⟩

variable {arguments : Arguments}

section
variable {fastest : Backend}

@[simp] private theorem get_memory (i : Fin arguments.values.length) :
    arguments.memory.get i = (arguments.values.get i).2 :=
  List.getElem_map Prod.snd

private theorem chosen_eq (h : arguments.wantsFastest = false) (fastest : Backend) :
    arguments.chosen fastest =
      (BackendRequest.ofName arguments.backend).map BackendRequest.backend := by
  rw [chosen, if_neg (Bool.eq_false_iff.1 h)]

theorem BindsNames.bindAll (bindable : arguments.BindsNames) (backend : Backend) :
    ∃ bound, bindAll (Formula.new backend) arguments.targets = .ok bound ∧ bound.Coherent ∧
      bound.declaration = ⟨backend, none, arguments.bindings⟩ := by
  refine bindAll_ok (Formula.coherent_new backend) fun target mem => ?_
  rw [← mem_targets.1 mem]
  exact bindable _ (List.getElem_mem _)

private theorem report_of_parsed {backend : Backend} {term : Term}
    (chosen : arguments.chosen fastest = .ok backend)
    (bindable : arguments.BindsNames) (parsed : parse arguments.expression = .ok term) :
    ∃ formula : Formula arguments.values.length, formula.Coherent ∧
      formula.declaration = ⟨backend, some term, arguments.bindings⟩ ∧
      arguments.report fastest =
        (evaluateRepeatedly formula arguments.memory (arguments.repetitions - 1)).map
          fun (last, outcome) =>
            { backend := last.backend
              result := outcome.value
              values := (arguments.values.map Prod.fst).zip outcome.memory.toList
              listing :=
                if arguments.wantsListing then
                  match last.listing? with
                  | some listing => some ("CLIF IR:\n" ++ listing)
                  | none => some "No IR: the formula is interpreted"
                else none } := by
  obtain ⟨bound, made, coherent, declared⟩ := bindable.bindAll backend
  obtain ⟨formula, edited, coherent, declared'⟩ := edit_ok parsed coherent
  rw [declared] at declared'
  refine ⟨formula, coherent, declared', ?_⟩
  rw [report, chosen]
  change (bindAll _ arguments.targets >>= _) = _
  rw [made]
  change (edit bound arguments.expression >>= _) = _
  rw [edited]
  change (evaluateRepeatedly formula arguments.memory (arguments.repetitions - 1) >>= _) = _
  cases evaluateRepeatedly formula arguments.memory (arguments.repetitions - 1) with
  | error message => rfl
  | ok evaluated => rfl

theorem report_of_refused (h : arguments.wantsFastest = false) (fastest : Backend)
    {message : String} (refused : arguments.Refused message) :
    arguments.report fastest = .error message := by
  have choice := chosen_eq h fastest
  cases refused with
  | backend unknown =>
    rw [unknown] at choice
    rw [report, choice]
    rfl
  | name known first =>
    rw [known] at choice
    rw [← map_fst_targets] at first
    rw [report, choice]
    change (bindAll _ arguments.targets >>= _) = _
    rw [bindAll_error first]
    rfl
  | expression known bindable malformed =>
    rw [known] at choice
    obtain ⟨bound, made, -, -⟩ := bindable.bindAll _
    rw [report, choice]
    change (bindAll _ arguments.targets >>= _) = _
    rw [made]
    change (edit bound arguments.expression >>= _) = _
    rw [edit_error malformed]
    rfl
  | compilation known bindable parsed failed =>
    rw [known] at choice
    obtain ⟨formula, coherent, declared, reported⟩ := report_of_parsed choice bindable parsed
    rw [reported, evaluateRepeatedly_error coherent declared failed]
    rfl

theorem report_of_compiles (h : arguments.wantsFastest = false) (fastest : Backend)
    {backend : Backend} {executable : Executable arguments.values.length}
    (compiles : arguments.Compiles backend executable) :
    let run := executable.action.replicate (max arguments.repetitions 1) arguments.memory
    ∃ result, run.value.getLast? = some result ∧
      arguments.report fastest = .ok
        { backend, result
          values := List.ofFn fun i => ((arguments.values.get i).1, run.memory.get i)
          listing := arguments.shownListing? executable } := by
  intro run
  obtain ⟨term, parsed, compiled⟩ := compiles.compiled
  obtain ⟨formula, coherent, declared, reported⟩ :=
    report_of_parsed ((chosen_eq h fastest).trans compiles.known) compiles.bindable parsed
  obtain ⟨last, outcome, evaluated, sameBackend, sameListing, value, cells⟩ :=
    evaluateRepeatedly_ok coherent declared compiled (arguments.repetitions - 1) arguments.memory
  have count : arguments.repetitions - 1 + 1 = max arguments.repetitions 1 := by omega
  rw [count] at value cells
  refine ⟨outcome.value, value, ?_⟩
  have lines : (arguments.values.map Prod.fst).zip outcome.memory.toList =
      List.ofFn fun i => ((arguments.values.get i).1, run.memory.get i) := by
    rw [cells]
    refine List.ext_getElem (by simp) fun i _ _ => ?_
    simp [Vector.get]
  rw [reported, evaluated]
  simp only [Except.map, sameBackend, sameListing, lines, shownListing?]

end

theorem Refused.repeated {message : String} (h : arguments.Refused message) (count : Nat) :
    { arguments with repetitions := count }.Refused message := by
  cases h with
  | backend unknown => exact .backend unknown
  | name known first => exact .name known first
  | expression known bindable malformed => exact .expression known bindable malformed
  | compilation known bindable parsed failed => exact .compilation known bindable parsed failed

theorem ending_of_refused (arguments : Arguments) (h : arguments.wantsFastest = false)
    (fastest : Backend) {message : String} (refused : arguments.Refused message) :
    (Invocation.run arguments).ending fastest = ⟨1, "", "Error: " ++ message ++ "\n"⟩ := by
  rw [Invocation.ending, report_of_refused h fastest refused]

/-- The first thing that is wrong with the arguments is reported, whatever the number of evaluations.
Otherwise the run prints the value of the last evaluation and what is left in the cell of each
option; a cell whose name is given again later keeps its value. -/
theorem ending_of_run (arguments : Arguments) (fastest : Backend)
    (h : arguments.wantsFastest = false) :
    let ending := (Invocation.run arguments).ending fastest
    (ending.exitCode = 0 ↔ ∃ backend executable, arguments.Compiles backend executable) ∧
    (ending.exitCode ≠ 0 ↔ ∃ message, arguments.Refused message) ∧
    (∀ message, arguments.Refused message → ∀ count,
      (Invocation.run { arguments with repetitions := count }).ending fastest =
        ⟨1, "", "Error: " ++ message ++ "\n"⟩) ∧
    (∀ backend executable, arguments.Compiles backend executable →
      let run := executable.action.replicate (max arguments.repetitions 1) arguments.memory
      (∃ result, run.value.getLast? = some result ∧ ending =
        ⟨0, "Backend: " ++ backend.name ++ "\nResult: " ++ number result ++ "\n" ++
          String.join (List.ofFn fun i => "  " ++ (arguments.values.get i).1 ++ " = " ++
            number (run.memory.get i) ++ "\n") ++
          match arguments.shownListing? executable with
          | some listing => listing ++ "\n"
          | none => "", ""⟩) ∧
      ∀ i j, i < j → (arguments.values.get i).1 = (arguments.values.get j).1 →
        run.memory.get i = (arguments.values.get i).2) ∧
    ∀ x, Number.readSigned? (number x).toList = some x := by
  intro ending
  have succeeds : ∀ {backend executable}, arguments.Compiles backend executable →
      ending.exitCode = 0 := by
    intro backend executable compiles
    obtain ⟨result, -, reported⟩ := report_of_compiles h fastest compiles
    simp only [ending, Invocation.ending, reported]
  have fails : ∀ {message}, arguments.Refused message → ending.exitCode ≠ 0 := by
    intro message refused
    simp [ending, ending_of_refused arguments h fastest refused]
  refine ⟨⟨fun success => ?_, fun ⟨_, _, compiles⟩ => succeeds compiles⟩,
    ⟨fun failure => ?_, fun ⟨_, refused⟩ => fails refused⟩, ?_, ?_, ?_⟩
  · rcases arguments.refused_or_compiles with ⟨message, refused⟩ | compiles
    · exact absurd success (fails refused)
    · exact compiles
  · rcases arguments.refused_or_compiles with refused | ⟨backend, executable, compiles⟩
    · exact refused
    · exact absurd (succeeds compiles) failure
  · intro message refused count
    exact ending_of_refused { arguments with repetitions := count } h fastest
      (refused.repeated count)
  · intro backend executable compiles run
    constructor
    · obtain ⟨result, last, reported⟩ := report_of_compiles h fastest compiles
      refine ⟨result, last, ?_⟩
      simp only [ending, Invocation.ending, reported, Report.text, List.map_ofFn,
        Function.comp_def]
      rfl
    · intro i j later same
      obtain ⟨term, -, compiled⟩ := compiles.compiled
      rw [← get_memory]
      exact Backend.get_replicate_of_unnamed compiled (cell?_bindings_ne later same) _ _
  · intro x
    rw [number, String.toList_ofList]
    exact Number.readSigned?_text x

private theorem number_of_shortestFrom (x : Float) (places : Nat) (decimal : Decimal)
    (positive : x.isNaN = false ∧ Number.isNegative x = false ∧ Number.magnitudeBits x ≠ 0 ∧
      Number.magnitudeBits x < Number.infinityBits)
    (length :
      let expansion := Number.unitsOfBits (Number.magnitudeBits x) * Nat.pow 5 1074
      (Nat.pow 10 places ≤ expansion ∧ expansion < Nat.pow 10 (places + 1)) ∧
        Decimal.shortestFrom (Number.magnitudeBits x) expansion (places + 1) = decimal) :
    number x = String.ofList decimal.positional := by
  obtain ⟨numeral, unsigned, nonzero, finite⟩ := positive
  obtain ⟨⟨low, high⟩, found⟩ := length
  simp only [number, Number.text, numeral, unsigned, if_neg (Nat.ne_of_lt finite),
    Decimal.shortest_eq_shortestFrom nonzero low high, found, Bool.false_eq_true, if_false]

/-- The text `x=x*y` assigns its last `x` four times, and the first one still shows its value. -/
theorem ending_of_repeated_assignment :
    let arguments : Arguments :=
      ⟨"x=x*y", "Interpreter", [("x", 1), ("y", 3), ("x", 2)], 4, false⟩
    (Invocation.run arguments).ending .compiling =
      ⟨0, "Backend: interpreting\nResult: 162\n  x = 1\n  y = 3\n  x = 162\n", ""⟩ ∧
    ∀ count, (Invocation.run
        { arguments with backend := "Abacus", repetitions := count }).ending .compiling =
      ⟨1, "", "Error: unknown backend: abacus\n"⟩ := by
  intro arguments
  constructor
  · let term : Term := .binary .assign (.var "x") (.binary .mul (.var "x") (.var "y"))
    let plan : Plan 3 := .store 2 (.binary .mul (.load 2) (.load 1))
    have parsed : parse "x=x*y" = .ok term := rfl
    have bound : arguments.bindings = ⟨[("x", (2 : Fin 3)), ("y", (1 : Fin 3))]⟩ := by
      decide +kernel
    have planned : term.plan arguments.bindings = .ok plan := by
      rw [bound]
      rfl
    have compiles : arguments.Compiles .interpreting (.interpreted plan) := by
      refine ⟨by decide +kernel, by decide +kernel, term, parsed, ?_⟩
      rw [Backend.compile, planned]
      rfl
    let run := plan.eval.replicate 4 arguments.memory
    obtain ⟨⟨result, last, shown⟩, -⟩ :=
      (ending_of_run arguments .compiling (by decide +kernel)).2.2.2.1 _ _ compiles
    have value : run.value.getLast? = some 162 := by decide +kernel
    obtain rfl : result = 162 := Option.some.inj (last.symm.trans value)
    have lines : (Invocation.run arguments).ending .compiling =
        ⟨0, "Backend: interpreting\nResult: " ++ number 162 ++ "\n" ++
          String.join ["  x = " ++ number (run.memory.get 0) ++ "\n",
            "  y = " ++ number (run.memory.get 1) ++ "\n",
            "  x = " ++ number (run.memory.get 2) ++ "\n"] ++ "", ""⟩ := shown
    have cells : run.memory.get 0 = 1 ∧ run.memory.get 1 = 3 ∧ run.memory.get 2 = 162 := by
      decide +kernel
    -- the length of the exact decimal is given, as no kernel can count its thousand digits
    have one : number 1 = "1" :=
      number_of_shortestFrom 1 1074 ⟨1, 0⟩ (by decide +kernel) (by decide +kernel)
    have three : number 3 = "3" :=
      number_of_shortestFrom 3 1074 ⟨3, 0⟩ (by decide +kernel) (by decide +kernel)
    have product : number 162 = "162" :=
      number_of_shortestFrom 162 1076 ⟨162, 0⟩ (by decide +kernel) (by decide +kernel)
    rw [lines, cells.1, cells.2.1, cells.2.2, one, three, product]
    rfl
  · have unknown : BackendRequest.ofName "Abacus" = .error ⟨"abacus"⟩ := by decide +kernel
    exact (ending_of_run { arguments with backend := "Abacus" } .compiling
      (by decide +kernel)).2.2.1 _ (.backend unknown)

end Arguments

end CommandLine
end CellFormula
