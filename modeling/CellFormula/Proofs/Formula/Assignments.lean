import CellFormula.Proofs.Formula.Compilability
/-! The assignments of a formula and the writes of its evaluations. A plan writes once for each of
its stores, in their order and whatever the cells hold, and its stores are those of the assignments
of the tree. -/
namespace CellFormula

def Outcome.writes (outcome : Outcome n α) : List (Access n) :=
  outcome.accesses.filter fun access => access.written?.isSome

def replay (memory : Memory n) (accesses : List (Access n)) : Memory n :=
  accesses.foldl Access.apply memory

@[simp] private theorem replay_append (memory : Memory n) (first second : List (Access n)) :
    replay memory (first ++ second) = replay (replay memory first) second :=
  List.foldl_append

private theorem get_replay_of_not_mem {cell : Fin n} {accesses : List (Access n)}
    (h : cell ∉ accesses.map Access.cell) (memory : Memory n) :
    (replay memory accesses).get cell = memory.get cell := by
  induction accesses generalizing memory with
  | nil => rfl
  | cons access rest ih =>
    obtain ⟨different, apart⟩ := not_or.1 (mt List.mem_cons.2 h)
    refine (ih apart _).trans ?_
    cases access with
    | read other => rfl
    | write other value =>
      have different : other ≠ cell := Ne.symm different
      simp [Access.apply, different]

private theorem get_replay_of_last {cell : Fin n} {value : Float} {after : List (Access n)}
    (h : cell ∉ after.map Access.cell) (memory : Memory n) (before : List (Access n)) :
    (replay memory (before ++ .write cell value :: after)).get cell = value := by
  rw [replay_append]
  refine (get_replay_of_not_mem h _).trans ?_
  simp [Access.apply]

@[simp] theorem writes_bind (first : Action n α) (next : α → Action n β) (memory : Memory n) :
    ((first >>= next) memory).writes =
      (first memory).writes ++ (next (first memory).value (first memory).memory).writes :=
  List.filter_append ..

@[simp] private theorem writes_store (cell : Fin n) (plan : Plan n) (memory : Memory n) :
    ((Plan.store cell plan).eval memory).writes =
      (plan.eval memory).writes ++ [.write cell (plan.eval memory).value] := by
  rw [Plan.eval, writes_bind]
  rfl

/-- The action writes once for each store, in their order. What it writes is the value of the plan of
the store, evaluated on the memory that earlier writes left; the writes in between are those of the
plan itself. -/
structure Action.Performs (stores : List (Fin n × Plan n)) (action : Action n α) : Prop where
  cells : ∀ memory, (action memory).writes.map Access.cell = stores.map Prod.fst
  replays : ∀ memory, (action memory).memory = replay memory (action memory).writes
  values : ∀ {earlier cell value later}, stores = earlier ++ (cell, value) :: later →
    ∀ memory, ∃ before after,
      let inner := value.eval (replay memory before)
      (action memory).writes = before ++ inner.writes ++ .write cell inner.value :: after ∧
        before.length + inner.writes.length = earlier.length

namespace Action.Performs
variable {stores stores' : List (Fin n × Plan n)}

theorem length_writes {action : Action n α} (h : action.Performs stores) (memory : Memory n) :
    (action memory).writes.length = stores.length := by
  have cells := congrArg List.length (h.cells memory)
  rwa [List.length_map, List.length_map] at cells

theorem pure (value : α) : (Pure.pure value : Action n α).Performs [] where
  cells _ := rfl
  replays _ := rfl
  values split := by simp at split

theorem load (cell : Fin n) : (Action.load cell).Performs [] where
  cells _ := rfl
  replays _ := rfl
  values split := by simp at split

theorem bind {first : Action n α} {next : α → Action n β} (h : first.Performs stores)
    (h' : ∀ value, (next value).Performs stores') :
    (first >>= next).Performs (stores ++ stores') where
  cells memory := by
    rw [writes_bind, List.map_append, List.map_append, h.cells, (h' _).cells]
  replays memory := by
    rw [writes_bind, replay_append, ← h.replays, ← (h' _).replays]
    rfl
  values {earlier cell value later} split memory := by
    rw [writes_bind]
    -- the store is one of the first action, or one of the next and has all of the first before it
    have inNext : ∀ rest, earlier = stores ++ rest → stores' = rest ++ (cell, value) :: later →
        ∃ before after,
          let inner := value.eval (replay memory before)
          (first memory).writes ++ (next (first memory).value (first memory).memory).writes =
              before ++ inner.writes ++ .write cell inner.value :: after ∧
            before.length + inner.writes.length = earlier.length := by
      rintro rest rfl behind
      obtain ⟨before, after, writes, length⟩ := (h' (first memory).value).values behind
        (first memory).memory
      rw [h.replays, ← replay_append] at writes length
      refine ⟨(first memory).writes ++ before, after, ?_, ?_⟩
      · rw [h.replays, writes]
        simp only [List.append_assoc]
      · rw [List.length_append, List.length_append, h.length_writes, Nat.add_assoc, length]
    rcases List.append_eq_append_iff.1 split with ⟨rest, same, behind⟩ | ⟨rest, same, behind⟩
    · exact inNext rest same behind
    · cases rest with
      | nil => exact inNext [] (by simpa using same.symm) (by simpa using behind.symm)
      | cons store rest =>
        cases behind
        obtain ⟨before, after, writes, length⟩ := h.values same memory
        refine ⟨before, after ++ (next (first memory).value (first memory).memory).writes, ?_, length⟩
        rw [writes]
        simp only [List.append_assoc, List.cons_append]

theorem bind_pure {action : Action n α} (h : action.Performs stores) (build : α → β) :
    (action >>= fun value => Pure.pure (build value)).Performs stores := by
  have law := h.bind fun value => Performs.pure (build value)
  rwa [List.append_nil] at law

theorem store {plan : Plan n} (h : plan.eval.Performs stores) (cell : Fin n) :
    (Plan.store cell plan).eval.Performs (stores ++ [(cell, plan)]) where
  cells memory := by
    rw [writes_store, List.map_append, List.map_append, h.cells]
    rfl
  replays memory := by
    rw [writes_store, replay_append, ← h.replays]
    rfl
  values {earlier cell' value later} split memory := by
    rw [writes_store]
    rcases later.eq_nil_or_concat with rfl | ⟨later, last, rfl⟩
    · obtain ⟨rfl, same⟩ := List.append_inj' split rfl
      cases same
      exact ⟨[], [], rfl, (Nat.zero_add _).trans (h.length_writes memory)⟩
    · have ends : stores ++ [(cell, plan)] = earlier ++ (cell', value) :: later ++ [last] := by
        simpa using split
      obtain ⟨rfl, _⟩ := List.append_inj' ends rfl
      obtain ⟨before, after, writes, length⟩ := h.values rfl memory
      refine ⟨before, after ++ [.write cell (plan.eval memory).value], ?_, length⟩
      rw [writes]
      simp only [List.append_assoc, List.cons_append]

end Action.Performs

namespace Plan

/-- Every store of the plan with the plan of its value, behind those of the value. -/
def stores : Plan n → List (Fin n × Plan n)
  | const _ | load _ => []
  | store cell value => value.stores ++ [(cell, value)]
  | neg operand | apply _ operand | sign operand => operand.stores
  | binary _ left right => left.stores ++ right.stores
  | conditional condition yes no => condition.stores ++ yes.stores ++ no.stores

theorem performs (plan : Plan n) : plan.eval.Performs plan.stores := by
  induction plan with
  | const value => exact .pure value
  | load cell => exact .load cell
  | store cell value ih => exact ih.store cell
  | neg operand ih => exact ih.bind_pure _
  | binary op left right ihl ihr => exact ihl.bind fun x => ihr.bind_pure _
  | apply function operand ih => exact ih.bind_pure _
  | conditional condition yes no ihc ihy ihn =>
    rw [stores, List.append_assoc]
    exact ihc.bind fun test => ihy.bind fun x => ihn.bind_pure _
  | sign operand ih => exact ih.bind_pure _

end Plan

def Bindings.target? (bindings : Bindings n) : Term → Option (Fin n)
  | .var name => bindings.cell? name
  | _ => none

namespace Term

def assignment? : Term → Option (Term × Term)
  | .binary .assign target right => some (target, right)
  | _ => none

/-- The assignments of the tree in the order of evaluation, each behind those of its right side. -/
def assignments (term : Term) : List (Term × Term) := term.nodes.filterMap assignment?

private theorem assignments_neg (operand : Term) :
    (neg operand).assignments = operand.assignments := by
  simp [assignments, nodes, assignment?]

private theorem assignments_assign (name : String) (right : Term) :
    (binary .assign (var name) right).assignments = right.assignments ++ [(var name, right)] := by
  rw [assignments, nodes, nodes, List.filterMap_append, List.filterMap_append]
  rfl

private theorem assignments_binary {op : Operation} (notAssign : op ≠ .assign) (left right : Term) :
    (binary op left right).assignments = left.assignments ++ right.assignments := by
  have itself : (binary op left right).assignment? = none := by
    cases op <;> first | contradiction | rfl
  simp [assignments, nodes, itself]

private theorem assignments_call (name : String) (args : List Term) :
    (call name args).assignments = args.flatMap assignments := by
  rw [assignments, nodes, argumentNodes_eq, List.filterMap_append, List.filterMap_flatMap]
  exact List.append_nil _

end Term

theorem Planned.stores_eq {bindings : Bindings n} {term : Term} {plan : Plan n}
    (h : Planned bindings term plan) :
    plan.stores.map (fun store => (some store.1, Except.ok store.2)) =
      term.assignments.map fun assignment =>
        (bindings.target? assignment.1, assignment.2.plan bindings) := by
  induction h with
  | number | constant | load => rfl
  | neg planned ih => rw [Plan.stores, ih, Term.assignments_neg]
  | store notConstant planned bound ih =>
    rw [Plan.stores, Term.assignments_assign, List.map_append, List.map_append, ih]
    simp only [List.map_cons, List.map_nil, Bindings.target?, bound, planned.plan_eq]
  | binary notAssign plannedLeft plannedRight ihl ihr =>
    rw [Plan.stores, Term.assignments_binary notAssign, List.map_append, List.map_append, ihl, ihr]
  | conditional plannedCondition plannedYes plannedNo ihc ihy ihn =>
    simp [Plan.stores, Term.assignments_call, ihc, ihy, ihn]
  | sign planned ih => simp [Plan.stores, Term.assignments_call, ih]
  | apply resolved planned ih => simp [Plan.stores, Term.assignments_call, ih]

namespace Planned
variable {bindings : Bindings n} {term : Term} {plan : Plan n}

private theorem cells_of_writes (h : Planned bindings term plan) (memory : Memory n) :
    (plan.eval memory).writes.map (fun access => some access.cell) =
      term.assignments.map fun assignment => bindings.target? assignment.1 := by
  have stores := congrArg (List.map Prod.fst) h.stores_eq
  have written := congrArg (List.map some) (plan.performs.cells memory)
  rw [List.map_map, List.map_map] at stores written
  exact written.trans stores

private theorem store_of_assignment (h : Planned bindings term plan)
    {earlier later : List (Term × Term)}
    {target right : Term} (split : term.assignments = earlier ++ (target, right) :: later) :
    ∃ before cell value after, plan.stores = before ++ (cell, value) :: after ∧
      before.length = earlier.length ∧ bindings.target? target = some cell ∧
      right.plan bindings = .ok value := by
  have stores := h.stores_eq
  rw [split, List.map_append] at stores
  obtain ⟨before, rest, same, sameBefore, sameRest⟩ := List.map_eq_append_iff.1 stores
  obtain ⟨⟨cell, value⟩, after, rfl, sameStore, _⟩ := List.map_eq_cons_iff.1 sameRest
  obtain ⟨bound, made⟩ := Prod.mk.inj sameStore
  have length := congrArg List.length sameBefore
  rw [List.length_map, List.length_map] at length
  exact ⟨before, cell, value, after, same, length, bound.symm, made.symm⟩

end Planned

private theorem not_mem_cells {bindings : Bindings n} {cell : Fin n} {accesses : List (Access n)}
    {assignments : List (Term × Term)}
    (same : accesses.map (fun access => some access.cell) =
      assignments.map fun assignment => bindings.target? assignment.1)
    (apart : ∀ assignment ∈ assignments, bindings.target? assignment.1 ≠ some cell) :
    cell ∉ accesses.map Access.cell := by
  intro mem
  obtain ⟨access, written, rfl⟩ := List.mem_map.1 mem
  have target : some access.cell ∈
      assignments.map fun assignment => bindings.target? assignment.1 :=
    same ▸ List.mem_map_of_mem written
  obtain ⟨assignment, assigned, bound⟩ := List.mem_map.1 target
  exact apart assignment assigned bound

/-- Whatever the cells hold, an evaluation writes once for each assignment of the tree, in the order
of evaluation: the value of the right side on the memory that the earlier writes left. -/
theorem Backend.writes_of_assignments {backend : Backend} {bindings : Bindings n} {term : Term}
    {executable : Executable n} (h : backend.compile bindings term = .ok executable) :
    ∃ action : Action n Float, backend.evaluate executable = .ok action ∧
      (∀ memory, (action memory).writes.map (fun access => some access.cell) =
        term.assignments.map fun assignment => bindings.target? assignment.1) ∧
      (∀ earlier target right later, term.assignments = earlier ++ (target, right) :: later →
        ∃ cell part run, bindings.target? target = some cell ∧
          backend.compile bindings right = .ok part ∧ backend.evaluate part = .ok run ∧
          ∀ memory, ∃ before after,
            let inner : Outcome n Float := run (replay memory before)
            (action memory).writes = before ++ inner.writes ++ .write cell inner.value :: after ∧
              before.length + inner.writes.length = earlier.length ∧
              ((∀ assignment ∈ later, bindings.target? assignment.1 ≠ some cell) →
                (action memory).memory.get cell = inner.value)) ∧
      (∀ cell, (∀ assignment ∈ term.assignments, bindings.target? assignment.1 ≠ some cell) →
        ∀ memory, (action memory).memory.get cell = memory.get cell) ∧
      ∀ target right, term = .binary .assign target right →
        ∃ cell, bindings.target? target = some cell ∧
          ∀ memory, (action memory).value = (action memory).memory.get cell := by
  obtain ⟨plan, made, computes⟩ := action_of_compile h
  have planned := Term.planned_of_plan made
  have performs := plan.performs
  refine ⟨executable.action, evaluate_of_compile h, ?_⟩
  rw [computes]
  refine ⟨planned.cells_of_writes, ?_, ?_, ?_⟩
  · intro earlier target right later split
    obtain ⟨_, cell, value, _, stores, sameLength, bound, madeRight⟩ :=
      planned.store_of_assignment split
    obtain ⟨part, compiled⟩ := compile_of_plan_ok madeRight backend
    obtain ⟨plan', made', computesRight⟩ := action_of_compile compiled
    cases made'.symm.trans madeRight
    refine ⟨cell, part, part.action, bound, compiled, evaluate_of_compile compiled, ?_⟩
    intro memory
    rw [computesRight]
    obtain ⟨before, after, writes, length⟩ := performs.values stores memory
    refine ⟨before, after, writes, length.trans sameLength, fun last => ?_⟩
    rw [performs.replays, writes]
    refine get_replay_of_last (not_mem_cells ?_ last) memory _
    -- what is written behind the assignment belongs to the later ones
    have cells := planned.cells_of_writes memory
    rw [writes, split] at cells
    simp only [List.map_append] at cells
    refine (List.cons.inj (List.append_inj cells ?_).2).2
    simp only [List.length_append, List.length_map, length, sameLength]
  · intro cell apart memory
    rw [performs.replays]
    exact get_replay_of_not_mem (not_mem_cells (planned.cells_of_writes memory) apart) memory
  · rintro target right rfl
    cases planned with
    | @store name cell right value notConstant plannedRight bound =>
      refine ⟨cell, bound, fun memory => ?_⟩
      simp [Plan.eval]
    | binary notAssign => contradiction

/-- The formula `z=if(x=y,y=x,y=1)` over three cells, of which `x` and `z` share the first. -/
theorem Backend.writes_of_branches :
    let bindings : Bindings 3 := ⟨[("x", 0), ("y", 1), ("z", 0)]⟩
    let branches : Term := .call "if" [.binary .assign (.var "x") (.var "y"),
      .binary .assign (.var "y") (.var "x"), .binary .assign (.var "y") (.num 1.0)]
    ∃ executable action,
      compiling.compile bindings (.binary .assign (.var "z") branches) = .ok executable ∧
      compiling.evaluate executable = .ok action ∧
      ∃ part run, compiling.compile bindings (.num 1.0) = .ok part ∧
        compiling.evaluate part = .ok run ∧
        ∀ memory,
          (action memory).writes.map (fun access => some access.cell) =
            [some 0, some 1, some 1, some 0] ∧
          (∃ before, (action memory).memory.get 1 = (run (replay memory before)).value) ∧
          (action memory).memory.get 2 = memory.get 2 ∧
          (action memory).value = (action memory).memory.get 0 := by
  intro bindings branches
  let term : Term := .binary .assign (.var "z") branches
  have planned : term.plan bindings = .ok (.store 0 (.conditional (.store 0 (.load 1))
    (.store 1 (.load 0)) (.store 1 (.const 1.0)))) := rfl
  obtain ⟨executable, compiled⟩ := compile_of_plan_ok planned compiling
  obtain ⟨action, evaluates, cells, values, kept, root⟩ := writes_of_assignments compiled
  -- the third assignment is the last to its cell, the second
  obtain ⟨cell, part, run, bound, compiledRight, evaluatesRight, inner⟩ :=
    values [(.var "x", .var "y"), (.var "y", .var "x")] (.var "y") (.num 1.0)
      [(.var "z", branches)] rfl
  cases bound
  obtain ⟨cell, bound, yields⟩ := root _ _ rfl
  cases bound
  refine ⟨executable, action, compiled, evaluates, part, run, compiledRight, evaluatesRight, ?_⟩
  intro memory
  obtain ⟨before, after, writes, length, last⟩ := inner memory
  refine ⟨cells memory, ⟨before, last (List.forall_mem_singleton.2 (by decide))⟩, ?_, yields memory⟩
  refine kept 2 (fun assignment mem => ?_) memory
  have listed : term.assignments = [(.var "x", .var "y"), (.var "y", .var "x"),
    (.var "y", .num 1.0), (.var "z", branches)] := rfl
  rw [listed] at mem
  simp only [List.mem_cons, List.not_mem_nil, or_false] at mem
  rcases mem with rfl | rfl | rfl | rfl <;> decide

end CellFormula
