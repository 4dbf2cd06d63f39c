import CellFormula.Proofs.Native.Linkage
/-! What a generator contributes to every run of the routine that it drafts. `Computes` compares it
with an action over the cells; it composes along the steps of a generator, and the registers filled
so far are remembered as facts. -/
namespace CellFormula.Native

structure Draft.Registered (draft : Draft n) : Prop where
  symbol : ∀ slot ∈ draft.slots.toList, slot.symbol = slotSymbol slot.cell
  cell? : ∀ slot ∈ draft.slots.toList, draft.registry.cell? slot.symbol = some slot.cell

structure Draft.Extends (before after : Draft n) : Prop where
  imports : before.imports <+: after.imports
  slots : before.slots.toList ⊆ after.slots.toList

structure Routine.Serves (routine : Routine n) (draft : Draft n) : Prop where
  imports : draft.imports <+: routine.imports
  cell? : ∀ slot ∈ draft.slots.toList, routine.registry.cell? slot.symbol = some slot.cell

/-- Behind the code of the draft the routine has these registers, this memory and these accesses,
and every slot holds the address of its cell. -/
structure Draft.Reached (draft : Draft n) (routine : Routine n) (start : Memory n)
    (registers : Registers n) (memory : Memory n) (accesses : List (Access n)) : Prop where
  executed : routine.execute [] draft.code start = ⟨registers, memory, accesses⟩
  pointers : ∀ slot ∈ draft.slots.toList, registers[slot.pointer]? = some (.pointer slot.cell)

theorem Draft.Extends.refl (draft : Draft n) : draft.Extends draft :=
  ⟨List.prefix_refl _, List.Subset.refl _⟩

theorem Draft.Extends.trans {first second third : Draft n} (left : first.Extends second)
    (right : second.Extends third) : first.Extends third :=
  ⟨left.imports.trans right.imports, fun _ mem => right.slots (left.slots mem)⟩

theorem Routine.Serves.of_extends {routine : Routine n} {before after : Draft n}
    (serves : routine.Serves after) (grown : before.Extends after) : routine.Serves before :=
  ⟨grown.imports.trans serves.imports, fun slot mem => serves.cell? slot (grown.slots mem)⟩

theorem Draft.Registered.allocate {draft : Draft n} (registered : draft.Registered) (cell : Fin n)
    (code : List Instruction) (pointer : Nat) :
    { draft with
      code
      slots := draft.slots.add ⟨cell, slotSymbol cell, pointer⟩
      registry := draft.registry.register (slotSymbol cell) cell }.Registered where
  symbol slot mem := by
    rcases List.mem_append.1 mem with mem | mem
    · exact registered.symbol slot mem
    · cases List.mem_singleton.1 mem
      rfl
  cell? slot mem := by
    rw [Registry.cell?_register]
    rcases List.mem_append.1 mem with mem | mem
    · split
      · rename_i same
        rw [registered.symbol slot mem] at same
        rw [slotSymbol_injective same]
      · exact registered.cell? slot mem
    · cases List.mem_singleton.1 mem
      simp

@[simp] private theorem Routine.execute_append (routine : Routine n) (registers : Registers n)
    (first rest : List Instruction) :
    routine.execute registers (first ++ rest) =
      routine.execute registers first >>= fun next => routine.execute next rest := by
  induction first generalizing registers with
  | nil => exact (Action.pure_bind ..).symm
  | cons instruction first ih =>
    funext memory
    simp only [List.cons_append, execute, ih]
    rw [Action.bind_assoc]

@[simp] private theorem Routine.length_execute (routine : Routine n) (registers : Registers n)
    (code : List Instruction) (memory : Memory n) :
    (routine.execute registers code memory).value.length = registers.length + code.length := by
  induction code generalizing registers memory with
  | nil => rfl
  | cons instruction rest ih =>
    simp only [execute, Action.bind_apply, ih, List.length_append, List.length_cons,
      List.length_nil]
    omega

theorem Draft.Reached.length_registers {draft : Draft n} {routine : Routine n} {start : Memory n}
    {registers : Registers n} {memory : Memory n} {accesses : List (Access n)}
    (reached : draft.Reached routine start registers memory accesses) :
    registers.length = draft.code.length := by
  have length := routine.length_execute [] draft.code start
  rw [reached.executed] at length
  simpa using length

theorem Draft.Reached.push {draft : Draft n} {routine : Routine n} {start : Memory n}
    {registers : Registers n} {memory : Memory n} {accesses : List (Access n)}
    (reached : draft.Reached routine start registers memory accesses) (instruction : Instruction) :
    { draft with code := draft.code ++ [instruction] }.Reached routine start
      (registers ++ [(routine.step registers instruction memory).value])
      (routine.step registers instruction memory).memory
      (accesses ++ (routine.step registers instruction memory).accesses) where
  executed := by
    rw [Routine.execute_append]
    simp [reached.executed, Routine.execute]
  pointers slot mem := by
    have pointer := reached.pointers slot mem
    obtain ⟨lt, _⟩ := List.getElem?_eq_some_iff.1 pointer
    rw [List.getElem?_append_left lt, pointer]

namespace Generator

abbrev Facts (n : Nat) := List (Nat × Value n)

def Facts.Hold (facts : Facts n) (registers : Registers n) : Prop :=
  ∀ fact ∈ facts, registers[fact.1]? = some fact.2

/-- Wherever the facts hold, the generator appends instructions that perform the action and leave
its value in the returned register. -/
structure Computes (facts : Facts n) (generator : Generator n Nat) (held : α → Value n)
    (action : Action n α) : Prop where
  succeeds : ∀ draft, ∃ register after, generator draft = .ok (register, after)
  grows : ∀ {draft register after}, generator draft = .ok (register, after) →
    draft.Extends after ∧ (draft.Registered → after.Registered)
  reaches : ∀ {draft register after}, generator draft = .ok (register, after) →
    ∀ {routine : Routine n} {start registers memory accesses}, routine.Serves after →
    draft.Reached routine start registers memory accesses → facts.Hold registers →
    ∃ new, after.Reached routine start (registers ++ new) (action memory).memory
        (accesses ++ (action memory).accesses) ∧
      (registers ++ new)[register]? = some (held (action memory).value)

theorem bind_apply_ok {first : Generator n α} {next : α → Generator n β} {draft after : Draft n}
    {value : α} (h : first draft = .ok (value, after)) :
    (first >>= next) draft = next value after := by
  simp [bind, StateT.bind, h, Except.bind]

theorem bind_apply_error {first : Generator n α} {next : α → Generator n β} {draft : Draft n}
    {error : CompilationError} (h : first draft = .error error) :
    (first >>= next) draft = .error error := by
  simp [bind, StateT.bind, h, Except.bind]

theorem Facts.Hold.append {facts : Facts n} {registers : Registers n} (h : facts.Hold registers)
    (new : Registers n) : facts.Hold (registers ++ new) := by
  intro fact mem
  obtain ⟨lt, _⟩ := List.getElem?_eq_some_iff.1 (h fact mem)
  rw [List.getElem?_append_left lt]
  exact h fact mem

namespace Computes

/-- The value of the first generator is a fact for the second one, for its register is never
written again. -/
theorem bind {facts : Facts n} {first : Generator n Nat} {next : Nat → Generator n Nat}
    {held : α → Value n} {held' : β → Value n} {action : Action n α} {rest : α → Action n β}
    (head : Computes facts first held action)
    (tail : ∀ register memory, Computes ((register, held (action memory).value) :: facts)
      (next register) held' (rest (action memory).value)) :
    Computes facts (first >>= next) held' (action >>= rest) where
  succeeds draft := by
    obtain ⟨register, middle, ran⟩ := head.succeeds draft
    -- neither success nor growth depends on the value, so that of any memory will do
    obtain ⟨register', after, ran'⟩ := (tail register (Vector.replicate n 0)).succeeds middle
    exact ⟨register', after, (bind_apply_ok ran).trans ran'⟩
  grows {draft register' after} ran' := by
    obtain ⟨register, middle, ran⟩ := head.succeeds draft
    rw [bind_apply_ok ran] at ran'
    obtain ⟨grown, registered⟩ := head.grows ran
    obtain ⟨grown', registered'⟩ := (tail register (Vector.replicate n 0)).grows ran'
    exact ⟨grown.trans grown', registered' ∘ registered⟩
  reaches {draft register' after} ran' routine start registers memory accesses serves reached
      known := by
    obtain ⟨register, middle, ran⟩ := head.succeeds draft
    rw [bind_apply_ok ran] at ran'
    have next := tail register memory
    have grown := (next.grows ran').1
    obtain ⟨new, reached, holds⟩ := head.reaches ran (serves.of_extends grown) reached known
    have known : Facts.Hold ((register, held (action memory).value) :: facts)
        (registers ++ new) := by
      intro fact mem
      rcases List.mem_cons.1 mem with rfl | mem
      · exact holds
      · exact known.append new fact mem
    obtain ⟨new', reached, holds⟩ := next.reaches ran' serves reached known
    refine ⟨new ++ new', ?_, ?_⟩
    · simpa [List.append_assoc] using reached
    · simpa [List.append_assoc] using holds

theorem bind_pure {facts : Facts n} {first : Generator n Nat} {next : Nat → Generator n Nat}
    {held : α → Value n} {held' : β → Value n} {value : α} {rest : Action n β}
    (head : Computes facts first held (Pure.pure value))
    (tail : ∀ register, Computes ((register, held value) :: facts) (next register) held' rest) :
    Computes facts (first >>= next) held' rest := by
  have both : Computes facts (first >>= next) held' (Pure.pure value >>= fun _ => rest) :=
    bind head fun register _ => tail register
  rwa [Action.pure_bind] at both

theorem pure {facts : Facts n} {held : α → Value n} {register : Nat} {value : α}
    (known : (register, held value) ∈ facts) :
    Computes facts (Pure.pure register) held (Pure.pure value) where
  succeeds draft := ⟨register, draft, rfl⟩
  grows ran := by
    cases ran
    exact ⟨.refl _, id⟩
  reaches ran routine start registers memory accesses serves reached holds := by
    cases ran
    exact ⟨[], by simpa using reached, by simpa using holds _ known⟩

theorem emit {facts : Facts n} {instruction : Instruction} {held : α → Value n}
    {action : Action n α}
    (step : ∀ (routine : Routine n) registers, facts.Hold registers →
      routine.step registers instruction = action >>= fun value => Pure.pure (held value)) :
    Computes facts (Generator.emit instruction) held action where
  succeeds draft := ⟨_, _, rfl⟩
  grows ran := by
    cases ran
    exact ⟨⟨List.prefix_refl _, List.Subset.refl _⟩, fun registered => ⟨registered.1, registered.2⟩⟩
  reaches {draft _ _} ran routine start registers memory accesses serves reached known := by
    cases ran
    have pushed := reached.push instruction
    simp only [step routine registers known, Action.bind_apply, Action.pure_apply,
      List.append_nil] at pushed
    exact ⟨_, pushed, by simp [← reached.length_registers]⟩

theorem pointerTo {facts : Facts n} (cell : Fin n) :
    Computes facts (Generator.pointerTo cell) Value.pointer (Pure.pure cell) where
  succeeds draft := by
    unfold Generator.pointerTo
    split <;> exact ⟨_, _, rfl⟩
  grows {draft register after} ran := by
    unfold Generator.pointerTo at ran
    split at ran <;> cases ran
    · exact ⟨.refl _, id⟩
    · exact ⟨⟨List.prefix_refl _, List.subset_append_left ..⟩,
        fun registered => registered.allocate cell _ _⟩
  reaches {draft register after} ran routine start registers memory accesses serves reached
      known := by
    unfold Generator.pointerTo at ran
    split at ran
    · rename_i slot found
      cases ran
      have held := reached.pointers slot (List.mem_of_find?_eq_some found)
      have same : slot.cell = cell := by simpa using List.find?_some found
      exact ⟨[], by simpa using reached, by simp [held, same]⟩
    · cases ran
      have linked : routine.registry.cell? (slotSymbol cell) = some cell :=
        serves.cell? ⟨cell, slotSymbol cell, draft.code.length⟩ (by simp [Slots.add])
      have pushed := reached.push (.address (slotSymbol cell))
      simp only [Routine.step, linked, Action.pure_apply] at pushed
      have held : (registers ++ [Value.pointer cell])[draft.code.length]? =
          some (.pointer cell) := by
        simp [← reached.length_registers]
      refine ⟨[.pointer cell], ⟨pushed.executed, fun slot mem => ?_⟩, held⟩
      rcases List.mem_append.1 mem with mem | mem
      · exact pushed.pointers slot mem
      · cases List.mem_singleton.1 mem
        exact held

end Computes

theorem importSymbol_apply (symbol : String) (draft : Draft n) :
    ∃ index imports, importSymbol symbol draft = .ok (index, { draft with imports }) ∧
      draft.imports <+: imports ∧ imports[index]? = some symbol := by
  unfold importSymbol
  split
  · rename_i index found
    refine ⟨index, draft.imports, rfl, List.prefix_refl _, ?_⟩
    obtain ⟨lt, same, _⟩ := List.idxOf?_eq_some_iff.1 found
    rw [List.getElem?_eq_getElem lt, same]
  · exact ⟨_, _, rfl, List.prefix_append .., by simp⟩

theorem Computes.call {facts : Facts n} {symbol : String} (arguments : List (Nat × Float))
    {value : Float} (known : ∀ argument ∈ arguments, (argument.1, .number argument.2) ∈ facts)
    (result : callSymbol symbol (arguments.map Prod.snd) = some value) :
    Computes facts
      (importSymbol symbol >>= fun routine =>
        Generator.emit (.call routine (arguments.map Prod.fst)))
      Value.number (Pure.pure value) where
  succeeds draft := by
    obtain ⟨index, imports, ran, _⟩ := importSymbol_apply symbol draft
    exact ⟨_, _, bind_apply_ok ran⟩
  grows {draft register after} ran := by
    obtain ⟨index, imports, imported, before, _⟩ := importSymbol_apply symbol draft
    rw [bind_apply_ok imported] at ran
    cases ran
    exact ⟨⟨before, List.Subset.refl _⟩, fun registered => ⟨registered.1, registered.2⟩⟩
  reaches {draft register after} ran routine start registers memory accesses serves reached
      holds := by
    obtain ⟨index, imports, imported, before, target⟩ := importSymbol_apply symbol draft
    rw [bind_apply_ok imported] at ran
    cases ran
    have linked : routine.imports[index]? = some symbol := by
      obtain ⟨later, same⟩ := serves.imports
      obtain ⟨lt, _⟩ := List.getElem?_eq_some_iff.1 target
      rw [← same, List.getElem?_append_left lt, target]
    have read : arguments.map (registers.number ∘ Prod.fst) = arguments.map Prod.snd := by
      refine List.map_congr_left fun argument mem => ?_
      simp [Registers.number, holds _ (known argument mem)]
    have pushed := reached.push (.call index (arguments.map Prod.fst))
    simp only [Routine.step, linked, List.map_map, read, result, Action.pure_apply] at pushed
    exact ⟨_, ⟨pushed.executed, pushed.pointers⟩, by simp [← reached.length_registers]⟩

end Generator
end CellFormula.Native
