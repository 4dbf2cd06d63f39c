import CellFormula.Proofs.Formula.Demands
import CellFormula.Proofs.Native.Verification
/-! What a generated routine is composed of. Its loads, stores and calls are the demands of the plan
in their order, each through the one slot of its cell or the one import of its symbol. -/
namespace CellFormula.Native

namespace Instruction

def symbol? : Instruction → Option String
  | address symbol => some symbol
  | _ => none

def loaded? : Instruction → Option Nat
  | load pointer => some pointer
  | _ => none

def stored? : Instruction → Option Nat
  | store _ pointer => some pointer
  | _ => none

def called? : Instruction → Option Nat
  | call target _ => some target
  | _ => none

def isDemand : Instruction → Bool
  | load _ | store .. | call .. => true
  | _ => false

def isPure : Instruction → Bool
  | const _ | arithmetic .. | compare .. | select .. => true
  | _ => false

end Instruction

/-- The instruction meets the demand, through a slot or an import of the draft. -/
inductive Draft.Meets (draft : Draft n) : Instruction → Demand n → Prop
  | load {slot : Slot n} (mem : slot ∈ draft.slots.toList) :
      Meets draft (.load slot.pointer) (.load slot.cell)
  | store {slot : Slot n} (mem : slot ∈ draft.slots.toList) (value : Nat) :
      Meets draft (.store value slot.pointer) (.store slot.cell)
  | call {target : Nat} {symbol : String} (linked : draft.imports[target]? = some symbol)
      (arguments : List Nat) : Meets draft (.call target arguments) (.call symbol)

/-- Each slot has a cell of its own and the register of the only address that is computed for it,
and the demands are met. -/
structure Draft.Linked (draft : Draft n) (demands : List (Demand n)) : Prop where
  registered : draft.Registered
  cells : (draft.slots.toList.map Slot.cell).Nodup
  addresses : draft.code.filterMap Instruction.symbol? = draft.slots.toList.map Slot.symbol
  pointers : ∀ slot ∈ draft.slots.toList, draft.code[slot.pointer]? = some (.address slot.symbol)
  imports : draft.imports.Nodup
  met : List.Forall₂ draft.Meets (draft.code.filter Instruction.isDemand) demands

structure Draft.Composed (draft : Draft n) (demands : List (Demand n)) : Prop
    extends draft.Linked demands where
  demanded : ∀ slot ∈ draft.slots.toList,
    .load slot.cell ∈ demands ∨ .store slot.cell ∈ demands
  called : ∀ symbol ∈ draft.imports, .call symbol ∈ demands

theorem Draft.Meets.mono {draft after : Draft n} {instruction : Instruction} {demand : Demand n}
    (h : draft.Meets instruction demand) (grown : draft.Extends after) :
    after.Meets instruction demand := by
  cases h with
  | load mem => exact .load (grown.slots mem)
  | store mem value => exact .store (grown.slots mem) value
  | call linked arguments =>
    obtain ⟨later, same⟩ := grown.imports
    obtain ⟨lt, _⟩ := List.getElem?_eq_some_iff.1 linked
    refine .call ?_ arguments
    rw [← same, List.getElem?_append_left lt, linked]

namespace Draft.Linked
variable {draft : Draft n} {demands : List (Demand n)}

theorem push (h : draft.Linked demands) {instruction : Instruction} {new : List (Demand n)}
    (noAddress : instruction.symbol? = none)
    (met : List.Forall₂ draft.Meets ([instruction].filter Instruction.isDemand) new) :
    { draft with code := draft.code ++ [instruction] }.Linked (demands ++ new) where
  registered := ⟨h.registered.symbol, h.registered.cell?⟩
  cells := h.cells
  addresses := by simp [h.addresses, noAddress]
  pointers slot mem := by
    have pointer := h.pointers slot mem
    obtain ⟨lt, _⟩ := List.getElem?_eq_some_iff.1 pointer
    rw [List.getElem?_append_left lt, pointer]
  imports := h.imports
  met := by
    have grown : draft.Extends { draft with code := draft.code ++ [instruction] } :=
      ⟨List.prefix_refl _, List.Subset.refl _⟩
    rw [List.filter_append]
    exact List.rel_append (h.met.imp fun _ _ meets => meets.mono grown)
      (met.imp fun _ _ meets => meets.mono grown)

theorem allocate (h : draft.Linked demands) {cell : Fin n}
    (fresh : cell ∉ draft.slots.toList.map Slot.cell) :
    ({ draft with
      code := draft.code ++ [.address (slotSymbol cell)]
      slots := draft.slots.add ⟨cell, slotSymbol cell, draft.code.length⟩
      registry := draft.registry.register (slotSymbol cell) cell } : Draft n).Linked demands where
  registered := h.registered.allocate cell _ _
  cells := by
    simp only [Slots.add, List.map_append, List.map_cons, List.map_nil]
    exact List.nodup_append_comm.1 (List.nodup_cons.2 ⟨fresh, h.cells⟩)
  addresses := by simp [Slots.add, h.addresses, Instruction.symbol?]
  pointers slot mem := by
    rcases List.mem_append.1 mem with mem | mem
    · have pointer := h.pointers slot mem
      obtain ⟨lt, _⟩ := List.getElem?_eq_some_iff.1 pointer
      rw [List.getElem?_append_left lt, pointer]
    · cases List.mem_singleton.1 mem
      simp
  imports := h.imports
  met := by
    rw [List.filter_append]
    simp only [Instruction.isDemand, List.filter_cons_of_neg, List.filter_nil, List.append_nil,
      Bool.false_eq_true, not_false_eq_true]
    exact h.met.imp fun _ _ meets =>
      meets.mono ⟨List.prefix_refl _, List.subset_append_left ..⟩

end Draft.Linked

namespace Draft.Composed
variable {draft : Draft n} {demands : List (Demand n)}

theorem of_linked {after : Draft n} {new : List (Demand n)} (h : draft.Composed demands)
    (linked : after.Linked (demands ++ new))
    (slots : ∀ slot ∈ after.slots.toList, slot ∈ draft.slots.toList ∨
      .load slot.cell ∈ new ∨ .store slot.cell ∈ new)
    (imports : ∀ symbol ∈ after.imports, symbol ∈ draft.imports ∨ .call symbol ∈ new) :
    after.Composed (demands ++ new) where
  toLinked := linked
  demanded slot mem := by
    rcases slots slot mem with old | loaded | stored
    · exact (h.demanded slot old).imp (List.mem_append_left _) (List.mem_append_left _)
    · exact .inl (List.mem_append_right _ loaded)
    · exact .inr (List.mem_append_right _ stored)
  called symbol mem :=
    List.mem_append.2 ((imports symbol mem).imp (h.called symbol) id)

end Draft.Composed

private theorem composed_empty : (Draft.empty : Draft n).Composed [] where
  registered := ⟨by simp [Draft.empty, Slots.empty], by simp [Draft.empty, Slots.empty]⟩
  cells := .nil
  addresses := rfl
  pointers := by simp [Draft.empty, Slots.empty]
  imports := .nil
  met := .nil
  demanded := by simp [Draft.empty, Slots.empty]
  called := by simp [Draft.empty]

namespace Generator

private theorem linked_pointerTo {cell : Fin n} {draft after : Draft n} {pointer : Nat}
    {demands : List (Demand n)} (ran : pointerTo cell draft = .ok (pointer, after))
    (h : draft.Linked demands) :
    after.Linked demands ∧ after.imports = draft.imports ∧
      (∃ slot ∈ after.slots.toList, slot.cell = cell ∧ slot.pointer = pointer) ∧
      ∀ slot ∈ after.slots.toList, slot ∈ draft.slots.toList ∨ slot.cell = cell := by
  unfold pointerTo at ran
  split at ran
  · rename_i slot found
    cases ran
    have same : slot.cell = cell := by simpa using List.find?_some found
    exact ⟨h, rfl, ⟨slot, List.mem_of_find?_eq_some found, same, rfl⟩, fun _ mem => .inl mem⟩
  · rename_i missing
    cases ran
    have fresh : cell ∉ draft.slots.toList.map Slot.cell := by
      simpa [Slots.find?] using missing
    refine ⟨h.allocate fresh, rfl, ?_, fun slot mem => ?_⟩
    · exact ⟨⟨cell, slotSymbol cell, draft.code.length⟩, by simp [Slots.add], rfl, rfl⟩
    · refine (List.mem_append.1 mem).imp id fun new => ?_
      cases List.mem_singleton.1 new
      rfl

private theorem linked_importSymbol {symbol : String} {draft after : Draft n} {target : Nat}
    {demands : List (Demand n)} (ran : importSymbol symbol draft = .ok (target, after))
    (h : draft.Linked demands) :
    after.Linked demands ∧ after.slots = draft.slots ∧ after.imports[target]? = some symbol ∧
      ∀ other ∈ after.imports, other ∈ draft.imports ∨ other = symbol := by
  unfold importSymbol at ran
  split at ran
  · rename_i index found
    cases ran
    obtain ⟨lt, same, _⟩ := List.idxOf?_eq_some_iff.1 found
    exact ⟨h, rfl, by rw [List.getElem?_eq_getElem lt, same], fun _ mem => .inl mem⟩
  · rename_i missing
    cases ran
    have fresh : symbol ∉ draft.imports := by simpa using missing
    refine ⟨⟨⟨h.registered.symbol, h.registered.cell?⟩, h.cells, h.addresses, h.pointers, ?_, ?_⟩,
      rfl, by simp, by simp⟩
    · exact List.nodup_append_comm.1 (List.nodup_cons.2 ⟨fresh, h.imports⟩)
    · exact h.met.imp fun _ _ meets =>
        meets.mono ⟨List.prefix_append .., List.Subset.refl _⟩

/-- The generator adds to a draft what meets the demands, and nothing else that is visible from
outside. -/
def Adds (generator : Generator n Nat) (demands : List (Demand n)) : Prop :=
  ∀ ⦃draft register after⦄, generator draft = .ok (register, after) →
    ∀ ⦃before⦄, draft.Composed before → after.Composed (before ++ demands)

namespace Adds

theorem bind {first : Generator n Nat} {next : Nat → Generator n Nat}
    {demands demands' : List (Demand n)} (head : Adds first demands)
    (tail : ∀ register, Adds (next register) demands') :
    Adds (first >>= next) (demands ++ demands') := by
  intro draft register after ran before composed
  obtain ⟨⟨middle, between⟩, ranFirst, ranNext⟩ := Parsing.of_bind_ok ran
  rw [← List.append_assoc]
  exact tail middle ranNext (head ranFirst composed)

theorem bind_nil {first : Generator n Nat} {next : Nat → Generator n Nat}
    {demands : List (Demand n)} (head : Adds first demands)
    (tail : ∀ register, Adds (next register) []) : Adds (first >>= next) demands := by
  have both := head.bind tail
  rwa [List.append_nil] at both

theorem pure (register : Nat) : Adds (Pure.pure register : Generator n Nat) [] := by
  intro draft register after ran before composed
  cases ran
  rwa [List.append_nil]

theorem emit {instruction : Instruction} (isPure : instruction.isPure = true) :
    Adds (Generator.emit instruction : Generator n Nat) [] := by
  intro draft register after ran before composed
  cases ran
  refine composed.of_linked (composed.push ?_ ?_) (fun _ mem => .inl mem) (fun _ mem => .inl mem)
  · cases instruction <;> first | contradiction | rfl
  · cases instruction <;> first | contradiction | exact .nil

theorem access {cell : Fin n} {instruction : Nat → Instruction} {demand : Demand n}
    (noAddress : ∀ pointer, (instruction pointer).symbol? = none)
    (isDemand : ∀ pointer, (instruction pointer).isDemand = true)
    (isAccess : demand = .load cell ∨ demand = .store cell)
    (meets : ∀ (draft : Draft n), ∀ slot ∈ draft.slots.toList, slot.cell = cell →
      draft.Meets (instruction slot.pointer) demand) :
    Adds (pointerTo cell >>= fun pointer => Generator.emit (instruction pointer)) [demand] := by
  intro draft register after ran before composed
  obtain ⟨⟨pointer, middle⟩, ranPointer, ranAccess⟩ := Parsing.of_bind_ok ran
  cases ranAccess
  obtain ⟨linked, imports, ⟨slot, mem, same, rfl⟩, slots⟩ :=
    linked_pointerTo ranPointer composed.toLinked
  refine composed.of_linked (linked.push (noAddress _) ?_) (fun other mem => ?_) fun symbol mem => ?_
  · rw [List.filter_cons_of_pos (isDemand _), List.filter_nil]
    exact .cons (meets middle slot mem same) .nil
  · rcases slots other mem with old | rfl
    · exact .inl old
    · exact .inr (isAccess.imp (by simp [·]) (by simp [·]))
  · exact .inl (imports ▸ mem)

theorem load (cell : Fin n) :
    Adds (pointerTo cell >>= fun pointer => Generator.emit (.load pointer)) [.load cell] := by
  refine access (fun _ => rfl) (fun _ => rfl) (.inl rfl) ?_
  rintro draft slot mem rfl
  exact .load mem

theorem store (cell : Fin n) (value : Nat) :
    Adds (pointerTo cell >>= fun pointer => Generator.emit (.store value pointer))
      [.store cell] := by
  refine access (fun _ => rfl) (fun _ => rfl) (.inr rfl) ?_
  rintro draft slot mem rfl
  exact .store mem value

theorem call (symbol : String) (arguments : List Nat) :
    Adds (importSymbol symbol >>= fun target => (Generator.emit (.call target arguments) : Generator n Nat))
      [.call symbol] := by
  intro draft register after ran before composed
  obtain ⟨⟨target, middle⟩, ranImport, ranCall⟩ := Parsing.of_bind_ok ran
  cases ranCall
  obtain ⟨linked, slots, imported, imports⟩ := linked_importSymbol ranImport composed.toLinked
  refine composed.of_linked (linked.push rfl ?_) (fun slot mem => ?_) fun other mem => ?_
  · exact .cons (.call imported arguments) .nil
  · exact .inl (slots ▸ mem)
  · exact (imports other mem).imp id fun same => by simp [same]

theorem compare (op : Comparison) (left right : Nat) :
    Adds (Generator.compare op left right : Generator n Nat) [] := by
  refine (emit rfl).bind_nil fun flag => ?_
  refine (emit rfl).bind_nil fun yes => ?_
  exact (emit rfl).bind_nil fun no => emit rfl

theorem binary (op : Operation) (left right : Nat) :
    Adds (Generator.binary op left right : Generator n Nat)
      (op.routine?.toList.map Demand.call) := by
  cases op with
  | assign =>
    intro draft register after ran
    cases ran
  | add | sub | mul | div => exact emit rfl
  | pow => exact call _ _
  | lt | gt | le | ge | eq | ne => exact compare _ _ _

theorem plan (p : Plan n) : Adds (Generator.plan p) p.demands := by
  induction p with
  | const value => exact emit rfl
  | load cell => exact load cell
  | store cell value ih =>
    refine ih.bind fun x => ?_
    have stored := (store cell x).bind_nil fun _ => pure x
    rwa [bind_assoc] at stored
  | neg operand ih =>
    refine ih.bind_nil fun value => ?_
    exact (emit rfl).bind_nil fun minusOne => emit rfl
  | binary op left right ihl ihr =>
    rw [Plan.demands, List.append_assoc]
    exact ihl.bind fun x => ihr.bind fun y => binary op x y
  | apply function operand ih => exact ih.bind fun value => call function.symbol [value]
  | conditional condition yes no ihc ihy ihn =>
    rw [Plan.demands, List.append_assoc]
    refine ihc.bind fun test => ihy.bind fun x => ihn.bind_nil fun y => ?_
    refine (emit rfl).bind_nil fun one => ?_
    exact (emit rfl).bind_nil fun flag => emit rfl
  | sign operand ih =>
    refine ih.bind_nil fun value => ?_
    refine (emit rfl).bind_nil fun origin => ?_
    refine (emit rfl).bind_nil fun one => ?_
    refine (emit rfl).bind_nil fun minusOne => ?_
    refine (emit rfl).bind_nil fun positive => ?_
    refine (emit rfl).bind_nil fun negative => ?_
    exact (emit rfl).bind_nil fun notPositive => emit rfl

end Adds
end Generator

private theorem exists_of_forall₂ {R : α → β → Prop} {parts : List α} {others : List β}
    (h : List.Forall₂ R parts others) {part : α} (mem : part ∈ parts) :
    ∃ other ∈ others, R part other := by
  induction h with
  | nil => cases mem
  | @cons head other parts others related rest ih =>
    rcases List.mem_cons.1 mem with rfl | mem
    · exact ⟨other, List.mem_cons_self, related⟩
    · obtain ⟨found, later, related⟩ := ih mem
      exact ⟨found, List.mem_cons_of_mem _ later, related⟩

theorem Draft.Linked.meets_of_demand {draft : Draft n} {demands : List (Demand n)}
    (h : draft.Linked demands) {demand : Demand n} (mem : demand ∈ demands) :
    ∃ instruction ∈ draft.code, draft.Meets instruction demand := by
  obtain ⟨instruction, mem, meets⟩ := exists_of_forall₂ h.met.flip mem
  exact ⟨instruction, (List.mem_filter.1 mem).1, meets⟩

/-- What is read off the demands of a draft is read off the instructions that meet them. -/
theorem Draft.Linked.map_filterMap {draft : Draft n} {demands : List (Demand n)}
    (h : draft.Linked demands) {ofInstruction : Instruction → Option Nat}
    {ofDemand : Demand n → Option β} {value : Nat → Option β}
    (plain : ∀ instruction, instruction.isDemand = false → ofInstruction instruction = none)
    (agree : ∀ {instruction demand}, draft.Meets instruction demand →
      Option.Rel (fun part part' => value part = some part') (ofInstruction instruction)
        (ofDemand demand)) :
    (draft.code.filterMap ofInstruction).map value = (demands.filterMap ofDemand).map some := by
  have all : draft.code.filterMap ofInstruction =
      (draft.code.filter Instruction.isDemand).filterMap ofInstruction := by
    rw [List.filterMap_filter]
    refine List.filterMap_congr fun instruction _ => ?_
    split
    · rfl
    · rename_i noDemand
      exact plain instruction (Bool.eq_false_iff.2 noDemand)
  have each := List.rel_filterMap (fun _ _ meets => agree meets) h.met
  rw [all, ← List.forall₂_eq_eq_eq, List.forall₂_map_left_iff, List.forall₂_map_right_iff]
  exact each

namespace Routine

def draft (routine : Routine n) : Draft n :=
  ⟨routine.code, routine.imports, routine.slots, routine.registry⟩

def pointee? (routine : Routine n) (register : Nat) : Option (Fin n) :=
  match routine.code[register]? with
  | some (.address symbol) => routine.registry.cell? symbol
  | _ => none

variable {bindings : Bindings n} {formula : Term} {routine : Routine n}

theorem composed_of_ofTerm (h : ofTerm bindings formula = .ok routine) :
    ∃ plan, Planned bindings formula plan ∧ routine.draft.Composed plan.demands := by
  cases made : formula.plan bindings with
  | error error =>
    rw [ofTerm_of_plan_error made] at h
    cases h
  | ok plan =>
    have planned := Term.planned_of_plan made
    unfold ofTerm at h
    rw [Generator.term_eq_plan planned] at h
    split at h
    · rename_i result draft ran
      cases h
      exact ⟨plan, planned, Generator.Adds.plan plan ran composed_empty⟩
    · cases h

end Routine

section
variable {routine : Routine n} {demands : List (Demand n)}

theorem Draft.Linked.pointee? (h : routine.draft.Linked demands) {slot : Slot n}
    (mem : slot ∈ routine.slots.toList) : routine.pointee? slot.pointer = some slot.cell := by
  have address : routine.code[slot.pointer]? = some (.address slot.symbol) := h.pointers slot mem
  have linked : routine.registry.cell? slot.symbol = some slot.cell := h.registered.cell? slot mem
  simp only [Routine.pointee?, address, linked]

theorem Draft.Linked.loads (h : routine.draft.Linked demands) :
    (routine.code.filterMap Instruction.loaded?).map routine.pointee? =
      (demands.filterMap Demand.loaded?).map some := by
  refine h.map_filterMap (fun instruction _ => ?_) fun meets => ?_
  · cases instruction <;> first | contradiction | rfl
  · cases meets with
    | load mem => exact .some (h.pointee? mem)
    | store | call => exact .none

theorem Draft.Linked.stores (h : routine.draft.Linked demands) :
    (routine.code.filterMap Instruction.stored?).map routine.pointee? =
      (demands.filterMap Demand.stored?).map some := by
  refine h.map_filterMap (fun instruction _ => ?_) fun meets => ?_
  · cases instruction <;> first | contradiction | rfl
  · cases meets with
    | store mem => exact .some (h.pointee? mem)
    | load | call => exact .none

theorem Draft.Linked.calls (h : routine.draft.Linked demands) :
    (routine.code.filterMap Instruction.called?).map (routine.imports[·]?) =
      (demands.filterMap Demand.called?).map some := by
  refine h.map_filterMap (fun instruction _ => ?_) fun meets => ?_
  · cases instruction <;> first | contradiction | rfl
  · cases meets with
    | call linked => exact .some linked
    | load | store => exact .none

end

namespace Routine

private theorem prefix_execute (routine : Routine n) (registers : Registers n)
    (code : List Instruction)
    (memory : Memory n) : registers <+: (routine.execute registers code memory).value := by
  induction code generalizing registers memory with
  | nil => exact List.prefix_refl _
  | cons instruction rest ih => exact (List.prefix_append ..).trans (ih _ _)

theorem execute_address {routine : Routine n} {symbol : String} {cell : Fin n}
    (linked : routine.registry.cell? symbol = some cell) {code : List Instruction} {position : Nat}
    (found : code[position]? = some (.address symbol)) (registers : Registers n)
    (memory : Memory n) :
    (routine.execute registers code memory).value[registers.length + position]? =
      some (.pointer cell) := by
  induction code generalizing position registers memory with
  | nil => cases found
  | cons instruction rest ih =>
    cases position with
    | zero =>
      cases found
      have held : (routine.step registers (.address symbol) memory).value = .pointer cell := by
        simp only [step, linked, Action.pure_apply]
      obtain ⟨later, same⟩ := routine.prefix_execute (registers ++ [.pointer cell]) rest
        (routine.step registers (.address symbol) memory).memory
      simp only [execute, Action.bind_apply, held, ← same]
      simp
    | succ position =>
      have behind := ih (by simpa using found)
        (registers ++ [(routine.step registers instruction memory).value])
        (routine.step registers instruction memory).memory
      simp only [List.length_append, List.length_cons, List.length_nil, Nat.add_assoc,
        Nat.zero_add, Nat.add_comm 1 position] at behind
      exact behind

end Routine
end CellFormula.Native
