import CellFormula.Proofs.Native.Emission
/-! No generated routine is refused by the pipeline: every operand is the register of an earlier
instruction and has the kind that its place asks for. -/
namespace CellFormula.Native

private theorem symbolArity?_symbol (function : ElementaryFunction) :
    symbolArity? function.symbol = some 1 := by
  rw [symbolArity?, if_neg function.symbol_ne_powerSymbol, ElementaryFunction.ofSymbol?_symbol]
  rfl

private theorem Routine.kindsFrom?_append (routine : Routine n) (kinds : List Kind)
    (first rest : List Instruction) :
    routine.kindsFrom? kinds (first ++ rest) =
      (routine.kindsFrom? kinds first).bind fun next => routine.kindsFrom? next rest := by
  induction first generalizing kinds with
  | nil => rfl
  | cons instruction first ih =>
    simp only [List.cons_append, kindsFrom?]
    cases routine.kind? kinds instruction with
    | none => rfl
    | some kind => exact ih (kinds ++ [kind])

theorem Routine.length_kindsFrom? {routine : Routine n} {kinds after : List Kind}
    {code : List Instruction} (h : routine.kindsFrom? kinds code = some after) :
    after.length = kinds.length + code.length := by
  induction code generalizing kinds with
  | nil =>
    cases h
    rfl
  | cons instruction rest ih =>
    obtain ⟨kind, _, h⟩ := Option.bind_eq_some_iff.1 h
    rw [ih h]
    simp only [List.length_append, List.length_cons, List.length_nil]
    omega

structure Draft.Kinded (draft : Draft n) (routine : Routine n) (kinds : List Kind) : Prop where
  checked : routine.kindsFrom? [] draft.code = some kinds
  pointers : ∀ slot ∈ draft.slots.toList, kinds[slot.pointer]? = some .pointer

theorem Draft.Kinded.length_kinds {draft : Draft n} {routine : Routine n} {kinds : List Kind}
    (kinded : draft.Kinded routine kinds) : kinds.length = draft.code.length := by
  simpa using Routine.length_kindsFrom? kinded.checked

theorem Draft.Kinded.push {draft : Draft n} {routine : Routine n} {kinds : List Kind}
    (kinded : draft.Kinded routine kinds) {instruction : Instruction} {kind : Kind}
    (accepted : routine.kind? kinds instruction = some kind) :
    { draft with code := draft.code ++ [instruction] }.Kinded routine (kinds ++ [kind]) where
  checked := by
    rw [Routine.kindsFrom?_append, kinded.checked]
    simp [Routine.kindsFrom?, accepted]
  pointers slot mem := by
    have pointer := kinded.pointers slot mem
    obtain ⟨lt, _⟩ := List.getElem?_eq_some_iff.1 pointer
    rw [List.getElem?_append_left lt, pointer]

namespace Generator

abbrev Kinding := List (Nat × Kind)

def Kinding.Hold (known : Kinding) (kinds : List Kind) : Prop :=
  ∀ fact ∈ known, kinds[fact.1]? = some fact.2

theorem Kinding.Hold.append {known : Kinding} {kinds : List Kind} (h : known.Hold kinds)
    (new : List Kind) : known.Hold (kinds ++ new) := by
  intro fact mem
  obtain ⟨lt, _⟩ := List.getElem?_eq_some_iff.1 (h fact mem)
  rw [List.getElem?_append_left lt]
  exact h fact mem

/-- Wherever the kinds are known, the instructions that the generator appends pass verification in
every routine that resolves their imports and symbols, and the returned register has the kind. -/
def Defines (known : Kinding) (generator : Generator n Nat) (kind : Kind) : Prop :=
  ∀ {draft register after}, generator draft = .ok (register, after) →
    ∀ {routine : Routine n}, routine.Serves after → routine.Serves draft ∧
      ∀ {kinds}, draft.Kinded routine kinds → known.Hold kinds →
        ∃ new, after.Kinded routine (kinds ++ new) ∧ (kinds ++ new)[register]? = some kind

namespace Defines
variable {known : Kinding}

theorem bind {first : Generator n Nat} {next : Nat → Generator n Nat} {kind kind' : Kind}
    (head : Defines known first kind)
    (tail : ∀ register, Defines ((register, kind) :: known) (next register) kind') :
    Defines known (first >>= next) kind' := by
  intro draft register' after ran routine serves
  obtain ⟨⟨register, middle⟩, ranFirst, ranNext⟩ := Parsing.of_bind_ok ran
  obtain ⟨servesMiddle, behind⟩ := tail register ranNext serves
  obtain ⟨servesDraft, ahead⟩ := head ranFirst servesMiddle
  refine ⟨servesDraft, fun {kinds} kinded holds => ?_⟩
  obtain ⟨new, kinded, found⟩ := ahead kinded holds
  have holds : Kinding.Hold ((register, kind) :: known) (kinds ++ new) :=
    List.forall_mem_cons.2 ⟨found, holds.append new⟩
  obtain ⟨new', kinded, found⟩ := behind kinded holds
  rw [List.append_assoc] at kinded found
  exact ⟨new ++ new', kinded, found⟩

theorem pure {register : Nat} {kind : Kind} (h : (register, kind) ∈ known) :
    Defines known (Pure.pure register : Generator n Nat) kind := by
  intro draft register' after ran routine serves
  cases ran
  exact ⟨serves, fun kinded holds => ⟨[], by simpa using kinded, by simpa using holds _ h⟩⟩

theorem emit {instruction : Instruction} {kind : Kind}
    (accepted : ∀ (routine : Routine n) {kinds}, known.Hold kinds →
      routine.kind? kinds instruction = some kind) :
    Defines known (Generator.emit instruction : Generator n Nat) kind := by
  intro draft register after ran routine serves
  cases ran
  refine ⟨⟨serves.imports, serves.cell?⟩, fun kinded holds => ?_⟩
  exact ⟨[kind], kinded.push (accepted routine holds), by simp [← kinded.length_kinds]⟩

theorem pointerTo (cell : Fin n) : Defines known (Generator.pointerTo cell) .pointer := by
  intro draft register after ran routine serves
  unfold Generator.pointerTo at ran
  split at ran
  · rename_i slot found
    cases ran
    have mem := List.mem_of_find?_eq_some found
    exact ⟨serves, fun kinded _ =>
      ⟨[], by simpa using kinded, by simpa using kinded.pointers slot mem⟩⟩
  · cases ran
    have linked : routine.registry.cell? (slotSymbol cell) = some cell :=
      serves.cell? ⟨cell, slotSymbol cell, draft.code.length⟩ (by simp [Slots.add])
    refine ⟨⟨serves.imports, fun slot mem => serves.cell? slot ?_⟩, fun {kinds} kinded _ => ?_⟩
    · exact List.mem_append_left _ mem
    · have accepted : routine.kind? kinds (.address (slotSymbol cell)) = some .pointer := by
        simp [Routine.kind?, linked]
      have pushed := kinded.push accepted
      have found : (kinds ++ [Kind.pointer])[draft.code.length]? = some .pointer := by
        simp [← kinded.length_kinds]
      refine ⟨[.pointer], ⟨pushed.checked, fun slot mem => ?_⟩, found⟩
      rcases List.mem_append.1 mem with mem | mem
      · exact pushed.pointers slot mem
      · cases List.mem_singleton.1 mem
        exact found

theorem call {symbol : String} {arguments : List Nat}
    (arity : symbolArity? symbol = some arguments.length)
    (numbers : ∀ argument ∈ arguments, (argument, Kind.number) ∈ known) :
    Defines known
      (importSymbol symbol >>= fun routine => (Generator.emit (.call routine arguments) : Generator n Nat))
      .number := by
  intro draft register after ran routine serves
  obtain ⟨index, imports, imported, before, target⟩ := importSymbol_apply symbol draft
  rw [bind_apply_ok imported] at ran
  cases ran
  refine ⟨⟨before.trans serves.imports, serves.cell?⟩, fun {kinds} kinded holds => ?_⟩
  have linked : routine.imports[index]? = some symbol := by
    obtain ⟨later, same⟩ := serves.imports
    obtain ⟨lt, _⟩ := List.getElem?_eq_some_iff.1 target
    rw [← same, List.getElem?_append_left lt, target]
  have accepted : routine.kind? kinds (.call index arguments) = some .number := by
    simp only [Routine.kind?, linked, Option.bind_some, arity, true_and]
    exact if_pos fun argument mem => holds _ (numbers argument mem)
  have pushed := kinded.push accepted
  exact ⟨[.number], ⟨pushed.checked, pushed.pointers⟩, by simp [← kinded.length_kinds]⟩

theorem const (value : Float) :
    Defines known (Generator.emit (.const value) : Generator n Nat) .number :=
  emit fun _ _ _ => rfl

theorem load {pointer : Nat} (h : (pointer, .pointer) ∈ known) :
    Defines known (Generator.emit (.load pointer) : Generator n Nat) .number :=
  emit fun _ _ holds => by simp [Routine.kind?, holds _ h]

theorem store {value pointer : Nat} (h : (value, .number) ∈ known)
    (h' : (pointer, .pointer) ∈ known) :
    Defines known (Generator.emit (.store value pointer) : Generator n Nat) .nothing :=
  emit fun _ _ holds => by simp [Routine.kind?, holds _ h, holds _ h']

theorem arithmetic {op : Arithmetic} {left right : Nat} (h : (left, .number) ∈ known)
    (h' : (right, .number) ∈ known) :
    Defines known (Generator.arithmetic op left right : Generator n Nat) .number :=
  emit fun _ _ holds => by simp [Routine.kind?, holds _ h, holds _ h']

theorem flag {op : Comparison} {left right : Nat} (h : (left, .number) ∈ known)
    (h' : (right, .number) ∈ known) :
    Defines known (Generator.emit (.compare op left right) : Generator n Nat) .flag :=
  emit fun _ _ holds => by simp [Routine.kind?, holds _ h, holds _ h']

theorem select {flag yes no : Nat} (h : (flag, .flag) ∈ known) (h' : (yes, .number) ∈ known)
    (h'' : (no, .number) ∈ known) :
    Defines known (Generator.emit (.select flag yes no) : Generator n Nat) .number :=
  emit fun _ _ holds => by simp [Routine.kind?, holds _ h, holds _ h', holds _ h'']

theorem compare {op : Comparison} {left right : Nat} (h : (left, .number) ∈ known)
    (h' : (right, .number) ∈ known) :
    Defines known (Generator.compare op left right : Generator n Nat) .number := by
  refine bind (flag h h') fun flag => ?_
  refine bind (const 1.0) fun yes => ?_
  refine bind (const 0.0) fun no => ?_
  exact select (by simp) (by simp) (by simp)

theorem binary (op : Operation) {left right : Nat} (h : (left, .number) ∈ known)
    (h' : (right, .number) ∈ known) :
    Defines known (Generator.binary op left right : Generator n Nat) .number := by
  cases op with
  | assign =>
    intro draft register after ran
    cases ran
  | add | sub | mul | div => exact arithmetic h h'
  | pow => exact call rfl (by simp [h, h'])
  | lt | gt | le | ge | eq | ne => exact compare h h'

theorem plan (p : Plan n) (known : Kinding) : Defines known (Generator.plan p) .number := by
  induction p generalizing known with
  | const value => exact const value
  | load cell => exact bind (pointerTo cell) fun pointer => load (by simp)
  | store cell value ih =>
    refine bind (ih known) fun x => ?_
    refine bind (pointerTo cell) fun pointer => ?_
    refine bind (store (by simp) (by simp)) fun nothing => ?_
    exact pure (by simp)
  | neg operand ih =>
    refine bind (ih known) fun value => ?_
    refine bind (const (-1.0)) fun minusOne => ?_
    exact arithmetic (by simp) (by simp)
  | binary op left right ihl ihr =>
    refine bind (ihl known) fun x => ?_
    refine bind (ihr _) fun y => ?_
    exact binary op (by simp) (by simp)
  | apply function operand ih =>
    refine bind (ih known) fun value => ?_
    exact call (symbolArity?_symbol function) (by simp)
  | conditional condition yes no ihc ihy ihn =>
    refine bind (ihc known) fun test => ?_
    refine bind (ihy _) fun x => ?_
    refine bind (ihn _) fun y => ?_
    refine bind (const 1.0) fun one => ?_
    refine bind (flag (by simp) (by simp)) fun flag => ?_
    exact select (by simp) (by simp) (by simp)
  | sign operand ih =>
    refine bind (ih known) fun value => ?_
    refine bind (const 0.0) fun origin => ?_
    refine bind (const 1.0) fun one => ?_
    refine bind (const (-1.0)) fun minusOne => ?_
    refine bind (flag (by simp) (by simp)) fun positive => ?_
    refine bind (flag (by simp) (by simp)) fun negative => ?_
    refine bind (select (by simp) (by simp) (by simp)) fun notPositive => ?_
    exact select (by simp) (by simp) (by simp)

end Defines
end Generator

namespace Routine
variable {bindings : Bindings n} {formula : Term}

theorem isWellFormed_of_ofTerm {routine : Routine n} (h : ofTerm bindings formula = .ok routine) :
    routine.isWellFormed = true := by
  cases planned : formula.plan bindings with
  | error error =>
    rw [ofTerm_of_plan_error planned] at h
    cases h
  | ok plan =>
    have computes := Generator.realized_term bindings formula []
    rw [planned] at computes
    obtain ⟨result, draft, ran⟩ := computes.succeeds .empty
    have registered := (computes.grows ran).2 ⟨by simp [Draft.empty, Slots.empty],
      by simp [Draft.empty, Slots.empty]⟩
    rw [ofTerm, ran] at h
    cases h
    rw [Generator.term_eq_plan (Term.planned_of_plan planned)] at ran
    let routine : Routine n := ⟨draft.code, result, draft.imports, draft.slots, draft.registry⟩
    have serves : routine.Serves draft := ⟨List.prefix_refl _, registered.cell?⟩
    obtain ⟨_, defines⟩ := Generator.Defines.plan plan [] ran serves
    have start : Draft.empty.Kinded routine [] := ⟨rfl, by simp [Draft.empty, Slots.empty]⟩
    obtain ⟨kinds, kinded, found⟩ := defines start (List.forall_mem_nil _)
    have checked : routine.kindsFrom? [] routine.code = some ([] ++ kinds) := kinded.checked
    have result : ([] ++ kinds)[routine.result]? = some .number := found
    change routine.isWellFormed = true
    simp only [isWellFormed, checked, result, decide_true]

theorem compile_eq_ofTerm (bindings : Bindings n) (formula : Term) :
    compile bindings formula = ofTerm bindings formula := by
  unfold compile
  cases generated : ofTerm bindings formula with
  | error error => rfl
  | ok routine =>
    have passes : pipeline.foldlM (fun routine pass => pass.apply routine) routine =
        .ok routine := by
      simp only [pipeline, List.foldlM_cons, List.foldlM_nil, Pass.apply, bind_pure]
      exact if_pos (isWellFormed_of_ofTerm generated)
    simp only [passes, bind, Except.bind]
    rfl

end Routine
end CellFormula.Native
