/-! External cells and the actions that read and write them. The accesses of an action are part of
its outcome, so that what a formula touches can be stated and not only what it changes. -/
namespace CellFormula

abbrev Memory (n : Nat) := Vector Float n

inductive Access (n : Nat) where
  | read (cell : Fin n)
  | write (cell : Fin n) (value : Float)
deriving DecidableEq

namespace Access

def cell : Access n → Fin n
  | read cell => cell
  | write cell _ => cell

def apply (memory : Memory n) : Access n → Memory n
  | read _ => memory
  | write cell value => memory.set cell value cell.isLt

def written? : Access n → Option (Fin n)
  | read _ => none
  | write cell _ => some cell

end Access

structure Outcome (n : Nat) (α : Type) where
  value : α
  memory : Memory n
  accesses : List (Access n)

def Action (n : Nat) (α : Type) := Memory n → Outcome n α

namespace Action

def pure (value : α) : Action n α := fun memory => ⟨value, memory, []⟩

def bind (first : Action n α) (next : α → Action n β) : Action n β := fun memory =>
  let before := first memory
  let after := next before.value before.memory
  ⟨after.value, after.memory, before.accesses ++ after.accesses⟩

instance : Monad (Action n) where
  pure := pure
  bind := bind

def load (cell : Fin n) : Action n Float := fun memory =>
  ⟨memory.get cell, memory, [.read cell]⟩

def store (cell : Fin n) (value : Float) : Action n Unit := fun memory =>
  ⟨(), memory.set cell value cell.isLt, [.write cell value]⟩

def replicate (count : Nat) (action : Action n α) : Action n (List α) :=
  match count with
  | 0 => Pure.pure []
  | count + 1 => do
    let value ← action
    let rest ← replicate count action
    return value :: rest

@[simp] theorem pure_apply (value : α) (memory : Memory n) :
    (Pure.pure value : Action n α) memory = ⟨value, memory, []⟩ := rfl

@[simp] theorem bind_apply (first : Action n α) (next : α → Action n β) (memory : Memory n) :
    (first >>= next) memory =
      ⟨(next (first memory).value (first memory).memory).value,
        (next (first memory).value (first memory).memory).memory,
        (first memory).accesses ++ (next (first memory).value (first memory).memory).accesses⟩ :=
  rfl

@[simp] theorem load_apply (cell : Fin n) (memory : Memory n) :
    load cell memory = ⟨memory.get cell, memory, [.read cell]⟩ := rfl

@[simp] theorem store_apply (cell : Fin n) (value : Float) (memory : Memory n) :
    store cell value memory = ⟨(), memory.set cell value cell.isLt, [.write cell value]⟩ := rfl

@[simp] theorem pure_bind (value : α) (next : α → Action n β) :
    Pure.pure value >>= next = next value := by
  funext memory
  simp

@[simp] theorem bind_assoc (first : Action n α) (second : α → Action n β) (third : β → Action n γ) :
    first >>= second >>= third = first >>= fun value => second value >>= third := by
  funext memory
  simp

end Action
end CellFormula
