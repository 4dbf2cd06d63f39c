import CellFormula.Term
/-! Bindings of variable names to cells, in increasing order of the names. -/
namespace CellFormula

structure Bindings (n : Nat) where
  entries : List (String × Fin n)
deriving DecidableEq

inductive BindingChange where
  | added
  | replaced
  | unchanged
deriving DecidableEq, Repr

namespace Bindings

def empty : Bindings n := ⟨[]⟩

instance : EmptyCollection (Bindings n) := ⟨empty⟩

def cell? (bindings : Bindings n) (name : String) : Option (Fin n) :=
  bindings.entries.lookup name

def names (bindings : Bindings n) : List String := bindings.entries.map Prod.fst

def size (bindings : Bindings n) : Nat := bindings.entries.length

def isEmpty (bindings : Bindings n) : Bool := bindings.entries.isEmpty

def put (name : String) (cell : Fin n) : List (String × Fin n) → List (String × Fin n)
  | [] => [(name, cell)]
  | (head, old) :: rest =>
    if name < head then (name, cell) :: (head, old) :: rest
    else if name = head then (name, cell) :: rest
    else (head, old) :: put name cell rest

/-- The empty name and the names of constants cannot be bound. -/
def isBindable (name : String) : Bool := name ≠ "" && !isConstant name

def changeOf (bindings : Bindings n) (name : String) (cell : Fin n) : BindingChange :=
  match bindings.cell? name with
  | none => .added
  | some old => if old = cell then .unchanged else .replaced

/-- Binds a name to a cell. Names that cannot be bound are refused, and so is the absent cell. -/
def bind? (bindings : Bindings n) (name : String) :
    Option (Fin n) → Option (BindingChange × Bindings n)
  | none => none
  | some cell =>
    if isBindable name then
      some (bindings.changeOf name cell, ⟨put name cell bindings.entries⟩)
    else none

def bind (bindings : Bindings n) (name : String) (cell : Option (Fin n)) : Bindings n :=
  match bindings.bind? name cell with
  | some (_, after) => after
  | none => bindings

theorem lookup_cons_ite (head : String) (cell : Fin n) (rest : List (String × Fin n))
    (name : String) :
    ((head, cell) :: rest).lookup name = if name = head then some cell else rest.lookup name := by
  by_cases h : name = head
  · simp [h]
  · simp [List.lookup_cons, h, beq_eq_false_iff_ne.2 h]

@[simp] theorem lookup_put (name : String) (cell : Fin n) (entries : List (String × Fin n))
    (other : String) :
    (put name cell entries).lookup other =
      if other = name then some cell else entries.lookup other := by
  induction entries with
  | nil => simp [put, lookup_cons_ite]
  | cons entry rest ih =>
    obtain ⟨head, old⟩ := entry
    simp only [put]
    split
    · simp [lookup_cons_ite]
    · split
      · rename_i same
        by_cases h : other = name <;> simp_all [lookup_cons_ite]
      · rename_i different
        by_cases h : other = head
        · subst h
          simp [Ne.symm different]
        · simp [lookup_cons_ite, h, ih]

theorem cell?_of_bind? {bindings after : Bindings n} {name : String} {cell : Fin n}
    {change : BindingChange} (accepted : bindings.bind? name (some cell) = some (change, after))
    (other : String) :
    after.cell? other = if other = name then some cell else bindings.cell? other := by
  simp only [bind?] at accepted
  split at accepted
  · obtain ⟨_, rfl⟩ := Prod.mk.inj (Option.some.inj accepted)
    exact lookup_put ..
  · cases accepted

end Bindings
end CellFormula
