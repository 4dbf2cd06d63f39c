import CellFormula.Formula
/-! Sessions: formulas that share cells with each other and with the outside world. -/
namespace CellFormula

structure Session (n k : Nat) where
  memory : Memory n
  formulas : Vector (Formula n) k

namespace Session

inductive Step (n k : Nat) where
  /-- The outside world writes a cell. -/
  | poke (cell : Fin n) (value : Float)
  | bind (formula : Fin k) (name : String) (cell : Option (Fin n))
  | edit (formula : Fin k) (source : String)
  | evaluate (formula : Fin k)
  /-- A new formula takes the place of an old one. -/
  | replace (formula : Fin k) (backend : Backend)

inductive Answer where
  | nothing
  | accepted (isAccepted : Bool)
  | value (value : Float)
deriving DecidableEq

def Step.formula? : Step n k → Option (Fin k)
  | poke .. => none
  | bind formula .. | edit formula _ | evaluate formula | replace formula _ => some formula

def start (memory : Memory n) (backends : Vector Backend k) : Session n k :=
  ⟨memory, backends.map Formula.new⟩

def put (session : Session n k) (i : Fin k) (formula : Formula n) : Session n k :=
  { session with formulas := session.formulas.set i formula i.isLt }

def step (session : Session n k) : Step n k → Session n k × Answer
  | .poke cell value =>
    ({ session with memory := session.memory.set cell value cell.isLt }, .nothing)
  | .bind i name cell =>
    let (formula, isAccepted) := (session.formulas.get i).bind name cell
    (session.put i formula, .accepted isAccepted)
  | .edit i source =>
    let (formula, isAccepted) := (session.formulas.get i).edit source
    (session.put i formula, .accepted isAccepted)
  | .evaluate i =>
    let (formula, outcome) := (session.formulas.get i).evaluate session.memory
    ({ session.put i formula with memory := outcome.memory }, .value outcome.value)
  | .replace i backend => (session.put i (Formula.new backend), .nothing)

/-- The session behind a list of steps, and the answers to them. -/
def run (session : Session n k) : List (Step n k) → Session n k × List Answer
  | [] => (session, [])
  | first :: rest =>
    let (next, answer) := session.step first
    let (last, answers) := next.run rest
    (last, answer :: answers)

@[simp] theorem run_append (session : Session n k) (first rest : List (Step n k)) :
    session.run (first ++ rest) =
      (((session.run first).1.run rest).1,
        (session.run first).2 ++ ((session.run first).1.run rest).2) := by
  induction first generalizing session with
  | nil => simp [run]
  | cons step steps ih => simp [run, ih]

end Session
end CellFormula
