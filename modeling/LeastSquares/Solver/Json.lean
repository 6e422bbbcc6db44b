import LeastSquares.Json.Fields
import LeastSquares.Json.Tree
import LeastSquares.Solver.Outcome

/-!
# Results as JSON

Snapshots and outcomes are written with all their fields, and every field must be there when they
are read.  A status is its name, or an object with that name as its only key and `null` as the
value.
-/

namespace LeastSquares
open Json

/-! ## statuses -/

namespace Status

def tree (s : Status) : Tree := .label s.text

def ofName (name : String) : Reader Status :=
  match ofText? name with
  | some s => return s
  | none => throw .mismatch

/-- the name and the `null` of a status that is written as an object -/
def tagged : Reader Status := do
  let name ← Json.text
  let s ← ofName name
  expectMark ':'
  null
  expectMark '}'
  return s

def reader : Reader Status := fun cs =>
  match dropBlanks cs with
  | '"' :: _ => (Json.text >>= ofName) cs
  | '{' :: rest => tagged rest
  | cs => .error (unexpected cs)

def ofJson (text : String) : Except (Failure Float) Status :=
  (reader.readAll text).mapError .json

end Status

/-! ## snapshots -/

namespace Snapshot

structure Partial where
  iteration : Option Nat
  point : Option (Array Float)
  residualNorm : Option Float
  damping : Option Float

def Partial.none : Partial := ⟨.none, .none, .none, .none⟩

def fields : List (RecordField Partial) := [
  { name := "iter"
    isRead := (·.iteration.isSome)
    read := fun p => return { p with iteration := some (← natural) } },
  { name := "x"
    isRead := (·.point.isSome)
    read := fun p => return { p with point := some (← array float) } },
  { name := "fNorm"
    isRead := (·.residualNorm.isSome)
    read := fun p => return { p with residualNorm := some (← float) } },
  { name := "lambda"
    isRead := (·.damping.isSome)
    read := fun p => return { p with damping := some (← float) } }]

def Partial.complete? (p : Partial) : Option (Snapshot Float) := do
  return ⟨← p.iteration, ← p.point, ← p.residualNorm, ← p.damping⟩

def reader : Reader (Snapshot Float) := record fields .none Partial.complete?

def ofJson (text : String) : Except (Failure Float) (Snapshot Float) :=
  (reader.readAll text).mapError .json

def tree (s : Snapshot Float) : Tree := .object [
  ("iter", .natural s.iteration),
  ("x", .reals s.point),
  ("fNorm", .real s.residualNorm),
  ("lambda", .real s.damping)]

def toJson (s : Snapshot Float) : String := s.tree.compact

end Snapshot

/-! ## outcomes -/

namespace Outcome

structure Partial where
  solution : Option (Array Float)
  status : Option Status
  history : Option (Array (Snapshot Float))
  residualNorm : Option Float
  evaluations : Option Nat
  damping : Option Float

def Partial.none : Partial := ⟨.none, .none, .none, .none, .none, .none⟩

def fields : List (RecordField Partial) := [
  { name := "solution"
    isRead := (·.solution.isSome)
    read := fun p => return { p with solution := some (← array float) } },
  { name := "status"
    isRead := (·.status.isSome)
    read := fun p => return { p with status := some (← Status.reader) } },
  { name := "iterationData"
    isRead := (·.history.isSome)
    read := fun p => return { p with history := some (← array Snapshot.reader) } },
  { name := "fNorm"
    isRead := (·.residualNorm.isSome)
    read := fun p => return { p with residualNorm := some (← float) } },
  { name := "funcEvals"
    isRead := (·.evaluations.isSome)
    read := fun p => return { p with evaluations := some (← natural) } },
  { name := "lambda"
    isRead := (·.damping.isSome)
    read := fun p => return { p with damping := some (← float) } }]

def Partial.complete? (p : Partial) : Option (Outcome Float) := do
  return ⟨← p.solution, ← p.status, ← p.history, ← p.residualNorm, ← p.evaluations, ← p.damping⟩

def reader : Reader (Outcome Float) := record fields .none Partial.complete?

def ofJson (text : String) : Except (Failure Float) (Outcome Float) :=
  (reader.readAll text).mapError .json

def tree (o : Outcome Float) : Tree := .object [
  ("solution", .reals o.solution),
  ("status", o.status.tree),
  ("iterationData", .array (o.history.toList.map Snapshot.tree)),
  ("fNorm", .real o.residualNorm),
  ("funcEvals", .natural o.evaluations),
  ("lambda", .real o.damping)]

def toJson (o : Outcome Float) : String := o.tree.pretty

end Outcome
end LeastSquares
