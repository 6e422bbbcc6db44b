import LeastSquares.Decimal
import LeastSquares.Solver.Outcome

/-!
# The summary of an outcome

Five lines under a heading.  The solution is listed with its size; of a long one only the entries
at both ends are listed.
-/

namespace LeastSquares
open Decimal (scientific)

def longList : Nat := 500

/-- the number of entries that are listed at each end of a cut list -/
def keptAtEnds : Nat := 5

def listedEntries (xs : List Float) : List String :=
  let write (x : Float) : String := String.ofList (Decimal.Style.list.write x)
  if xs.length < longList then xs.map write
  else
    (xs.take keptAtEnds).map write ++ "..." ::
      (xs.drop (xs.length - keptAtEnds)).map write

/-- the distance in memory from an entry to the next one; zero in an empty vector -/
def vectorStride (size : Nat) : Nat := if size = 0 then 0 else 1

def describeVector (v : Array Float) : String :=
  "[" ++ String.intercalate ", " (listedEntries v.toList) ++
    s!"], shape=[{v.size}], strides=[{vectorStride v.size}], layout=CFcf (0xf), const ndim=1"

/-- the lines of the summary, the last one ended as well -/
def Outcome.summary (o : Outcome Float) : String :=
  "Optimization Result:\n" ++
  "  Status: " ++ o.status.text ++ "\n" ++
  "  Residual norm: " ++ scientific 6 o.residualNorm ++ "\n" ++
  s!"  Iterations: {o.history.size}\n" ++
  s!"  Function evaluations: {o.evaluations}\n" ++
  "  Solution: " ++ describeVector o.solution ++ "\n"

end LeastSquares
