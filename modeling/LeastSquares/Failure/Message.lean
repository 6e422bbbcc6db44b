import LeastSquares.Decimal
import LeastSquares.Failure

/-!
# The wording of failures

`Failure.message` is the text of a failure.  A fault of a JSON text is worded as its category
only: the position and the reason are not kept.
-/

namespace LeastSquares
open Decimal (plain)

def ShapeFault.message : ShapeFault → String
  | .notSquare r c => s!"Expected a square matrix, got {r}x{c}"
  | .rightSide len n => s!"Right-hand side has length {len}, expected {n}"
  | .timesVector r c len => s!"Cannot multiply {r}x{c} matrix by vector of length {len}"
  | .timesMatrix r c r2 c2 => s!"Cannot multiply {r}x{c} matrix by {r2}x{c2} matrix"
  | .sum a b => s!"Cannot add vectors of length {a} and {b}"
  | .noParameters => "Initial guess must contain at least one parameter"
  | .residualLength len m => s!"Residual function returned {len} values, expected {m}"
  | .jacobianShape r c m n => s!"Jacobian has shape ({r}, {c}), expected ({m}, {n})"
  | .perturbedLength m len => s!"Expected {m} residuals, got {len}"
  | .observations x y => s!"x data has {x} points but y data has {y}"
  | .coefficients n len => s!"Expected {n} coefficients, got {len}"
  | .other text => text

def ParameterFault.message : ParameterFault Float → String
  | .initialDamping v => "initial_lambda must be positive and finite, got " ++ plain v
  | .differenceStep v => "epsilon must be positive and finite, got " ++ plain v
  | .tolerance v => "tolerance must be non-negative, got " ++ plain v
  | .other text => text

def FileFault.message : FileFault → String
  | .notFound => "No such file or directory (os error 2)"
  | .isDirectory => "Is a directory (os error 21)"
  | .notUtf8 => "stream did not contain valid UTF-8"
  | .other text => text

/-- the category of a fault -/
def JsonFault.category : JsonFault → String
  | .truncated => "eof"
  | .malformed => "syntax"
  | .mismatch => "data"

def Failure.message : Failure Float → String
  | .dimension fault => "Dimension mismatch: " ++ fault.message
  | .singular => "Singular matrix encountered"
  | .parameter fault => "Invalid parameter value: " ++ fault.message
  | .evaluation text => "Function evaluation error: " ++ text
  | .file fault => "IO error: " ++ fault.message
  | .json fault => fault.category

end LeastSquares
