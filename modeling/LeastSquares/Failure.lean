/-!
# What can go wrong

A failure is a cause, with the numbers that describe it; `LeastSquares.Failure.Message` words it.

* `ShapeFault`       sizes that do not fit together;
* `ParameterFault`   an option outside its range;
* `FileFault`        a file that cannot be read or written;
* `JsonFault`        a text that is not the expected JSON.
-/

namespace LeastSquares

inductive ShapeFault where
  | notSquare (rows cols : Nat)
  | rightSide (length expected : Nat)
  | timesVector (rows cols length : Nat)
  | timesMatrix (rows cols rightRows rightCols : Nat)
  | sum (left right : Nat)
  | noParameters
  /-- the residuals do not have the length of the first evaluation -/
  | residualLength (length expected : Nat)
  | jacobianShape (rows cols expectedRows expectedCols : Nat)
  /-- the residuals at a perturbed point do not have the length of those at the point itself -/
  | perturbedLength (expected length : Nat)
  | observations (abscissae ordinates : Nat)
  | coefficients (expected length : Nat)
  /-- raised by a problem, in its own words -/
  | other (text : String)
deriving DecidableEq

inductive ParameterFault (α : Type) where
  | initialDamping (value : α)
  | differenceStep (value : α)
  | tolerance (value : α)
  /-- raised by a problem, in its own words -/
  | other (text : String)

inductive FileFault where
  | notFound
  | isDirectory
  | notUtf8
  /-- raised by a problem, in its own words -/
  | other (text : String)
deriving DecidableEq

inductive JsonFault where
  | truncated
  /-- the text is not JSON, or holds a number out of range -/
  | malformed
  /-- well-formed so far, but not the value asked for -/
  | mismatch
deriving DecidableEq

inductive Failure (α : Type) where
  | dimension (fault : ShapeFault)
  | singular
  | parameter (fault : ParameterFault α)
  /-- raised by a problem, in its own words -/
  | evaluation (text : String)
  | file (fault : FileFault)
  | json (fault : JsonFault)

end LeastSquares
