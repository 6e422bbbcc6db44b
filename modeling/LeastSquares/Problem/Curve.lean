import LeastSquares.Problem

/-!
# Fitting a curve

Observed data are as many ordinates as abscissae; `Observations.ofArrays` is the only place where
two lengths meet.  A model `f(x, p)` is fitted to them through the residuals `f(xᵢ, p) - yᵢ`, with
the finite-difference Jacobian.
-/

namespace LeastSquares

/-- the points `(xᵢ, yᵢ)` -/
structure Observations (α : Type) where
  size : Nat
  x : Vector α size
  y : Vector α size

def Observations.ofArrays {α : Type} (x y : Array α) : Except (Failure α) (Observations α) :=
  if h : x.size = y.size then .ok ⟨y.size, ⟨x, h⟩, ⟨y, rfl⟩⟩
  else .error (.dimension (.observations x.size y.size))

structure Curve (α : Type) where
  data : Observations α
  model : α → Array α → α

namespace Curve
variable {σ α : Type} [Scalar α]

def predict (c : Curve α) (params : Array α) : Vector α c.data.size :=
  c.data.x.map fun x => c.model x params

def residuals (c : Curve α) (params : Array α) : Vector α c.data.size :=
  (c.predict params).zipWith (· - ·) c.data.y

def problem (c : Curve α) : Problem σ α :=
  .ofFunction fun params => pure (c.residuals params).toArray

end Curve

end LeastSquares
