import LeastSquares.Problem.Curve

/-!
# Fitting a polynomial

A polynomial of fixed degree `d` has `d + 1` coefficients, the lowest power first.  Its Jacobian
is the Vandermonde matrix, whatever the coefficients are.
-/

namespace LeastSquares

/-- observations and the degree of the polynomial to fit to them -/
structure PolynomialFit (α : Type) where
  data : Observations α
  degree : Nat

/-! ## powers -/

section
variable {α : Type} [Scalar α]

/-- `r * x ^ k` by repeated squaring -/
def powerFrom (r x : α) (k : Nat) : α :=
  let r := if k % 2 = 1 then r * x else r
  if _h : 2 ≤ k then powerFrom r (x * x) (k / 2) else r
termination_by k

/-- `x ^ k` by repeated squaring, the low bit of `k` first -/
def power (x : α) (k : Nat) : α := powerFrom Scalar.one x k

end

namespace PolynomialFit
variable {σ α : Type} [Scalar α]

/-- the polynomial at `x`, by nested multiplication -/
def evaluate (coeffs : Array α) (x : α) : α :=
  coeffs.foldr (fun c acc => acc * x + c) Scalar.zero

def parameterCount (p : PolynomialFit α) : Nat := p.degree + 1

/-- entry `(i, k)` is the `k`-th power of abscissa `i` -/
def vandermonde (p : PolynomialFit α) : Mat α p.data.size p.parameterCount :=
  .ofFn .rowMajor fun i k => power p.data.x[i] k

/-- the coefficients that solve the normal equations `VᵀV c = Vᵀy` -/
def initialGuess (p : PolynomialFit α) : Except (Failure α) (Array α) :=
  let v := p.vandermonde
  match (v.transpose.mul v).solve (v.transpose.mulVec p.data.y) with
  | some c => .ok c.toArray
  | none => .error .singular

def residuals (p : PolynomialFit α) (coeffs : Array α) : Vector α p.data.size :=
  (p.data.x.map (evaluate coeffs)).zipWith (· - ·) p.data.y

def checkCount (p : PolynomialFit α) (coeffs : Array α) : Evaluation σ α Unit :=
  if coeffs.size = p.parameterCount then pure ()
  else throw (.dimension (.coefficients p.parameterCount coeffs.size))

def problem (p : PolynomialFit α) : Problem σ α where
  residuals coeffs := do
    p.checkCount coeffs
    return (p.residuals coeffs).toArray
  jacobian coeffs _ _ := do
    p.checkCount coeffs
    return ⟨_, _, p.vandermonde⟩
  hasCustomJacobian := true

end PolynomialFit
end LeastSquares
