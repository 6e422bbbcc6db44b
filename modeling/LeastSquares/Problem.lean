import LeastSquares.Linear.Dense

/-!
# Problems

A problem evaluates residuals at a point and, for its Jacobian, either has a method of its own or
differentiates the residuals numerically.  An evaluation may fail and may depend on what was
evaluated before: it runs in a state `σ` of the problem, and the state is kept when it fails.

Column `j` of a numeric Jacobian is `(f(x + ε eⱼ) - f(x - ε eⱼ)) / (2 ε)`, so the whole costs two
evaluations for every parameter, in the order of the columns, the forward one first.  The length
of the residuals at `x` fixes the number of rows; after the two evaluations of a column both
lengths are compared with it, the forward one first.
-/

namespace LeastSquares

/-- an evaluation of a problem with the state `σ` -/
abbrev Evaluation (σ α : Type) := ExceptT (Failure α) (StateM σ)

structure Problem (σ α : Type) where
  residuals : Array α → Evaluation σ α (Array α)
  /-- the Jacobian at a point with known residuals, for a given difference step -/
  jacobian : Array α → Array α → α → Evaluation σ α (DenseMatrix α)
  /-- does the Jacobian cost no evaluation of the residuals?  Only the count of evaluations
  depends on it -/
  hasCustomJacobian : Bool

def Problem.residualNorm {σ α : Type} [RealScalar α] (p : Problem σ α) (x : Array α) :
    Evaluation σ α α := do
  return norm (← p.residuals x)

/-! ## central differences -/

variable {σ α : Type} [Scalar α]

/-- the point with `ε` added to coordinate `j` -/
def forwardPoint (x : Array α) (ε : α) (j : Fin x.size) : Array α := x.set j (x[j] + ε)

def backwardPoint (x : Array α) (ε : α) (j : Fin x.size) : Array α := x.set j (x[j] - ε)

/-- the residuals at a perturbed point, at the length `m` -/
def expectLength (m : Nat) (r : Array α) : Evaluation σ α (Vector α m) :=
  if h : r.size = m then pure ⟨r, h⟩ else throw (.dimension (.perturbedLength m r.size))

def differenceColumn (f : Array α → Evaluation σ α (Array α)) (x : Array α) (m : Nat) (ε : α)
    (j : Fin x.size) : Evaluation σ α (Vector α m) := do
  let forward ← f (forwardPoint x ε j)
  let backward ← f (backwardPoint x ε j)
  let forward ← expectLength m forward
  let backward ← expectLength m backward
  return forward.zipWith (fun u v => (u - v) / (Scalar.two * ε)) backward

/-- the finite-difference Jacobian of `f` at `x`, where its residuals are `r` -/
def centralDifference (f : Array α → Evaluation σ α (Array α)) (x r : Array α) (ε : α) :
    Evaluation σ α (DenseMatrix α) := do
  let columns ← Vector.ofFnM (differenceColumn f x r.size ε)
  return ⟨r.size, x.size, .ofFn .rowMajor fun i j => columns[j][i]⟩

def Problem.ofResiduals (f : Array α → Evaluation σ α (Array α)) : Problem σ α where
  residuals := f
  jacobian := centralDifference f
  hasCustomJacobian := false

/-- the problem of a function that cannot fail -/
def Problem.ofFunction (f : Array α → StateM σ (Array α)) : Problem σ α :=
  .ofResiduals fun x => ExceptT.lift (f x)

end LeastSquares
