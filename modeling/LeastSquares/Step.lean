import LeastSquares.Linear.Dense

/-!
# The damped step

At a point with the Jacobian `J` and the residuals `r`, the step `s` for the damping `λ` solves
the damped normal equations `(JᵀJ + λ I) s = -Jᵀr`.

A candidate is accepted if it strictly lowers the residual norm.  The damping is halved after an
accepted step and doubled after a rejected one, and never leaves the range from `least` to
`greatest` on the side it moves to.
-/

namespace LeastSquares

/-! ## the step for a damping -/

section
variable {α : Type} [Scalar α] {m n : Nat}

def dampedNormal (J : Mat α m n) (damping : α) : Mat α n n :=
  (J.transpose.mul J).addDiagonal damping

/-- the gradient `Jᵀr` of half the squared norm -/
def gradient (J : Mat α m n) (r : Vector α m) : Vector α n := J.transpose.mulVec r

/-- the damped step, or `none` if a pivot of the damped normal equations is zero or not finite -/
def dampedStep (J : Mat α m n) (r : Vector α m) (damping : α) : Option (Vector α n) :=
  (dampedNormal J damping).solve ((gradient J r).map (- ·))

/-- the damped step for a Jacobian and residuals whose sizes are known at run time -/
def DenseMatrix.dampedStep (J : DenseMatrix α) (r : Array α) (damping : α) :
    Except (Failure α) (Array α) := do
  let normal ← J.transpose.mul J
  let gradient ← J.transpose.mulVec r
  let damped ← normal.addDiagonal damping
  damped.solve (negate gradient)

theorem DenseMatrix.dampedStep_mk (J : Mat α m n) (r : Vector α m) (damping : α) :
    (⟨m, n, J⟩ : DenseMatrix α).dampedStep r.toArray damping =
      match LeastSquares.dampedStep J r damping with
      | some s => .ok s.toArray
      | none => .error .singular := by
  have hn : negate (gradient J r).toArray = ((gradient J r).map (- ·)).toArray := by
    simp [negate]
  have hm : (⟨m, n, J⟩ : DenseMatrix α).transpose.mul ⟨m, n, J⟩ =
      .ok ⟨n, n, J.transpose.mul J⟩ := mul_mk J.transpose J
  have hv : (⟨m, n, J⟩ : DenseMatrix α).transpose.mulVec r.toArray =
      .ok (gradient J r).toArray := mulVec_toArray J.transpose r
  rw [DenseMatrix.dampedStep, hm]
  simp only [bind, Except.bind, hv, addDiagonal_mk, hn]
  exact solve_mk _ _

end

/-! ## control of the damping -/

namespace Damping
variable {α : Type} [RealScalar α]

/-- does a candidate with this residual norm replace the current point?  A NaN never does -/
def accepts (current candidate : α) : Bool := candidate < current

/-- half the damping, but not less than `least` -/
def relax (damping : α) : α :=
  let half := damping / Scalar.two
  if RealScalar.least < half then half else RealScalar.least

/-- twice the damping, but not more than `greatest` -/
def tighten (damping : α) : α :=
  let double := damping * Scalar.two
  if double < RealScalar.greatest then double else RealScalar.greatest

def next (accepted : Bool) (damping : α) : α :=
  if accepted then relax damping else tighten damping

@[simp] theorem next_true (damping : α) : next true damping = relax damping := rfl
@[simp] theorem next_false (damping : α) : next false damping = tighten damping := rfl

end Damping
end LeastSquares
