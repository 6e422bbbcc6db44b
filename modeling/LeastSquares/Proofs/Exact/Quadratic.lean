import Mathlib
import LeastSquares.Proofs.Exact.Arithmetic
import LeastSquares.Proofs.Linear.System
import LeastSquares.Proofs.Problem.Differences

/-!
# Central differences of quadratic residuals

Around a point the residuals are looked at along one coordinate at a time.  Where they are
polynomials of degree at most two along each of them (`IsQuadratic`), the even part of a polynomial
cancels in the difference and what is left over the step is its derivative (`central_quotient`),
however large the step is.  So there the finite-difference Jacobian is the matrix of the partial
derivatives.
-/

namespace LeastSquares
open Polynomial

/-! ## one coordinate -/

section
variable {K : Type} [Field K]

/-- along every single coordinate each residual is a polynomial of degree at most two -/
def IsQuadratic {m n : Nat} (f : Vector K n → Vector K m) : Prop :=
  ∀ (x : Vector K n) (i : Fin m) (j : Fin n), ∃ P : K[X], P.natDegree ≤ 2 ∧
    ∀ t, (f (x.set j t j.isLt)).get i = P.eval t

theorem central_quotient [CharZero K] {P : K[X]} (hP : P.natDegree ≤ 2) (t : K) {ε : K}
    (hε : ε ≠ 0) : (P.eval (t + ε) - P.eval (t - ε)) / (2 * ε) = P.derivative.eval t := by
  rw [eq_quadratic_of_degree_le_two (natDegree_le_iff_degree_le.mp hP)]
  simp only [derivative_add, derivative_C_mul_X_sq, derivative_C_mul_X, derivative_C, add_zero,
    eval_add, eval_mul, eval_pow, eval_C, eval_X]
  field_simp
  ring

end

/-! ## the Jacobian -/

/-- **Central differences of quadratic residuals are exact.**  Whatever the difference step is, they
return the matrix of the partial derivatives. -/
theorem centralDifference_quadratic {σ : Type} {m n : Nat} {f : Vector ℚ n → Vector ℚ m}
    (hf : IsQuadratic f) {residuals : Array ℚ → Evaluation σ ℚ (Array ℚ)}
    (hresiduals : ∀ x : Vector ℚ n, residuals x.toArray = pure (f x).toArray) (x : Vector ℚ n)
    {ε : ℚ} (hε : 0 < ε) :
    ∃ J : Mat ℚ m n, centralDifference residuals x.toArray (f x).toArray ε = pure ⟨m, n, J⟩ ∧
      ∀ (i : Fin m) (j : Fin n),
        HasDerivAt (fun t => (f (x.set j t j.isLt)).get i) (J.entry i j) (x.get j) := by
  refine ⟨_, centralDifference_eq (fun j => hresiduals _) (fun j => hresiduals _) (f x), ?_⟩
  intro i j
  obtain ⟨P, hdegree, hP⟩ := hf x i j
  rw [Mat.entry_ofFn, hP, hP]
  simp only [hP]
  have hquotient : (P.eval (x.get j + ε) - P.eval (x.get j - ε)) / (Scalar.two * ε) =
      P.derivative.eval (x.get j) := central_quotient hdegree (x.get j) hε.ne'
  rw [hquotient]
  exact P.hasDerivAt (x.get j)

/-- the square of the product of two parameters, which is not quadratic in both of them together -/
def squaredProduct (x : Vector ℚ 2) : Vector ℚ 1 := #v[(x[0] * x[1]) ^ 2]

def squaredProductProblem : Problem Unit ℚ :=
  .ofResiduals fun x => if h : x.size = 2 then pure (squaredProduct ⟨x, h⟩).toArray
    else throw (.evaluation "two parameters are expected")

theorem isQuadratic_squaredProduct : IsQuadratic squaredProduct := by
  intro x i j
  obtain rfl : i = 0 := Subsingleton.elim _ _
  have hmoved (t : ℚ) : (squaredProduct (x.set j t j.isLt)).get 0 =
      (Function.update x.get j t 0 * Function.update x.get j t 1) ^ 2 := by
    rw [← get_set]
    rfl
  simp only [hmoved]
  match j with
  | 0 =>
    refine ⟨C (x.get 1 ^ 2) * X ^ 2, natDegree_C_mul_X_pow_le _ _, ?_⟩
    intro t
    rw [eval_mul, eval_pow, eval_C, eval_X, Function.update_self,
      Function.update_of_ne Fin.zero_ne_one.symm, mul_pow, mul_comm]
  | 1 =>
    refine ⟨C (x.get 0 ^ 2) * X ^ 2, natDegree_C_mul_X_pow_le _ _, ?_⟩
    intro t
    rw [eval_mul, eval_pow, eval_C, eval_X, Function.update_self,
      Function.update_of_ne Fin.zero_ne_one, mul_pow]

/-- with the difference step five the Jacobian is still exact -/
theorem squaredProduct_centralDifference : IsQuadratic squaredProduct ∧
    (∀ x : Vector ℚ 2,
      squaredProductProblem.residuals x.toArray = pure (squaredProduct x).toArray) ∧
    (0 : ℚ) < 5 ∧ ∃ J : Mat ℚ 1 2,
      centralDifference squaredProductProblem.residuals #[2, 3] #[36] 5 = pure ⟨1, 2, J⟩ ∧
      ∀ (i : Fin 1) (j : Fin 2), HasDerivAt
        (fun t => (squaredProduct (#v[2, 3].set j t j.isLt)).get i) (J.entry i j)
        (#v[(2 : ℚ), 3].get j) := by
  have hpos : (0 : ℚ) < 5 := by norm_num
  have hvalue : squaredProduct #v[2, 3] = #v[36] := by decide +kernel
  have hresiduals (x : Vector ℚ 2) :
      squaredProductProblem.residuals x.toArray = pure (squaredProduct x).toArray :=
    dif_pos x.size_toArray
  obtain ⟨J, hJ, hderiv⟩ :=
    centralDifference_quadratic isQuadratic_squaredProduct hresiduals #v[2, 3] hpos
  rw [hvalue] at hJ
  exact ⟨isQuadratic_squaredProduct, hresiduals, hpos, J, hJ, hderiv⟩

end LeastSquares
