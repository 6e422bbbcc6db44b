import LeastSquares.Proofs.Exact.Polynomial
import LeastSquares.Proofs.Solver.Charging
import LeastSquares.Proofs.Solver.Stationary

/-!
# Two ways to fit a polynomial

Without rounding it makes no difference to a polynomial fit whether its Jacobian is the Vandermonde
matrix or is differentiated numerically: the two problems answer the same at every point that the
solver asks for (`PolynomialFit.sameAt_curve`), so only the count of the evaluations differs.
-/

namespace LeastSquares
variable {σ : Type}

namespace PolynomialFit

theorem exists_outcome_curve (fit : PolynomialFit ℝ) {config : Config ℝ}
    (hvalid : config.validate = .ok ()) (x₀ : Vector ℝ fit.parameterCount) (q : σ) :
    ∃ o, ((minimize config fit.curve.problem x₀.toArray).run q).1.result = .ok o := by
  have hsize : x₀.toArray.size = fit.parameterCount := x₀.size_toArray
  have hpure : (fit.curve.problem : Problem σ ℝ).IsPure
      (.ofResiduals fun x => .ok (fit.residuals x).toArray) :=
    Problem.isPure_ofResiduals fun _ _ => rfl
  refine exists_outcome_of_answers (m := fit.data.size) hpure ?_ hvalid ?_ q
  · rw [hsize]
    exact PureProblem.answers_ofResiduals fun x => ⟨fit.residuals x.toArray, rfl⟩
  · rw [hsize]
    exact Nat.succ_ne_zero fit.degree

/-- at as many coefficients as the polynomial has, the curve answers what the fit does -/
theorem sameAt_curve (fit : PolynomialFit ℝ) {ε : ℝ} (hε : ε ≠ 0) :
    Solve.SameAt (fun _ _ => True) fit.parameterCount (fun r => r.size = fit.data.size) ε
      (fit.problem : Problem σ ℝ) (fit.curve.problem : Problem σ ℝ) where
  residuals x := by
    rw [problem_residuals, curve_residuals]
    exact .pure fun _ _ _ => ⟨⟨rfl, (fit.residuals x.toArray).size_toArray⟩, trivial⟩
  jacobian x r hr := by
    have hcurve : (fit.curve.problem : Problem σ ℝ).jacobian x.toArray r ε =
        pure ⟨_, _, fit.vandermonde⟩ :=
      fit.centralDifference_residuals (fun x => fit.curve_residuals x.toArray) x ⟨r, hr⟩ hε
    rw [problem_jacobian, hcurve]
    exact .pure fun _ _ _ => ⟨rfl, trivial⟩

end PolynomialFit

/-- **Without rounding, a polynomial fit and the same fit as a curve are the same run.**  The
central difference of the residuals is the Vandermonde matrix, both solves return, and they return
the same, except that the curve has counted two evaluations more for every coefficient and every
record that is not below the tolerance. -/
theorem minimize_polynomialFit (fit : PolynomialFit ℝ) {config : Config ℝ}
    (hvalid : config.validate = .ok ()) (x₀ : Vector ℝ fit.parameterCount) (q : σ) :
    (∀ (x : Vector ℝ fit.parameterCount) (ε : ℝ), 0 < ε →
      (centralDifference fit.problem.residuals x.toArray (fit.residuals x.toArray).toArray ε :
        Evaluation σ ℝ (DenseMatrix ℝ)) = pure ⟨_, _, fit.vandermonde⟩) ∧
    ∃ o, ((minimize config fit.problem x₀.toArray).run q).1.result = .ok o ∧
      ((minimize config fit.curve.problem x₀.toArray).run q).1.result =
        .ok (o.charged config.tolerance (2 * (fit.degree + 1))) := by
  refine ⟨?_, ?_⟩
  · intro x ε hε
    exact fit.centralDifference_residuals fit.problem_residuals x (fit.residuals x.toArray) hε.ne'
  · have hε := (Config.validate_real.mp hvalid).2.1
    obtain ⟨o', ho'⟩ := fit.exists_outcome_curve hvalid x₀ q
    obtain ⟨report, report', u, v, hfit, hcurve, -, hcharged⟩ :=
      Solve.exists_charged config (fit.sameAt_curve hε.ne') rfl rfl x₀ (u := q) (v := q) trivial
    rw [hcurve] at ho'
    rw [hfit, hcurve]
    cases hcharged with
    | failed => cases ho'
    | returned => exact ⟨_, rfl, rfl⟩

/-- a straight line through two points -/
noncomputable def twoPoints : PolynomialFit ℝ := ⟨⟨2, #v[0, 1], #v[1, 3]⟩, 1⟩

theorem twoPoints_curve : threePasses.validate = .ok () ∧
    (∀ (x : Vector ℝ 2) (ε : ℝ), 0 < ε →
      (centralDifference twoPoints.problem.residuals x.toArray
        (twoPoints.residuals x.toArray).toArray ε : Evaluation Unit ℝ (DenseMatrix ℝ)) =
        pure ⟨2, 2, twoPoints.vandermonde⟩) ∧
    ∃ o, ((minimize threePasses twoPoints.problem #[0, 0]).run ()).1.result = .ok o ∧
      ((minimize threePasses twoPoints.curve.problem #[0, 0]).run ()).1.result =
        .ok (o.charged 0 4) := by
  have hvalid : threePasses.validate = .ok () :=
    Config.validate_real.mpr ⟨one_pos, one_pos, le_refl (0 : ℝ)⟩
  exact ⟨hvalid, minimize_polynomialFit twoPoints hvalid #v[0, 0] ()⟩

end LeastSquares
