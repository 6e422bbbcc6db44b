import Mathlib.Tactic.Ring
import LeastSquares.Problem.Curve
import LeastSquares.Problem.Polynomial
import LeastSquares.Proofs.Exact.Affine

/-!
# Polynomials over exact arithmetic

Repeated squaring computes powers (`power_eq`), by induction along the halving of the exponent, and
nested multiplication the sum of the coefficients times the powers (`evaluate_eq`), by induction on
the coefficients.  So the residuals of a polynomial fit are affine in the coefficients, with the
Vandermonde matrix (`PolynomialFit.residuals_eq`), and central differences find just that matrix
(`PolynomialFit.centralDifference_residuals`).

The same fit is a curve whose model evaluates the polynomial (`PolynomialFit.curve`); as such it has
no Jacobian of its own.
-/

namespace LeastSquares
open Matrix
variable {K : Type} [Field K] [LinearOrder K]

/-! ## powers -/

/-- the low bit of the exponent is one factor or none -/
theorem mul_pow_mod_two (r x : K) (k : Nat) :
    (if k % 2 = 1 then r * x else r) = r * x ^ (k % 2) := by
  rcases Nat.mod_two_eq_zero_or_one k with h | h
  · rw [h, if_neg Nat.zero_ne_one, pow_zero, mul_one]
  · rw [h, if_pos rfl, pow_one]

theorem powerFrom_eq (r x : K) (k : Nat) : powerFrom r x k = r * x ^ k := by
  fun_induction powerFrom r x k with
  | case1 r x k r' hk ih =>
    have hlow : r' = r * x ^ (k % 2) := mul_pow_mod_two r x k
    have hsquare : (x * x) ^ (k / 2) = x ^ (2 * (k / 2)) := by rw [← pow_two, pow_mul]
    calc powerFrom r' (x * x) (k / 2) = r' * (x * x) ^ (k / 2) := ih
      _ = r * x ^ (k % 2) * x ^ (2 * (k / 2)) := by rw [hlow, hsquare]
      _ = r * x ^ k := by rw [mul_assoc, ← pow_add, Nat.mod_add_div]
  | case2 r x k r' hk =>
    have hlow : r' = r * x ^ (k % 2) := mul_pow_mod_two r x k
    rw [hlow, Nat.mod_eq_of_lt (Nat.lt_of_not_le hk)]

theorem power_eq (x : K) (k : Nat) : power x k = x ^ k := by
  unfold power
  rw [powerFrom_eq]
  exact one_mul _

/-! ## nested multiplication -/

theorem foldr_nested (coeffs : List K) (x : K) :
    coeffs.foldr (fun c acc => acc * x + c) 0 =
      ∑ k : Fin coeffs.length, coeffs.get k * x ^ k.val := by
  induction coeffs with
  | nil => rfl
  | cons c coeffs ih =>
    rw [List.foldr_cons, ih]
    show _ = ∑ k : Fin (coeffs.length + 1), _
    rw [Fin.sum_univ_succ, Finset.sum_mul, add_comm]
    refine congrArg₂ (· + ·) ?_ (Finset.sum_congr rfl fun k _ => ?_)
    · show c = c * x ^ 0
      rw [pow_zero, mul_one]
    · show coeffs.get k * x ^ k.val * x = coeffs.get k * x ^ (k.val + 1)
      rw [pow_succ, mul_assoc]

namespace PolynomialFit

theorem evaluate_eq {n : Nat} (coeffs : Vector K n) (x : K) :
    evaluate coeffs.toArray x = ∑ k : Fin n, coeffs.get k * x ^ k.val := by
  obtain ⟨coeffs, rfl⟩ := coeffs
  unfold evaluate
  rw [← Array.foldr_toList]
  exact foldr_nested coeffs.toList x

/-! ## residuals and Jacobian -/

variable (fit : PolynomialFit K)

theorem entry_vandermonde (i : Fin fit.data.size) (k : Fin fit.parameterCount) :
    fit.vandermonde.entry i k = fit.data.x.get i ^ k.val := by
  unfold vandermonde
  rw [Mat.entry_ofFn, power_eq]
  rfl

/-- the Vandermonde matrix maps coefficients to the values of their polynomial -/
theorem vandermonde_mulVec (coeffs : Vector K fit.parameterCount) (i : Fin fit.data.size) :
    (fit.vandermonde.toMatrix *ᵥ coeffs.get) i =
      evaluate coeffs.toArray (fit.data.x.get i) := by
  rw [evaluate_eq]
  show ∑ k : Fin fit.parameterCount, fit.vandermonde.toMatrix i k * coeffs.get k = _
  refine Finset.sum_congr rfl fun k _ => ?_
  rw [Mat.toMatrix_apply, entry_vandermonde, mul_comm]

/-- the residuals are affine in the coefficients -/
theorem residuals_eq (coeffs : Vector K fit.parameterCount) :
    fit.residuals coeffs.toArray = affine fit.vandermonde.toMatrix (-fit.data.y.get) coeffs := by
  apply ext_get
  funext i
  unfold residuals
  rw [get_affine, Pi.add_apply, vandermonde_mulVec, get_zipWith, get_map]
  exact sub_eq_add_neg _ _

/-! ## as problems -/

section
variable {σ α : Type} [Scalar α]

/-- the same fit as a curve, whose model evaluates the polynomial -/
def curve (p : PolynomialFit α) : Curve α := ⟨p.data, fun x coeffs => evaluate coeffs x⟩

theorem problem_residuals (p : PolynomialFit α) (x : Vector α p.parameterCount) :
    (p.problem : Problem σ α).residuals x.toArray = pure (p.residuals x.toArray).toArray := by
  have hcount : (p.checkCount x.toArray : Evaluation σ α Unit) = pure () := if_pos x.size_toArray
  unfold problem
  dsimp only
  rw [hcount, pure_bind]

theorem problem_jacobian (p : PolynomialFit α) (x : Vector α p.parameterCount) (r : Array α)
    (ε : α) : (p.problem : Problem σ α).jacobian x.toArray r ε = pure ⟨_, _, p.vandermonde⟩ := by
  have hcount : (p.checkCount x.toArray : Evaluation σ α Unit) = pure () := if_pos x.size_toArray
  unfold problem
  dsimp only
  rw [hcount, pure_bind]

theorem curve_residuals (p : PolynomialFit α) (x : Array α) :
    (p.curve.problem : Problem σ α).residuals x = pure (p.residuals x).toArray := rfl

end

/-- the central difference of the residuals is the Vandermonde matrix -/
theorem centralDifference_residuals [IsStrictOrderedRing K] {σ : Type}
    {f : Array K → Evaluation σ K (Array K)}
    (hf : ∀ x : Vector K fit.parameterCount, f x.toArray = pure (fit.residuals x.toArray).toArray)
    (x : Vector K fit.parameterCount) (r : Vector K fit.data.size) {ε : K} (hε : ε ≠ 0) :
    centralDifference f x.toArray r.toArray ε = pure ⟨_, _, fit.vandermonde⟩ := by
  simp only [residuals_eq] at hf
  rw [centralDifference_affine hf x r hε]
  have hentries : Mat.ofFn .rowMajor (fun i j => fit.vandermonde.toMatrix i j) =
      fit.vandermonde := by
    refine Mat.ext_entry rfl fun i j => ?_
    rw [Mat.entry_ofFn]
    rfl
  rw [hentries]

end PolynomialFit
end LeastSquares
