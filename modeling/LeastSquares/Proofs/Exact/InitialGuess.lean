import Mathlib.Algebra.Polynomial.BigOperators
import Mathlib.Algebra.Polynomial.OfFn
import Mathlib.Algebra.Polynomial.Roots
import Mathlib.LinearAlgebra.Matrix.Rank
import LeastSquares.Proofs.Exact.Polynomial

/-!
# The first guess of a polynomial fit

The Vandermonde matrix maps coefficients to the values of their polynomial at the abscissae.  It is
injective if there are more different abscissae than the degree says, as a polynomial of that degree
with so many roots is zero (`PolynomialFit.injective_vandermonde`), and only then, as otherwise the
product of their linear factors vanishes at all of them (`PolynomialFit.not_injective_vandermonde`).
So this decides whether the normal equations can be solved, and then their solution is the only
least-squares polynomial.
-/

namespace LeastSquares
open Matrix Polynomial
variable {K : Type} [Field K] [LinearOrder K]

namespace PolynomialFit
variable (fit : PolynomialFit K)

/-- the different abscissae -/
def abscissae : Finset K := Finset.univ.image fit.data.x.get

/-- the sum of the squares of the residuals -/
def squaredError (coeffs : Array K) : K :=
  ∑ i : Fin fit.data.size, (evaluate coeffs (fit.data.x.get i) - fit.data.y.get i) ^ 2

/-! ## the Vandermonde matrix -/

theorem vandermonde_mulVec_toFn {P : K[X]} (hP : P.natDegree ≤ fit.degree)
    (i : Fin fit.data.size) :
    (fit.vandermonde.toMatrix *ᵥ toFn fit.parameterCount P) i = P.eval (fit.data.x.get i) := by
  have hdegree : P.natDegree < fit.parameterCount := Nat.lt_succ_of_le hP
  rw [← get_ofFn (toFn fit.parameterCount P), vandermonde_mulVec, evaluate_eq, get_ofFn,
    eval_eq_sum_range' hdegree, Finset.sum_range]
  rfl

/-- coefficients that give zero at more abscissae than the degree says are zero -/
theorem injective_vandermonde (h : fit.degree < fit.abscissae.card) :
    Function.Injective fit.vandermonde.toMatrix.mulVec := by
  intro c d hcd
  let P := ofFn fit.parameterCount (c - d)
  have hcoeffs : toFn fit.parameterCount P = c - d := toFn_comp_ofFn_eq_id _ _
  have hdegree : P.natDegree ≤ fit.degree :=
    Nat.le_of_lt_succ (ofFn_natDegree_lt (Nat.succ_pos _) _)
  have hroots : ∀ x ∈ fit.abscissae, P.eval x = 0 := by
    intro x hx
    obtain ⟨i, -, rfl⟩ := Finset.mem_image.mp hx
    rw [← fit.vandermonde_mulVec_toFn hdegree, hcoeffs, mulVec_sub, hcd, sub_self]
    rfl
  have hzero : P = 0 :=
    eq_zero_of_natDegree_lt_card_of_eval_eq_zero' P _ hroots (hdegree.trans_lt h)
  rw [hzero, map_zero] at hcoeffs
  exact sub_eq_zero.mp hcoeffs.symm

/-- with few abscissae their linear factors make a polynomial that vanishes at all of them -/
theorem not_injective_vandermonde (h : fit.abscissae.card ≤ fit.degree) :
    ¬ Function.Injective fit.vandermonde.toMatrix.mulVec := by
  intro hinjective
  let P : K[X] := ∏ x ∈ fit.abscissae, (X - C x)
  have hdegree : P.natDegree ≤ fit.degree :=
    (natDegree_finsetProd_X_sub_C_eq_card fit.abscissae id).trans_le h
  have hvanishes : fit.vandermonde.toMatrix *ᵥ toFn fit.parameterCount P = 0 := by
    funext i
    rw [fit.vandermonde_mulVec_toFn hdegree, eval_prod]
    refine Finset.prod_eq_zero (Finset.mem_image_of_mem _ (Finset.mem_univ i)) ?_
    rw [eval_sub, eval_X, eval_C, sub_self]
  have hcoeffs : toFn fit.parameterCount P = 0 := by
    apply hinjective
    rw [hvanishes, mulVec_zero]
  have hzero : P = 0 := by
    rw [← ofFn_comp_toFn_eq_id_of_natDegree_lt (Nat.lt_succ_of_le hdegree)]
    show ofFn fit.parameterCount (toFn fit.parameterCount P) = 0
    rw [hcoeffs, map_zero]
  exact (monic_prod_X_sub_C id fit.abscissae).ne_zero hzero

/-! ## the normal equations -/

/-- the sum of the squares is the squared norm of the residuals -/
theorem squaredError_eq (coeffs : Vector K fit.parameterCount) :
    fit.squaredError coeffs.toArray =
      normSq (fit.vandermonde.toMatrix *ᵥ coeffs.get + -fit.data.y.get) := by
  unfold squaredError normSq dotProduct
  refine Finset.sum_congr rfl fun i _ => ?_
  rw [Pi.add_apply, vandermonde_mulVec, Pi.neg_apply, ← sub_eq_add_neg, pow_two]

variable [IsStrictOrderedRing K]

/-- the normal equations can be solved exactly if the Vandermonde matrix is injective -/
theorem isUnit_normal_iff : IsUnit (fit.vandermonde.transpose.mul fit.vandermonde).toMatrix ↔
    Function.Injective fit.vandermonde.toMatrix.mulVec := by
  rw [Mat.toMatrix_mul, Mat.toMatrix_transpose, ← mulVec_injective_iff_isUnit, ← coe_mulVecLin,
    ← coe_mulVecLin, ← LinearMap.ker_eq_bot, ← LinearMap.ker_eq_bot,
    ker_mulVecLin_transpose_mul_self]

theorem exists_initialGuess (h : fit.degree < fit.abscissae.card) :
    ∃ c : Vector K fit.parameterCount, fit.initialGuess = .ok c.toArray ∧
      fit.vandermonde.toMatrixᵀ *ᵥ
        (fit.vandermonde.toMatrix *ᵥ c.get + -fit.data.y.get) = 0 := by
  have hunit := fit.isUnit_normal_iff.mpr (fit.injective_vandermonde h)
  obtain ⟨c, hc⟩ :=
    (Mat.isUnit_iff_solve (fit.vandermonde.transpose.mulVec fit.data.y)).mp hunit
  refine ⟨c, ?_, ?_⟩
  · unfold initialGuess
    dsimp only
    rw [hc]
  · have hsolves := (Mat.mulVec_eq_iff_of_solve hc).mpr rfl
    rw [Mat.get_mulVec, Mat.toMatrix_mul, Mat.toMatrix_transpose] at hsolves
    rw [mulVec_add, mulVec_mulVec, hsolves, mulVec_neg, add_neg_cancel]

/-- data on a polynomial give back its coefficients -/
theorem initialGuess_of_interpolates (h : fit.degree < fit.abscissae.card) {P : K[X]}
    (hP : P.natDegree ≤ fit.degree)
    (hdata : ∀ i, P.eval (fit.data.x.get i) = fit.data.y.get i) :
    fit.initialGuess = .ok (Vector.ofFn fun k : Fin fit.parameterCount => P.coeff k).toArray := by
  obtain ⟨c, hc, hstationary⟩ := fit.exists_initialGuess h
  have hexact : fit.vandermonde.toMatrix *ᵥ toFn fit.parameterCount P + -fit.data.y.get = 0 := by
    funext i
    rw [Pi.add_apply, fit.vandermonde_mulVec_toFn hP, hdata]
    exact add_neg_cancel _
  have hsame : c.get = toFn fit.parameterCount P := by
    by_contra hne
    have hlt := normSq_lt_of_stationary (fit.injective_vandermonde h) hstationary (Ne.symm hne)
    have hzero : normSq (0 : Fin fit.data.size → K) = 0 := zero_dotProduct _
    rw [hexact, hzero] at hlt
    exact hlt.not_ge (normSq_nonneg _)
  have hcoeffs : c = Vector.ofFn fun k : Fin fit.parameterCount => P.coeff k := by
    apply ext_get
    rw [hsame, get_ofFn]
    rfl
  rw [hc, hcoeffs]

theorem initialGuess_of_few (h : ¬ fit.degree < fit.abscissae.card) :
    fit.initialGuess = .error .singular := by
  have hnot := mt fit.isUnit_normal_iff.mp
    (fit.not_injective_vandermonde (Nat.le_of_not_lt h))
  have hnone : (fit.vandermonde.transpose.mul fit.vandermonde).solve
      (fit.vandermonde.transpose.mulVec fit.data.y) = none := by
    rw [Option.eq_none_iff_forall_ne_some]
    intro c hc
    exact hnot ((Mat.isUnit_iff_solve _).mpr ⟨c, hc⟩)
  unfold initialGuess
  dsimp only
  rw [hnone]

end PolynomialFit

/-- **The first guess is the least-squares polynomial.**  There is one exactly if there are more
different abscissae than the degree says; then no other polynomial of that degree has a smaller sum
of squared residuals, and data that lie on a polynomial give back its coefficients. -/
theorem initialGuess_leastSquares (fit : PolynomialFit ℚ) :
    ((∃ c, fit.initialGuess = .ok c) ↔ fit.degree + 1 ≤ fit.abscissae.card) ∧
    (¬ fit.degree + 1 ≤ fit.abscissae.card → fit.initialGuess = .error .singular) ∧
    (∀ c, fit.initialGuess = .ok c → c.size = fit.degree + 1 ∧
      ∀ d : Array ℚ, d.size = fit.degree + 1 → d ≠ c → fit.squaredError c < fit.squaredError d) ∧
    ∀ P : ℚ[X], P.natDegree ≤ fit.degree → (∀ i, P.eval (fit.data.x.get i) = fit.data.y.get i) →
      fit.degree + 1 ≤ fit.abscissae.card →
      fit.initialGuess = .ok (Array.ofFn fun k : Fin (fit.degree + 1) => P.coeff k) := by
  refine ⟨?_, ?_, ?_, ?_⟩
  · refine ⟨?_, ?_⟩
    · intro ⟨c, hc⟩
      by_contra hfew
      rw [fit.initialGuess_of_few hfew] at hc
      cases hc
    · intro h
      obtain ⟨c, hc, -⟩ := fit.exists_initialGuess h
      exact ⟨_, hc⟩
  · exact fit.initialGuess_of_few
  · intro c hc
    by_cases h : fit.degree < fit.abscissae.card
    · obtain ⟨v, hv, hstationary⟩ := fit.exists_initialGuess h
      obtain rfl := Except.ok.inj (hv.symm.trans hc)
      refine ⟨v.size_toArray, ?_⟩
      intro d hd hne
      obtain ⟨w, rfl⟩ : ∃ w : Vector ℚ fit.parameterCount, d = w.toArray := ⟨⟨d, hd⟩, rfl⟩
      have hget : w.get ≠ v.get := fun hget => hne (congrArg Vector.toArray (ext_get hget))
      rw [fit.squaredError_eq, fit.squaredError_eq]
      exact normSq_lt_of_stationary (fit.injective_vandermonde h) hstationary hget
    · rw [fit.initialGuess_of_few h] at hc
      cases hc
  · intro P hP hdata h
    exact fit.initialGuess_of_interpolates h hP hdata

/-- three points on the parabola `y = x²`, one of them observed twice -/
def parabola (degree : Nat) : PolynomialFit ℚ := ⟨⟨4, #v[0, 1, 1, 2], #v[0, 1, 1, 4]⟩, degree⟩

/-- the repeated point does not help to find a polynomial of the third degree -/
theorem parabola_initialGuess : (parabola 2).initialGuess = .ok #[0, 0, 1] ∧
    (parabola 3).initialGuess = .error .singular := by
  have hcard (d : Nat) : (parabola d).abscissae.card = 3 := by
    show (Finset.univ.image (#v[(0 : ℚ), 1, 1, 2]).get).card = 3
    decide +kernel
  refine ⟨?_, ?_⟩
  · obtain ⟨-, -, -, hexact⟩ := initialGuess_leastSquares (parabola 2)
    have hdata (i : Fin 4) : (X ^ 2 : ℚ[X]).eval ((parabola 2).data.x.get i) =
        (parabola 2).data.y.get i := by
      rw [eval_pow, eval_X]
      revert i
      show ∀ i : Fin 4, #v[(0 : ℚ), 1, 1, 2].get i ^ 2 = #v[(0 : ℚ), 1, 1, 4].get i
      decide +kernel
    rw [hexact (X ^ 2) (natDegree_X_pow_le 2) hdata (hcard 2).ge]
    have hcoeffs : (Array.ofFn fun k : Fin 3 => (X ^ 2 : ℚ[X]).coeff k) = #[0, 0, 1] := by
      simp [Array.ofFn_succ, coeff_X_pow]
    exact congrArg Except.ok hcoeffs
  · obtain ⟨-, hfew, -, -⟩ := initialGuess_leastSquares (parabola 3)
    refine hfew ?_
    rw [hcard 3]
    decide

end LeastSquares
