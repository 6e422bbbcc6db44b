import Mathlib.LinearAlgebra.Matrix.DotProduct
import Mathlib.LinearAlgebra.Matrix.NonsingularInverse
import LeastSquares.Proofs.Exact.Elimination
import LeastSquares.Proofs.Linear.System
import LeastSquares.Step

/-!
# The damped step over exact arithmetic

With a positive damping the matrix `JᵀJ + λ I` is positive definite, whatever the rank of `J`, so
the damped normal equations have exactly one solution (`isUnit_normal`) and elimination finds it.

The step minimizes `dampedCost`: moving from a point by `d` changes the cost by twice the product of
`d` with the left-over of the normal equations, and by the quadratic form of `d`
(`dampedCost_add`).  At the step the first part vanishes, and the second is positive unless `d` is
zero.
-/

namespace LeastSquares
open Matrix
variable {K : Type} [Field K] {m n : Nat}

/-! ## squared norms -/

/-- the square of the Euclidean norm -/
def normSq (v : Fin n → K) : K := v ⬝ᵥ v

theorem normSq_add (u v : Fin n → K) : normSq (u + v) = normSq u + 2 * (u ⬝ᵥ v) + normSq v := by
  unfold normSq
  rw [add_dotProduct, dotProduct_add, dotProduct_add, dotProduct_comm v u]
  ring

theorem mulVec_add_add (A : Matrix (Fin m) (Fin n) K) (c : Fin m → K) (x d : Fin n → K) :
    A *ᵥ (x + d) + c = (A *ᵥ x + c) + A *ᵥ d := by
  rw [mulVec_add, add_right_comm]

section
variable [LinearOrder K] [IsStrictOrderedRing K]

theorem normSq_nonneg (v : Fin n → K) : 0 ≤ normSq v := by
  unfold normSq dotProduct
  exact Finset.sum_nonneg fun i _ => mul_self_nonneg (v i)

theorem normSq_pos {v : Fin n → K} (h : v ≠ 0) : 0 < normSq v := by
  refine lt_of_le_of_ne (normSq_nonneg v) ?_
  intro h0
  exact h (dotProduct_self_eq_zero.mp h0.symm)

end

/-! ## the damped normal equations -/

/-- the matrix `AᵀA + λ I` -/
def normal (A : Matrix (Fin m) (Fin n) K) (damping : K) : Matrix (Fin n) (Fin n) K :=
  Aᵀ * A + damping • 1

theorem dotProduct_normal_mulVec (A : Matrix (Fin m) (Fin n) K) (damping : K) (x y : Fin n → K) :
    x ⬝ᵥ (normal A damping *ᵥ y) = (A *ᵥ x) ⬝ᵥ (A *ᵥ y) + damping * (x ⬝ᵥ y) := by
  unfold normal
  rw [add_mulVec, smul_mulVec, one_mulVec, dotProduct_add, dotProduct_smul, smul_eq_mul,
    ← mulVec_mulVec, dotProduct_mulVec x Aᵀ, vecMul_transpose]

/-- `‖A x + r‖² + λ ‖x‖²` -/
def dampedCost (A : Matrix (Fin m) (Fin n) K) (r : Fin m → K) (damping : K) (x : Fin n → K) : K :=
  normSq (A *ᵥ x + r) + damping * normSq x

/-- the square of the cost is completed at `x` -/
theorem dampedCost_add (A : Matrix (Fin m) (Fin n) K) (r : Fin m → K) (damping : K)
    (x d : Fin n → K) :
    dampedCost A r damping (x + d) = dampedCost A r damping x +
      2 * (d ⬝ᵥ (normal A damping *ᵥ x + Aᵀ *ᵥ r)) + (normSq (A *ᵥ d) + damping * normSq d) := by
  have hgradient : d ⬝ᵥ (Aᵀ *ᵥ r) = r ⬝ᵥ (A *ᵥ d) := by
    rw [dotProduct_mulVec, vecMul_transpose, dotProduct_comm]
  unfold dampedCost
  rw [mulVec_add_add, normSq_add, normSq_add x d, dotProduct_add, dotProduct_normal_mulVec,
    hgradient, add_dotProduct, dotProduct_comm (A *ᵥ d), dotProduct_comm d x]
  ring

section
variable [LinearOrder K] [IsStrictOrderedRing K] {A : Matrix (Fin m) (Fin n) K} {damping : K}

theorem dampedForm_pos (h : 0 < damping) {d : Fin n → K} (hd : d ≠ 0) :
    0 < normSq (A *ᵥ d) + damping * normSq d :=
  add_pos_of_nonneg_of_pos (normSq_nonneg _) (mul_pos h (normSq_pos hd))

theorem isUnit_normal (h : 0 < damping) : IsUnit (normal A damping) := by
  rw [← mulVec_injective_iff_isUnit]
  intro x y hxy
  by_contra hne
  have hpos := dampedForm_pos (A := A) h (sub_ne_zero.mpr hne)
  have hform := dotProduct_normal_mulVec A damping (x - y) (x - y)
  have hzero : normal A damping *ᵥ (x - y) = 0 := by
    rw [mulVec_sub, sub_eq_zero]
    exact hxy
  rw [hzero, dotProduct_zero] at hform
  exact hpos.ne hform

theorem dampedCost_lt (h : 0 < damping) {r : Fin m → K} {s x : Fin n → K}
    (hs : normal A damping *ᵥ s = -(Aᵀ *ᵥ r)) (hx : x ≠ s) :
    dampedCost A r damping s < dampedCost A r damping x := by
  have hcost := dampedCost_add A r damping s (x - s)
  rw [add_sub_cancel, hs, neg_add_cancel, dotProduct_zero, mul_zero, add_zero] at hcost
  rw [hcost]
  exact lt_add_of_pos_right _ (dampedForm_pos h (sub_ne_zero.mpr hx))

end

/-! ## the step -/

section
variable [LinearOrder K]

theorem toMatrix_dampedNormal (J : Mat K m n) (damping : K) :
    (dampedNormal J damping).toMatrix = normal J.toMatrix damping := by
  unfold dampedNormal
  rw [Mat.toMatrix_addDiagonal, Mat.toMatrix_mul, Mat.toMatrix_transpose]
  rfl

theorem get_neg_gradient (J : Mat K m n) (r : Vector K m) :
    ((gradient J r).map (- ·)).get = -(J.toMatrixᵀ *ᵥ r.get) := by
  rw [← Mat.toMatrix_transpose, ← Mat.get_mulVec]
  funext i
  exact get_map _ _ i

variable [IsStrictOrderedRing K]

/-- with a positive damping there is a step, and it solves the damped normal equations -/
theorem exists_dampedStep (J : Mat K m n) (r : Vector K m) {damping : K} (h : 0 < damping) :
    ∃ s : Vector K n, dampedStep J r damping = some s ∧
      normal J.toMatrix damping *ᵥ s.get = -(J.toMatrixᵀ *ᵥ r.get) := by
  have hunit : IsUnit (dampedNormal J damping).toMatrix := by
    rw [toMatrix_dampedNormal]
    exact isUnit_normal h
  obtain ⟨s, hs⟩ := (Mat.isUnit_iff_solve ((gradient J r).map (- ·))).mp hunit
  have hsolves := (Mat.mulVec_eq_iff_of_solve hs).mpr rfl
  rw [toMatrix_dampedNormal, get_neg_gradient] at hsolves
  exact ⟨s, hs, hsolves⟩

theorem DenseMatrix.dampedStep_of_pos (J : Mat K m n) (r : Vector K m) {damping : K}
    (h : 0 < damping) :
    ∃ s : Vector K n, (⟨m, n, J⟩ : DenseMatrix K).dampedStep r.toArray damping = .ok s.toArray ∧
      normal J.toMatrix damping *ᵥ s.get = -(J.toMatrixᵀ *ᵥ r.get) := by
  obtain ⟨s, hs, hsolves⟩ := exists_dampedStep J r h
  refine ⟨s, ?_, hsolves⟩
  rw [dampedStep_mk, hs]

end

/-- **With a positive damping there always is a step.**  It solves the damped normal equations and
is the only minimum of the damped cost. -/
theorem dampedStep_optimal {m n : Nat} (J : Mat ℚ m n) (r : Vector ℚ m) {damping : ℚ}
    (h : 0 < damping) :
    ∃ s : Vector ℚ n, (⟨m, n, J⟩ : DenseMatrix ℚ).dampedStep r.toArray damping = .ok s.toArray ∧
      (J.toMatrixᵀ * J.toMatrix + damping • 1) *ᵥ s.get = -(J.toMatrixᵀ *ᵥ r.get) ∧
      ∀ x : Fin n → ℚ, x ≠ s.get →
        dampedCost J.toMatrix r.get damping s.get < dampedCost J.toMatrix r.get damping x := by
  obtain ⟨s, hs, hnormal⟩ := DenseMatrix.dampedStep_of_pos J r h
  refine ⟨s, hs, hnormal, ?_⟩
  intro x hx
  exact dampedCost_lt h hnormal hx

/-- a Jacobian whose columns are equal -/
def rankOne : Mat ℚ 2 2 := ⟨.rowMajor, #v[#v[1, 1], #v[1, 1]]⟩

theorem dampedStep_rankOne : (0 : ℚ) < 1 / 2 ∧
    ∃ s : Vector ℚ 2, (⟨2, 2, rankOne⟩ : DenseMatrix ℚ).dampedStep #[1, 2] (1 / 2) = .ok s.toArray ∧
      (rankOne.toMatrixᵀ * rankOne.toMatrix + (1 / 2 : ℚ) • 1) *ᵥ s.get =
        -(rankOne.toMatrixᵀ *ᵥ #v[1, 2].get) ∧
      ∀ x : Fin 2 → ℚ, x ≠ s.get →
        dampedCost rankOne.toMatrix #v[1, 2].get (1 / 2) s.get <
          dampedCost rankOne.toMatrix #v[1, 2].get (1 / 2) x := by
  have hpos : (0 : ℚ) < 1 / 2 := by norm_num
  exact ⟨hpos, dampedStep_optimal rankOne #v[1, 2] hpos⟩

end LeastSquares
