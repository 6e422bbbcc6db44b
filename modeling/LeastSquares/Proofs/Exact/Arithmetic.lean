import Mathlib.Algebra.BigOperators.Fin
import Mathlib.Algebra.Order.Field.Basic
import Mathlib.Data.Matrix.Mul
import Mathlib.Tactic.Ring
import LeastSquares.Linear.Elimination

/-!
# Exact arithmetic

An ordered field is a `Scalar` in which nothing is rounded and every value is finite.  The order of
the additions does not matter there: each of the three sums is the sum of the list.  So the
operations of `Mat` are those of matrices: `Mat.toMatrix` forgets the layout, and the order in which
a layout makes them add does not show.
-/

namespace LeastSquares

section
variable {K : Type} [Field K] [LinearOrder K]

instance exactScalar : Scalar K where
  zero := 0
  one := 1
  two := 2
  neutral := 0
  abs x := |x|
  isZero x := decide (x = 0)
  isFinite _ := true

theorem scalar_zero : (Scalar.zero : K) = 0 := rfl
theorem scalar_neutral : (Scalar.neutral : K) = 0 := rfl

/-- a pivot is refused only if it is zero -/
theorem usablePivot_iff {p : K} : usablePivot p = true ↔ p ≠ 0 := by
  simp [usablePivot, Scalar.isZero, Scalar.isFinite]

/-! ## the three sums -/

theorem sumFrom_eq (start : K) (terms : List K) : sumFrom start terms = start + terms.sum := by
  induction terms generalizing start with
  | nil => rw [sumFrom_nil, List.sum_nil, add_zero]
  | cons t terms ih => rw [sumFrom_cons, ih, List.sum_cons]; exact add_assoc start t _

theorem Lanes.total_clear : (Lanes.clear : Lanes K).total = 0 := by
  show (0 : K) + (0 + 0) + (0 + 0) + (0 + 0) + (0 + 0) = 0
  simp only [add_zero]

theorem Lanes.sum_eq (p : Lanes K) (terms : List K) : p.sum terms = p.total + terms.sum := by
  fun_induction Lanes.sum p terms with
  | case1 p t0 t1 t2 t3 t4 t5 t6 t7 rest ih =>
    rw [ih]
    simp only [List.sum_cons, Lanes.total, scalar_zero]
    ring
  | case2 p rest => exact sumFrom_eq _ _

theorem sumLanes_eq (terms : List K) : sumLanes terms = terms.sum := by
  rw [sumLanes, Lanes.sum_eq, Lanes.total_clear, zero_add]

theorem addBlocks_eq (start : K) (terms : List K) :
    addBlocks start terms = start + terms.sum := by
  fun_induction addBlocks start terms with
  | case1 start terms _ ih =>
    rw [ih, sumFrom_eq, scalar_zero, zero_add]
    have hsplit := congrArg List.sum (List.take_append_drop blockSize terms)
    rw [List.sum_append] at hsplit
    rw [← hsplit]
    exact add_assoc start _ _
  | case2 start terms h =>
    have hnil : terms = [] := List.eq_nil_of_length_eq_zero (Nat.eq_zero_of_not_pos h)
    rw [hnil, List.sum_nil, add_zero]

theorem sumBlocks_eq (terms : List K) : sumBlocks terms = terms.sum := by
  rw [sumBlocks, addBlocks_eq, sumFrom_eq, scalar_zero, zero_add, ← List.sum_append,
    List.take_append_drop]

theorem sum_products {n : Nat} (a b : Vector K n) :
    (Mat.products a b).sum = ∑ k : Fin n, a.get k * b.get k := by
  have hlist : Mat.products a b = List.ofFn fun k : Fin n => a.get k * b.get k := by
    unfold Mat.products
    apply List.ext_getElem
    · simp
    · intro i _ _
      simp
      rfl
  rw [hlist, List.sum_ofFn]

end

/-! ## matrices -/

namespace Mat
open Matrix
variable {K : Type} {m n k : Nat}

/-- the entries without their layout -/
def toMatrix (a : Mat K m n) : Matrix (Fin m) (Fin n) K := Matrix.of a.entry

@[simp] theorem toMatrix_apply (a : Mat K m n) (i : Fin m) (j : Fin n) :
    a.toMatrix i j = a.entry i j := rfl

theorem toMatrix_transpose (a : Mat K m n) : a.transpose.toMatrix = a.toMatrixᵀ := by
  ext i j
  simp

variable [Field K] [LinearOrder K]

theorem toMatrix_mul (a : Mat K m k) (b : Mat K k n) :
    (a.mul b).toMatrix = a.toMatrix * b.toMatrix := by
  ext i j
  rw [toMatrix_apply, entry_mul, sumBlocks_eq, List.sum_ofFn]
  rfl

theorem toMatrix_addDiagonal (a : Mat K n n) (shift : K) :
    (a.addDiagonal shift).toMatrix = a.toMatrix + shift • 1 := by
  ext i j
  rw [toMatrix_apply, entry_addDiagonal, Matrix.add_apply, Matrix.smul_apply, Matrix.one_apply]
  by_cases h : i = j
  · rw [if_pos h, if_pos h, smul_eq_mul, mul_one]
    rfl
  · rw [if_neg h, if_neg h, smul_zero, add_zero]
    rfl

/-- the layout decides only how a row is summed -/
theorem get_mulVec (a : Mat K m n) (v : Vector K n) :
    (a.mulVec v).get = a.toMatrix *ᵥ v.get := by
  funext i
  show (a.mulVec v)[i] = ∑ j : Fin n, (a.rows.get i).get j * v.get j
  rw [getElem_mulVec, sumLanes_eq, sumFrom_eq, scalar_zero, zero_add, ite_self, sum_products]
  rfl

end Mat
end LeastSquares
