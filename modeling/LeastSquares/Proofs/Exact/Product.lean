import Mathlib.Data.Matrix.Mul
import LeastSquares.Linear.Dense
import LeastSquares.Proofs.Exact.Arithmetic
import LeastSquares.Proofs.Linear.System

/-!
# Products over exact arithmetic

A product of matrices fails only if the sizes do not fit (`mulVec_eq_ok`, `mul_eq_ok`).  The layout
decides how a row is summed, in lanes or one by one, and a product of matrices is summed in blocks;
nothing of this shows when nothing is rounded.  So both products are the standard ones, one is a
special case of the other (`mul_column`), and they associate (`mulVec_mulVec`).
-/

namespace LeastSquares
open Matrix

/-! ## sizes -/

namespace DenseMatrix
variable {α : Type} [Scalar α]

theorem mulVec_eq_ok {a : DenseMatrix α} {v : Array α} :
    (∃ w, a.mulVec v = .ok w) ↔ v.size = a.cols := by
  unfold mulVec
  split
  · rename_i h
    exact ⟨fun _ => h, fun _ => ⟨_, rfl⟩⟩
  · rename_i h
    exact ⟨nofun, fun hv => absurd hv h⟩

theorem mul_eq_ok {a b : DenseMatrix α} : (∃ p, a.mul b = .ok p) ↔ a.cols = b.rows := by
  obtain ⟨m, k, a⟩ := a
  obtain ⟨k', n, b⟩ := b
  by_cases h : k = k'
  · subst h
    rw [mul_mk]
    exact ⟨fun _ => rfl, fun _ => ⟨_, rfl⟩⟩
  · have hnone : (⟨k', n, b⟩ : DenseMatrix α).sized? k n = none :=
      sized?_eq_none fun hsize => h hsize.1.symm
    unfold mul
    rw [hnone]
    exact ⟨nofun, fun hk => absurd hk h⟩

end DenseMatrix

/-! ## entries -/

namespace Mat

/-- the matrix whose only column is `v` -/
def column {α : Type} {n : Nat} (l : Layout) (v : Vector α n) : Mat α n 1 :=
  ofFn l fun i _ => v.get i

variable {K : Type} [Field K] [LinearOrder K] {m k n : Nat}

theorem get_mulVec_eq_sum (a : Mat K m n) (v : Vector K n) (i : Fin m) :
    (a.mulVec v).get i = ∑ j, a.entry i j * v.get j := congrFun (get_mulVec a v) i

theorem entry_mul_eq_sum (a : Mat K m k) (b : Mat K k n) (i : Fin m) (j : Fin n) :
    (a.mul b).entry i j = ∑ l, a.entry i l * b.entry l j :=
  congrFun (congrFun (toMatrix_mul a b) i) j

theorem mulVec_layout (a : Mat K m n) (l : Layout) (v : Vector K n) :
    Mat.mulVec { a with layout := l } v = a.mulVec v := by
  apply ext_get
  rw [get_mulVec, get_mulVec]
  rfl

/-- the product with a column is the column of the product -/
theorem mul_column (a : Mat K m n) (l : Layout) (v : Vector K n) :
    a.mul (column l v) = column (a.mul (column l v)).layout (a.mulVec v) := by
  refine ext_entry rfl fun i j => ?_
  unfold column
  rw [entry_mul_eq_sum, entry_ofFn, get_mulVec_eq_sum]
  simp only [entry_ofFn]

theorem mulVec_mulVec (a : Mat K m k) (b : Mat K k n) (v : Vector K n) :
    a.mulVec (b.mulVec v) = (a.mul b).mulVec v := by
  apply ext_get
  rw [get_mulVec, get_mulVec, get_mulVec, toMatrix_mul]
  exact Matrix.mulVec_mulVec _ _ _

end Mat

namespace DenseMatrix
variable {K : Type} [Field K] [LinearOrder K]

/-- the two orders of a double product fit the same sizes, and give the same vector -/
theorem mul_mulVec (a b : DenseMatrix K) (v u : Array K) :
    (∃ p, a.mul b = .ok p ∧ p.mulVec v = .ok u) ↔
      ∃ w, b.mulVec v = .ok w ∧ a.mulVec w = .ok u := by
  obtain ⟨m, k, a⟩ := a
  obtain ⟨k', n, b⟩ := b
  have hvector (hv : v.size = n) : ∃ x : Vector K n, v = x.toArray := ⟨⟨v, hv⟩, rfl⟩
  refine ⟨?_, ?_⟩
  · intro ⟨p, hp, hu⟩
    obtain rfl : k = k' := mul_eq_ok.mp ⟨p, hp⟩
    rw [mul_mk] at hp
    cases hp
    obtain ⟨x, rfl⟩ := hvector (mulVec_eq_ok.mp ⟨u, hu⟩)
    refine ⟨_, mulVec_toArray b x, ?_⟩
    rw [mulVec_toArray, ← Mat.mulVec_mulVec] at hu
    rw [mulVec_toArray]
    exact hu
  · intro ⟨w, hw, hu⟩
    obtain ⟨x, rfl⟩ := hvector (mulVec_eq_ok.mp ⟨w, hw⟩)
    rw [mulVec_toArray] at hw
    cases hw
    obtain rfl : k' = k := (b.mulVec x).size_toArray.symm.trans (mulVec_eq_ok.mp ⟨u, hu⟩)
    refine ⟨_, mul_mk a b, ?_⟩
    rw [mulVec_toArray, Mat.mulVec_mulVec] at hu
    rw [mulVec_toArray]
    exact hu

/-- **Both products are the standard ones, whatever the layouts are.**  They succeed exactly on
sizes that fit.  A row times a vector is the same sum in lanes and one by one, so it is the same in
every layout; an entry of a product of matrices is the sum of all its blocks.  A vector may be
replaced by the matrix with this column, and a double product may be computed in either order. -/
theorem standard_products :
    (∀ (a : DenseMatrix ℚ) (v : Array ℚ), (∃ w, a.mulVec v = .ok w) ↔ v.size = a.cols) ∧
    (∀ a b : DenseMatrix ℚ, (∃ p, a.mul b = .ok p) ↔ a.cols = b.rows) ∧
    (∀ {m n : Nat} (a : Mat ℚ m n) (v : Vector ℚ n), ∃ w : Vector ℚ m,
      (⟨m, n, a⟩ : DenseMatrix ℚ).mulVec v.toArray = .ok w.toArray ∧
      (∀ i, w.get i = ∑ k, a.entry i k * v.get k) ∧
      (∀ i, sumLanes (Mat.products (a.rows.get i) v) = w.get i ∧
        sumFrom Scalar.zero (Mat.products (a.rows.get i) v) = w.get i) ∧
      (∀ l, (⟨m, n, { a with layout := l }⟩ : DenseMatrix ℚ).mulVec v.toArray = .ok w.toArray) ∧
      ∀ l, ∃ l', (⟨m, n, a⟩ : DenseMatrix ℚ).mul ⟨n, 1, .column l v⟩ =
        .ok ⟨m, 1, .column l' w⟩) ∧
    (∀ {m k n : Nat} (a : Mat ℚ m k) (b : Mat ℚ k n), ∃ p : Mat ℚ m n,
      (⟨m, k, a⟩ : DenseMatrix ℚ).mul ⟨k, n, b⟩ = .ok ⟨m, n, p⟩ ∧
      ∀ i j, p.entry i j = ∑ l, a.entry i l * b.entry l j) ∧
    (∀ (a b : DenseMatrix ℚ) (v u : Array ℚ),
      (∃ p, a.mul b = .ok p ∧ p.mulVec v = .ok u) ↔
        ∃ w, b.mulVec v = .ok w ∧ a.mulVec w = .ok u) := by
  refine ⟨fun _ _ => mulVec_eq_ok, fun _ _ => mul_eq_ok, ?_, ?_, mul_mulVec⟩
  · intro m n a v
    have hsum (i : Fin m) : (Mat.products (a.rows.get i) v).sum = (a.mulVec v).get i := by
      rw [sum_products, Mat.get_mulVec_eq_sum]
      rfl
    refine ⟨a.mulVec v, mulVec_toArray a v, a.get_mulVec_eq_sum v, ?_, ?_, ?_⟩
    · intro i
      rw [sumLanes_eq, sumFrom_eq, scalar_zero, zero_add]
      exact ⟨hsum i, hsum i⟩
    · intro l
      rw [mulVec_toArray, a.mulVec_layout]
    · intro l
      refine ⟨(a.mul (.column l v)).layout, ?_⟩
      rw [mul_mk, ← a.mul_column]
  · intro m k n a b
    exact ⟨a.mul b, mul_mk a b, a.entry_mul_eq_sum b⟩

end DenseMatrix
end LeastSquares
