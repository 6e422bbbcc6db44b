import Mathlib.Analysis.Real.Sqrt
import LeastSquares.Config
import LeastSquares.Linear.Dense
import LeastSquares.Proofs.Exact.Step
import LeastSquares.Proofs.Solver.Success
import LeastSquares.Step

/-!
# Real arithmetic

The real numbers are exact, so a solve over them is the solve without any rounding.  The norm is the
Euclidean one, so norms compare like the sums of the squares (`norm_lt_norm_iff`), and the damping
never leaves the positive numbers (`Damping.next_pos`).
-/

namespace LeastSquares

/-- the ends of the range of the damping are those of binary64 -/
noncomputable instance realScalar : RealScalar ℝ where
  toScalar := exactScalar
  sqrt := Real.sqrt
  least := ((2 : ℕ) : ℝ) ^ (-1022 : ℤ)
  greatest := ((2 ^ 53 - 1 : ℕ) : ℝ) * ((2 : ℕ) : ℝ) ^ (971 : ℤ)

/-! ## norms -/

section
variable {K : Type} [Field K] [LinearOrder K]

theorem foldl_squares (l : List K) (s : K) :
    l.foldl (fun s x => s + x * x) s = s + (l.map fun x => x * x).sum := by
  induction l generalizing s with
  | nil => rw [List.foldl_nil, List.map_nil, List.sum_nil, add_zero]
  | cons x l ih => rw [List.foldl_cons, ih, List.map_cons, List.sum_cons, add_assoc]

theorem sum_squares {n : Nat} (v : Vector K n) :
    (v.toArray.toList.map fun x => x * x).sum = normSq v.get := by
  have hlist : (v.toArray.toList.map fun x => x * x) = Mat.products v v := by
    unfold Mat.products
    apply List.ext_getElem
    · simp
    · intro i _ _
      simp
  rw [hlist, sum_products]
  rfl

end

theorem norm_eq {n : Nat} (v : Vector ℝ n) : norm v.toArray = √(normSq v.get) := by
  have hsum := foldl_squares v.toArray.toList 0
  rw [sum_squares, zero_add, Array.foldl_toList] at hsum
  exact congrArg Real.sqrt hsum

theorem norm_lt_norm_iff {m n : Nat} (u : Vector ℝ m) (v : Vector ℝ n) :
    norm u.toArray < norm v.toArray ↔ normSq u.get < normSq v.get := by
  rw [norm_eq, norm_eq]
  exact Real.sqrt_lt_sqrt_iff (normSq_nonneg _)

/-! ## the damping -/

theorem Config.isPositiveFinite_real {x : ℝ} : Config.isPositiveFinite x = true ↔ 0 < x := by
  unfold Config.isPositiveFinite
  rw [Bool.and_eq_true, decide_eq_true_iff]
  exact and_iff_left rfl

theorem Config.validate_real {c : Config ℝ} :
    c.validate = .ok () ↔ 0 < c.initialDamping ∧ 0 < c.differenceStep ∧ 0 ≤ c.tolerance := by
  rw [validate_eq_ok, isPositiveFinite_real, isPositiveFinite_real]
  exact Iff.rfl

theorem Damping.next_pos (accepted : Bool) {damping : ℝ} (h : 0 < damping) :
    0 < Damping.next accepted damping := by
  have hpower (k : ℤ) : 0 < ((2 : ℕ) : ℝ) ^ k := zpow_pos (Nat.cast_pos.mpr Nat.two_pos) k
  have hleast : (0 : ℝ) < RealScalar.least := hpower _
  have hgreatest : (0 : ℝ) < RealScalar.greatest := by
    refine mul_pos ?_ (hpower _)
    rw [Nat.cast_pos]
    decide
  cases accepted with
  | true =>
    rw [next_true]
    unfold relax
    dsimp only
    split
    · exact half_pos h
    · exact hleast
  | false =>
    rw [next_false]
    unfold tighten
    dsimp only
    split
    · exact mul_pos h two_pos
    · exact hgreatest

end LeastSquares
