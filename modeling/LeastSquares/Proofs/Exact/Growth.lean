import Mathlib.Data.Finset.Fold
import LeastSquares.Proofs.Exact.Elimination
import LeastSquares.Proofs.Linear.System

/-!
# Growth of the coefficients

Partial pivoting makes the first of the largest leading coefficients the pivot, so no multiple that
a stage subtracts is larger than one (`abs_factor_le_one`), and a stage at most doubles the
coefficients (`Bounded.eliminated`).  After `k` stages they are at most `2 ^ k` times as large as
the entries of the matrix (`Reaches.bounded`).
-/

namespace LeastSquares
variable {K : Type} [Field K] [LinearOrder K] {m n : Nat}

/-! ## bounds -/

/-- no coefficient is larger than `M` in absolute value -/
def System.Bounded (s : System K n) (M : K) : Prop :=
  ∀ i j : Fin n, |(s.get i).coeffs.get j| ≤ M

theorem System.Bounded.pivoted {s : System K (n + 1)} {M : K} (h : s.Bounded M) :
    s.pivoted.Bounded M :=
  System.forall_pivoted (P := fun e => ∀ j, |e.coeffs.get j| ≤ M) |>.mpr h

/-- the largest absolute value of an entry; zero if there is none -/
def Mat.largest (a : Mat K m n) : K :=
  Finset.univ.fold max 0 fun p : Fin m × Fin n => |a.entry p.1 p.2|

namespace Mat
variable (a : Mat K m n)

theorem largest_nonneg : 0 ≤ a.largest := Finset.le_fold_max _ |>.mpr (.inl le_rfl)

theorem largest_le_iff {M : K} (hM : 0 ≤ M) : a.largest ≤ M ↔ ∀ i j, |a.entry i j| ≤ M := by
  unfold largest
  rw [Finset.fold_max_le]
  refine ⟨?_, ?_⟩
  · intro h i j
    exact h.2 (i, j) (Finset.mem_univ _)
  · intro h
    exact ⟨hM, fun p _ => h p.1 p.2⟩

theorem bounded_of (a : Mat K n n) (b : Vector K n) : (System.of a b).Bounded a.largest := by
  intro i j
  rw [System.get_of]
  exact (a.largest_le_iff a.largest_nonneg).mp le_rfl i j

end Mat

/-! ## one stage -/

variable [IsStrictOrderedRing K]

theorem System.abs_factor_le_one (s : System K (n + 1)) (i : Fin n) :
    |(s.pivoted.get 0).factor (s.pivoted.get i.succ)| ≤ 1 := by
  have hle : |(s.pivoted.get i.succ).leading| ≤ |(s.pivoted.get 0).leading| := by
    rw [s.get_pivoted, s.get_pivoted_zero]
    exact s.abs_le_pivot _
  unfold Equation.factor
  rw [abs_div]
  exact div_le_one_of_le₀ hle (abs_nonneg _)

/-- multiples that are not larger than one at most double the coefficients -/
theorem System.Bounded.eliminated {s : System K (n + 1)} {M : K} (h : s.Bounded M)
    (hfactor : ∀ i : Fin n, |(s.get 0).factor (s.get i.succ)| ≤ 1) :
    s.eliminated.Bounded (2 * M) := by
  intro i j
  have hproduct := mul_le_mul (hfactor i) (h 0 j.succ) (abs_nonneg _) zero_le_one
  rw [s.get_coeffs_eliminated]
  set factor := (s.get 0).factor (s.get i.succ)
  calc |(s.get i.succ).coeffs.get j.succ - factor * (s.get 0).coeffs.get j.succ|
      ≤ |(s.get i.succ).coeffs.get j.succ| + |factor * (s.get 0).coeffs.get j.succ| :=
        abs_sub _ _
    _ = |(s.get i.succ).coeffs.get j.succ| + |factor| * |(s.get 0).coeffs.get j.succ| := by
        rw [abs_mul]
    _ ≤ M + 1 * M := add_le_add (h i.succ j.succ) hproduct
    _ = 2 * M := by ring

/-! ## all stages -/

theorem System.Reaches.bounded {s : System K n} {M : K} (h : s.Bounded M) {k : Nat}
    {t : System K m} (hreached : s.Reaches k t) : t.Bounded (2 ^ k * M) := by
  induction hreached with
  | start =>
    rw [pow_zero, one_mul]
    exact h
  | @stage k m t _ _ ih =>
    rw [pow_succ', mul_assoc]
    exact ih.pivoted.eliminated t.abs_factor_le_one

/-- **Partial pivoting bounds the growth of the coefficients.**  Every stage that is reached takes
the first one of the largest leading coefficients for its pivot, so no multiple of the pivot
equation that it subtracts is larger than one; after `k` stages no active coefficient is larger than
`2 ^ k` times the largest entry, and no coefficient that back substitution uses is larger than
`2 ^ (n - 1)` times it.  The stages are those of the elimination: it fails exactly if one of them
has no usable pivot, and otherwise the equations of the triangular form are their pivot
equations. -/
theorem Mat.solve_growth {n : Nat} (a : Mat ℚ n n) (b : Vector ℚ n) :
    (∀ (k m : Nat) (t : System ℚ (m + 1)), (System.of a b).Reaches k t →
      (System.of a b).reduce.isSome = t.reduce.isSome ∧
      (∀ j, |(t.get j).leading| ≤ |(t.get t.pivotRow).leading|) ∧
      (∀ j < t.pivotRow, |(t.get j).leading| < |(t.get t.pivotRow).leading|) ∧
      (∀ i j : Fin m, (t.pivoted.eliminated.get i).coeffs.get j =
        (t.pivoted.get i.succ).coeffs.get j.succ -
          (t.pivoted.get 0).factor (t.pivoted.get i.succ) *
            (t.pivoted.get 0).coeffs.get j.succ) ∧
      (∀ i : Fin m, (t.pivoted.eliminated.get i).rhs = (t.pivoted.get i.succ).rhs -
        (t.pivoted.get 0).factor (t.pivoted.get i.succ) * (t.pivoted.get 0).rhs) ∧
      ∀ i : Fin m, |(t.pivoted.get 0).factor (t.pivoted.get i.succ)| ≤ 1) ∧
    (∀ (k m : Nat) (t : System ℚ m), (System.of a b).Reaches k t →
      k + m = n ∧ ∀ i j, |(t.get i).coeffs.get j| ≤ 2 ^ k * a.largest) ∧
    (∀ t, (System.of a b).reduce = some t →
      ∀ v ∈ t.coefficients, |v| ≤ 2 ^ (n - 1) * a.largest) ∧
    ((System.of a b).reduce = none ↔ ∃ (k m : Nat) (t : System ℚ (m + 1)),
      (System.of a b).Reaches k t ∧ usablePivot (t.pivoted.get 0).leading = false) ∧
    (∀ T, (System.of a b).reduce = some T → ∀ (k : Nat) (row : Σ m, Equation ℚ m),
      T.rows[k]? = some row ↔ ∃ (m : Nat) (t : System ℚ (m + 1)),
        (System.of a b).Reaches k t ∧ row = ⟨m + 1, t.pivoted.get 0⟩) := by
  have hbounded (k m : Nat) (t : System ℚ m) (ht : (System.of a b).Reaches k t) :
      t.Bounded (2 ^ k * a.largest) := ht.bounded (a.bounded_of b)
  refine ⟨?_, ?_, ?_, System.reduce_eq_none_iff, ?_⟩
  · intro k m t ht
    refine ⟨ht.isSome_reduce, t.abs_le_pivot, t.pivotRow_leads.2, ?_, ?_, t.abs_factor_le_one⟩
    · exact t.pivoted.get_coeffs_eliminated
    · exact t.pivoted.rhs_get_eliminated
  · intro k m t ht
    exact ⟨ht.size_eq, hbounded k m t ht⟩
  · intro t ht v hv
    obtain ⟨k, m, u, hu, j, rfl⟩ := System.exists_of_mem_coefficients ht hv
    have hk : k ≤ n - 1 := by
      have hsize := hu.size_eq
      omega
    have hpow : (2 : ℚ) ^ k ≤ 2 ^ (n - 1) := pow_le_pow_right₀ one_le_two hk
    calc |(u.pivoted.get 0).coeffs.get j|
        ≤ 2 ^ k * a.largest := (hbounded k _ u hu).pivoted 0 j
      _ ≤ 2 ^ (n - 1) * a.largest := mul_le_mul_of_nonneg_right hpow a.largest_nonneg
  · intro T hT k row
    exact System.getElem?_rows hT

end LeastSquares
