import Mathlib.LinearAlgebra.Matrix.NonsingularInverse
import LeastSquares.Linear.Dense
import LeastSquares.Proofs.Exact.Arithmetic
import LeastSquares.Proofs.Linear.System

/-!
# Gaussian elimination over exact arithmetic

Sound: a stage replaces a system by its first equation and a system with one unknown less, and a
vector solves the former exactly if it solves both of the latter (`solves_iff_eliminated`).  So what
back substitution computes is the only solution (`solves_iff_of_reduce`).

Complete: the pivot is largest in absolute value, so a zero pivot means that no equation contains
the leading unknown.  Then a nonzero vector makes every left side zero, and it stays one when the
eliminated unknowns are put back (`exists_lhs_eq_zero_of_reduce`).
-/

namespace LeastSquares
open Matrix

/-! ## equations -/

section
variable {K : Type} [Field K] {n : Nat}

def Equation.lhs (e : Equation K n) (x : Fin n → K) : K := ∑ k : Fin n, e.coeffs.get k * x k

theorem Equation.lhs_succ (e : Equation K (n + 1)) (x : Fin (n + 1) → K) :
    e.lhs x = e.leading * x 0 + ∑ k : Fin n, e.coeffs.get k.succ * x k.succ :=
  Fin.sum_univ_succ _

theorem Equation.lhs_eq_rhs_iff {e : Equation K (n + 1)} (h : e.leading ≠ 0)
    {x : Fin (n + 1) → K} :
    e.lhs x = e.rhs ↔
      x 0 = (e.rhs - ∑ k : Fin n, e.coeffs.get k.succ * Fin.tail x k) / e.leading := by
  rw [e.lhs_succ, eq_div_iff h, eq_sub_iff_add_eq, mul_comm]
  rfl

/-- the leading unknown can be chosen so that the left side is zero -/
theorem Equation.exists_lhs_eq_zero {e : Equation K (n + 1)} (h : e.leading ≠ 0)
    (w : Fin n → K) : ∃ v : Fin (n + 1) → K, Fin.tail v = w ∧ e.lhs v = 0 := by
  let first := -(∑ k : Fin n, e.coeffs.get k.succ * w k) / e.leading
  refine ⟨Fin.cons first w, Fin.tail_cons _ _, ?_⟩
  rw [e.lhs_succ]
  show e.leading * (_ / e.leading) + ∑ k : Fin n, e.coeffs.get k.succ * w k = 0
  rw [mul_div_cancel₀ _ h, neg_add_cancel]

def System.Solves (s : System K n) (x : Fin n → K) : Prop :=
  ∀ i : Fin n, (s.get i).lhs x = (s.get i).rhs

theorem Mat.lhs_of (a : Mat K n n) (b : Vector K n) (x : Fin n → K) (i : Fin n) :
    ((System.of a b).get i).lhs x = (a.toMatrix *ᵥ x) i := by
  rw [System.get_of]
  rfl

theorem Mat.solves_of {a : Mat K n n} {b : Vector K n} {y : Fin n → K} :
    (System.of a b).Solves y ↔ a.toMatrix *ᵥ y = b.get := by
  unfold System.Solves
  rw [funext_iff]
  refine forall_congr' fun i => ?_
  rw [Mat.lhs_of, System.get_of]

end

/-! ## the pivot equation -/

/-- what holds before every step of a fold and is kept by it holds behind the last one -/
theorem foldl_invariant {β : Type} {m : Nat} {f : β → Fin m → β} (P : Nat → β → Prop) {b : β}
    (start : P 0 b) (step : ∀ (i : Fin m) (b : β), P i b → P (i + 1) (f b i)) :
    P m (Fin.foldl m f b) := by
  induction m with
  | zero => exact start
  | succ m ih =>
    rw [Fin.foldl_succ_last]
    apply step (Fin.last m)
    exact ih fun i b h => step i.castSucc b h

variable {K : Type} [Field K] [LinearOrder K] {n : Nat}

/-- among the first `k` equations none has a larger leading coefficient than equation `best`, and
those in front of it have smaller ones -/
def System.Leads (s : System K (n + 1)) (k : Nat) (best : Fin (n + 1)) : Prop :=
  (∀ j : Fin (n + 1), j < k → |(s.get j).leading| ≤ |(s.get best).leading|) ∧
    ∀ j < best, |(s.get j).leading| < |(s.get best).leading|

theorem System.Leads.next {s : System K (n + 1)} {i best : Fin (n + 1)} (h : s.Leads i best) :
    s.Leads (i + 1) (if |(s.get best).leading| < |(s.get i).leading| then i else best) := by
  obtain ⟨hmax, hfirst⟩ := h
  by_cases h : |(s.get best).leading| < |(s.get i).leading|
  · rw [if_pos h]
    refine ⟨?_, ?_⟩
    · intro j hj
      rcases Nat.lt_succ_iff_lt_or_eq.mp hj with hlt | heq
      · exact (hmax j hlt).trans h.le
      · rw [Fin.ext heq]
    · intro j hj
      exact (hmax j hj).trans_lt h
  · rw [if_neg h]
    refine ⟨?_, hfirst⟩
    intro j hj
    rcases Nat.lt_succ_iff_lt_or_eq.mp hj with hlt | heq
    · exact hmax j hlt
    · rw [Fin.ext heq]
      exact not_lt.mp h

/-- the scan finds the first one of the largest leading coefficients -/
theorem System.pivotRow_leads (s : System K (n + 1)) : s.Leads (n + 1) s.pivotRow := by
  have hstart : s.Leads 0 0 := by
    refine ⟨?_, ?_⟩
    · intro j hj
      exact absurd hj (Nat.not_lt_zero _)
    · intro j hj
      exact absurd hj (Fin.not_lt_zero _)
  exact foldl_invariant s.Leads hstart fun _ _ h => h.next

theorem System.abs_le_pivot (s : System K (n + 1)) (j : Fin (n + 1)) :
    |(s.get j).leading| ≤ |(s.get s.pivotRow).leading| := s.pivotRow_leads.1 j j.isLt

/-! ## one stage -/

/-- the eliminated unknown may have any value -/
theorem Equation.lhs_eliminate {lead e : Equation K (n + 1)} (h : lead.leading ≠ 0)
    (x : Fin (n + 1) → K) :
    (lead.eliminate e).lhs (Fin.tail x) =
      e.lhs x - e.leading / lead.leading * lead.lhs x := by
  have hcancel : e.leading / lead.leading * (lead.leading * x 0) = e.leading * x 0 := by
    rw [← mul_assoc, div_mul_cancel₀ _ h]
  rw [e.lhs_succ, lead.lhs_succ, mul_add, hcancel, add_sub_add_left_eq_sub, Finset.mul_sum,
    ← Finset.sum_sub_distrib]
  refine Finset.sum_congr rfl fun k _ => ?_
  rw [lead.get_eliminate e, sub_mul, mul_assoc]
  rfl

theorem System.solves_pivoted {s : System K (n + 1)} {x : Fin (n + 1) → K} :
    s.pivoted.Solves x ↔ s.Solves x :=
  System.forall_pivoted (P := fun e => e.lhs x = e.rhs)

/-- a stage keeps the solutions -/
theorem System.solves_iff_eliminated {s : System K (n + 1)} (h : (s.get 0).leading ≠ 0)
    {x : Fin (n + 1) → K} :
    s.Solves x ↔ (s.get 0).lhs x = (s.get 0).rhs ∧ s.eliminated.Solves (Fin.tail x) := by
  have hrow (hlead : (s.get 0).lhs x = (s.get 0).rhs) (i : Fin n) :
      (s.eliminated.get i).lhs (Fin.tail x) = (s.eliminated.get i).rhs ↔
        (s.get i.succ).lhs x = (s.get i.succ).rhs := by
    rw [s.get_eliminated, Equation.lhs_eliminate h, hlead]
    exact sub_left_inj
  refine ⟨?_, ?_⟩
  · intro hs
    have hlead := hs 0
    exact ⟨hlead, fun i => (hrow hlead i).mpr (hs i.succ)⟩
  · intro ⟨hlead, hrest⟩
    refine Fin.cases hlead ?_
    intro i
    exact (hrow hlead i).mp (hrest i)

/-! ## back substitution -/

/-- the leading unknown is what its equation leaves for it -/
theorem Triangular.get_solve_cons (pivot : K) (coeffs : Vector K n) (rhs : K)
    (rest : Triangular K n) :
    (Triangular.cons pivot coeffs rhs rest).solve.get =
      Fin.cons ((rhs - ∑ k : Fin n, coeffs.get k * rest.solve.get k) / pivot) rest.solve.get := by
  have hsum := sumFrom_eq (Scalar.neutral : K) (Mat.products coeffs rest.solve)
  rw [scalar_neutral, zero_add, sum_products] at hsum
  funext i
  show (Vector.ofFn (Fin.cases _ rest.solve.get))[i.val] = _
  rw [Vector.getElem_ofFn]
  cases i using Fin.cases with
  | zero =>
    show (rhs - sumFrom Scalar.neutral (Mat.products coeffs rest.solve)) / pivot = _
    rw [scalar_neutral, hsum]
    rfl
  | succ i => rfl

/-- a system in triangular form has one solution, and back substitution finds it -/
theorem System.solves_iff_of_reduce {n : Nat} {s : System K n} {t : Triangular K n}
    (h : s.reduce = some t) {x : Fin n → K} : s.Solves x ↔ x = t.solve.get := by
  induction n with
  | zero =>
    refine ⟨?_, ?_⟩
    · intro _
      exact Subsingleton.elim _ _
    · intro _ i
      exact i.elim0
  | succ n ih =>
    rw [System.reduce_succ] at h
    split at h
    · rename_i hpivot
      have hne := usablePivot_iff.mp hpivot
      obtain ⟨rest, hrest, rfl⟩ := Option.map_eq_some_iff.mp h
      rw [← System.solves_pivoted, System.solves_iff_eliminated hne, ih hrest,
        Equation.lhs_eq_rhs_iff hne, Triangular.get_solve_cons]
      simp only [get_ofFn]
      refine ⟨?_, ?_⟩
      · intro ⟨hlead, htail⟩
        have hx := Fin.cons_self_tail x
        rw [hlead, htail] at hx
        exact hx.symm
      · intro hx
        rw [hx]
        exact ⟨by rw [Fin.cons_zero, Fin.tail_cons], Fin.tail_cons _ _⟩
    · cases h

/-! ## singular systems -/

/-- a pivot that is not usable stands in front of a column of zeros -/
theorem System.leading_eq_zero [IsStrictOrderedRing K] {s : System K (n + 1)}
    (h : ¬ usablePivot (s.pivoted.get 0).leading = true) (i : Fin (n + 1)) :
    (s.get i).leading = 0 := by
  rw [usablePivot_iff, not_not, s.get_pivoted_zero] at h
  have hmax := s.abs_le_pivot i
  rw [h, abs_zero] at hmax
  exact abs_nonpos_iff.mp hmax

/-- without a usable pivot at some stage, a nonzero vector makes every left side zero -/
theorem System.exists_lhs_eq_zero_of_reduce [IsStrictOrderedRing K] {n : Nat} {s : System K n}
    (h : s.reduce = none) : ∃ v : Fin n → K, v ≠ 0 ∧ ∀ i : Fin n, (s.get i).lhs v = 0 := by
  induction n with
  | zero => cases h
  | succ n ih =>
    rw [System.reduce_succ] at h
    split at h
    · rename_i hpivot
      have hne := usablePivot_iff.mp hpivot
      obtain ⟨w, hw, hzero⟩ := ih (Option.map_eq_none_iff.mp h)
      -- the eliminated unknown is put back so that the pivot equation holds
      obtain ⟨v, hv, hlead⟩ := Equation.exists_lhs_eq_zero hne w
      refine ⟨v, ?_, ?_⟩
      · intro h0
        rw [h0] at hv
        exact hw hv.symm
      · refine (System.forall_pivoted (P := fun e => e.lhs v = 0)).mp ?_
        refine Fin.cases hlead ?_
        intro i
        have hi := hzero i
        rw [System.get_eliminated, ← hv, Equation.lhs_eliminate hne, hlead, mul_zero,
          sub_zero] at hi
        exact hi
    · rename_i hpivot
      refine ⟨Fin.cons 1 0, ?_, ?_⟩
      · intro hv
        exact one_ne_zero (congrFun hv 0)
      · intro i
        rw [(s.get i).lhs_succ, System.leading_eq_zero hpivot i]
        simp

/-! ## a matrix and a right-hand side -/

namespace Mat
variable {a : Mat K n n} {b x : Vector K n}

theorem mulVec_eq_iff_of_solve (h : a.solve b = some x) {y : Fin n → K} :
    a.toMatrix *ᵥ y = b.get ↔ y = x.get := by
  obtain ⟨t, ht, rfl⟩ := Option.map_eq_some_iff.mp h
  rw [← solves_of]
  exact System.solves_iff_of_reduce ht

theorem exists_mulVec_eq_zero_of_solve [IsStrictOrderedRing K] (h : a.solve b = none) :
    ∃ v : Fin n → K, v ≠ 0 ∧ a.toMatrix *ᵥ v = 0 := by
  obtain ⟨v, hv, hzero⟩ := System.exists_lhs_eq_zero_of_reduce (Option.map_eq_none_iff.mp h)
  refine ⟨v, hv, ?_⟩
  funext i
  rw [← lhs_of a b]
  exact hzero i

theorem isUnit_iff_solve [IsStrictOrderedRing K] (b : Vector K n) :
    IsUnit a.toMatrix ↔ ∃ x, a.solve b = some x := by
  rw [← mulVec_injective_iff_isUnit]
  refine ⟨?_, ?_⟩
  · intro hinj
    cases h : a.solve b with
    | none =>
      obtain ⟨v, hv, hzero⟩ := exists_mulVec_eq_zero_of_solve h
      exact absurd (hinj (hzero.trans (mulVec_zero _).symm)) hv
    | some x => exact ⟨x, rfl⟩
  · intro ⟨x, h⟩ y z hyz
    -- the difference leads from one solution to another
    have hx : a.toMatrix *ᵥ x.get = b.get := (mulVec_eq_iff_of_solve h).mpr rfl
    have hshift : a.toMatrix *ᵥ (x.get + (y - z)) = b.get := by
      rw [mulVec_add, mulVec_sub, hx, hyz, sub_self, add_zero]
    have hsame := (mulVec_eq_iff_of_solve h).mp hshift
    rw [add_eq_left, sub_eq_zero] at hsame
    exact hsame

end Mat

namespace DenseMatrix
variable [IsStrictOrderedRing K] {a : Mat K n n}

theorem solve_of_isUnit (h : IsUnit a.toMatrix) (b : Vector K n) :
    ∃ x : Vector K n, (⟨n, n, a⟩ : DenseMatrix K).solve b.toArray = .ok x.toArray ∧
      ∀ y : Fin n → K, a.toMatrix *ᵥ y = b.get ↔ y = x.get := by
  obtain ⟨x, hx⟩ := (Mat.isUnit_iff_solve b).mp h
  refine ⟨x, ?_, fun y => Mat.mulVec_eq_iff_of_solve hx⟩
  rw [solve_mk, hx]

theorem solve_of_not_isUnit (h : ¬ IsUnit a.toMatrix) (b : Vector K n) :
    (⟨n, n, a⟩ : DenseMatrix K).solve b.toArray = .error .singular := by
  have hnone : a.solve b = none := by
    rw [Option.eq_none_iff_forall_ne_some]
    intro x hx
    exact h ((Mat.isUnit_iff_solve b).mpr ⟨x, hx⟩)
  rw [solve_mk, hnone]

/-- **Elimination solves exactly the invertible systems.**  Whether it succeeds does not depend on
the right-hand side, and what it returns is the only solution. -/
theorem solve_rational {n : Nat} (a : Mat ℚ n n) (b : Vector ℚ n) :
    ((∃ x, (⟨n, n, a⟩ : DenseMatrix ℚ).solve b.toArray = .ok x) ↔ IsUnit a.toMatrix) ∧
    (∀ x, (⟨n, n, a⟩ : DenseMatrix ℚ).solve b.toArray = .ok x →
      ∃ y : Vector ℚ n, x = y.toArray ∧ a.toMatrix *ᵥ y.get = b.get ∧
        ∀ z : Fin n → ℚ, a.toMatrix *ᵥ z = b.get → z = y.get) ∧
    (¬ IsUnit a.toMatrix → (⟨n, n, a⟩ : DenseMatrix ℚ).solve b.toArray = .error .singular) := by
  refine ⟨?_, ?_, fun h => solve_of_not_isUnit h b⟩
  · refine ⟨?_, ?_⟩
    · intro ⟨x, hx⟩
      by_contra h
      rw [solve_of_not_isUnit h b] at hx
      cases hx
    · intro h
      obtain ⟨x, hx, -⟩ := solve_of_isUnit h b
      exact ⟨_, hx⟩
  · intro x hx
    by_cases h : IsUnit a.toMatrix
    · obtain ⟨y, hy, hsol⟩ := solve_of_isUnit h b
      rw [hy] at hx
      refine ⟨y, (Except.ok.inj hx).symm, (hsol _).mpr rfl, ?_⟩
      intro z hz
      exact (hsol z).mp hz
    · rw [solve_of_not_isUnit h b] at hx
      cases hx

end DenseMatrix

end LeastSquares
