import Mathlib.Tactic.Linarith
import LeastSquares.Proofs.Exact.LeastSquares

/-!
# The length of a damped step

Each of two steps has the lower damped cost at its own damping.  The two inequalities together say
that the step for the larger damping is the shorter one (`normSq_step_lt_of_ne`), and the first of
them then says that it leaves the larger residuals (`normSq_residuals_le`).  How long a step can be
at all is read off the normal equations: their left side is the damped step and a vector that makes
no obtuse angle with it (`sq_damping_mul_normSq_le`).
-/

namespace LeastSquares
open Matrix
variable {K : Type} [Field K] {m n : Nat} {A : Matrix (Fin m) (Fin n) K} {r : Fin m → K}
  {s t : Fin n → K} {damping larger : K}

/-! ## squared norms -/

theorem normSq_neg (v : Fin n → K) : normSq (-v) = normSq v := neg_dotProduct_neg v v

theorem normSq_smul (c : K) (v : Fin n → K) : normSq (c • v) = c ^ 2 * normSq v := by
  unfold normSq
  rw [smul_dotProduct, dotProduct_smul, smul_eq_mul, smul_eq_mul, ← mul_assoc, pow_two]

/-- the form of `AᵀA` is the squared norm behind `A` -/
theorem gram_mulVec_dotProduct (A : Matrix (Fin m) (Fin n) K) (v : Fin n → K) :
    ((Aᵀ * A) *ᵥ v) ⬝ᵥ v = normSq (A *ᵥ v) := by
  rw [dotProduct_comm, ← mulVec_mulVec, dotProduct_mulVec, vecMul_transpose]
  rfl

variable [LinearOrder K] [IsStrictOrderedRing K]

/-! ## one damping -/

/-- a step times its damping is not longer than the gradient -/
theorem sq_damping_mul_normSq_le (h : 0 ≤ damping) (hs : normal A damping *ᵥ s = -(Aᵀ *ᵥ r)) :
    damping ^ 2 * normSq s ≤ normSq (Aᵀ *ᵥ r) := by
  have hsplit : (Aᵀ * A) *ᵥ s + damping • s = -(Aᵀ *ᵥ r) := by
    rw [← hs, normal, add_mulVec, smul_mulVec, one_mulVec]
  have hgradient : normSq (Aᵀ *ᵥ r) =
      normSq ((Aᵀ * A) *ᵥ s) + 2 * (damping * normSq (A *ᵥ s)) + damping ^ 2 * normSq s := by
    rw [← normSq_neg, ← hsplit, normSq_add, dotProduct_smul, gram_mulVec_dotProduct, normSq_smul,
      smul_eq_mul]
  have hgram : 0 ≤ normSq ((Aᵀ * A) *ᵥ s) := normSq_nonneg _
  have hform : 0 ≤ damping * normSq (A *ᵥ s) := mul_nonneg h (normSq_nonneg _)
  linarith

/-! ## two dampings -/

/-- only a zero step serves two dampings -/
theorem gradient_eq_zero_of_step_eq (h : 0 < damping) (hlt : damping < larger)
    (hs : normal A damping *ᵥ s = -(Aᵀ *ᵥ r)) (ht : normal A larger *ᵥ s = -(Aᵀ *ᵥ r)) :
    Aᵀ *ᵥ r = 0 := by
  have hdifference : (larger - damping) • s = 0 := by
    have hboth : normal A larger *ᵥ s - normal A damping *ᵥ s = 0 := by rw [hs, ht, sub_self]
    rw [normal, normal, add_mulVec, add_mulVec, smul_mulVec, smul_mulVec, one_mulVec,
      add_sub_add_left_eq_sub, ← sub_smul] at hboth
    exact hboth
  have hzero : s = 0 := (smul_eq_zero.mp hdifference).resolve_left (sub_pos.mpr hlt).ne'
  exact (step_eq_zero_iff h hs).mp hzero

theorem normSq_step_lt_of_ne (h : 0 < damping) (hlt : damping < larger)
    (hs : normal A damping *ᵥ s = -(Aᵀ *ᵥ r)) (ht : normal A larger *ᵥ t = -(Aᵀ *ᵥ r))
    (hne : t ≠ s) : normSq t < normSq s := by
  have hcost : dampedCost A r damping s < dampedCost A r damping t := dampedCost_lt h hs hne
  have hcost' : dampedCost A r larger t < dampedCost A r larger s :=
    dampedCost_lt (h.trans hlt) ht hne.symm
  unfold dampedCost at hcost hcost'
  have hboth : (larger - damping) * normSq t < (larger - damping) * normSq s := by
    rw [sub_mul, sub_mul]
    linarith
  exact lt_of_mul_lt_mul_left hboth (sub_pos.mpr hlt).le

/-- a larger damping makes the step shorter -/
theorem normSq_step_le (h : 0 < damping) (hlt : damping < larger)
    (hs : normal A damping *ᵥ s = -(Aᵀ *ᵥ r)) (ht : normal A larger *ᵥ t = -(Aᵀ *ᵥ r)) :
    normSq t ≤ normSq s := by
  rcases eq_or_ne t s with rfl | hne
  · exact le_refl _
  · exact (normSq_step_lt_of_ne h hlt hs ht hne).le

/-- and leaves larger residuals of the linear model -/
theorem normSq_residuals_le (h : 0 < damping) (hlt : damping < larger)
    (hs : normal A damping *ᵥ s = -(Aᵀ *ᵥ r)) (ht : normal A larger *ᵥ t = -(Aᵀ *ᵥ r)) :
    normSq (A *ᵥ s + r) ≤ normSq (A *ᵥ t + r) := by
  rcases eq_or_ne t s with rfl | hne
  · exact le_refl _
  · have hcost : dampedCost A r damping s < dampedCost A r damping t := dampedCost_lt h hs hne
    have hshorter : damping * normSq t ≤ damping * normSq s :=
      mul_le_mul_of_nonneg_left (normSq_step_le h hlt hs ht) h.le
    unfold dampedCost at hcost
    linarith

/-! ## the steps of the solver -/

/-- **More damping makes a shorter step.**  The step for a larger damping is not longer, and
strictly shorter unless the gradient is zero, and it does not leave smaller residuals of the linear
model.
Every step is bounded by the gradient and lowers those residuals, unless the gradient is zero and
with it the step. -/
theorem dampedStep_shrinks {m n : Nat} (J : Mat ℚ m n) (r : Vector ℚ m) :
    (∀ damping : ℚ, 0 < damping → ∃ s : Vector ℚ n,
      (⟨m, n, J⟩ : DenseMatrix ℚ).dampedStep r.toArray damping = .ok s.toArray ∧
      damping ^ 2 * normSq s.get ≤ normSq (J.toMatrixᵀ *ᵥ r.get) ∧
      (J.toMatrixᵀ *ᵥ r.get ≠ 0 → normSq (J.toMatrix *ᵥ s.get + r.get) < normSq r.get) ∧
      (J.toMatrixᵀ *ᵥ r.get = 0 → s.get = 0)) ∧
    ∀ damping larger : ℚ, 0 < damping → damping < larger → ∃ s t : Vector ℚ n,
      (⟨m, n, J⟩ : DenseMatrix ℚ).dampedStep r.toArray damping = .ok s.toArray ∧
      (⟨m, n, J⟩ : DenseMatrix ℚ).dampedStep r.toArray larger = .ok t.toArray ∧
      normSq t.get ≤ normSq s.get ∧
      normSq (J.toMatrix *ᵥ s.get + r.get) ≤ normSq (J.toMatrix *ᵥ t.get + r.get) ∧
      (J.toMatrixᵀ *ᵥ r.get ≠ 0 → normSq t.get < normSq s.get) := by
  refine ⟨?_, ?_⟩
  · intro damping h
    obtain ⟨s, hstep, hs⟩ := DenseMatrix.dampedStep_of_pos J r h
    exact ⟨s, hstep, sq_damping_mul_normSq_le h.le hs, (normSq_step_lt h hs).mpr,
      (step_eq_zero_iff h hs).mpr⟩
  · intro damping larger h hlt
    obtain ⟨s, hstep, hs⟩ := DenseMatrix.dampedStep_of_pos J r h
    obtain ⟨t, hstep', ht⟩ := DenseMatrix.dampedStep_of_pos J r (h.trans hlt)
    refine ⟨s, t, hstep, hstep', normSq_step_le h hlt hs ht, normSq_residuals_le h hlt hs ht, ?_⟩
    intro hgradient
    refine normSq_step_lt_of_ne h hlt hs ht ?_
    intro heq
    rw [heq] at ht
    exact hgradient (gradient_eq_zero_of_step_eq h hlt hs ht)

theorem rankOne_shrinks : rankOne.toMatrixᵀ *ᵥ #v[1, 2].get ≠ 0 ∧ (0 : ℚ) < 1 / 2 ∧
    ∃ s t : Vector ℚ 2,
      (⟨2, 2, rankOne⟩ : DenseMatrix ℚ).dampedStep #[1, 2] (1 / 2) = .ok s.toArray ∧
      (⟨2, 2, rankOne⟩ : DenseMatrix ℚ).dampedStep #[1, 2] 1 = .ok t.toArray ∧
      normSq (rankOne.toMatrix *ᵥ s.get + #v[1, 2].get) < normSq #v[(1 : ℚ), 2].get ∧
      normSq (rankOne.toMatrix *ᵥ s.get + #v[1, 2].get) ≤
        normSq (rankOne.toMatrix *ᵥ t.get + #v[1, 2].get) ∧
      normSq t.get < normSq s.get := by
  have hgradient : rankOne.toMatrixᵀ *ᵥ #v[1, 2].get ≠ 0 := by
    intro hzero
    have hfirst : rankOne.toMatrixᵀ 0 ⬝ᵥ #v[(1 : ℚ), 2].get = 0 := congrFun hzero 0
    rw [dotProduct, Fin.sum_univ_two] at hfirst
    exact absurd hfirst (by decide +kernel)
  have hpos : (0 : ℚ) < 1 / 2 := by norm_num
  have hlt : (1 / 2 : ℚ) < 1 := by norm_num
  obtain ⟨hone, htwo⟩ := dampedStep_shrinks rankOne #v[1, 2]
  obtain ⟨s, hs, -, hlower, -⟩ := hone (1 / 2) hpos
  obtain ⟨s', t, hs', ht, -, hresiduals, hshorter⟩ := htwo (1 / 2) 1 hpos hlt
  obtain rfl : s = s' := Vector.toArray_inj.mp (Except.ok.inj (hs.symm.trans hs'))
  exact ⟨hgradient, hpos, s, t, hs, ht, hlower hgradient, hresiduals, hshorter hgradient⟩

end LeastSquares
