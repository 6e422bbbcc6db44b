import LeastSquares.Proofs.Exact.Step

/-!
# Stationary points of linear least squares

Where the gradient of `‖A x + c‖²` vanishes the value is least: moving away only adds a square.
From any other point a damped step leads to a lower value, whatever the damping is
(`normSq_step_lt`).
If `A` is injective, there is only one stationary point (`normSq_lt_of_stationary`).
-/

namespace LeastSquares
open Matrix
variable {K : Type} [Field K] {m n : Nat} {A : Matrix (Fin m) (Fin n) K}

/-- no point has a lower value of `‖A x + c‖` than `x` -/
def IsLeastSquares [LE K] (A : Matrix (Fin m) (Fin n) K) (c : Fin m → K) (x : Fin n → K) : Prop :=
  ∀ y, normSq (A *ᵥ x + c) ≤ normSq (A *ᵥ y + c)

/-- away from a stationary point only a square is added -/
theorem normSq_of_stationary {c : Fin m → K} {x : Fin n → K} (h : Aᵀ *ᵥ (A *ᵥ x + c) = 0)
    (y : Fin n → K) : normSq (A *ᵥ y + c) = normSq (A *ᵥ x + c) + normSq (A *ᵥ (y - x)) := by
  have hflat : (A *ᵥ x + c) ⬝ᵥ (A *ᵥ (y - x)) = 0 := by
    rw [dotProduct_mulVec, ← mulVec_transpose, h, zero_dotProduct]
  have hmove := mulVec_add_add A c x (y - x)
  rw [add_sub_cancel] at hmove
  rw [hmove, normSq_add _ (A *ᵥ (y - x)), hflat, mul_zero, add_zero]

variable [LinearOrder K] [IsStrictOrderedRing K] {damping : K}

/-- the damped step is zero only at a stationary point -/
theorem step_eq_zero_iff (h : 0 < damping) {r : Fin m → K} {s : Fin n → K}
    (hs : normal A damping *ᵥ s = -(Aᵀ *ᵥ r)) : s = 0 ↔ Aᵀ *ᵥ r = 0 := by
  have hinj := mulVec_injective_iff_isUnit.mpr (isUnit_normal (A := A) h)
  rw [← hinj.eq_iff, hs, mulVec_zero, neg_eq_zero]

/-- the damped step leads to a strictly lower norm, unless the point is stationary -/
theorem normSq_step_lt (h : 0 < damping) {r : Fin m → K} {s : Fin n → K}
    (hs : normal A damping *ᵥ s = -(Aᵀ *ᵥ r)) :
    normSq (A *ᵥ s + r) < normSq r ↔ Aᵀ *ᵥ r ≠ 0 := by
  have hzero := step_eq_zero_iff h hs
  rw [ne_eq, ← hzero]
  refine ⟨?_, ?_⟩
  · intro hlt h0
    rw [h0, mulVec_zero, zero_add] at hlt
    exact lt_irrefl _ hlt
  · intro hne
    have hcost := dampedCost_lt h hs (Ne.symm hne)
    unfold dampedCost at hcost
    have hstay : normSq (0 : Fin n → K) = 0 := zero_dotProduct _
    rw [mulVec_zero, zero_add, hstay, mul_zero, add_zero] at hcost
    have hnonneg : 0 ≤ damping * normSq s := mul_nonneg h.le (normSq_nonneg s)
    exact (le_add_of_nonneg_right hnonneg).trans_lt hcost

theorem isLeastSquares_iff {c : Fin m → K} {x : Fin n → K} :
    IsLeastSquares A c x ↔ Aᵀ *ᵥ (A *ᵥ x + c) = 0 := by
  refine ⟨?_, ?_⟩
  · intro hleast
    by_contra hne
    -- from a point that is not stationary a step leads down
    have hunit : IsUnit (normal A 1) := isUnit_normal one_pos
    obtain ⟨s, hs⟩ := mulVec_surjective_iff_isUnit.mpr hunit (-(Aᵀ *ᵥ (A *ᵥ x + c)))
    have hlt := (normSq_step_lt one_pos hs).mpr hne
    have hle := hleast (x + s)
    rw [mulVec_add_add, add_comm (A *ᵥ x + c)] at hle
    exact hle.not_gt hlt
  · intro hgradient y
    rw [normSq_of_stationary hgradient y]
    exact le_add_of_nonneg_right (normSq_nonneg _)

/-- if `A` is injective, every other point is worse than a stationary one -/
theorem normSq_lt_of_stationary (hinjective : Function.Injective A.mulVec) {c : Fin m → K}
    {x y : Fin n → K} (hx : Aᵀ *ᵥ (A *ᵥ x + c) = 0) (hne : y ≠ x) :
    normSq (A *ᵥ x + c) < normSq (A *ᵥ y + c) := by
  rw [normSq_of_stationary hx y]
  refine lt_add_of_pos_right _ (normSq_pos ?_)
  intro hzero
  rw [mulVec_sub, sub_eq_zero] at hzero
  exact hne (hinjective hzero)

end LeastSquares
