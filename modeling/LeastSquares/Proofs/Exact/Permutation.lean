import LeastSquares.Proofs.Exact.Step
import LeastSquares.Proofs.Linear.System

/-!
# Equations and unknowns in another order

If the rows and the columns of a Jacobian are permuted, and the residuals along with the rows, the
damped normal equations are the same equations with the unknowns in another order
(`normal_submatrix`).  Elimination then chooses other pivots, but with a positive damping there is
only one solution, so the step is the permuted step (`dampedStep_permute`).
-/

namespace LeastSquares

/-! ## vectors -/

section
variable {α : Type} {n : Nat}

/-- the vector with entry `κ i` at place `i` -/
def permute (κ : Equiv.Perm (Fin n)) (x : Vector α n) : Vector α n :=
  Vector.ofFn fun i => x.get (κ i)

theorem get_permute (κ : Equiv.Perm (Fin n)) (x : Vector α n) : (permute κ x).get = x.get ∘ κ :=
  get_ofFn _

theorem permute_symm_permute (κ : Equiv.Perm (Fin n)) (x : Vector α n) :
    permute κ.symm (permute κ x) = x := by
  apply ext_get
  rw [get_permute, get_permute, Function.comp_assoc, Equiv.self_comp_symm, Function.comp_id]

/-- a coordinate may be changed before the permutation, or afterwards where it has gone -/
theorem permute_set (κ : Equiv.Perm (Fin n)) (x : Vector α n) (g : α → α) (i : Fin n) :
    permute κ (x.set (κ i) (g (x.get (κ i))) (κ i).isLt) =
      (permute κ x).set i (g ((permute κ x).get i)) i.isLt := by
  apply ext_get
  rw [get_permute, get_set, get_set, get_permute]
  exact Function.update_comp_eq_of_injective x.get κ.injective i _

theorem permute_zipWith (κ : Equiv.Perm (Fin n)) (f : α → α → α) (x y : Vector α n) :
    permute κ (x.zipWith f y) = (permute κ x).zipWith f (permute κ y) := by
  apply ext_get
  funext i
  rw [get_zipWith, get_permute, get_permute, get_permute]
  exact get_zipWith f x y (κ i)

end

/-! ## equations -/

open Matrix
variable {K : Type} [Field K] {m n : Nat} {κ : Equiv.Perm (Fin n)} {ρ : Equiv.Perm (Fin m)}

theorem normSq_comp (κ : Equiv.Perm (Fin n)) (v : Fin n → K) : normSq (v ∘ κ) = normSq v :=
  comp_equiv_dotProduct_comp_equiv v v κ

theorem mulVec_comp (B : Matrix (Fin m) (Fin n) K) (v : Fin n → K) :
    B.submatrix ρ κ *ᵥ (v ∘ κ) = (B *ᵥ v) ∘ ρ := by
  rw [submatrix_mulVec_equiv, Function.comp_assoc, Equiv.self_comp_symm, Function.comp_id]

theorem normal_submatrix (A : Matrix (Fin m) (Fin n) K) (damping : K) :
    normal (A.submatrix ρ κ) damping = (normal A damping).submatrix κ κ := by
  calc normal (A.submatrix ρ κ) damping
      = (Aᵀ * A).submatrix κ κ + damping • (1 : Matrix (Fin n) (Fin n) K).submatrix κ κ := by
        unfold normal
        rw [transpose_submatrix, submatrix_mul_equiv, submatrix_one_equiv]
    _ = (normal A damping).submatrix κ κ := rfl

variable [LinearOrder K] [IsStrictOrderedRing K]

/-- the step of the permuted equations is the permuted step -/
theorem dampedStep_permute {A B : Mat K m n} (hB : B.toMatrix = A.toMatrix.submatrix ρ κ)
    (r : Vector K m) {damping : K} (h : 0 < damping) :
    dampedStep B (permute ρ r) damping = (dampedStep A r damping).map (permute κ) := by
  obtain ⟨s, hs, hsolves⟩ := exists_dampedStep A r h
  obtain ⟨t, ht, htsolves⟩ := exists_dampedStep B (permute ρ r) h
  rw [hB, get_permute, transpose_submatrix, mulVec_comp] at htsolves
  have hpermuted : normal (A.toMatrix.submatrix ρ κ) damping *ᵥ (s.get ∘ κ) =
      -((A.toMatrixᵀ *ᵥ r.get) ∘ κ) := by
    rw [normal_submatrix, mulVec_comp, hsolves]
    rfl
  have hinjective := mulVec_injective_iff_isUnit.mpr
    (isUnit_normal (A := A.toMatrix.submatrix ρ κ) h)
  have hget : t.get = (permute κ s).get := by
    rw [get_permute]
    exact hinjective (htsolves.trans hpermuted.symm)
  rw [hs, ht, ext_get hget]
  rfl

end LeastSquares
