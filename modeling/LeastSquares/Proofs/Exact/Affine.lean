import Mathlib.Tactic.FieldSimp
import LeastSquares.Proofs.Exact.LeastSquares
import LeastSquares.Proofs.Linear.System
import LeastSquares.Proofs.Problem.Differences

/-!
# Affine residuals over exact arithmetic

The central difference of the residuals `A x + c` is `A`, whatever the point and the difference step
are: the constant cancels, and what is left of column `j` is `2 ε A eⱼ` over `2 ε`.
-/

namespace LeastSquares
open Matrix
variable {K : Type} [Field K] [LinearOrder K] {m n : Nat}

/-- the residuals `A x + c` -/
def affine (A : Matrix (Fin m) (Fin n) K) (c : Fin m → K) (x : Vector K n) : Vector K m :=
  Vector.ofFn (A *ᵥ x.get + c)

theorem get_affine (A : Matrix (Fin m) (Fin n) K) (c : Fin m → K) (x : Vector K n) :
    (affine A c x).get = A *ᵥ x.get + c := get_ofFn _

/-- `f` has the residuals `A x + c`, and its Jacobian is `A` or computed from them -/
structure PureProblem.IsAffine (f : PureProblem K) (A : Matrix (Fin m) (Fin n) K) (c : Fin m → K) :
    Prop where
  residuals : ∀ x : Vector K n, f.residuals x.toArray = .ok (affine A c x).toArray
  jacobian : f = .ofResiduals f.residuals ∨ ∀ (x : Vector K n) (r : Vector K m) (ε : K),
    ∃ J : Mat K m n, f.jacobian x.toArray r.toArray ε = .ok ⟨m, n, J⟩ ∧ J.toMatrix = A

/-! ## central differences -/

/-- one coordinate of a point is moved -/
theorem get_set_add (x : Vector K n) (j : Fin n) (d : K) :
    (x.set j (x.get j + d) j.isLt).get = x.get + Pi.single j d := by
  funext i
  rw [get_set, Pi.add_apply]
  rcases eq_or_ne i j with rfl | h
  · rw [Function.update_self, Pi.single_eq_same]
  · rw [Function.update_of_ne h, Pi.single_eq_of_ne h, add_zero]

variable [IsStrictOrderedRing K] {A : Matrix (Fin m) (Fin n) K} {c : Fin m → K}

/-- moving one coordinate back and forth changes affine residuals by a multiple of one column -/
theorem affine_quotient (x : Vector K n) {ε : K} (hε : ε ≠ 0) (i : Fin m) (j : Fin n) :
    ((affine A c (x.set j (x.get j + ε) j.isLt)).get i -
      (affine A c (x.set j (x.get j - ε) j.isLt)).get i) / (2 * ε) = A i j := by
  have hmove (d : K) : (affine A c (x.set j (x.get j + d) j.isLt)).get i =
      (A *ᵥ x.get + c) i + A i j * d := by
    rw [get_affine, get_set_add, mulVec_add_add, mulVec_single]
    rfl
  rw [sub_eq_add_neg (x.get j) ε, hmove, hmove]
  field_simp
  ring

/-- the central difference of affine residuals is their matrix -/
theorem centralDifference_affine {σ : Type} {f : Array K → Evaluation σ K (Array K)}
    (hf : ∀ x : Vector K n, f x.toArray = pure (affine A c x).toArray) (x : Vector K n)
    (r : Vector K m) {ε : K} (hε : ε ≠ 0) :
    centralDifference f x.toArray r.toArray ε =
      pure ⟨m, n, .ofFn .rowMajor fun i j => A i j⟩ := by
  have hquotients (i : Fin m) (j : Fin n) :
      ((affine A c (x.set j (x.get j + ε) j.isLt)).get i -
        (affine A c (x.set j (x.get j - ε) j.isLt)).get i) / (Scalar.two * ε) = A i j :=
    affine_quotient x hε i j
  rw [centralDifference_eq (fun j => hf _) fun j => hf _]
  simp only [hquotients]

/-- there is a Jacobian, and it is exact unless the difference step is zero -/
theorem PureProblem.IsAffine.exists_jacobian {f : PureProblem K} (hf : f.IsAffine A c)
    (x : Vector K n) (r : Vector K m) (ε : K) :
    ∃ J : Mat K m n, f.jacobian x.toArray r.toArray ε = .ok ⟨m, n, J⟩ ∧
      (ε ≠ 0 → J.toMatrix = A) := by
  rcases hf.jacobian with hnumeric | hexact
  · have hjacobian := jacobian_ofResiduals (f := f.residuals) (x := x) (ε := ε)
      (fun j => hf.residuals (x.set j (x.get j + ε) j.isLt))
      (fun j => hf.residuals (x.set j (x.get j - ε) j.isLt)) r
    rw [← hnumeric] at hjacobian
    refine ⟨_, hjacobian, ?_⟩
    intro hε
    ext i j
    rw [Mat.toMatrix_apply, Mat.entry_ofFn]
    exact affine_quotient x hε i j
  · obtain ⟨J, hJ, hmatrix⟩ := hexact x r ε
    exact ⟨J, hJ, fun _ => hmatrix⟩

end LeastSquares
