import LeastSquares.Step

/-!
# Transposed products

A product of binary64 numbers does not depend on their order (`unpacked_mul_comm`, one case of the
operation after another), and an entry of a matrix product is summed in the same order whatever the
layouts are.  So transposing a product gives the product of the transposed factors with every entry
the same, and the normal equations are symmetric to the last bit.
-/

namespace LeastSquares

/-! ## binary64 -/

namespace Binary64
open Float.Model UnpackedFloat

theorem sign_mul_comm (s t : Sign) : s * t = t * s := by cases s <;> cases t <;> rfl

theorem unpacked_mul_comm (u v : UnpackedFloat) : u.mul .binary64 v = v.mul .binary64 u := by
  cases u with
  | notANumber => cases v <;> rfl
  | infinity s =>
    cases v with
    | notANumber | zero => rfl
    | infinity t => exact congrArg UnpackedFloat.infinity (sign_mul_comm s t)
    | finite t m e hm => exact congrArg UnpackedFloat.infinity (sign_mul_comm s t)
  | zero s =>
    cases v with
    | notANumber | infinity => rfl
    | zero t => exact congrArg UnpackedFloat.zero (sign_mul_comm s t)
    | finite t m e hm => exact congrArg UnpackedFloat.zero (sign_mul_comm s t)
  | finite s m e hm =>
    cases v with
    | notANumber => rfl
    | infinity t => exact congrArg UnpackedFloat.infinity (sign_mul_comm s t)
    | zero t => exact congrArg UnpackedFloat.zero (sign_mul_comm s t)
    | finite t m' e' hm' =>
      show roundWithAccuracy _ (s * t) (m * m') (e + e') _ =
        roundWithAccuracy _ (t * s) (m' * m) (e' + e) _
      rw [sign_mul_comm, Nat.mul_comm, Int.add_comm]

end Binary64

instance floatMulCommutative : Std.Commutative fun x y : Float => x * y where
  comm x y := congrArg (fun u => Float.ofModel (Float.Model.pack u))
    (Binary64.unpacked_mul_comm x.toModel.unpack y.toModel.unpack)

/-! ## products and their transposes -/

namespace Mat
variable {α : Type} [Scalar α] {m k n : Nat}

def IsSymmetric (a : Mat α n n) : Prop := ∀ i j, a.entry i j = a.entry j i

theorem IsSymmetric.addDiagonal {a : Mat α n n} (h : a.IsSymmetric) (shift : α) :
    (a.addDiagonal shift).IsSymmetric := by
  intro i j
  rw [entry_addDiagonal, entry_addDiagonal]
  by_cases hij : i = j
  · rw [hij]
  · rw [if_neg hij, if_neg (Ne.symm hij)]
    exact h i j

variable [Std.Commutative fun x y : α => x * y]

/-- both sides add the same products in the same order -/
theorem entry_transpose_mul (a : Mat α m k) (b : Mat α k n) (i : Fin n) (j : Fin m) :
    (a.mul b).transpose.entry i j = (b.transpose.mul a.transpose).entry i j := by
  have hterms : (fun l => a.entry j l * b.entry l i) =
      fun l => b.transpose.entry i l * a.transpose.entry l j := by
    funext l
    rw [entry_transpose, entry_transpose]
    have hcomm : Std.Commutative fun x y : α => x * y := inferInstance
    exact hcomm.comm _ _
  rw [entry_transpose, entry_mul, entry_mul, hterms]

theorem isSymmetric_normal (J : Mat α m n) : (J.transpose.mul J).IsSymmetric := by
  intro i j
  have hmul := entry_transpose_mul J.transpose J i j
  rw [transpose_transpose, entry_transpose] at hmul
  exact hmul.symm

end Mat

namespace DenseMatrix

/-- **A transposed product is the product of the transposed factors, bit for bit**, for all sizes
and layouts; so the normal equations of a step are symmetric, and so are the damped ones. -/
theorem transposed_products :
    (∀ {m k n : Nat} (a : Mat Float m k) (b : Mat Float k n),
      ∃ p : Mat Float m n, ∃ q : Mat Float n m,
        (⟨m, k, a⟩ : DenseMatrix Float).mul ⟨k, n, b⟩ = .ok ⟨m, n, p⟩ ∧
        (⟨k, n, b⟩ : DenseMatrix Float).transpose.mul (⟨m, k, a⟩ : DenseMatrix Float).transpose =
          .ok ⟨n, m, q⟩ ∧
        ∀ i j, p.transpose.entry i j = q.entry i j) ∧
    (∀ {m n : Nat} (J : Mat Float m n) (damping : Float), ∃ normal damped : Mat Float n n,
      (⟨m, n, J⟩ : DenseMatrix Float).transpose.mul ⟨m, n, J⟩ = .ok ⟨n, n, normal⟩ ∧
      (⟨n, n, normal⟩ : DenseMatrix Float).addDiagonal damping = .ok ⟨n, n, damped⟩ ∧
      normal.IsSymmetric ∧ damped.IsSymmetric) := by
  refine ⟨?_, ?_⟩
  · intro m k n a b
    exact ⟨_, _, mul_mk a b, mul_mk b.transpose a.transpose, Mat.entry_transpose_mul a b⟩
  · intro m n J damping
    have hnormal := Mat.isSymmetric_normal J
    exact ⟨_, _, mul_mk J.transpose J, addDiagonal_mk _ damping, hnormal,
      hnormal.addDiagonal damping⟩

end DenseMatrix
end LeastSquares
