import LeastSquares.Scalar

/-!
# Operands that are not finite

An infinity or a NaN among the operands of an addition, a subtraction or a multiplication makes the
result an infinity or a NaN, and so does one in the numerator of a division by a finite number.
Read backwards (`FiniteOperands`): where the result is finite, so are the operands.

In the unpacked form this is one case of each operation after another; packing and unpacking keep
it, because the exponent field of a number that is not finite is all ones and no other one's is.

A NaN among the operands makes the result a NaN (`isNaN_add` and the lemmas behind it).
-/

namespace LeastSquares

/-- a finite result has finite operands -/
class FiniteOperands (α : Type) [Scalar α] : Prop where
  of_add {x y : α} (h : Scalar.isFinite (x + y) = true) :
    Scalar.isFinite x = true ∧ Scalar.isFinite y = true
  of_sub {x y : α} (h : Scalar.isFinite (x - y) = true) :
    Scalar.isFinite x = true ∧ Scalar.isFinite y = true
  of_mul {x y : α} (h : Scalar.isFinite (x * y) = true) :
    Scalar.isFinite x = true ∧ Scalar.isFinite y = true
  of_div {x y : α} (h : Scalar.isFinite (x / y) = true) (hy : Scalar.isFinite y = true) :
    Scalar.isFinite x = true

namespace Binary64
open Float.Model UnpackedFloat

/-! ## packing -/

theorem unpackExponent_pack {u : UnpackedFloat} (h : u.isFinite = false) :
    unpackExponent (UnpackedFloat.pack .binary64 u) = -1#_ := by
  cases u with
  | notANumber => exact unpackExponent_packComponents
  | infinity s => exact unpackExponent_packComponents
  | zero s => cases h
  | finite s m e hm => cases h

theorem not_isFinite_unpack {b : BitVec Format.binary64.numBits} (h : unpackExponent b = -1#_) :
    (UnpackedFloat.unpack .binary64 b).isFinite = false := by
  unfold UnpackedFloat.unpack
  rw [if_pos h]
  split <;> rfl

/-- the packed number is finite only if the unpacked one is -/
theorem isFinite_of_pack {u : UnpackedFloat} (h : (Float.Model.pack u).unpack.isFinite = true) :
    u.isFinite = true := by
  cases hu : u.isFinite with
  | true => rfl
  | false =>
    have hpack : (Float.Model.pack u).unpack.isFinite = false :=
      not_isFinite_unpack (unpackExponent_pack hu)
    rw [hpack] at h
    cases h

/-! ## unpacked numbers -/

variable {u v : UnpackedFloat}

theorem isFinite_of_unpacked_add (h : (u.add .binary64 v).isFinite = true) :
    u.isFinite = true ∧ v.isFinite = true := by
  cases u with
  | notANumber => cases h
  | infinity s =>
    cases v with
    -- of equal signs the sum is an infinity, of different ones a NaN
    | infinity t => cases s <;> cases t <;> cases h
    | notANumber | zero | finite => cases h
  | zero | finite =>
    cases v with
    | notANumber | infinity => cases h
    | zero | finite => exact ⟨rfl, rfl⟩

theorem isFinite_of_unpacked_sub (h : (u.sub .binary64 v).isFinite = true) :
    u.isFinite = true ∧ v.isFinite = true := by
  cases u with
  | notANumber => cases h
  | infinity s =>
    cases v with
    | infinity t => cases s <;> cases t <;> cases h
    | notANumber | zero | finite => cases h
  | zero | finite =>
    cases v with
    | notANumber | infinity => cases h
    | zero | finite => exact ⟨rfl, rfl⟩

theorem isFinite_of_unpacked_mul (h : (u.mul .binary64 v).isFinite = true) :
    u.isFinite = true ∧ v.isFinite = true := by
  cases u with
  | notANumber => cases h
  | infinity => cases v <;> cases h
  | zero | finite =>
    cases v with
    | notANumber | infinity => cases h
    | zero | finite => exact ⟨rfl, rfl⟩

theorem isFinite_of_unpacked_div (h : (u.div .binary64 v).isFinite = true)
    (hv : v.isFinite = true) : u.isFinite = true := by
  cases u with
  | notANumber => cases h
  | infinity =>
    cases v with
    | notANumber | infinity => cases hv
    | zero | finite => cases h
  | zero | finite => rfl

/-! ## NaN -/

theorem isNaN_iff {x : Float} : x.isNaN = true ↔ x.toModel.unpack = .notANumber := by
  show x.toModel.unpack.isNaN = true ↔ _
  cases x.toModel.unpack with
  | notANumber => exact ⟨fun _ => rfl, fun _ => rfl⟩
  | infinity | zero | finite => exact ⟨nofun, nofun⟩

/-- what is packed as a NaN is unpacked as one -/
theorem isNaN_pack {u : UnpackedFloat} (h : u = .notANumber) :
    (Float.Model.pack u).unpack.isNaN = true := by
  rw [h]
  decide

variable {x y : Float}

theorem isNaN_add (h : x.isNaN = true ∨ y.isNaN = true) : (x + y).isNaN = true := by
  refine isNaN_pack (u := x.toModel.unpack.add .binary64 y.toModel.unpack) ?_
  rcases h with h | h
  · rw [isNaN_iff.mp h]
    rfl
  · rw [isNaN_iff.mp h]
    cases x.toModel.unpack <;> rfl

theorem isNaN_sub (h : x.isNaN = true) : (x - y).isNaN = true := by
  refine isNaN_pack (u := x.toModel.unpack.sub .binary64 y.toModel.unpack) ?_
  rw [isNaN_iff.mp h]
  rfl

theorem isNaN_mul (h : x.isNaN = true) : (x * y).isNaN = true := by
  refine isNaN_pack (u := x.toModel.unpack.mul .binary64 y.toModel.unpack) ?_
  rw [isNaN_iff.mp h]
  rfl

theorem isNaN_sqrt (h : x.isNaN = true) : x.sqrt.isNaN = true := by
  refine isNaN_pack (u := x.toModel.unpack.sqrt .binary64) ?_
  rw [isNaN_iff.mp h]
  rfl

end Binary64

open Binary64 in
instance : FiniteOperands Float where
  of_add h := isFinite_of_unpacked_add (isFinite_of_pack h)
  of_sub h := isFinite_of_unpacked_sub (isFinite_of_pack h)
  of_mul h := isFinite_of_unpacked_mul (isFinite_of_pack h)
  of_div h hy := isFinite_of_unpacked_div (isFinite_of_pack h) hy

end LeastSquares
