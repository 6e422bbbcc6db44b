import Mathlib
import LeastSquares.Proofs.Binary64.ExactScaling
import LeastSquares.Proofs.Binary64.Size

/-!
# Monotone operations

Squares, and sums and roots of numbers that are not below zero, are the exact results, rounded
(`square_eq`, `add_eq`, `sqrt_eq`), and rounding is monotone.  So these operations keep the order
(`square_le_square`, `add_le_add`, `sqrt_le_sqrt`), whatever overflows or underflows in them, and
none of them makes a NaN.
-/

namespace LeastSquares.Binary64
open Float.Model UnpackedFloat

/-! ## squares -/

/-- a square has the leading bits, or it is below the least grid -/
theorem le_grid_square {m : ℕ} {e : ℤ} (hm : 0 < m) (hc : Canonical m e) :
    e + e ≤ grid (m * m) (e + e) := by
  unfold grid
  rcases hc.normal with hlarge | rfl
  · have hsquare : 2 ^ 52 ≤ m * m := hlarge.trans (Nat.le_mul_self m)
    have hlog := (Nat.le_log2 (Nat.mul_pos hm hm).ne').mpr hsquare
    omega
  · omega

theorem stores_square {x : Float} (h : x.isNaN = false) :
    Stores (x.toModel.unpack.mul .binary64 x.toModel.unpack) (size x * size x) := by
  unfold size
  have h : x.toModel.unpack.isNaN = false := h
  cases hx : x.toModel.unpack with
  | notANumber =>
    rw [hx] at h
    cases h
  | zero s =>
    show Stores (.zero (s * s)) (0 * 0)
    rw [mul_zero]
    exact stores_zero _
  | infinity s =>
    have hmul : (UnpackedFloat.infinity s).mul .binary64 (.infinity s) = .infinity .positive := by
      cases s <;> rfl
    rw [hmul]
    exact stores_infinity (le_mul_of_one_le_right limit_pos.le one_le_limit)
  | finite s m e hm =>
    have hmul : (UnpackedFloat.finite s m e hm).mul .binary64 (.finite s m e hm) =
        roundWithAccuracy .binary64 .positive (m * m) (e + e) .exact := by
      cases s <;> rfl
    have hvalue : ((m * m : ℕ) : ℝ) * 2 ^ (e + e) = m * 2 ^ e * (m * 2 ^ e) := by
      rw [zpow_add₀ two_ne_zero]
      push_cast
      ring
    show Stores _ (m * 2 ^ e * (m * 2 ^ e))
    rw [hmul, ← hvalue]
    exact stores_round (Nat.mul_pos hm hm) (le_grid_square hm (canonical_of_unpack hx).1) rfl

/-- the square of a number is its exact square, rounded -/
theorem square_eq {x : Float} (h : x.isNaN = false) :
    (0.0 : Float) ≤ x * x ∧ size (x * x) = stored (size x * size x) := by
  rw [zero_le_iff]
  exact stores_square h

theorem square_le_square {x y : Float} (h : x.abs ≤ y.abs) : x * x ≤ y * y := by
  obtain ⟨hx, hy, hsize⟩ := size_le_of_abs_le h
  have hx0 := size_nonneg x
  obtain ⟨hxx, hxsize⟩ := square_eq hx
  obtain ⟨hyy, hysize⟩ := square_eq hy
  rw [le_iff_size hxx hyy, hxsize, hysize]
  exact stored_mono (mul_nonneg hx0 hx0) (mul_self_le_mul_self hx0 hsize)

/-! ## sums -/

theorem shiftLeft_mul_two_zpow (m k : ℕ) (e : ℤ) :
    ((m <<< k : ℕ) : ℝ) * 2 ^ (e - k) = m * 2 ^ e := by
  rw [Nat.shiftLeft_eq, zpow_sub₀ two_ne_zero, zpow_natCast]
  push_cast
  field_simp

/-- before it is rounded a mantissa gets enough zeros for the grid -/
theorem round_eq (s : Sign) {m : ℕ} (e : ℤ) (hm : 0 < m) :
    ∃ m' e', 0 < m' ∧ e' ≤ grid m' e' ∧ (m' : ℝ) * 2 ^ e' = m * 2 ^ e ∧
      UnpackedFloat.round .binary64 s m e = roundWithAccuracy .binary64 s m' e' .exact := by
  refine ⟨m <<< (e - grid m e).toNat, e - (e - grid m e).toNat, ?_, ?_,
    shiftLeft_mul_two_zpow _ _ _, ?_⟩
  · rw [Nat.shiftLeft_eq]
    exact Nat.mul_pos hm (Nat.two_pow_pos _)
  · have hlog := log2_mul_two_pow hm (e - grid m e).toNat
    rw [Nat.shiftLeft_eq]
    unfold grid at *
    omega
  · unfold UnpackedFloat.round
    rw [targetExponent_eq]
    rfl

theorem normalize_natCast (m : ℕ) (e : ℤ) (hm : 0 < m) :
    UnpackedFloat.normalize .binary64 m e .positive =
      UnpackedFloat.round .binary64 .positive m e := by
  have hcompare : compare (m : ℤ) 0 = .gt := compare_gt_iff_gt.mpr (Int.natCast_pos.mpr hm)
  unfold UnpackedFloat.normalize
  rw [hcompare]
  rfl

/-- the sum at the smaller exponent is exact -/
theorem add_finite {m m' : ℕ} (e e' : ℤ) (hm : 0 < m) (hm' : 0 < m') :
    ∃ n k, 0 < n ∧ k ≤ grid n k ∧ (n : ℝ) * 2 ^ k = m * 2 ^ e + m' * 2 ^ e' ∧
      (UnpackedFloat.finite .positive m e hm).add .binary64 (.finite .positive m' e' hm') =
        roundWithAccuracy .binary64 .positive n k .exact := by
  have hleft := shiftLeft_mul_two_zpow m (e - min e e').toNat e
  have hright := shiftLeft_mul_two_zpow m' (e' - min e e').toNat e'
  have hpos : 0 < m <<< (e - min e e').toNat + m' <<< (e' - min e e').toNat := by
    rw [Nat.shiftLeft_eq]
    exact Nat.add_pos_left (Nat.mul_pos hm (Nat.two_pow_pos _)) _
  rw [show e - (e - min e e').toNat = min e e' by omega] at hleft
  rw [show e' - (e' - min e e').toNat = min e e' by omega] at hright
  obtain ⟨n, k, hn, hk, hvalue, hround⟩ := round_eq .positive (min e e') hpos
  refine ⟨n, k, hn, hk, ?_, ?_⟩
  · rw [hvalue, ← hleft, ← hright]
    push_cast
    ring
  · rw [← hround]
    exact normalize_natCast _ _ hpos

theorem stores_add {x y : Float} (hx : (0.0 : Float) ≤ x) (hy : (0.0 : Float) ≤ y) :
    Stores (x.toModel.unpack.add .binary64 y.toModel.unpack) (size x + size y) := by
  have hxself := stores_self hx
  have hyself := stores_self hy
  have hx0 := size_nonneg x
  have hy0 := size_nonneg y
  rw [zero_le_iff] at hx hy
  unfold size at *
  generalize x.toModel.unpack = u at *
  generalize y.toModel.unpack = v at *
  cases hx with
  | zero s =>
    rw [show sizeUnpacked (.zero s) = 0 from rfl, zero_add]
    cases hy with
    | zero t => cases s <;> cases t <;> exact stores_zero _
    | finite | infinity => exact hyself
  | finite m e hm =>
    cases hy with
    | zero t =>
      rw [show sizeUnpacked (.zero t) = 0 from rfl, add_zero]
      exact hxself
    | finite m' e' hm' =>
      obtain ⟨n, k, hn, hk, hvalue, hadd⟩ := add_finite e e' hm hm'
      rw [hadd]
      show Stores _ (m * 2 ^ e + m' * 2 ^ e')
      rw [← hvalue]
      exact stores_round hn hk rfl
    | infinity => exact stores_infinity (le_add_of_nonneg_left hx0)
  | infinity =>
    have hadd : (UnpackedFloat.infinity .positive).add .binary64 v = .infinity .positive := by
      cases hy <;> rfl
    rw [hadd]
    exact stores_infinity (le_add_of_nonneg_right hy0)

/-- the sum of two numbers is their exact sum, rounded -/
theorem add_eq {x y : Float} (hx : (0.0 : Float) ≤ x) (hy : (0.0 : Float) ≤ y) :
    (0.0 : Float) ≤ x + y ∧ size (x + y) = stored (size x + size y) := by
  rw [zero_le_iff]
  exact stores_add hx hy

/-- sums of numbers that are not negative -/
theorem add_le_add {a b c d : Float} (ha : (0.0 : Float) ≤ a) (hab : a ≤ b)
    (hc : (0.0 : Float) ≤ c) (hcd : c ≤ d) : a + c ≤ b + d := by
  have hb := le_trans ha hab
  have hd := le_trans hc hcd
  obtain ⟨hac, hacsize⟩ := add_eq ha hc
  obtain ⟨hbd, hbdsize⟩ := add_eq hb hd
  rw [le_iff_size ha hb] at hab
  rw [le_iff_size hc hd] at hcd
  rw [le_iff_size hac hbd, hacsize, hbdsize]
  exact stored_mono (add_nonneg (size_nonneg a) (size_nonneg c)) (by gcongr)

/-! ## roots -/

/-- where the root of an integer lies behind its integral part, told from the remainder -/
def rootAccuracy (n : ℕ) : Accuracy :=
  if n - n.sqrt * n.sqrt = 0 then .exact
  else .inexact (if n - n.sqrt * n.sqrt ≤ n.sqrt then .lt else .gt)

theorem located_sqrt (n : ℕ) : Located (rootAccuracy n) n.sqrt √n := by
  have hlow : n.sqrt * n.sqrt ≤ n := n.sqrt_le
  have hhigh : n < (n.sqrt + 1) * (n.sqrt + 1) := n.lt_succ_sqrt
  unfold rootAccuracy
  generalize n.sqrt = r at *
  have hr : (0 : ℝ) ≤ r := r.cast_nonneg
  split
  · have hn : n = r * r := by omega
    show √n = r
    rw [hn, Nat.cast_mul, Real.sqrt_mul_self hr]
  · have hrem : (r : ℝ) * r + 1 ≤ n := by
      have hlt : r * r + 1 ≤ n := by omega
      exact_mod_cast hlt
    split
    · have hsmall : (n : ℝ) ≤ r * r + r := by
        have hle : n ≤ r * r + r := by omega
        exact_mod_cast hle
      have hbelow : √n < r + 1 / 2 := (Real.sqrt_lt' (by linarith)).mpr (by linarith)
      exact ⟨(Real.lt_sqrt hr).mpr (by linarith), by linarith⟩
    · have hlarge : (r : ℝ) * r + r + 1 ≤ n := by
        have hle : r * r + r + 1 ≤ n := by omega
        exact_mod_cast hle
      have hhigh : (n : ℝ) < (r + 1) * (r + 1) := by exact_mod_cast hhigh
      have habove : r + 1 / 2 < √n := (Real.lt_sqrt (by linarith)).mpr (by linarith)
      exact ⟨by linarith, (Real.sqrt_lt' (by linarith)).mpr (by linarith)⟩

/-- the exponent at which a root is computed, before it is rounded -/
def rootExponent (m : ℕ) (e : ℤ) : ℤ :=
  min (e / 2) (Format.binary64.targetExponent ((totalExponent m e + 1) / 2))

/-- the integer whose root it is, at twice that exponent -/
def radicand (m : ℕ) (e : ℤ) : ℕ := m <<< (e - 2 * rootExponent m e).toNat

theorem rootExponent_eq (m : ℕ) (e : ℤ) :
    rootExponent m e = min (e / 2) (max ((m.log2 + 1 + e + 1) / 2 - 53) (-1074)) := rfl

theorem radicand_mul {m : ℕ} (e : ℤ) :
    (radicand m e : ℝ) * 2 ^ (2 * rootExponent m e) = m * 2 ^ e := by
  have hshift := shiftLeft_mul_two_zpow m (e - 2 * rootExponent m e).toNat e
  have hle : 2 * rootExponent m e ≤ e := by
    rw [rootExponent_eq]
    omega
  rwa [show e - (e - 2 * rootExponent m e).toNat = 2 * rootExponent m e by omega] at hshift

theorem sqrt_radicand_mul {m : ℕ} (e : ℤ) :
    √(radicand m e) * 2 ^ rootExponent m e = √(m * 2 ^ e) := by
  have hpower : (0 : ℝ) ≤ 2 ^ rootExponent m e := by positivity
  rw [← radicand_mul, two_mul, zpow_add₀ two_ne_zero, Real.sqrt_mul (Nat.cast_nonneg _),
    Real.sqrt_mul_self hpower]

/-- the root has the leading bits, or it is below the least grid -/
theorem rootExponent_le_grid {m : ℕ} (e : ℤ) (hm : 0 < m) :
    rootExponent m e ≤ grid (radicand m e).sqrt (rootExponent m e) := by
  by_cases hleast : rootExponent m e ≤ -1074
  · exact hleast.trans (le_max_right _ _)
  have hbits : 104 ≤ (radicand m e).log2 := by
    have hexponent := rootExponent_eq m e
    unfold radicand
    rw [Nat.shiftLeft_eq, log2_mul_two_pow hm]
    omega
  have hpos : radicand m e ≠ 0 := by
    intro hzero
    rw [hzero] at hbits
    exact absurd hbits (by decide)
  have hroot : 2 ^ 52 ≤ (radicand m e).sqrt := by
    rw [Nat.le_sqrt, ← pow_add]
    exact (Nat.le_log2 hpos).mp hbits
  have hlog := (Nat.le_log2 (by omega)).mpr hroot
  unfold grid
  omega

theorem stores_sqrt {m : ℕ} (e : ℤ) (hm : 0 < m) :
    Stores ((UnpackedFloat.finite .positive m e hm).sqrt .binary64) √(m * 2 ^ e) := by
  have hpos : 0 < radicand m e := by
    unfold radicand
    rw [Nat.shiftLeft_eq]
    exact Nat.mul_pos hm (Nat.two_pow_pos _)
  have hsqrt : (UnpackedFloat.finite .positive m e hm).sqrt .binary64 =
      roundWithAccuracy .binary64 .positive (radicand m e).sqrt (rootExponent m e)
        (rootAccuracy (radicand m e)) := rfl
  rw [hsqrt, ← sqrt_radicand_mul]
  exact stores_round (Nat.sqrt_pos.mpr hpos) (rootExponent_le_grid e hm) (located_sqrt _)

/-- the root of a number is its exact root, rounded; that of an infinity is an infinity -/
theorem sqrt_eq {x : Float} (hx : (0.0 : Float) ≤ x) :
    (0.0 : Float) ≤ x.sqrt ∧
      size x.sqrt = if size x = limit then limit else stored √(size x) := by
  rw [zero_le_iff] at hx ⊢
  unfold size
  show Unsigned (Float.Model.pack (x.toModel.unpack.sqrt .binary64)).unpack ∧
    sizeUnpacked (Float.Model.pack (x.toModel.unpack.sqrt .binary64)).unpack = _
  generalize hu : x.toModel.unpack = u at *
  cases hx with
  | zero s =>
    have hsize : sizeUnpacked (.zero s) ≠ limit := limit_pos.ne
    rw [if_neg hsize, show √(sizeUnpacked (.zero s)) = 0 from Real.sqrt_zero]
    exact stores_zero s
  | finite m e hm =>
    obtain ⟨hc, he⟩ := canonical_of_unpack hu
    have hsize : sizeUnpacked (.finite .positive m e hm) ≠ limit :=
      (mul_two_zpow_lt_limit hc he).ne
    rw [if_neg hsize]
    exact stores_sqrt e hm
  | infinity =>
    rw [if_pos (show sizeUnpacked (.infinity .positive) = limit from rfl),
      ← stored_of_limit_le le_rfl]
    exact stores_infinity le_rfl

theorem sqrt_le_sqrt {x y : Float} (hx : (0.0 : Float) ≤ x) (h : x ≤ y) : x.sqrt ≤ y.sqrt := by
  have hy := le_trans hx h
  obtain ⟨hsx, hsxsize⟩ := sqrt_eq hx
  obtain ⟨hsy, hsysize⟩ := sqrt_eq hy
  rw [le_iff_size hx hy] at h
  rw [le_iff_size hsx hsy]
  by_cases hlimit : size y = limit
  · rw [hsysize, if_pos hlimit]
    exact size_le_limit _
  · have hxlimit : size x ≠ limit := fun heq =>
      hlimit (le_antisymm (size_le_limit y) (heq ▸ h))
    rw [hsxsize, hsysize, if_neg hxlimit, if_neg hlimit]
    exact stored_mono (Real.sqrt_nonneg _) (Real.sqrt_le_sqrt h)

end LeastSquares.Binary64
