import Mathlib
import LeastSquares.Proofs.Binary64.Value

/-!
# Rounding as a function of a real number

Where a result is rounded, the mantissa and the two bits kept behind it say where the exact result
lies between two neighbours (`Located`), and that is all that rounding to nearest needs to know.  So
what comes out is a function of the exact result, and a monotone one (`rounded`, `rounded_mono`).
The exponents have no upper bound here: what is too large is not yet an infinity.
-/

namespace LeastSquares.Binary64
open Float.Model UnpackedFloat

/-! ## the nearest integer -/

/-- the natural number nearest to `t`, the even one of two -/
noncomputable def nearest (t : ℝ) : ℕ :=
  if t - ⌊t⌋₊ < ⌊t⌋₊ + 1 - t then ⌊t⌋₊
  else if t - ⌊t⌋₊ = ⌊t⌋₊ + 1 - t then ⌊t⌋₊ + ⌊t⌋₊ % 2
  else ⌊t⌋₊ + 1

theorem floor_le_nearest (t : ℝ) : ⌊t⌋₊ ≤ nearest t := by
  unfold nearest
  split
  · exact le_rfl
  · split <;> exact Nat.le_add_right _ _

theorem nearest_le_floor_add_one (t : ℝ) : nearest t ≤ ⌊t⌋₊ + 1 := by
  unfold nearest
  have hodd : ⌊t⌋₊ % 2 < 2 := Nat.mod_lt _ two_pos
  split
  · exact Nat.le_succ _
  · split <;> omega

theorem nearest_natCast (n : ℕ) : nearest n = n := by
  unfold nearest
  rw [Nat.floor_natCast, if_pos (by norm_num)]

theorem nearest_mono {s t : ℝ} (h : s ≤ t) : nearest s ≤ nearest t := by
  rcases (Nat.floor_mono h).lt_or_eq with hlt | heq
  · calc nearest s ≤ ⌊s⌋₊ + 1 := nearest_le_floor_add_one s
      _ ≤ ⌊t⌋₊ := hlt
      _ ≤ nearest t := floor_le_nearest t
  -- between the same neighbours
  · rcases lt_trichotomy (t - ⌊t⌋₊) (⌊t⌋₊ + 1 - t) with ht | ht | ht
    · have hs : nearest s = ⌊t⌋₊ := by
        unfold nearest
        rw [heq, if_pos (by linarith)]
      exact hs ▸ floor_le_nearest t
    · rcases h.lt_or_eq with hlt | rfl
      · have hs : nearest s = ⌊t⌋₊ := by
          unfold nearest
          rw [heq, if_pos (by linarith)]
        exact hs ▸ floor_le_nearest t
      · exact le_rfl
    · have hup : nearest t = ⌊t⌋₊ + 1 := by
        unfold nearest
        rw [if_neg ht.not_gt, if_neg ht.ne']
      rw [hup, ← heq]
      exact nearest_le_floor_add_one s

/-! ## a real number behind its leading bits -/

/-- where `t` lies between the mantissa `m` and the next one -/
def Located : Accuracy → ℕ → ℝ → Prop
  | .exact, m, t => t = m
  | .inexact .lt, m, t => m < t ∧ t - m < m + 1 - t
  | .inexact .eq, m, t => t - m = m + 1 - t
  | .inexact .gt, m, t => m + 1 - t < t - m ∧ t < m + 1

theorem Located.bounds {a : Accuracy} {m : ℕ} {t : ℝ} (h : Located a m t) : m ≤ t ∧ t < m + 1 := by
  cases a with
  | exact =>
    obtain rfl : t = m := h
    constructor <;> linarith
  | inexact o =>
    cases o with
    | lt => constructor <;> linarith [h.1, h.2]
    | eq =>
      have h : t - m = m + 1 - t := h
      constructor <;> linarith
    | gt => constructor <;> linarith [h.1, h.2]

theorem Located.roundToNearestEven_eq {a : Accuracy} {m : ℕ} {t : ℝ} (h : Located a m t) :
    a.roundToNearestEven m = nearest t := by
  have hfloor : ⌊t⌋₊ = m :=
    (Nat.floor_eq_iff (m.cast_nonneg.trans h.bounds.1)).mpr h.bounds
  unfold nearest
  rw [hfloor]
  cases a with
  | exact =>
    obtain rfl : t = m := h
    rw [if_pos (by linarith)]
    rfl
  | inexact o =>
    cases o with
    | lt =>
      rw [if_pos h.2]
      rfl
    | eq =>
      have h : t - m = m + 1 - t := h
      rw [if_neg h.not_lt, if_pos h]
      rfl
    | gt =>
      rw [if_neg h.1.not_gt, if_neg h.1.ne']
      rfl

/-- without any bit behind the mantissa `t` is the mantissa, else it is above it -/
theorem Located.eq_or_lt {m : ℕ} {roundBit stickyBit : Bool} {t : ℝ}
    (h : Located (ExtendedMantissa.accuracy ⟨m, roundBit, stickyBit⟩) m t) :
    (roundBit || stickyBit) = false ∧ t = m ∨
      (roundBit || stickyBit) = true ∧ m < t ∧ t < m + 1 := by
  cases roundBit <;> cases stickyBit
  · exact .inl ⟨rfl, h⟩
  · exact .inr ⟨rfl, h.1, by linarith [h.2]⟩
  · have h : t - m = m + 1 - t := h
    exact .inr ⟨rfl, by linarith, by linarith⟩
  · exact .inr ⟨rfl, by linarith [h.1], h.2⟩

/-- a shift moves the last bit of the mantissa behind it -/
theorem Located.shiftRightOne {a : ExtendedMantissa} {t : ℝ}
    (h : Located a.accuracy a.mantissa t) :
    Located a.shiftRightOne.accuracy a.shiftRightOne.mantissa (t / 2) := by
  obtain ⟨m, roundBit, stickyBit⟩ := a
  have hm : (m : ℝ) = 2 * (m / 2 : ℕ) + (m % 2 : ℕ) := by
    exact_mod_cast (Nat.div_add_mod m 2).symm
  show Located (ExtendedMantissa.accuracy ⟨m / 2, m % 2 != 0, roundBit || stickyBit⟩)
    (m / 2) (t / 2)
  rcases Nat.mod_two_eq_zero_or_one m with hbit | hbit <;> rw [hbit] at hm ⊢ <;>
    rcases h.eq_or_lt with ⟨hrest, rfl⟩ | ⟨hrest, hlow, hhigh⟩ <;> rw [hrest]
  · show (m : ℝ) / 2 = (m / 2 : ℕ)
    rw [hm]
    norm_num
  · exact ⟨by linarith, by linarith⟩
  · show (m : ℝ) / 2 - (m / 2 : ℕ) = (m / 2 : ℕ) + 1 - (m : ℝ) / 2
    rw [hm]
    push_cast
    ring
  · exact ⟨by linarith, by linarith⟩

theorem Located.shiftRight {a : ExtendedMantissa} {t : ℝ} (h : Located a.accuracy a.mantissa t)
    (k : ℕ) : Located (a >>> k).accuracy (a >>> k).mantissa (t / 2 ^ k) := by
  induction k with
  | zero =>
    rw [pow_zero, div_one]
    exact h
  | succ k ih =>
    rw [pow_succ, ← div_div]
    exact ih.shiftRightOne

theorem accuracy_ofMantissaAndAccuracy (m : ℕ) (a : Accuracy) :
    (ExtendedMantissa.ofMantissaAndAccuracy m a).accuracy = a := by
  cases a with
  | exact => rfl
  | inexact o => cases o <;> rfl

theorem mantissa_ofMantissaAndAccuracy (m : ℕ) (a : Accuracy) :
    (ExtendedMantissa.ofMantissaAndAccuracy m a).mantissa = m := by
  cases a with
  | exact => rfl
  | inexact o => cases o <;> rfl

/-- in units of the grid the exact result is rounded to the nearest integer -/
theorem onGrid_eq_nearest {m : ℕ} {e : ℤ} {a : Accuracy} {t : ℝ} (h : Located a m t) :
    onGrid m e a = nearest (t / 2 ^ dropped m e) := by
  have hstart : Located (ExtendedMantissa.ofMantissaAndAccuracy m a).accuracy
      (ExtendedMantissa.ofMantissaAndAccuracy m a).mantissa t := by
    rw [accuracy_ofMantissaAndAccuracy, mantissa_ofMantissaAndAccuracy]
    exact h
  have hshift := hstart.shiftRight (dropped m e)
  rw [← hshift.roundToNearestEven_eq]
  unfold onGrid dropped
  rw [← targetExponent_eq]
  rfl

/-! ## rounding a real number -/

/-- the exponent of the grid that `x` is rounded to -/
noncomputable def gridOf (x : ℝ) : ℤ := max (Int.log 2 x - 52) (-1074)

/-- `x` rounded, if there were no greatest number -/
noncomputable def rounded (x : ℝ) : ℝ :=
  nearest (x / ((2 : ℕ) : ℝ) ^ gridOf x) * ((2 : ℕ) : ℝ) ^ gridOf x

theorem rounded_eq (x : ℝ) : rounded x = nearest (x / 2 ^ gridOf x) * 2 ^ gridOf x := by
  unfold rounded
  rw [Nat.cast_ofNat]

theorem rounded_nonneg (x : ℝ) : 0 ≤ rounded x := by
  rw [rounded_eq]
  positivity

theorem rounded_zero : rounded 0 = 0 := by
  rw [rounded_eq, zero_div, ← Nat.cast_zero, nearest_natCast, Nat.cast_zero, zero_mul]

/-- a multiple of the grid is a multiple of every finer one -/
theorem exists_multiple (r : ℕ) {g g' : ℤ} (h : g ≤ g') :
    ∃ k : ℕ, (r : ℝ) * 2 ^ g' = k * 2 ^ g := by
  obtain ⟨d, rfl⟩ := Int.le.dest h
  refine ⟨r * 2 ^ d, ?_⟩
  rw [zpow_add₀ two_ne_zero, zpow_natCast]
  push_cast
  ring

/-- rounding does not pass a multiple of the grid -/
theorem rounded_le {x : ℝ} {r : ℕ} {g : ℤ} (hg : gridOf x ≤ g) (h : x ≤ r * 2 ^ g) :
    rounded x ≤ r * 2 ^ g := by
  obtain ⟨k, hk⟩ := exists_multiple r hg
  rw [hk] at h ⊢
  rw [← div_le_iff₀ (by positivity)] at h
  have hnearest := nearest_mono h
  rw [nearest_natCast] at hnearest
  rw [rounded_eq]
  gcongr

theorem le_rounded {x : ℝ} {r : ℕ} {g : ℤ} (hg : gridOf x ≤ g) (h : r * 2 ^ g ≤ x) :
    r * 2 ^ g ≤ rounded x := by
  obtain ⟨k, hk⟩ := exists_multiple r hg
  rw [hk] at h ⊢
  rw [← le_div_iff₀ (by positivity)] at h
  have hnearest := nearest_mono h
  rw [nearest_natCast] at hnearest
  rw [rounded_eq]
  gcongr

theorem rounded_eq_self {x : ℝ} {r : ℕ} {g : ℤ} (hg : gridOf x ≤ g) (h : x = r * 2 ^ g) :
    rounded x = x :=
  le_antisymm ((rounded_le hg h.le).trans h.ge) (h.le.trans (le_rounded hg h.ge))

theorem rounded_mono {x y : ℝ} (hx : 0 ≤ x) (h : x ≤ y) : rounded x ≤ rounded y := by
  rcases hx.eq_or_lt with rfl | hx
  · rw [rounded_zero]
    exact rounded_nonneg y
  have hlog : Int.log 2 x ≤ Int.log 2 y := Int.log_mono_right hx h
  have hgrid : gridOf x ≤ gridOf y := max_le_max (by omega) le_rfl
  rcases hgrid.eq_or_lt with heq | hlt
  · have hnearest : nearest (x / 2 ^ gridOf y) ≤ nearest (y / 2 ^ gridOf y) :=
      nearest_mono (by gcongr)
    rw [rounded_eq, rounded_eq, heq]
    gcongr
  -- the power of two at which the grid becomes that of `y` is between them
  · have hpower : ((2 ^ 52 : ℕ) : ℝ) * 2 ^ gridOf y = 2 ^ (gridOf y + 52) := by
      rw [zpow_add₀ two_ne_zero, mul_comm]
      norm_num
    unfold gridOf at hlt
    have hbelow : Int.log 2 x < gridOf y + 52 := by
      unfold gridOf
      omega
    have habove : gridOf y + 52 ≤ Int.log 2 y := by
      unfold gridOf
      omega
    have hlow : x < 2 ^ (gridOf y + 52) := (Int.lt_zpow_iff_log_lt one_lt_two hx).mpr hbelow
    have hhigh : 2 ^ (gridOf y + 52) ≤ y :=
      (Int.zpow_le_iff_le_log one_lt_two (hx.trans_le h)).mpr habove
    rw [← hpower] at hlow hhigh
    exact (rounded_le hgrid hlow.le).trans (le_rounded le_rfl hhigh)

theorem log_mul_two_zpow {m : ℕ} {t : ℝ} (hm : 0 < m) (h : m ≤ t ∧ t < m + 1) (e : ℤ) :
    Int.log 2 (t * 2 ^ e) = m.log2 + e := by
  have hlow : ((2 ^ m.log2 : ℕ) : ℝ) ≤ m := by exact_mod_cast Nat.log2_self_le hm.ne'
  have hhigh : (m : ℝ) + 1 ≤ ((2 ^ (m.log2 + 1) : ℕ) : ℝ) := by exact_mod_cast Nat.lt_log2_self
  have hpos : 0 < t * 2 ^ e := by
    have hm' : (0 : ℝ) < m := by exact_mod_cast hm
    have ht : 0 < t := hm'.trans_le h.1
    positivity
  apply le_antisymm
  · rw [← Int.lt_add_one_iff, ← Int.lt_zpow_iff_log_lt one_lt_two hpos,
      show (m.log2 : ℤ) + e + 1 = (m.log2 + 1 : ℕ) + e by push_cast; ring,
      zpow_add₀ (by norm_num), zpow_natCast]
    push_cast at hhigh ⊢
    have ht : t < 2 ^ (m.log2 + 1) := h.2.trans_le hhigh
    gcongr
  · rw [← Int.zpow_le_iff_le_log one_lt_two hpos, zpow_add₀ (by norm_num), zpow_natCast]
    push_cast at hlow ⊢
    have ht : 2 ^ m.log2 ≤ t := hlow.trans h.1
    gcongr

/-- the grid is known from the leading bits -/
theorem gridOf_eq_grid {m : ℕ} {t : ℝ} (hm : 0 < m) (h : m ≤ t ∧ t < m + 1) (e : ℤ) :
    gridOf (t * 2 ^ e) = grid m e := by
  unfold gridOf grid
  rw [log_mul_two_zpow hm h]

end LeastSquares.Binary64
