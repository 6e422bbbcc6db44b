import Mathlib

/-!
# Rounding to binary64

A result `m * 2 ^ e` is rounded in two steps.  Its lowest bits are dropped until the leading one has
place 52, or the exponent is the least one (`grid`), and what is left is rounded up or not; if that
carries into a 54th bit, the carry moves to the exponent.  `roundWithAccuracy_eq` says so.

Two consequences bound what comes out: a result that is not below the least grid is not rounded to
zero (`exists_rounded`), and the exponent does not pass the grid by more than a carry
(`exponent_le_of_rounded`).
-/

namespace LeastSquares.Binary64
open Float.Model UnpackedFloat

/-! ## dropping bits -/

/-- the exponent that puts the leading bit of `m * 2 ^ e` at place 52, or the least one -/
def grid (m : Nat) (e : Int) : Int := max (m.log2 + e - 52) (-1074)

theorem targetExponent_eq (m : Nat) (e : Int) :
    Format.binary64.targetExponent (totalExponent m e) = grid m e := by
  show max ((m.log2 : Int) + 1 + e - 53) (-1074) = max ((m.log2 : Int) + e - 52) (-1074)
  congr 1
  omega

theorem mantissa_shiftRight (a : ExtendedMantissa) (k : Nat) :
    (a >>> k).mantissa = a.mantissa / 2 ^ k := by
  induction k with
  | zero => exact (Nat.div_one _).symm
  | succ k ih =>
    show (a >>> k).mantissa / 2 = _
    rw [ih, Nat.div_div_eq_div_mul, Nat.pow_succ]

/-- how many bits are dropped -/
def dropped (m : Nat) (e : Int) : Nat := (grid m e - e).toNat

theorem log2_le_of_dropped (m : Nat) (e : Int) : m.log2 ≤ 52 + dropped m e := by
  unfold dropped grid
  omega

theorem le_add_dropped (m : Nat) (e : Int) : -1074 ≤ e + dropped m e := by
  unfold dropped grid
  omega

theorem div_dropped_lt (m : Nat) (e : Int) : m / 2 ^ dropped m e < 2 ^ 53 := by
  rw [Nat.div_lt_iff_lt_mul (Nat.two_pow_pos _), ← Nat.pow_add]
  have hlog := log2_le_of_dropped m e
  calc m < 2 ^ (m.log2 + 1) := Nat.lt_log2_self
    _ ≤ 2 ^ (53 + dropped m e) := Nat.pow_le_pow_right (by decide) (by omega)

/-- of a positive number that is not below the least grid a bit is left -/
theorem div_dropped_pos {m : Nat} {e : Int} (hm : 0 < m) (he : -1074 ≤ m.log2 + e) :
    0 < m / 2 ^ dropped m e := by
  have hk : dropped m e ≤ m.log2 := by
    unfold dropped grid
    omega
  refine Nat.div_pos ?_ (Nat.two_pow_pos _)
  calc 2 ^ dropped m e ≤ 2 ^ m.log2 := Nat.pow_le_pow_right (by decide) hk
    _ ≤ m := Nat.log2_self_le hm.ne'

/-! ## rounding up or not -/

/-- `m * 2 ^ e` in units of the grid -/
def onGrid (m : Nat) (e : Int) (a : Accuracy) : Nat :=
  (shiftToTargetExponent .binary64 m e a).1.roundedMantissa

theorem roundedMantissa_bounds (a : ExtendedMantissa) :
    a.mantissa ≤ a.roundedMantissa ∧ a.roundedMantissa ≤ a.mantissa + 1 := by
  obtain ⟨m, roundBit, stickyBit⟩ := a
  have htie : m ≤ m + m % 2 ∧ m + m % 2 ≤ m + 1 := by omega
  cases roundBit <;> cases stickyBit
  · exact ⟨Nat.le_refl m, Nat.le_succ m⟩
  · exact ⟨Nat.le_refl m, Nat.le_succ m⟩
  · exact htie
  · exact ⟨Nat.le_succ m, Nat.le_refl _⟩

theorem mantissa_shiftToTargetExponent (m : Nat) (e : Int) (a : Accuracy) :
    (shiftToTargetExponent .binary64 m e a).1.mantissa = m / 2 ^ dropped m e := by
  have hm : (ExtendedMantissa.ofMantissaAndAccuracy m a).mantissa = m := by
    unfold ExtendedMantissa.ofMantissaAndAccuracy
    split <;> rfl
  show (ExtendedMantissa.ofMantissaAndAccuracy m a >>> (_ - e).toNat).mantissa = _
  rw [mantissa_shiftRight, targetExponent_eq, hm]
  rfl

theorem exponent_shiftToTargetExponent (m : Nat) (e : Int) (a : Accuracy) :
    (shiftToTargetExponent .binary64 m e a).2 = e + dropped m e := by
  show e + ((_ - e).toNat : Int) = _
  rw [targetExponent_eq]
  rfl

theorem onGrid_bounds (m : Nat) (e : Int) (a : Accuracy) :
    m / 2 ^ dropped m e ≤ onGrid m e a ∧ onGrid m e a ≤ 2 ^ 53 := by
  have hbounds := roundedMantissa_bounds (shiftToTargetExponent .binary64 m e a).1
  rw [mantissa_shiftToTargetExponent] at hbounds
  exact ⟨hbounds.1, hbounds.2.trans (div_dropped_lt m e)⟩

/-- the unpacked number `m * 2 ^ e` -/
def unpacked (s : Sign) (m : Nat) (e : Int) : UnpackedFloat :=
  if h : m = 0 then .zero s else .finite s m e (Nat.pos_of_ne_zero h)

/-- the exponent of the grid, which is met by dropping bits -/
def gridExponent (m : Nat) (e : Int) : Int := e + dropped m e

/-- the mantissa of a rounded result, without the bit that a carry makes -/
def carried (r : Nat) (e : Int) : Nat := r / 2 ^ dropped r e

theorem shiftToTargetExponent_eq (m : Nat) (e : Int) (a : Accuracy) :
    ∃ b : ExtendedMantissa, shiftToTargetExponent .binary64 m e a = (b, gridExponent m e) ∧
      b.mantissa = carried m e ∧ b.roundedMantissa = onGrid m e a :=
  ⟨_, Prod.ext rfl (exponent_shiftToTargetExponent m e a), mantissa_shiftToTargetExponent m e a,
    rfl⟩

/-- rounding drops bits, rounds, and drops one more bit if there is a carry -/
theorem roundWithAccuracy_eq (s : Sign) (m : Nat) (e : Int) (a : Accuracy) :
    roundWithAccuracy .binary64 s m e a =
      unpacked s (carried (onGrid m e a) (gridExponent m e))
        (gridExponent (onGrid m e a) (gridExponent m e)) := by
  obtain ⟨b, hb, -, hround⟩ := shiftToTargetExponent_eq m e a
  obtain ⟨c, hc, hmantissa, -⟩ :=
    shiftToTargetExponent_eq (onGrid m e a) (gridExponent m e) .exact
  unfold roundWithAccuracy
  rw [hb]
  dsimp only
  rw [hround, hc, ← hmantissa]
  rfl

theorem dropped_le_one {r : Nat} {e : Int} (hr : r ≤ 2 ^ 53) (he : -1074 ≤ e) :
    dropped r e ≤ 1 := by
  have hlog : r.log2 ≤ 53 := by
    rcases Nat.eq_zero_or_pos r with rfl | hpos
    · decide
    · have hlt : r < 2 ^ 54 := by omega
      exact Nat.lt_succ_iff.mp ((Nat.log2_lt hpos.ne').mpr hlt)
  unfold dropped grid
  omega

/-- a result that is not below the least grid is not rounded to zero -/
theorem exists_rounded (s : Sign) {m : Nat} {e : Int} (a : Accuracy) (hm : 0 < m)
    (he : -1074 ≤ m.log2 + e) :
    ∃ m' e' h, roundWithAccuracy .binary64 s m e a = .finite s m' e' h ∧
      m' < 2 ^ 53 ∧ -1074 ≤ e' := by
  have hr : 0 < onGrid m e a := (div_dropped_pos hm he).trans_le (onGrid_bounds m e a).1
  have hgrid : -1074 ≤ gridExponent m e := le_add_dropped m e
  have hpos := div_dropped_pos hr (e := gridExponent m e) (by omega)
  refine ⟨_, _, hpos, ?_, div_dropped_lt _ _, le_add_dropped (onGrid m e a) (gridExponent m e)⟩
  rw [roundWithAccuracy_eq]
  exact dif_neg hpos.ne'

/-- rounding raises the exponent at most to the grid and by a carry -/
theorem exponent_le_of_rounded {s s' : Sign} {m m' : Nat} {e e' : Int} {a : Accuracy} {h : 0 < m'}
    (hr : roundWithAccuracy .binary64 s m e a = .finite s' m' e' h) :
    e' ≤ max e (grid m e) + 1 := by
  have hcarry := dropped_le_one (onGrid_bounds m e a).2 (le_add_dropped m e)
  have hgrid : gridExponent m e = max e (grid m e) := by
    unfold gridExponent dropped
    omega
  rw [roundWithAccuracy_eq] at hr
  unfold unpacked at hr
  split at hr
  · cases hr
  · cases hr
    rw [← hgrid]
    show gridExponent m e + dropped (onGrid m e a) (gridExponent m e) ≤ _
    unfold gridExponent at *
    omega

end LeastSquares.Binary64
