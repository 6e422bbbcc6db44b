import Mathlib
import LeastSquares.Proofs.Binary64.Finite
import LeastSquares.Proofs.Binary64.Nearest

/-!
# The size of a binary64 number

The absolute value of a number, as a real number.  An infinity counts as `2 ^ 1024` (`limit`), the
least power of two that is not in the format: then what is stored of an exact result is the rounded
result, or `limit` if that is less (`size_roundWithAccuracy`), and numbers that are not below zero
are ordered like their sizes (`le_iff_size`), the infinity included.
-/

namespace LeastSquares.Binary64
open Float.Model UnpackedFloat

/-! ## sizes -/

/-- the size of an infinity -/
noncomputable def limit : ℝ := ((2 : ℕ) : ℝ) ^ (1024 : ℤ)

/-- the absolute value of an unpacked number; that of a NaN means nothing -/
noncomputable def sizeUnpacked : UnpackedFloat → ℝ
  | .finite _ m e _ => m * ((2 : ℕ) : ℝ) ^ e
  | .infinity _ => limit
  | .zero _ | .notANumber => 0

noncomputable def size (x : Float) : ℝ := sizeUnpacked x.toModel.unpack

/-- a result that is too large is stored as an infinity -/
noncomputable def stored (x : ℝ) : ℝ := min (rounded x) limit

theorem stored_mono {x y : ℝ} (hx : 0 ≤ x) (h : x ≤ y) : stored x ≤ stored y :=
  min_le_min (rounded_mono hx h) le_rfl

/-- a number or an infinity, not below zero -/
inductive Unsigned : UnpackedFloat → Prop where
  | zero (s : Sign) : Unsigned (.zero s)
  | finite (m : ℕ) (e : ℤ) (h : 0 < m) : Unsigned (.finite .positive m e h)
  | infinity : Unsigned (.infinity .positive)

theorem zero_le_iff {x : Float} : (0.0 : Float) ≤ x ↔ Unsigned x.toModel.unpack := by
  have hzero : (0.0 : Float).toModel.unpack = .zero .positive := rfl
  rw [le_iff_compare, hzero]
  cases x.toModel.unpack with
  | notANumber => exact ⟨nofun, nofun⟩
  | zero s => exact ⟨fun _ => .zero s, fun _ => rfl⟩
  | infinity s =>
    cases s with
    | negative => exact ⟨nofun, nofun⟩
    | positive => exact ⟨fun _ => .infinity, fun _ => rfl⟩
  | finite s m e h =>
    cases s with
    | negative => exact ⟨nofun, nofun⟩
    | positive => exact ⟨fun _ => .finite m e h, fun _ => rfl⟩

theorem ne_notANumber {u : UnpackedFloat} (h : Unsigned u) : u ≠ .notANumber := by
  cases h <;> nofun

/-! ## packing -/

theorem unpack_pack_zero (s : Sign) : (Float.Model.pack (.zero s)).unpack = .zero s := by
  cases s <;> rfl

theorem unpack_pack_infinity (s : Sign) :
    (Float.Model.pack (.infinity s)).unpack = .infinity s := unpack_infinity s

/-- what is stored survives packing -/
theorem unpack_pack_self {x : Float} {u : UnpackedFloat} (h : x.toModel.unpack = u)
    (hu : u ≠ .notANumber) : (Float.Model.pack u).unpack = u := by
  cases u with
  | notANumber => exact absurd rfl hu
  | zero s => exact unpack_pack_zero s
  | infinity s => exact unpack_pack_infinity s
  | finite s m e hm =>
    obtain ⟨hc, he⟩ := canonical_of_unpack h
    exact unpack_pack hc he

/-! ## the size of a rounded result -/

/-- there is a carry only into the 54th bit -/
theorem carry {r : ℕ} {g : ℤ} (hr : r ≤ 2 ^ 53) (hg : -1074 ≤ g) :
    r < 2 ^ 53 ∧ carried r g = r ∧ gridExponent r g = g ∨
      r = 2 ^ 53 ∧ carried r g = 2 ^ 52 ∧ gridExponent r g = g + 1 := by
  unfold carried gridExponent
  rcases hr.lt_or_eq with hlt | rfl
  · have hlog : r.log2 ≤ 52 := by
      rcases Nat.eq_zero_or_pos r with rfl | hpos
      · decide
      · exact Nat.lt_succ_iff.mp ((Nat.log2_lt hpos.ne').mpr hlt)
    have hdropped : dropped r g = 0 := by
      unfold dropped grid
      omega
    rw [hdropped]
    exact .inl ⟨hlt, Nat.div_one r, Int.add_zero g⟩
  · have hlog : (2 ^ 53).log2 = 53 := Nat.log2_two_pow
    have hdropped : dropped (2 ^ 53) g = 1 := by
      unfold dropped grid
      omega
    rw [hdropped]
    exact .inr ⟨rfl, by norm_num, rfl⟩

theorem carried_mul {r : ℕ} {g : ℤ} (hr : r ≤ 2 ^ 53) (hg : -1074 ≤ g) :
    (carried r g : ℝ) * 2 ^ gridExponent r g = r * 2 ^ g := by
  rcases carry hr hg with ⟨-, hm, he⟩ | ⟨rfl, hm, he⟩
  · rw [hm, he]
  · rw [hm, he, zpow_add_one₀ two_ne_zero]
    push_cast
    ring

theorem canonical_carried {r : ℕ} {g : ℤ} (hr : r ≤ 2 ^ 53) (hg : -1074 ≤ g)
    (hnormal : 2 ^ 52 ≤ r ∨ g = -1074) : Canonical (carried r g) (gridExponent r g) := by
  rcases carry hr hg with ⟨hlt, hm, he⟩ | ⟨rfl, hm, he⟩
  · rw [hm, he]
    exact ⟨hlt, hg, hnormal⟩
  · rw [hm, he]
    exact ⟨by decide, by omega, .inl le_rfl⟩

theorem gridExponent_eq_grid {m : ℕ} {e : ℤ} (he : e ≤ grid m e) : gridExponent m e = grid m e := by
  unfold gridExponent dropped
  omega

/-- above the least grid no leading bit is lost -/
theorem normal_onGrid {m : ℕ} {e : ℤ} (hm : 0 < m) (he : e ≤ grid m e) (a : Accuracy) :
    2 ^ 52 ≤ onGrid m e a ∨ grid m e = -1074 := by
  by_cases hleast : grid m e = -1074
  · exact .inr hleast
  · have hdropped : 52 + dropped m e = m.log2 := by
      unfold dropped
      unfold grid at *
      omega
    left
    refine Nat.le_trans ?_ (onGrid_bounds m e a).1
    rw [Nat.le_div_iff_mul_le (Nat.two_pow_pos _), ← pow_add, hdropped]
    exact Nat.log2_self_le hm.ne'

theorem limit_eq {d e : ℤ} (h : d + e = 1024) : limit = 2 ^ d * 2 ^ e := by
  rw [← zpow_add₀ two_ne_zero, h, limit, Nat.cast_ofNat]

theorem mul_two_zpow_lt_limit {m : ℕ} {e : ℤ} (hc : Canonical m e) (he : e ≤ 971) :
    (m : ℝ) * 2 ^ e < limit := by
  have hm : (m : ℝ) < 2 ^ (53 : ℤ) := by exact_mod_cast hc.mantissa_lt
  have hpower : (2 : ℝ) ^ e ≤ 2 ^ (971 : ℤ) := zpow_le_zpow_right₀ one_le_two he
  rw [limit_eq (show (53 : ℤ) + 971 = 1024 by rfl)]
  exact mul_lt_mul hm hpower (by positivity) (by positivity)

theorem limit_le_mul_two_zpow {m : ℕ} {e : ℤ} (hc : Canonical m e) (he : 972 ≤ e) :
    limit ≤ (m : ℝ) * 2 ^ e := by
  have hm : (2 : ℝ) ^ (52 : ℤ) ≤ m := by exact_mod_cast hc.normal.resolve_right (by omega)
  have hpower : (2 : ℝ) ^ (972 : ℤ) ≤ 2 ^ e := zpow_le_zpow_right₀ one_le_two he
  rw [limit_eq (show (52 : ℤ) + 972 = 1024 by rfl)]
  gcongr

/-- packing turns what is too large into an infinity -/
theorem size_pack {s : Sign} {m : ℕ} {e : ℤ} (hc : Canonical m e) :
    sizeUnpacked (Float.Model.pack (unpacked s m e)).unpack = min ((m : ℝ) * 2 ^ e) limit := by
  unfold unpacked
  split
  · rename_i hm
    subst hm
    rw [unpack_pack_zero, Nat.cast_zero, zero_mul, min_eq_left (by unfold limit; positivity)]
    rfl
  · by_cases he : e ≤ 971
    · rw [unpack_pack hc he, min_eq_left (mul_two_zpow_lt_limit hc he).le]
      rfl
    · rw [unpack_pack_overflow (by omega), min_eq_right (limit_le_mul_two_zpow hc (by omega))]
      rfl

/-- what is stored of an exact result depends on nothing but the result -/
theorem size_roundWithAccuracy (s : Sign) {m : ℕ} {e : ℤ} {a : Accuracy} {t : ℝ} (hm : 0 < m)
    (he : e ≤ grid m e) (ht : Located a m t) :
    sizeUnpacked (Float.Model.pack (roundWithAccuracy .binary64 s m e a)).unpack =
      stored (t * 2 ^ e) := by
  have hgrid := gridExponent_eq_grid he
  have hr := (onGrid_bounds m e a).2
  have hleast : -1074 ≤ grid m e := le_max_right _ _
  have hpower : (2 : ℝ) ^ grid m e = 2 ^ e * 2 ^ dropped m e := by
    rw [← hgrid, gridExponent, zpow_add₀ two_ne_zero, zpow_natCast]
  rw [roundWithAccuracy_eq, hgrid, size_pack (canonical_carried hr hleast (normal_onGrid hm he a)),
    carried_mul hr hleast, onGrid_eq_nearest ht]
  rw [stored, rounded_eq, gridOf_eq_grid hm ht.bounds, hpower, mul_comm t,
    mul_div_mul_left _ _ (by positivity)]

theorem unsigned_pack {m : ℕ} {e : ℤ} (hc : Canonical m e) :
    Unsigned (Float.Model.pack (unpacked .positive m e)).unpack := by
  unfold unpacked
  split
  · rw [unpack_pack_zero]
    exact .zero _
  · by_cases he : e ≤ 971
    · rw [unpack_pack hc he]
      exact .finite ..
    · rw [unpack_pack_overflow (by omega)]
      exact .infinity

theorem unsigned_roundWithAccuracy {m : ℕ} {e : ℤ} (hm : 0 < m) (he : e ≤ grid m e)
    (a : Accuracy) :
    Unsigned (Float.Model.pack (roundWithAccuracy .binary64 .positive m e a)).unpack := by
  have hr := (onGrid_bounds m e a).2
  have hleast : -1074 ≤ grid m e := le_max_right _ _
  rw [roundWithAccuracy_eq, gridExponent_eq_grid he]
  exact unsigned_pack (canonical_carried hr hleast (normal_onGrid hm he a))

/-! ## order -/

theorem limit_pos : 0 < limit := by
  unfold limit
  positivity

theorem one_le_limit : 1 ≤ limit := one_le_zpow₀ one_le_two (by decide)

theorem size_nonneg (x : Float) : 0 ≤ size x := by
  unfold size
  cases x.toModel.unpack with
  | finite s m e h => exact mul_nonneg m.cast_nonneg (by positivity)
  | infinity s => exact limit_pos.le
  | zero | notANumber => exact le_rfl

theorem size_le_limit (x : Float) : size x ≤ limit := by
  unfold size
  cases hx : x.toModel.unpack with
  | finite s m e h =>
    obtain ⟨hc, he⟩ := canonical_of_unpack hx
    exact (mul_two_zpow_lt_limit hc he).le
  | infinity s => exact le_rfl
  | zero | notANumber => exact limit_pos.le

theorem size_lt_of_rank_lt {x y : Float} (hx : (0.0 : Float) ≤ x) (hy : (0.0 : Float) ≤ y)
    (h : rank x < rank y) : size x < size y := by
  rw [zero_le_iff] at hx hy
  unfold size
  unfold rank at h
  generalize hu : x.toModel.unpack = u at *
  generalize hv : y.toModel.unpack = v at *
  cases hx with
  | zero s =>
    cases hy with
    | zero t => exact (LT.lt.false h).elim
    | finite m e hm => exact mul_pos (Nat.cast_pos.mpr hm) (by positivity)
    | infinity => exact limit_pos
  | finite m e hm =>
    obtain ⟨hc, he⟩ := canonical_of_unpack hu
    cases hy with
    | zero t => simp [rankUnpacked, place_lt] at h
    | finite m' e' hm' =>
      have hlt : e < e' ∨ e = e' ∧ m < m' := by
        simp only [rankUnpacked, place_lt] at h
        omega
      have hmagnitude : ((magnitude m e : ℚ) : ℝ) < magnitude m' e' :=
        Rat.cast_lt.mpr (magnitude_lt hc (canonical_of_unpack hv).1 hlt)
      unfold magnitude at hmagnitude
      push_cast at hmagnitude
      exact hmagnitude
    | infinity => exact mul_two_zpow_lt_limit hc he
  | infinity =>
    cases hy with
    | zero t | finite m e hm => simp [rankUnpacked, place_lt] at h
    | infinity => exact (LT.lt.false h).elim

theorem size_eq_of_rank_eq {x y : Float} (hx : (0.0 : Float) ≤ x) (hy : (0.0 : Float) ≤ y)
    (h : rank x = rank y) : size x = size y := by
  rw [zero_le_iff] at hx hy
  unfold size
  unfold rank at h
  generalize x.toModel.unpack = u at *
  generalize y.toModel.unpack = v at *
  cases hx with
  | zero s =>
    cases hy with
    | zero t => rfl
    | finite m e hm | infinity => simp [rankUnpacked, place] at h
  | finite m e hm =>
    cases hy with
    | zero t | infinity => simp [rankUnpacked, place] at h
    | finite m' e' hm' =>
      simp [rankUnpacked, place] at h
      have heq : UnpackedFloat.finite .positive m e hm = .finite .positive m' e' hm' :=
        finite_congr h.2 h.1
      rw [heq]
  | infinity =>
    cases hy with
    | zero t | finite m e hm => simp [rankUnpacked, place] at h
    | infinity => rfl

theorem le_iff_size {x y : Float} (hx : (0.0 : Float) ≤ x) (hy : (0.0 : Float) ≤ y) :
    x ≤ y ↔ size x ≤ size y := by
  have hnan : x.isNaN = false ∧ y.isNaN = false :=
    ⟨(le_iff_rank.mp hx).2.1, (le_iff_rank.mp hy).2.1⟩
  rw [le_iff_rank]
  constructor
  · rintro ⟨-, -, h⟩
    rcases h.lt_or_eq with hlt | heq
    · exact (size_lt_of_rank_lt hx hy hlt).le
    · exact (size_eq_of_rank_eq hx hy heq).le
  · intro h
    refine ⟨hnan.1, hnan.2, not_lt.mp fun hlt => ?_⟩
    exact h.not_gt (size_lt_of_rank_lt hy hx hlt)

/-! ## absolute values -/

theorem unpack_abs {x : Float} (h : x.isNaN = false) :
    x.abs.toModel.unpack = x.toModel.unpack.abs := by
  show (Float.Model.pack x.toModel.unpack.abs).unpack = _
  have h : x.toModel.unpack.isNaN = false := h
  cases hx : x.toModel.unpack with
  | notANumber =>
    rw [hx] at h
    cases h
  | zero s => exact unpack_pack_zero _
  | infinity s => exact unpack_pack_infinity _
  | finite s m e hm =>
    obtain ⟨hc, he⟩ := canonical_of_unpack hx
    exact unpack_pack hc he

theorem zero_le_abs {x : Float} (h : x.isNaN = false) : (0.0 : Float) ≤ x.abs := by
  rw [zero_le_iff, unpack_abs h]
  have h : x.toModel.unpack.isNaN = false := h
  cases hx : x.toModel.unpack with
  | notANumber =>
    rw [hx] at h
    cases h
  | zero s => exact .zero _
  | infinity s => exact .infinity
  | finite s m e hm => exact .finite ..

theorem size_abs {x : Float} (h : x.isNaN = false) : size x.abs = size x := by
  unfold size
  rw [unpack_abs h]
  cases x.toModel.unpack <;> rfl

theorem isNaN_abs {x : Float} (h : x.isNaN = true) : x.abs.isNaN = true :=
  isNaN_pack (congrArg UnpackedFloat.abs (isNaN_iff.mp h))

/-- neither number is a NaN, because a NaN compares with nothing -/
theorem size_le_of_abs_le {x y : Float} (h : x.abs ≤ y.abs) :
    x.isNaN = false ∧ y.isNaN = false ∧ size x ≤ size y := by
  obtain ⟨hx, hy, -⟩ := le_iff_rank.mp h
  have hx : x.isNaN = false := Bool.eq_false_iff.mpr fun hnan => by
    rw [isNaN_abs hnan] at hx
    cases hx
  have hy : y.isNaN = false := Bool.eq_false_iff.mpr fun hnan => by
    rw [isNaN_abs hnan] at hy
    cases hy
  rw [le_iff_size (zero_le_abs hx) (zero_le_abs hy), size_abs hx, size_abs hy] at h
  exact ⟨hx, hy, h⟩

/-! ## what is stored of an exact result -/

theorem stored_zero : stored 0 = 0 := by
  unfold stored
  rw [rounded_zero, min_eq_left limit_pos.le]

theorem stored_of_limit_le {x : ℝ} (h : limit ≤ x) : stored x = limit := by
  have hgrid : gridOf limit = 972 := by
    rw [limit, Nat.cast_ofNat, ← one_mul ((2 : ℝ) ^ (1024 : ℤ)),
      gridOf_eq_grid one_pos (by norm_num)]
    rfl
  have hpower : ((2 ^ 52 : ℕ) : ℝ) = 2 ^ (52 : ℤ) := by norm_num
  have hlimit : limit = (2 ^ 52 : ℕ) * 2 ^ (972 : ℤ) := by
    rw [hpower]
    exact limit_eq rfl
  refine min_eq_right ?_
  calc limit = rounded limit := (rounded_eq_self hgrid.le hlimit).symm
    _ ≤ rounded x := rounded_mono limit_pos.le h

/-- what is in the format is stored as it is -/
theorem stored_size (x : Float) : stored (size x) = size x := by
  unfold size
  cases hx : x.toModel.unpack with
  | zero | notANumber => exact stored_zero
  | infinity s => exact stored_of_limit_le le_rfl
  | finite s m e hm =>
    obtain ⟨hc, he⟩ := canonical_of_unpack hx
    have hgrid : gridOf (m * 2 ^ e) ≤ e := by
      have hlog : m.log2 < 53 := (Nat.log2_lt hm.ne').mpr hc.mantissa_lt
      have hleast := hc.least_le
      rw [gridOf_eq_grid hm ⟨le_rfl, lt_add_one _⟩]
      unfold grid
      omega
    show stored (m * 2 ^ e) = m * 2 ^ e
    unfold stored
    rw [rounded_eq_self hgrid rfl, min_eq_left (mul_two_zpow_lt_limit hc he).le]

/-- packed, `u` is what is stored of the exact result `x` -/
def Stores (u : UnpackedFloat) (x : ℝ) : Prop :=
  Unsigned (Float.Model.pack u).unpack ∧ sizeUnpacked (Float.Model.pack u).unpack = stored x

theorem stores_zero (s : Sign) : Stores (.zero s) 0 := by
  unfold Stores
  rw [unpack_pack_zero, stored_zero]
  exact ⟨.zero s, rfl⟩

theorem stores_infinity {x : ℝ} (h : limit ≤ x) : Stores (.infinity .positive) x := by
  unfold Stores
  rw [unpack_pack_infinity, stored_of_limit_le h]
  exact ⟨.infinity, rfl⟩

theorem stores_self {x : Float} (h : (0.0 : Float) ≤ x) : Stores x.toModel.unpack (size x) := by
  have hx := zero_le_iff.mp h
  unfold Stores
  rw [unpack_pack_self rfl (ne_notANumber hx), stored_size]
  exact ⟨hx, rfl⟩

theorem stores_round {m : ℕ} {e : ℤ} {a : Accuracy} {t : ℝ} (hm : 0 < m) (he : e ≤ grid m e)
    (ht : Located a m t) : Stores (roundWithAccuracy .binary64 .positive m e a) (t * 2 ^ e) :=
  ⟨unsigned_roundWithAccuracy hm he a, size_roundWithAccuracy .positive hm he ht⟩

end LeastSquares.Binary64
