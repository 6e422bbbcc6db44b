import Mathlib.Data.Prod.Lex
import Mathlib.Order.Compare

/-!
# The order of binary64

Comparison of floating-point numbers is a linear order with one exception: a NaN compares with
nothing, not even with itself, and the two zeros are equal.  `rank` is the place of a number in
that order, a class (negative infinity, negative, zero, positive, infinity) and, within a class,
exponent and mantissa; the laws of `<` and `≤` are those of the ranks.

* `lt_iff_rank`, `le_iff_rank`   comparison is comparison of ranks, unless there is a NaN;
* `lt_irrefl`, `le_refl`, `le_of_lt`, `le_trans`, `lt_of_lt_of_le`, `not_lt_of_le`, `isNaN_of_lt`,
  `not_lt_of_isNaN`   the laws.
-/

namespace LeastSquares.Binary64
open Float.Model

/-- class, exponent and mantissa, in this order -/
abbrev Rank := ℤ ×ₗ ℤ ×ₗ ℤ

def place (c e m : ℤ) : Rank := toLex (c, toLex (e, m))

/-- the place of an unpacked number in the order; that of a NaN means nothing -/
def rankUnpacked : UnpackedFloat → Rank
  | .infinity .negative => place (-2) 0 0
  | .finite .negative m e _ => place (-1) (-e) (-m)
  | .zero _ => place 0 0 0
  | .finite .positive m e _ => place 1 e m
  | .infinity .positive => place 2 0 0
  | .notANumber => place 0 0 0

theorem compare_place (c e m c' e' m' : ℤ) :
    compare (place c e m) (place c' e' m') =
      (compare c c').then ((compare e e').then (compare m m')) := rfl

theorem compare_neg (a b : ℤ) : compare (-a) (-b) = (compare a b).swap := by
  rcases lt_trichotomy a b with h | h | h
  · rw [compare_lt_iff_lt.mpr h, compare_gt_iff_gt.mpr (Int.neg_lt_neg h)]
    rfl
  · rw [compare_eq_iff_eq.mpr h, compare_eq_iff_eq.mpr (congrArg Neg.neg h)]
    rfl
  · rw [compare_gt_iff_gt.mpr h, compare_lt_iff_lt.mpr (Int.neg_lt_neg h)]
    rfl

theorem compare_natCast (a b : ℕ) : compare (a : ℤ) (b : ℤ) = compare a b := by
  rcases lt_trichotomy a b with h | h | h
  · rw [compare_lt_iff_lt.mpr h, compare_lt_iff_lt.mpr (Int.ofNat_lt.mpr h)]
  · rw [compare_eq_iff_eq.mpr h, compare_eq_iff_eq.mpr (congrArg _ h)]
  · rw [compare_gt_iff_gt.mpr h, compare_gt_iff_gt.mpr (Int.ofNat_lt.mpr h)]

/-- comparison of unpacked numbers is comparison of their ranks -/
theorem compare_unpacked {u v : UnpackedFloat} (hu : u.isNaN = false) (hv : v.isNaN = false) :
    u.compare v = some (compare (rankUnpacked u) (rankUnpacked v)) := by
  cases u with
  | notANumber => cases hu
  | infinity s =>
    cases v with
    | notANumber => cases hv
    | infinity t => cases s <;> cases t <;> rfl
    | zero t => cases s <;> rfl
    | finite t m e hm => cases s <;> cases t <;> rfl
  | zero s =>
    cases v with
    | notANumber => cases hv
    | infinity t => cases t <;> rfl
    | zero t => rfl
    | finite t m e hm => cases t <;> rfl
  | finite s m e hm =>
    cases v with
    | notANumber => cases hv
    | infinity t => cases s <;> cases t <;> rfl
    | zero t => cases s <;> rfl
    | finite t m' e' hm' =>
      cases s <;> cases t
      · show some _ = some (compare (place (-1) (-e) (-m)) (place (-1) (-e') (-m')))
        rw [compare_place, compare_neg e, compare_neg m, compare_natCast, Ordering.swap_then]
        rfl
      · rfl
      · rfl
      · show some _ = some (compare (place 1 e m) (place 1 e' m'))
        rw [compare_place, compare_natCast]
        rfl

theorem compare_of_isNaN {u v : UnpackedFloat} (h : u.isNaN = true ∨ v.isNaN = true) :
    u.compare v = none := by
  rcases h with h | h
  · cases u <;> first | rfl | cases h
  · cases v <;> first | (cases u <;> rfl) | cases h

/-! ## packed numbers -/

def rank (x : Float) : Rank := rankUnpacked x.toModel.unpack

theorem compare_eq_none {x y : Float} (h : x.isNaN = true ∨ y.isNaN = true) :
    x.toModel.unpack.compare y.toModel.unpack = none := compare_of_isNaN h

theorem compare_eq_some {x y : Float} (hx : x.isNaN = false) (hy : y.isNaN = false) :
    x.toModel.unpack.compare y.toModel.unpack = some (compare (rank x) (rank y)) :=
  compare_unpacked hx hy

theorem lt_iff_compare {x y : Float} :
    x < y ↔ x.toModel.unpack.compare y.toModel.unpack = some .lt := by
  show decide (x.toModel.unpack.lt y.toModel.unpack = true) = true ↔ _
  rw [decide_eq_true_iff]
  unfold UnpackedFloat.lt
  exact beq_iff_eq

theorem le_iff_compare {x y : Float} :
    x ≤ y ↔ (x.toModel.unpack.compare y.toModel.unpack).any (·.isLE) = true := by
  show decide (x.toModel.unpack.le y.toModel.unpack = true) = true ↔ _
  rw [decide_eq_true_iff]
  rfl

theorem lt_iff_rank {x y : Float} :
    x < y ↔ x.isNaN = false ∧ y.isNaN = false ∧ rank x < rank y := by
  rw [lt_iff_compare]
  cases hx : x.isNaN with
  | true => rw [compare_eq_none (.inl hx)]; simp
  | false =>
    cases hy : y.isNaN with
    | true => rw [compare_eq_none (.inr hy)]; simp
    | false => rw [compare_eq_some hx hy]; simp [compare_lt_iff_lt]

theorem le_iff_rank {x y : Float} :
    x ≤ y ↔ x.isNaN = false ∧ y.isNaN = false ∧ rank x ≤ rank y := by
  rw [le_iff_compare]
  cases hx : x.isNaN with
  | true => rw [compare_eq_none (.inl hx)]; simp
  | false =>
    cases hy : y.isNaN with
    | true => rw [compare_eq_none (.inr hy)]; simp
    | false => rw [compare_eq_some hx hy]; simp [Ordering.isLE_iff_ne_gt, compare_le_iff_le]

theorem isNaN_of_isFinite {x : Float} (h : x.isFinite = true) : x.isNaN = false := by
  have h : x.toModel.unpack.isFinite = true := h
  show x.toModel.unpack.isNaN = false
  cases hx : x.toModel.unpack with
  | notANumber =>
    rw [hx] at h
    cases h
  | infinity | zero | finite => rfl

/-! ## laws -/

theorem lt_irrefl (x : Float) : ¬ x < x := by
  intro h
  exact (lt_iff_rank.mp h).2.2.false

theorem le_refl {x : Float} (h : x.isNaN = false) : x ≤ x :=
  le_iff_rank.mpr ⟨h, h, le_rfl⟩

theorem le_of_lt {x y : Float} (h : x < y) : x ≤ y := by
  obtain ⟨hx, hy, hr⟩ := lt_iff_rank.mp h
  exact le_iff_rank.mpr ⟨hx, hy, hr.le⟩

theorem le_trans {x y z : Float} (h1 : x ≤ y) (h2 : y ≤ z) : x ≤ z := by
  obtain ⟨hx, -, hr1⟩ := le_iff_rank.mp h1
  obtain ⟨-, hz, hr2⟩ := le_iff_rank.mp h2
  exact le_iff_rank.mpr ⟨hx, hz, hr1.trans hr2⟩

theorem lt_trans {x y z : Float} (h1 : x < y) (h2 : y < z) : x < z := by
  obtain ⟨hx, -, hr1⟩ := lt_iff_rank.mp h1
  obtain ⟨-, hz, hr2⟩ := lt_iff_rank.mp h2
  exact lt_iff_rank.mpr ⟨hx, hz, hr1.trans hr2⟩

theorem lt_of_lt_of_le {x y z : Float} (h1 : x < y) (h2 : y ≤ z) : x < z := by
  obtain ⟨hx, -, hr1⟩ := lt_iff_rank.mp h1
  obtain ⟨-, hz, hr2⟩ := le_iff_rank.mp h2
  exact lt_iff_rank.mpr ⟨hx, hz, hr1.trans_le hr2⟩

theorem not_lt_of_le {x y : Float} (h : x ≤ y) : ¬ y < x := by
  intro hlt
  exact (le_iff_rank.mp h).2.2.not_gt (lt_iff_rank.mp hlt).2.2

theorem isNaN_of_lt {x y : Float} (h : x < y) : x.isNaN = false := (lt_iff_rank.mp h).1

/-- nothing is below a NaN, and a NaN is below nothing -/
theorem not_lt_of_isNaN {x y : Float} (h : x.isNaN = true ∨ y.isNaN = true) : ¬ x < y := by
  intro hlt
  obtain ⟨hx, hy, -⟩ := lt_iff_rank.mp hlt
  rcases h with h | h
  · rw [hx] at h
    cases h
  · rw [hy] at h
    cases h

end LeastSquares.Binary64
