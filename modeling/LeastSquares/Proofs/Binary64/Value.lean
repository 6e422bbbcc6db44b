import Mathlib
import LeastSquares.Proofs.Binary64.Scaling

/-!
# The value of a binary64 number

A finite number stands for the rational number `± m * 2 ^ e` (`value`).  Its mantissa and exponent
are canonical, so the order of the format, which compares exponents first, is the order of the
values (`lt_iff_value`), and a positive number is known by its value (`eq_of_value_eq`).

In the other direction a canonical mantissa and exponent survive packing (`unpack_pack`), unless the
exponent is too large; then they become an infinity (`unpack_pack_overflow`).
-/

namespace LeastSquares.Binary64
open Float.Model UnpackedFloat

/-! ## packing canonical numbers -/

theorem finite_congr {s : Sign} {m m' : Nat} {e e' : Int} {h : 0 < m} {h' : 0 < m'} (hm : m = m')
    (he : e = e') : UnpackedFloat.finite s m e h = .finite s m' e' h' := by
  subst hm he
  rfl

theorem unpack_normal (s : Sign) {x : BitVec 11} (m : BitVec 52) (h1 : x ≠ -1#11) (h0 : x ≠ 0#11) :
    UnpackedFloat.unpack .binary64 (packComponents .binary64 s x m) =
      .finite s (2 ^ 52 + m.toNat) (x.toNat - 1075) (by omega) := by
  have hx : unpackExponent (packComponents .binary64 s x m) = x := unpackExponent_packComponents
  have hm : unpackMantissa (packComponents .binary64 s x m) = m := unpackMantissa_packComponents
  unfold UnpackedFloat.unpack
  dsimp only
  rw [hx, if_neg h1, if_neg h0, unpackSign_packComponents, Sign.ofBitVec_toBitVec]
  refine finite_congr ?_ rfl
  rw [hm]
  exact toNat_leading m

theorem unpack_subnormal (s : Sign) {m : BitVec 52} (h : m ≠ 0#52) :
    UnpackedFloat.unpack .binary64 (packComponents .binary64 s 0#11 m) =
      .finite s m.toNat (-1074) (BitVec.toNat_pos_of_ne_zero h) := by
  have hx : unpackExponent (packComponents .binary64 s 0#11 m) = 0#11 :=
    unpackExponent_packComponents
  have hm : unpackMantissa (packComponents .binary64 s 0#11 m) = m := unpackMantissa_packComponents
  unfold UnpackedFloat.unpack
  dsimp only
  rw [hx, if_neg (by decide), if_pos rfl, unpackSign_packComponents, Sign.ofBitVec_toBitVec,
    dif_neg (by rw [hm]; exact h)]
  exact finite_congr (congrArg BitVec.toNat hm) rfl

/-- a canonical number that is not too large is kept by packing -/
theorem unpack_pack {s : Sign} {m : Nat} {e : Int} {h : 0 < m} (hc : Canonical m e)
    (he : e ≤ 971) : (Float.Model.pack (.finite s m e h)).unpack = .finite s m e h := by
  obtain ⟨hm, hleast, hnormal⟩ := hc
  show UnpackedFloat.unpack .binary64 (UnpackedFloat.pack .binary64 (.finite s m e h)) = _
  unfold UnpackedFloat.pack
  dsimp only
  rw [biased_eq, if_neg (by omega : ¬ 2 ^ 11 ≤ (e + 1075).toNat + 1)]
  have hmantissa : (BitVec.ofNat 52 m).toNat = m % 2 ^ 52 := BitVec.toNat_ofNat m 52
  by_cases hlarge : 2 ^ 52 ≤ m
  · have hlog : m.log2 + 1 = 53 := congrArg (· + 1) ((Nat.log2_eq_iff h.ne').mpr ⟨hlarge, hm⟩)
    have hexponent := toNat_biased he
    rw [if_pos (show m.log2 + 1 = Format.binary64.mantissaBits from hlog),
      unpack_normal s _ (biased_ne_ones he) (biased_ne_zero hleast he)]
    exact finite_congr (by omega) (by omega)
  · have hlog : m.log2 + 1 ≠ 53 := by
      have hlt : m.log2 < 52 := (Nat.log2_lt h.ne').mpr (Nat.lt_of_not_le hlarge)
      omega
    have hmod : m % 2 ^ 52 = m := Nat.mod_eq_of_lt (Nat.lt_of_not_le hlarge)
    rw [if_neg (show ¬ m.log2 + 1 = Format.binary64.mantissaBits from hlog), unpack_subnormal]
    · exact finite_congr (hmantissa.trans hmod) (hnormal.resolve_left hlarge).symm
    · intro hzero
      have h0 : m % 2 ^ 52 = 0 := hmantissa ▸ congrArg BitVec.toNat hzero
      omega

theorem unpack_infinity (s : Sign) :
    UnpackedFloat.unpack .binary64 (packComponents .binary64 s (-1#11) 0#52) = .infinity s := by
  have hx : unpackExponent (packComponents .binary64 s (-1#11) 0#52) = -1#11 :=
    unpackExponent_packComponents
  have hm : unpackMantissa (packComponents .binary64 s (-1#11) 0#52) = 0#52 :=
    unpackMantissa_packComponents
  unfold UnpackedFloat.unpack
  dsimp only
  rw [if_pos hx, if_pos hm, unpackSign_packComponents, Sign.ofBitVec_toBitVec]

/-- with too large an exponent it becomes an infinity -/
theorem unpack_pack_overflow {s : Sign} {m : Nat} {e : Int} {h : 0 < m} (he : 972 ≤ e) :
    (Float.Model.pack (.finite s m e h)).unpack = .infinity s := by
  have hpack : UnpackedFloat.pack .binary64 (.finite s m e h) =
      packComponents .binary64 s (-1#11) 0#52 := by
    unfold UnpackedFloat.pack
    dsimp only
    rw [biased_eq]
    exact if_pos (by omega : 2 ^ 11 ≤ (e + 1075).toNat + 1)
  show UnpackedFloat.unpack .binary64 (UnpackedFloat.pack .binary64 (.finite s m e h)) = _
  rw [hpack]
  exact unpack_infinity s

/-! ## values -/

/-- the rational number `m * 2 ^ e` -/
def magnitude (m : Nat) (e : Int) : ℚ := m * 2 ^ e

theorem magnitude_pos {m : Nat} (h : 0 < m) (e : Int) : 0 < magnitude m e := by
  unfold magnitude
  positivity

theorem magnitude_mul_two_pow (m k : Nat) (e : Int) :
    magnitude (m * 2 ^ k) e = magnitude m (e + k) := by
  unfold magnitude
  rw [zpow_add₀ two_ne_zero, zpow_natCast]
  push_cast
  ring

theorem magnitude_succ (m : Nat) (e : Int) : magnitude m (e + 1) = 2 * magnitude m e := by
  unfold magnitude
  rw [zpow_add_one₀ two_ne_zero]
  ring

theorem magnitude_le_magnitude {m m' : Nat} (h : m ≤ m') (e : Int) :
    magnitude m e ≤ magnitude m' e :=
  mul_le_mul_of_nonneg_right (Nat.cast_le.mpr h) (by positivity)

theorem magnitude_lt_magnitude {m m' : Nat} (h : m < m') (e : Int) :
    magnitude m e < magnitude m' e :=
  mul_lt_mul_of_pos_right (Nat.cast_lt.mpr h) (by positivity)

/-- a number with a larger exponent is larger, because its mantissa is as long as can be -/
theorem magnitude_lt_of_exponent_lt {m m' : Nat} {e e' : Int} (hc : Canonical m e)
    (hc' : Canonical m' e') (h : e < e') : magnitude m e < magnitude m' e' := by
  have hlong : 2 ^ 52 ≤ m' := by
    refine hc'.normal.resolve_right ?_
    have hleast := hc.least_le
    omega
  have hexponent : e' = e + 1 + (e' - (e + 1)).toNat := by omega
  have hmantissa : m < m' * 2 ^ (e' - (e + 1)).toNat * 2 ^ 1 := by
    have hlt := hc.mantissa_lt
    have hpos : 1 ≤ 2 ^ (e' - (e + 1)).toNat := Nat.one_le_two_pow
    have hle : m' * 1 ≤ m' * 2 ^ (e' - (e + 1)).toNat := Nat.mul_le_mul_left m' hpos
    omega
  calc magnitude m e < magnitude (m' * 2 ^ (e' - (e + 1)).toNat * 2 ^ 1) e :=
        magnitude_lt_magnitude hmantissa e
    _ = magnitude m' e' := by
      rw [magnitude_mul_two_pow, magnitude_mul_two_pow, Nat.cast_one, ← hexponent]

theorem magnitude_lt {m m' : Nat} {e e' : Int} (hc : Canonical m e) (hc' : Canonical m' e')
    (h : e < e' ∨ e = e' ∧ m < m') : magnitude m e < magnitude m' e' := by
  rcases h with h | ⟨rfl, h⟩
  · exact magnitude_lt_of_exponent_lt hc hc' h
  · exact magnitude_lt_magnitude h e

def valueUnpacked : UnpackedFloat → ℚ
  | .finite .positive m e _ => magnitude m e
  | .finite .negative m e _ => -magnitude m e
  | _ => 0

/-- the value of a finite number; that of another one means nothing -/
def value (x : Float) : ℚ := valueUnpacked x.toModel.unpack

/-! ## order -/

theorem place_lt {c e m c' e' m' : ℤ} :
    place c e m < place c' e' m' ↔ c < c' ∨ c = c' ∧ (e < e' ∨ e = e' ∧ m < m') := by
  unfold place
  rw [Prod.Lex.toLex_lt_toLex, Prod.Lex.toLex_lt_toLex]

/-- mantissa and exponent are canonical, where there are any -/
def IsCanonical (u : UnpackedFloat) : Prop := ∀ s m e h, u = .finite s m e h → Canonical m e

theorem isCanonical_unpack (x : Float) : IsCanonical x.toModel.unpack :=
  fun _ _ _ _ h => (canonical_of_unpack h).1

theorem valueUnpacked_lt {u v : UnpackedFloat} (hu : u.isFinite = true) (hv : v.isFinite = true)
    (hcu : IsCanonical u) (hcv : IsCanonical v) (h : rankUnpacked u < rankUnpacked v) :
    valueUnpacked u < valueUnpacked v := by
  cases u with
  | notANumber | infinity => cases hu
  | zero s =>
    cases v with
    | notANumber | infinity => cases hv
    | zero t => exact (LT.lt.false h).elim
    | finite t m' e' hm' =>
      cases t with
      | negative => simp [rankUnpacked, place_lt] at h
      | positive => exact magnitude_pos hm' e'
  | finite s m e hm =>
    have hc := hcu s m e hm rfl
    cases v with
    | notANumber | infinity => cases hv
    | zero t =>
      cases s with
      | negative => exact neg_neg_of_pos (magnitude_pos hm e)
      | positive => simp [rankUnpacked, place_lt] at h
    | finite t m' e' hm' =>
      have hc' := hcv t m' e' hm' rfl
      cases s <;> cases t
      · have hlt : e' < e ∨ e' = e ∧ m' < m := by
          simp only [rankUnpacked, place_lt] at h
          omega
        exact neg_lt_neg (magnitude_lt hc' hc hlt)
      · exact (neg_neg_of_pos (magnitude_pos hm e)).trans (magnitude_pos hm' e')
      · simp [rankUnpacked, place_lt] at h
      · have hlt : e < e' ∨ e = e' ∧ m < m' := by
          simp only [rankUnpacked, place_lt] at h
          omega
        exact magnitude_lt hc hc' hlt

/-- finite numbers of the same rank are equal, up to the sign of a zero -/
theorem eq_or_zero_of_rank_eq {u v : UnpackedFloat} (hu : u.isFinite = true)
    (hv : v.isFinite = true) (h : rankUnpacked u = rankUnpacked v) :
    u = v ∨ ∃ s t, u = .zero s ∧ v = .zero t := by
  cases u with
  | notANumber | infinity => cases hu
  | zero s =>
    cases v with
    | notANumber | infinity => cases hv
    | zero t => exact .inr ⟨s, t, rfl, rfl⟩
    | finite t m' e' hm' => cases t <;> simp [rankUnpacked, place] at h
  | finite s m e hm =>
    cases v with
    | notANumber | infinity => cases hv
    | zero t => cases s <;> simp [rankUnpacked, place] at h
    | finite t m' e' hm' =>
      left
      cases s <;> cases t <;> simp [rankUnpacked, place] at h
      · exact finite_congr h.2 h.1
      · exact finite_congr h.2 h.1

theorem value_lt_of_rank_lt {x y : Float} (hx : x.isFinite = true) (hy : y.isFinite = true)
    (h : rank x < rank y) : value x < value y :=
  valueUnpacked_lt hx hy (isCanonical_unpack x) (isCanonical_unpack y) h

/-- finite numbers are ordered like their values -/
theorem lt_iff_value {x y : Float} (hx : x.isFinite = true) (hy : y.isFinite = true) :
    x < y ↔ value x < value y := by
  rw [lt_iff_rank]
  refine ⟨fun h => value_lt_of_rank_lt hx hy h.2.2, ?_⟩
  intro h
  refine ⟨isNaN_of_isFinite hx, isNaN_of_isFinite hy, ?_⟩
  rcases lt_trichotomy (rank x) (rank y) with hlt | heq | hgt
  · exact hlt
  · have hvalue : value x = value y := by
      rcases eq_or_zero_of_rank_eq hx hy heq with heq | ⟨s, t, hs, ht⟩
      · exact congrArg valueUnpacked heq
      · unfold value
        rw [hs, ht]
        rfl
    exact absurd h hvalue.not_lt
  · exact absurd h (value_lt_of_rank_lt hy hx hgt).not_gt

theorem le_iff_value {x y : Float} (hx : x.isFinite = true) (hy : y.isFinite = true) :
    x ≤ y ↔ value x ≤ value y := by
  have hle : x ≤ y ↔ ¬ y < x := by
    rw [le_iff_rank, lt_iff_rank, isNaN_of_isFinite hx, isNaN_of_isFinite hy]
    simp
  rw [hle, lt_iff_value hy hx, not_lt]

theorem eq_of_unpack_eq {x y : Float} (h : x.toModel.unpack = y.toModel.unpack) : x = y := by
  have hbits := (unpack_inj_of_valid x.toModel.valid y.toModel.valid).mp h
  exact Float.toBits_inj.mp (UInt64.toBitVec_inj.mp hbits)

/-- a positive number is known by its value -/
theorem eq_of_value_eq {x y : Float} (hx : (0.0 : Float) < x) (hx' : x.isFinite = true)
    (hy' : y.isFinite = true) (h : value x = value y) : x = y := by
  have hxy : ¬ rank x < rank y := fun hlt => (value_lt_of_rank_lt hx' hy' hlt).ne h
  have hyx : ¬ rank y < rank x := fun hlt => (value_lt_of_rank_lt hy' hx' hlt).ne' h
  have heq : rank x = rank y := le_antisymm (not_lt.mp hyx) (not_lt.mp hxy)
  rcases eq_or_zero_of_rank_eq hx' hy' heq with heq | ⟨s, t, hs, -⟩
  · exact eq_of_unpack_eq heq
  · rw [zero_lt_iff, hs] at hx
    exact hx.elim

end LeastSquares.Binary64
