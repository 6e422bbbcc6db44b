import Mathlib
import LeastSquares.Proofs.Binary64.Value

/-!
# Exact doubling and halving

Doubling a positive number changes its exponent and nothing else, unless the exponent is the least
one, where it is the mantissa that is doubled: nothing is rounded, and either the result has twice
the value or it is an infinity (`value_mul_two`, `greatest_lt_of_overflow`).  Halving changes the
exponent too, down to the least one (`value_div_two`).  From there on it drops a bit of the
mantissa, but what comes out is not above `2^-1022` (`value_div_two_le`).
-/

namespace LeastSquares.Binary64
open Float.Model UnpackedFloat

/-! ## rounding what is in the format -/

theorem shiftRight_exact (m k : Nat) :
    (⟨m * 2 ^ k, false, false⟩ : ExtendedMantissa) >>> k = ⟨m, false, false⟩ := by
  induction k generalizing m with
  | zero =>
    rw [Nat.pow_zero, Nat.mul_one]
    rfl
  | succ k ih =>
    have hodd : m * 2 % 2 = 0 := Nat.mul_mod_left m 2
    have hhalf : m * 2 / 2 = m := Nat.mul_div_cancel m (by decide)
    rw [Nat.pow_succ', ← Nat.mul_assoc]
    show ((⟨m * 2 * 2 ^ k, false, false⟩ : ExtendedMantissa) >>> k).shiftRightOne = _
    rw [ih (m * 2)]
    show (⟨m * 2 / 2, m * 2 % 2 != 0, false || false⟩ : ExtendedMantissa) = _
    rw [hhalf, hodd]
    rfl

theorem log2_mul_two_pow {m : Nat} (hm : 0 < m) (k : Nat) : (m * 2 ^ k).log2 = m.log2 + k := by
  induction k with
  | zero => rw [Nat.pow_zero, Nat.mul_one, Nat.add_zero]
  | succ k ih =>
    have hpos : 0 < m * 2 ^ k := Nat.mul_pos hm (Nat.two_pow_pos k)
    rw [Nat.pow_succ, ← Nat.mul_assoc, Nat.mul_comm _ 2, Nat.log2_two_mul hpos.ne', ih]
    rfl

/-- the bits dropped from a canonical number with zeros behind it are the zeros -/
theorem dropped_eq {m k : Nat} {e : Int} (hm : 0 < m) (hc : Canonical m (e + k)) :
    dropped (m * 2 ^ k) e = k := by
  have hlog : (m * 2 ^ k).log2 = m.log2 + k := log2_mul_two_pow hm k
  have hshort : m.log2 < 53 := (Nat.log2_lt hm.ne').mpr hc.mantissa_lt
  have hleast := hc.least_le
  unfold dropped grid
  rcases hc.normal with hnormal | hsmall
  · have hlong : 52 ≤ m.log2 := (Nat.le_log2 hm.ne').mpr hnormal
    omega
  · omega

/-- a canonical number with zeros behind it is not rounded -/
theorem roundWithAccuracy_exact (s : Sign) {m k : Nat} {e : Int} (hm : 0 < m)
    (hc : Canonical m (e + k)) :
    roundWithAccuracy .binary64 s (m * 2 ^ k) e .exact = .finite s m (e + k) hm := by
  have hdropped := dropped_eq hm hc
  have hgrid : gridExponent (m * 2 ^ k) e = e + k := congrArg (fun n : Nat => e + n) hdropped
  have hon : onGrid (m * 2 ^ k) e .exact = m := by
    show ((⟨m * 2 ^ k, false, false⟩ : ExtendedMantissa) >>>
      (Format.binary64.targetExponent (totalExponent (m * 2 ^ k) e) - e).toNat).roundedMantissa = m
    rw [targetExponent_eq, show (grid (m * 2 ^ k) e - e).toNat = k from hdropped, shiftRight_exact]
    rfl
  have hcarry : dropped m (e + k) = 0 := by
    have h := dropped_eq (k := 0) (e := e + k) hm (by simpa using hc)
    simpa using h
  rw [roundWithAccuracy_eq, hon, hgrid]
  unfold unpacked carried gridExponent
  rw [hcarry, Nat.pow_zero, Nat.div_one, dif_neg hm.ne']
  exact finite_congr rfl (Int.add_zero _)

/-! ## the ends of the range -/

theorem value_least : value RealScalar.least = magnitude (2 ^ 52) (-1074) := by
  unfold value
  rw [unpack_least]
  rfl

theorem value_greatest : value RealScalar.greatest = magnitude (2 ^ 53 - 1) 971 := by
  unfold value
  rw [unpack_greatest]
  rfl

theorem exists_unpack {x : Float} (hpos : (0.0 : Float) < x) (hx : x.isFinite = true) :
    ∃ m e h, x.toModel.unpack = .finite .positive m e h := by
  have hx : x.toModel.unpack.isFinite = true := hx
  rw [zero_lt_iff] at hpos
  cases hu : x.toModel.unpack with
  | notANumber | infinity =>
    rw [hu] at hx
    cases hx
  | zero s => exact absurd hpos (hu ▸ id)
  | finite s m e h =>
    cases s with
    | negative => exact absurd hpos (hu ▸ id)
    | positive => exact ⟨m, e, h, rfl⟩

theorem value_of_unpack {x : Float} {m : Nat} {e : Int} {h : 0 < m}
    (hx : x.toModel.unpack = .finite .positive m e h) : value x = magnitude m e := by
  unfold value
  rw [hx]
  rfl

theorem value_two_pow {x : Float} {e : Int}
    (hx : x.toModel.unpack = .finite .positive (2 ^ 52) e (by decide)) :
    value x = 2 ^ (52 + e) := by
  rw [value_of_unpack hx, zpow_add₀ two_ne_zero]
  unfold magnitude
  norm_num

theorem value_pos {x : Float} (hpos : (0.0 : Float) < x) (hx : x.isFinite = true) :
    0 < value x := by
  obtain ⟨m, e, h, hu⟩ := exists_unpack hpos hx
  rw [value_of_unpack hu]
  exact magnitude_pos h e

theorem value_le_greatest {x : Float} (hpos : (0.0 : Float) < x) (hx : x.isFinite = true) :
    value x ≤ value RealScalar.greatest := by
  obtain ⟨m, e, h, hu⟩ := exists_unpack hpos hx
  obtain ⟨hc, he⟩ := canonical_of_unpack hu
  rw [value_of_unpack hu, value_greatest]
  rcases he.lt_or_eq with he | rfl
  · exact (magnitude_lt_of_exponent_lt hc ⟨by decide, by decide, .inl (by decide)⟩ he).le
  · exact magnitude_le_magnitude (Nat.le_sub_one_of_lt hc.mantissa_lt) 971

/-- only the numbers with the least exponent are below `2^-1021` -/
theorem two_mul_least_le_iff {m : Nat} {e : Int} (hc : Canonical m e) :
    2 * value RealScalar.least ≤ magnitude m e ↔ -1073 ≤ e := by
  have htwo : 2 * value RealScalar.least = magnitude (2 ^ 52) (-1073) := by
    rw [value_least]
    exact (magnitude_succ _ _).symm
  have hsmall : Canonical (2 ^ 52) (-1073) := ⟨by decide, by decide, .inl le_rfl⟩
  rw [htwo]
  constructor
  · intro hle
    by_contra hlt
    exact hle.not_gt (magnitude_lt_of_exponent_lt hc hsmall (not_le.mp hlt))
  · intro hle
    rcases hle.lt_or_eq with hlt | rfl
    · exact (magnitude_lt_of_exponent_lt hsmall hc hlt).le
    · exact magnitude_le_magnitude (hc.normal.resolve_right (by decide)) _

/-! ## doubling -/

theorem exists_double {m : Nat} {e : Int} (hm : 0 < m) (hc : Canonical m e) :
    ∃ m' k, 0 < m' ∧ m * 2 ^ 52 = m' * 2 ^ k ∧ Canonical m' (e + -51 + (k : Nat)) := by
  obtain ⟨hlt, hleast, hnormal⟩ := hc
  by_cases hlarge : 2 ^ 52 ≤ m
  · exact ⟨m, 52, hm, rfl, hlt, by omega, .inl hlarge⟩
  · have he : e = -1074 := hnormal.resolve_left hlarge
    refine ⟨2 * m, 51, by omega, by omega, by omega, by omega, .inr ?_⟩
    omega

/-- twice a positive number, before it is packed -/
theorem unpack_mul_two {x : Float} {m : Nat} {e : Int} {h : 0 < m}
    (hx : x.toModel.unpack = .finite .positive m e h) :
    ∃ m' e' h', (x * 2.0).toModel.unpack =
        (Float.Model.pack (.finite .positive m' e' h')).unpack ∧
      Canonical m' e' ∧ magnitude m' e' = 2 * magnitude m e := by
  obtain ⟨m', k, h', hm, hc⟩ := exists_double h (canonical_of_unpack hx).1
  have hmul : x.toModel.unpack.mul .binary64 (2.0 : Float).toModel.unpack =
      .finite .positive m' (e + -51 + k) h' := by
    rw [hx, unpack_two]
    show roundWithAccuracy .binary64 .positive (m * 2 ^ 52) (e + -51) .exact = _
    rw [hm]
    exact roundWithAccuracy_exact .positive h' hc
  refine ⟨m', e + -51 + k, h', congrArg (fun u => (Float.Model.pack u).unpack) hmul, hc, ?_⟩
  calc magnitude m' (e + -51 + k) = magnitude (m * 2 ^ 52) (e + -51) := by
        rw [hm, magnitude_mul_two_pow]
    _ = magnitude m (e + 1) := by
        rw [magnitude_mul_two_pow]
        congr 1
        omega
    _ = 2 * magnitude m e := magnitude_succ m e

variable {x : Float}

theorem value_mul_two (hpos : (0.0 : Float) < x) (hx : x.isFinite = true)
    (hdouble : (x * 2.0).isFinite = true) : value (x * 2.0) = 2 * value x := by
  obtain ⟨m, e, h, hu⟩ := exists_unpack hpos hx
  obtain ⟨m', e', h', hmul, hc, hvalue⟩ := unpack_mul_two hu
  rw [value_of_unpack hu, ← hvalue]
  refine value_of_unpack (h := h') (hmul.trans (unpack_pack hc ?_))
  by_contra hlarge
  have hinfinite := hmul.trans (unpack_pack_overflow (Int.lt_iff_add_one_le.mp (not_le.mp hlarge)))
  have hdouble : (x * 2.0).toModel.unpack.isFinite = true := hdouble
  rw [hinfinite] at hdouble
  cases hdouble

/-- a double that is not in the format would be greater than all that is -/
theorem greatest_lt_of_overflow (hpos : (0.0 : Float) < x) (hx : x.isFinite = true)
    (hdouble : ¬ (x * 2.0).isFinite = true) : value RealScalar.greatest < 2 * value x := by
  obtain ⟨m, e, h, hu⟩ := exists_unpack hpos hx
  obtain ⟨m', e', h', hmul, hc, hvalue⟩ := unpack_mul_two hu
  rw [value_of_unpack hu, ← hvalue, value_greatest]
  refine magnitude_lt_of_exponent_lt ⟨by decide, by decide, .inl (by decide)⟩ hc ?_
  by_contra hsmall
  refine hdouble ?_
  show (x * 2.0).toModel.unpack.isFinite = true
  rw [hmul, unpack_pack hc (not_lt.mp hsmall)]
  rfl

/-! ## halving -/

/-- above the least exponent only the exponent changes -/
theorem div_two_of_lt {m : Nat} {e : Int} (hm : 0 < m) (hc : Canonical m e) (he : -1073 ≤ e) :
    (UnpackedFloat.finite .positive m e hm).div .binary64 (.finite .positive (2 ^ 52) (-51)
      (by decide)) = .finite .positive m (e - 1) hm := by
  have hnormal : 2 ^ 52 ≤ m := hc.normal.resolve_right (by omega)
  have hlog : m.log2 = 52 := (Nat.log2_eq_iff hm.ne').mpr ⟨hnormal, hc.mantissa_lt⟩
  have hexponent := halfExponent_eq m e
  -- the numerator has the 52 zeros that are divided away, and `k` more
  obtain ⟨k, hk⟩ : ∃ k : Nat, halfExponent m e + k = e - 1 :=
    ⟨(e - 1 - halfExponent m e).toNat, by omega⟩
  have hshift : m <<< (e - -51 - halfExponent m e).toNat = m * 2 ^ k * 2 ^ 52 := by
    rw [Nat.shiftLeft_eq, show (e - -51 - halfExponent m e).toNat = k + 52 by omega, Nat.pow_add,
      Nat.mul_assoc]
  have hquotient : halfMantissa m e = m * 2 ^ k := by
    unfold halfMantissa
    rw [hshift]
    exact Nat.mul_div_cancel _ (by decide)
  have hcanonical : Canonical m (halfExponent m e + k) :=
    hk ▸ ⟨hc.mantissa_lt, by omega, .inl hnormal⟩
  obtain ⟨a, ha, hexact⟩ := div_two_eq .positive m e hm
  rw [ha, hexact (by rw [hshift]; exact Nat.mul_mod_left _ _), hquotient]
  exact (roundWithAccuracy_exact .positive hm hcanonical).trans (finite_congr rfl hk)

theorem dropped_eq_zero {r : Nat} (hr : r ≤ 2 ^ 52) : dropped r (-1074) = 0 := by
  have hlog : r.log2 ≤ 52 := by
    rcases Nat.eq_zero_or_pos r with rfl | hpos
    · decide
    · exact Nat.lt_succ_iff.mp ((Nat.log2_lt hpos.ne').mpr (by omega))
  unfold dropped grid
  omega

/-- with the least exponent a bit of the mantissa is lost, and the rest is rounded -/
theorem div_two_of_least {m : Nat} (hm : 0 < m) (hlt : m < 2 ^ 53) :
    ∃ r ≤ 2 ^ 52, (UnpackedFloat.finite .positive m (-1074) hm).div .binary64
      (.finite .positive (2 ^ 52) (-51) (by decide)) = unpacked .positive r (-1074) := by
  have hexponent : halfExponent m (-1074) = -1074 := by
    have hlog : m.log2 < 53 := (Nat.log2_lt hm.ne').mpr hlt
    rw [halfExponent_eq]
    omega
  have hquotient : halfMantissa m (-1074) < 2 ^ 52 := by
    unfold halfMantissa
    rw [hexponent, Nat.shiftLeft_eq]
    show m * 2 ^ 51 / 2 ^ 52 < _
    omega
  obtain ⟨a, ha, -⟩ := div_two_eq .positive m (-1074) hm
  have hround : onGrid (halfMantissa m (-1074)) (-1074) a ≤ 2 ^ 52 := by
    have hbounds := roundedMantissa_bounds
      (shiftToTargetExponent .binary64 (halfMantissa m (-1074)) (-1074) a).1
    rw [mantissa_shiftToTargetExponent, dropped_eq_zero hquotient.le, Nat.pow_zero,
      Nat.div_one] at hbounds
    exact hbounds.2.trans hquotient
  refine ⟨_, hround, ?_⟩
  rw [ha, hexponent, roundWithAccuracy_eq]
  unfold carried gridExponent
  rw [dropped_eq_zero hquotient.le]
  show unpacked _ (_ / 2 ^ dropped _ (-1074)) (-1074 + dropped _ (-1074)) = _
  rw [dropped_eq_zero hround, Nat.pow_zero, Nat.div_one]
  rfl

theorem value_div_two (hpos : (0.0 : Float) < x) (hx : x.isFinite = true)
    (hlarge : 2 * value RealScalar.least ≤ value x) : value (x / 2.0) = value x / 2 := by
  obtain ⟨m, e, h, hu⟩ := exists_unpack hpos hx
  obtain ⟨hc, hmax⟩ := canonical_of_unpack hu
  rw [value_of_unpack hu] at hlarge ⊢
  have he : -1073 ≤ e := (two_mul_least_le_iff hc).mp hlarge
  have hdiv : x.toModel.unpack.div .binary64 (2.0 : Float).toModel.unpack =
      .finite .positive m (e - 1) h := by
    rw [hu, unpack_two]
    exact div_two_of_lt h hc he
  have hnormal := hc.normal.resolve_right (by omega)
  have hunpack : (x / 2.0).toModel.unpack = .finite .positive m (e - 1) h :=
    (congrArg (fun u => (Float.Model.pack u).unpack) hdiv).trans
      (unpack_pack ⟨hc.mantissa_lt, by omega, .inl hnormal⟩ (by omega))
  have hsucc : magnitude m e = 2 * magnitude m (e - 1) := by
    rw [← magnitude_succ, sub_add_cancel]
  rw [value_of_unpack hunpack, hsucc]
  ring

theorem value_pack_unpacked_le {r : Nat} (hr : r ≤ 2 ^ 52) :
    valueUnpacked (Float.Model.pack (unpacked .positive r (-1074))).unpack ≤
      magnitude (2 ^ 52) (-1074) := by
  unfold unpacked
  split
  · exact (magnitude_pos (by decide) _).le
  · rw [unpack_pack ⟨by omega, by decide, .inr rfl⟩ (by decide)]
    exact magnitude_le_magnitude hr _

/-- rounding does not pass the least normal number -/
theorem value_div_two_le (hpos : (0.0 : Float) < x) (hx : x.isFinite = true)
    (hsmall : value x < 2 * value RealScalar.least) :
    value (x / 2.0) ≤ value RealScalar.least := by
  obtain ⟨m, e, h, hu⟩ := exists_unpack hpos hx
  obtain ⟨hc, -⟩ := canonical_of_unpack hu
  have he : e = -1074 := by
    rw [value_of_unpack hu, ← not_le, two_mul_least_le_iff hc] at hsmall
    have hleast := hc.least_le
    omega
  subst he
  obtain ⟨r, hr, hdiv⟩ := div_two_of_least h hc.mantissa_lt
  rw [value_least]
  show valueUnpacked
    (Float.Model.pack (x.toModel.unpack.div .binary64 (2.0 : Float).toModel.unpack)).unpack ≤ _
  rw [hu, unpack_two, hdiv]
  exact value_pack_unpacked_le hr

end LeastSquares.Binary64
