import LeastSquares.Proofs.Binary64.Order
import LeastSquares.Proofs.Binary64.Rounding
import LeastSquares.Scalar

/-!
# Doubling and halving

`2 * x` of a positive number is positive, though it may be an infinity (`zero_lt_mul_two`), and
`x / 2` of a finite positive number is finite, though it may be zero (`isFinite_div_two`).  With the
bounds that the damping is held between, this keeps it positive and finite.
-/

namespace LeastSquares.Binary64
open Float.Model UnpackedFloat

/-! ## positive and finite numbers -/

/-- an infinity counts as positive -/
def Positive : UnpackedFloat → Prop
  | .infinity .positive => True
  | .finite .positive _ _ _ => True
  | _ => False

theorem zero_lt_iff {x : Float} : (0.0 : Float) < x ↔ Positive x.toModel.unpack := by
  have hzero : (0.0 : Float).toModel.unpack = .zero .positive := rfl
  rw [lt_iff_compare, hzero]
  cases x.toModel.unpack with
  | notANumber | zero => exact ⟨nofun, nofun⟩
  | infinity s | finite s =>
    cases s with
    | negative => exact ⟨nofun, nofun⟩
    | positive => exact ⟨fun _ => trivial, fun _ => rfl⟩

theorem isFinite_of_lt_of_lt {x y z : Float} (h1 : x < y) (h2 : y < z) : y.isFinite = true := by
  rw [lt_iff_compare] at h1 h2
  show y.toModel.unpack.isFinite = true
  cases hy : y.toModel.unpack with
  | zero | finite => rfl
  | notANumber =>
    rw [hy] at h2
    cases h2
  | infinity s =>
    rw [hy] at h1 h2
    cases s with
    | negative => cases hx : x.toModel.unpack with
      | infinity t => rw [hx] at h1; cases t <;> cases h1
      | notANumber | zero | finite => rw [hx] at h1; cases h1
    | positive => cases hz : z.toModel.unpack with
      | infinity t => rw [hz] at h2; cases t <;> cases h2
      | notANumber | zero | finite => rw [hz] at h2; cases h2

/-! ## the ends of the range -/

theorem unpack_least : (RealScalar.least : Float).toModel.unpack =
    .finite .positive (2 ^ 52) (-1074) (by decide) := rfl

theorem unpack_greatest : (RealScalar.greatest : Float).toModel.unpack =
    .finite .positive (2 ^ 53 - 1) 971 (by decide) := rfl

/-! ## packing -/

theorem isFinite_unpack {b : BitVec Format.binary64.numBits} (h : unpackExponent b ≠ -1#_) :
    (UnpackedFloat.unpack .binary64 b).isFinite = true := by
  unfold UnpackedFloat.unpack
  rw [if_neg h]
  split
  · split <;> rfl
  · rfl

/-- the form that a mantissa and an exponent have in the format: as many leading bits as there can
be, unless the exponent is the least one -/
structure Canonical (m : Nat) (e : Int) : Prop where
  mantissa_lt : m < 2 ^ 53
  least_le : -1074 ≤ e
  normal : 2 ^ 52 ≤ m ∨ e = -1074

theorem toNat_leading (m : BitVec 52) : (1#1 ++ m).toNat = 2 ^ 52 + m.toNat := by
  rw [BitVec.toNat_append, ← Nat.shiftLeft_add_eq_or_of_lt m.isLt]
  rfl

/-- mantissa and exponent of a finite number -/
theorem canonical_of_unpack {b : BitVec Format.binary64.numBits} {s : Sign} {m : Nat} {e : Int}
    {h : 0 < m} (hb : UnpackedFloat.unpack .binary64 b = .finite s m e h) :
    Canonical m e ∧ e ≤ 971 := by
  unfold UnpackedFloat.unpack at hb
  have hmantissa : (unpackMantissa b).toNat < 2 ^ 52 := (unpackMantissa b).isLt
  have hbias : ((Format.binary64.exponentBias : Int) + (52 : Nat)) = 1075 := rfl
  dsimp only at hb
  rw [hbias] at hb
  split at hb
  · split at hb <;> cases hb
  · rename_i hones
    split at hb
    · rename_i hzero
      split at hb
      · cases hb
      · cases hb
        rw [hzero]
        exact ⟨⟨by omega, by decide, .inr rfl⟩, by decide⟩
    · rename_i hzero
      cases hb
      have hbits : (unpackExponent b).toNat < 2 ^ 11 := (unpackExponent b).isLt
      have hmax : (unpackExponent b).toNat ≠ 2047 := fun h => hones (BitVec.eq_of_toNat_eq h)
      have hmin : (unpackExponent b).toNat ≠ 0 := fun h => hzero (BitVec.eq_of_toNat_eq h)
      rw [toNat_leading]
      exact ⟨⟨by omega, by omega, .inl (by omega)⟩, by omega⟩

/-- the exponent as it is packed -/
theorem biased_eq (e : Int) : e + Format.binary64.exponentBias + (52 : Nat) = e + 1075 := by
  show e + 1023 + 52 = _
  omega

theorem toNat_biased {e : Int} (h : e ≤ 971) :
    (BitVec.ofNat 11 (e + 1075).toNat).toNat = (e + 1075).toNat := by
  rw [BitVec.toNat_ofNat]
  exact Nat.mod_eq_of_lt (by omega)

theorem biased_ne_ones {e : Int} (h : e ≤ 971) : BitVec.ofNat 11 (e + 1075).toNat ≠ -1#11 := by
  intro hones
  have h2047 : (e + 1075).toNat = 2047 := toNat_biased h ▸ congrArg BitVec.toNat hones
  omega

theorem biased_ne_zero {e : Int} (hleast : -1074 ≤ e) (h : e ≤ 971) :
    BitVec.ofNat 11 (e + 1075).toNat ≠ 0#11 := by
  intro hzero
  have h0 : (e + 1075).toNat = 0 := toNat_biased h ▸ congrArg BitVec.toNat hzero
  omega

/-- a number of the format packs to a finite one unless its exponent is too large -/
theorem isFinite_pack {s : Sign} {m : Nat} {e : Int} {h : 0 < m} (he : e ≤ 971) :
    (Float.Model.pack (.finite s m e h)).unpack.isFinite = true := by
  apply isFinite_unpack
  show unpackExponent (UnpackedFloat.pack .binary64 (.finite s m e h)) ≠ _
  unfold UnpackedFloat.pack
  dsimp only
  have hfits : ¬ 2 ^ 11 ≤ (e + 1075).toNat + 1 := by omega
  rw [biased_eq, if_neg hfits]
  split
  · rw [unpackExponent_packComponents]
    exact biased_ne_ones he
  · rw [unpackExponent_packComponents]
    decide

theorem positive_packComponents {spec : Format} {x : BitVec spec.exponentBits}
    {m : BitVec spec.mantissaBitsWithoutImplicit} (hones : x = -1#_ → m = 0#_)
    (hzero : x = 0#_ → m ≠ 0#_) :
    Positive (UnpackedFloat.unpack spec (packComponents spec .positive x m)) := by
  have hsign : Sign.ofBitVec (unpackSign (packComponents spec .positive x m)) = .positive := by
    rw [unpackSign_packComponents, Sign.ofBitVec_toBitVec]
  unfold UnpackedFloat.unpack
  dsimp only
  rw [hsign]
  simp only [unpackExponent_packComponents, unpackMantissa_packComponents]
  by_cases h1 : x = -1#_
  · rw [if_pos h1, if_pos (hones h1)]
    trivial
  · rw [if_neg h1]
    by_cases h0 : x = 0#_
    · rw [if_pos h0, dif_neg (hzero h0)]
      trivial
    · rw [if_neg h0]
      trivial

/-- a positive number of the format stays positive when it is packed -/
theorem positive_pack {m : Nat} {e : Int} {h : 0 < m} (hm : m < 2 ^ 53) (he : -1074 ≤ e) :
    Positive (Float.Model.pack (.finite .positive m e h)).unpack := by
  show Positive (UnpackedFloat.unpack .binary64
    (UnpackedFloat.pack .binary64 (.finite .positive m e h)))
  unfold UnpackedFloat.pack
  dsimp only
  rw [biased_eq]
  split
  · exact positive_packComponents (fun _ => rfl) (by decide)
  · rename_i hfits
    have hmax : e ≤ 971 := by omega
    split
    · refine positive_packComponents ?_ ?_
      · exact fun hones => absurd hones (biased_ne_ones hmax)
      · exact fun hzero => absurd hzero (biased_ne_zero he hmax)
    · rename_i hshort
      refine positive_packComponents nofun ?_
      intro _ hzero
      have hlog : m.log2 < 53 := (Nat.log2_lt h.ne').mpr hm
      have hne : m.log2 + 1 ≠ 53 := hshort
      have hlt : m < 2 ^ 52 := (Nat.log2_lt h.ne').mp (by omega)
      have h0 : m % 2 ^ 52 = 0 := (BitVec.toNat_ofNat m 52).symm.trans (congrArg BitVec.toNat hzero)
      rw [Nat.mod_eq_of_lt hlt] at h0
      omega

/-! ## two -/

theorem unpack_two : (2.0 : Float).toModel.unpack = .finite .positive (2 ^ 52) (-51) (by decide) :=
  rfl

theorem zero_lt_mul_two {x : Float} (h : (0.0 : Float) < x) : (0.0 : Float) < x * 2.0 := by
  rw [zero_lt_iff] at h ⊢
  show Positive
    (Float.Model.pack (x.toModel.unpack.mul .binary64 (2.0 : Float).toModel.unpack)).unpack
  rw [unpack_two]
  cases hx : x.toModel.unpack with
  | notANumber | zero => exact absurd h (hx ▸ id)
  | infinity s =>
    cases s with
    | negative => exact absurd h (hx ▸ id)
    | positive => exact positive_packComponents (fun _ => rfl) nofun
  | finite s m e hm =>
    cases s with
    | negative => exact absurd h (hx ▸ id)
    | positive =>
      have hpos : 0 < m * 2 ^ 52 := Nat.mul_pos hm (Nat.two_pow_pos 52)
      have hlog : 52 ≤ (m * 2 ^ 52).log2 :=
        (Nat.le_log2 hpos.ne').mpr (Nat.le_mul_of_pos_left _ hm)
      have hexponent := (canonical_of_unpack hx).1.least_le
      obtain ⟨m', e', h', hround, hm', he'⟩ :=
        exists_rounded .positive (e := e + -51) .exact hpos (by omega)
      have hmul : (UnpackedFloat.finite .positive m e hm).mul .binary64
          (.finite .positive (2 ^ 52) (-51) (by decide)) = .finite .positive m' e' h' := hround
      rw [hmul]
      exact positive_pack hm' he'

/-! ## one half -/

theorem isFinite_pack_zero (s : Sign) : (Float.Model.pack (.zero s)).unpack.isFinite = true := by
  apply isFinite_unpack
  show unpackExponent (packComponents .binary64 s 0 0) ≠ _
  rw [unpackExponent_packComponents]
  decide

theorem isFinite_pack_rounded {s : Sign} {m : Nat} {e : Int} {a : Accuracy}
    (h : max e (grid m e) ≤ 970) :
    (Float.Model.pack (roundWithAccuracy .binary64 s m e a)).unpack.isFinite = true := by
  cases hr : roundWithAccuracy .binary64 s m e a with
  | zero t => exact isFinite_pack_zero t
  | finite t m' e' h' =>
    have he := exponent_le_of_rounded hr
    exact isFinite_pack (by omega)
  | infinity | notANumber =>
    rw [roundWithAccuracy_eq] at hr
    unfold unpacked at hr
    split at hr <;> cases hr

/-- the exponent at which a half is computed, before it is rounded -/
def halfExponent (m : Nat) (e : Int) : Int :=
  min (e - -51) (Format.binary64.targetExponent (totalExponent m e - totalExponent (2 ^ 52) (-51)))

/-- the quotient by `2 ^ 52`, at that exponent -/
def halfMantissa (m : Nat) (e : Int) : Nat :=
  m <<< (e - -51 - halfExponent m e).toNat / 2 ^ 52

theorem div_two_eq (s : Sign) (m : Nat) (e : Int) (hm : 0 < m) :
    ∃ a, (UnpackedFloat.finite s m e hm).div .binary64
          (.finite .positive (2 ^ 52) (-51) (by decide)) =
        roundWithAccuracy .binary64 (s / .positive) (halfMantissa m e) (halfExponent m e) a ∧
      (m <<< (e - -51 - halfExponent m e).toNat % 2 ^ 52 = 0 → a = .exact) :=
  ⟨_, rfl, fun h => if_pos h⟩

theorem halfExponent_eq (m : Nat) (e : Int) :
    halfExponent m e = min (e + 51) (max (m.log2 + e - 54) (-1074)) := by
  have htotal : totalExponent (2 ^ 52) (-51) = 2 := by decide
  unfold halfExponent
  rw [htotal]
  show min (e - -51) (max ((m.log2 : Int) + 1 + e - 2 - 53) (-1074)) = _
  omega

theorem log2_halfMantissa {m : Nat} (hm : m < 2 ^ 53) (e : Int) :
    (halfMantissa m e).log2 ≤ (e - -51 - halfExponent m e).toNat := by
  unfold halfMantissa
  generalize (e - -51 - halfExponent m e).toNat = k
  rcases Nat.eq_zero_or_pos (m <<< k / 2 ^ 52) with hzero | hpos
  · rw [hzero]
    exact Nat.zero_le k
  · refine Nat.lt_succ_iff.mp ((Nat.log2_lt hpos.ne').mpr ?_)
    rw [Nat.div_lt_iff_lt_mul (Nat.two_pow_pos 52), Nat.shiftLeft_eq, ← Nat.pow_add,
      show k.succ + 52 = 53 + k by omega, Nat.pow_add]
    exact Nat.mul_lt_mul_of_pos_right hm (Nat.two_pow_pos k)

theorem half_bound {m : Nat} {e : Int} (hm : m < 2 ^ 53) (he : e ≤ 971) :
    max (halfExponent m e) (grid (halfMantissa m e) (halfExponent m e)) ≤ 970 := by
  have hlog : m.log2 ≤ 52 := by
    rcases Nat.eq_zero_or_pos m with rfl | hpos
    · decide
    · exact Nat.lt_succ_iff.mp ((Nat.log2_lt hpos.ne').mpr hm)
  have hexponent := halfExponent_eq m e
  have hquotient := log2_halfMantissa hm e
  unfold grid
  omega

theorem isFinite_div_two {x : Float} (h : x.isFinite = true) : (x / 2.0).isFinite = true := by
  have h : x.toModel.unpack.isFinite = true := h
  show (Float.Model.pack
    (x.toModel.unpack.div .binary64 (2.0 : Float).toModel.unpack)).unpack.isFinite = true
  rw [unpack_two]
  cases hx : x.toModel.unpack with
  | notANumber | infinity =>
    rw [hx] at h
    cases h
  | zero s => exact isFinite_pack_zero _
  | finite s m e hm =>
    obtain ⟨a, ha, -⟩ := div_two_eq s m e hm
    obtain ⟨hc, he⟩ := canonical_of_unpack hx
    rw [ha]
    exact isFinite_pack_rounded (half_bound hc.mantissa_lt he)

end LeastSquares.Binary64
