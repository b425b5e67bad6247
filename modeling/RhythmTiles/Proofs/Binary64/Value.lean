import RhythmTiles.Binary64
import RhythmTiles.Proofs.Binary64.Rounding

/-!
# The value of a double

The parts of a double are those of its unpacked form (`parts?_eq`), and unpacking undoes packing as
long as the exponent is in range (`unpack_pack`). So rounding and packing give a double whose value is
nearest (`RoundsTo`), or one without a value where the nearest one is too large.
-/

namespace RhythmTiles.Binary64

open Float.Model Float.Model.UnpackedFloat

/-! ## Bits -/

section

variable (b : BitVec Format.binary64.numBits)

theorem toNat_unpackMantissa : (unpackMantissa b).toNat = b.toNat % 2 ^ 52 := by
  simp only [unpackMantissa, BitVec.toNat_cast, BitVec.extractLsb_toNat, Nat.shiftRight_zero]

theorem toNat_unpackExponent : (unpackExponent b).toNat = b.toNat / 2 ^ 52 % 2 ^ 11 := by
  simp only [unpackExponent, BitVec.toNat_cast, BitVec.extractLsb_toNat, Nat.shiftRight_eq_div_pow]

theorem toNat_unpackSign : (unpackSign b).toNat = b.toNat / 2 ^ 63 := by
  have hb : b.toNat < 2 ^ 64 := b.isLt
  simp only [unpackSign, BitVec.toNat_cast, BitVec.extractLsb_toNat, Nat.shiftRight_eq_div_pow]
  omega

end

theorem toNat_implicit (v : BitVec 52) : (1#1 ++ v).toNat = 2 ^ 52 + v.toNat := by
  rw [BitVec.toNat_append, ← Nat.shiftLeft_add_eq_or_of_lt v.isLt]
  rfl

def isNegative : Sign → Bool
  | .negative => true
  | .positive => false

theorem isNegative_unpackSign (b : BitVec Format.binary64.numBits) :
    isNegative (Sign.ofBitVec (unpackSign b)) = decide (0x8000000000000000 ≤ b.toNat) := by
  have hsign := toNat_unpackSign b
  unfold Sign.ofBitVec
  split_ifs with hzero
  · rw [hzero] at hsign
    have : ¬0x8000000000000000 ≤ b.toNat := by
      simp at hsign
      omega
    simp [isNegative, this]
  · have hne : (unpackSign b).toNat ≠ 0 := fun h => hzero (BitVec.eq_of_toNat_eq h)
    have : 0x8000000000000000 ≤ b.toNat := by omega
    simp [isNegative, this]

def partsOf? : UnpackedFloat → Option Parts
  | .zero s => some ⟨isNegative s, 0, -1074⟩
  | .finite s m e _ => some ⟨isNegative s, m, e⟩
  | _ => none

theorem parts?_eq (x : Float) : parts? x = partsOf? x.toModel.unpack := by
  obtain ⟨b, hb⟩ : ∃ b : BitVec Format.binary64.numBits, x.toModel.toBits.toBitVec = b := ⟨_, rfl⟩
  have hbits : x.toBits.toNat = b.toNat := by rw [← hb]; rfl
  have hmantissa := toNat_unpackMantissa b
  have hexponent := toNat_unpackExponent b
  have hsign := isNegative_unpackSign b
  have hunpack : x.toModel.unpack = UnpackedFloat.unpack Format.binary64 b := by rw [← hb]; rfl
  rw [hunpack]
  unfold parts? UnpackedFloat.unpack
  simp only [hbits, ← hsign]
  have hall : unpackExponent b = -1#_ ↔ b.toNat / 0x10000000000000 % 0x800 = 2047 := by
    rw [← BitVec.toNat_inj, hexponent]
    exact Iff.rfl
  have hnone : unpackExponent b = 0#_ ↔ b.toNat / 0x10000000000000 % 0x800 = 0 := by
    rw [← BitVec.toNat_inj, hexponent]
    exact Iff.rfl
  simp only [hall, hnone]
  have hbias : (Format.binary64.exponentBias : Int) + (52 : Nat) = 1075 := rfl
  split_ifs with hlast hfraction hfirst hfraction
  · rfl
  · rfl
  · rw [hfraction] at hmantissa
    rw [show b.toNat % 0x10000000000000 = 0 from hmantissa.symm]
    rfl
  · rw [partsOf?, hmantissa, hexponent, hbias]
    rw [show b.toNat / 2 ^ 52 % 2 ^ 11 = 0 from hfirst]
    rfl
  · rw [partsOf?, toNat_implicit, hmantissa, hexponent, hbias]
    rfl

/-! ## Packing -/

/-- The exponent is not above the last one that can be packed. -/
def InRange : UnpackedFloat → Prop
  | .finite _ _ e _ => e ≤ 971
  | _ => True

theorem isCanonical_unpack (f : Float.Model) : IsCanonical f.unpack ∧ InRange f.unpack := by
  obtain ⟨b, hb⟩ : ∃ b : BitVec Format.binary64.numBits, f.toBits.toBitVec = b := ⟨_, rfl⟩
  have hmantissa : (unpackMantissa b).toNat < 2 ^ 52 := (unpackMantissa b).isLt
  have hexponent : (unpackExponent b).toNat < 2 ^ 11 := (unpackExponent b).isLt
  have hbias : (Format.binary64.exponentBias : Int) + (52 : Nat) = 1075 := rfl
  rw [show f.unpack = UnpackedFloat.unpack Format.binary64 b by rw [← hb]; rfl]
  unfold UnpackedFloat.unpack
  simp only [hbias]
  split_ifs with hlast _ hfirst
  · exact ⟨trivial, trivial⟩
  · exact ⟨trivial, trivial⟩
  · exact ⟨trivial, trivial⟩
  · rw [hfirst]
    exact ⟨⟨hmantissa.trans (by norm_num), by norm_num, Or.inr rfl⟩, by norm_num [InRange]⟩
  · have hne : (unpackExponent b).toNat ≠ 2047 := fun h => hlast (BitVec.eq_of_toNat_eq h)
    have hpos : (unpackExponent b).toNat ≠ 0 := fun h => hfirst (BitVec.eq_of_toNat_eq h)
    refine ⟨⟨?_, ?_, Or.inl ?_⟩, ?_⟩
    · rw [toNat_implicit]
      omega
    · omega
    · rw [toNat_implicit]
      omega
    · simp only [InRange]
      omega

/-- All bits of the mantissa: the exponent is packed as it is. -/
theorem unpack_pack_normal {s : Sign} {m : Nat} {e : Int} (hpos : 0 < m) (hfull : 2 ^ 52 ≤ m)
    (hm : m < 2 ^ 53) (he : -1074 ≤ e) (hr : e ≤ 971) :
    UnpackedFloat.unpack Format.binary64 (UnpackedFloat.pack Format.binary64 (.finite s m e hpos)) =
      .finite s m e hpos := by
  have hbiased : (e + Format.binary64.exponentBias + (52 : Nat)).toNat = (e + 1075).toNat := by
    rw [add_assoc]
    rfl
  have hlog : m.log2 + 1 = Format.binary64.mantissaBits := by
    rw [(Nat.log2_eq_iff hpos.ne').2 ⟨hfull, hm⟩]
    rfl
  have hlow : (BitVec.ofNat 52 m).toNat = m % 2 ^ 52 := BitVec.toNat_ofNat m 52
  have hexponent : (BitVec.ofNat 11 (e + 1075).toNat).toNat = (e + 1075).toNat := by
    rw [BitVec.toNat_ofNat, Nat.mod_eq_of_lt (by omega)]
  have hlast : BitVec.ofNat 11 (e + 1075).toNat ≠ -1#_ := by
    intro h
    have htop : (e + 1075).toNat = 2047 := by rw [← hexponent, h]; rfl
    omega
  have hfirst : BitVec.ofNat 11 (e + 1075).toNat ≠ 0#_ := by
    intro h
    have hzero : (e + 1075).toNat = 0 := by rw [← hexponent, h]; rfl
    omega
  unfold UnpackedFloat.pack
  simp only [hbiased, if_pos hlog]
  rw [if_neg (by omega)]
  unfold UnpackedFloat.unpack
  simp only [unpackExponent_packComponents, unpackMantissa_packComponents, unpackSign_packComponents,
    Sign.ofBitVec_toBitVec, if_neg hlast, if_neg hfirst, UnpackedFloat.finite.injEq, true_and]
  rw [toNat_implicit, hlow, hexponent]
  have hbias : (Format.binary64.exponentBias : Int) + (52 : Nat) = 1075 := rfl
  omega

/-- Fewer bits, at the least exponent. -/
theorem unpack_pack_subnormal {s : Sign} {m : Nat} (hpos : 0 < m) (hm : m < 2 ^ 52) :
    UnpackedFloat.unpack Format.binary64
        (UnpackedFloat.pack Format.binary64 (.finite s m (-1074) hpos)) =
      .finite s m (-1074) hpos := by
  have hlog : m.log2 + 1 ≠ Format.binary64.mantissaBits := by
    have hlt : m.log2 < 52 := (Nat.log2_lt hpos.ne').2 hm
    have hbits : Format.binary64.mantissaBits = 53 := rfl
    omega
  have hlow : (BitVec.ofNat 52 m).toNat = m := by
    rw [BitVec.toNat_ofNat, Nat.mod_eq_of_lt hm]
  have hfraction : BitVec.ofNat 52 m ≠ 0#_ := by
    intro h
    rw [h] at hlow
    exact hpos.ne hlow
  unfold UnpackedFloat.pack
  simp only [if_neg hlog]
  rw [if_neg (by decide)]
  unfold UnpackedFloat.unpack
  simp only [unpackExponent_packComponents, unpackMantissa_packComponents, unpackSign_packComponents,
    Sign.ofBitVec_toBitVec]
  rw [if_neg (by decide), if_pos trivial, dif_neg hfraction]
  simp only [UnpackedFloat.finite.injEq, true_and]
  exact ⟨hlow, rfl⟩

/-- Unpacking undoes packing within the range. -/
theorem unpack_pack {f : UnpackedFloat} (hc : IsCanonical f) (hr : InRange f) :
    (Float.Model.pack f).unpack = f := by
  show UnpackedFloat.unpack Format.binary64 (UnpackedFloat.pack Format.binary64 f) = f
  cases f with
  | infinity s => cases s <;> rfl
  | notANumber => exact unpack_packedNaN
  | zero s => exact unpack_packedZero
  | finite s m e hpos =>
    rcases le_or_gt (2 ^ 52) m with hfull | hfew
    · exact unpack_pack_normal hpos hfull hc.lt hc.ge hr
    · obtain rfl : e = -1074 := hc.full.resolve_left (by omega)
      exact unpack_pack_subnormal hpos hfew

/-- Above the range packing gives an infinity. -/
theorem unpack_pack_large {s : Sign} {m : Nat} {e : Int} {hpos : 0 < m} (hr : 971 < e) :
    (Float.Model.pack (.finite s m e hpos)).unpack = .infinity s := by
  have hbiased : (e + Format.binary64.exponentBias + (52 : Nat)).toNat = (e + 1075).toNat := by
    rw [add_assoc]
    rfl
  show UnpackedFloat.unpack Format.binary64 (UnpackedFloat.pack Format.binary64 _) = _
  unfold UnpackedFloat.pack
  simp only [hbiased]
  rw [if_pos (by show 2 ^ 11 ≤ _; omega)]
  cases s <;> rfl

/-! ## Values -/

def Parts.value (p : Parts) : Rat := p.signed * 2 ^ p.exponent

/-- The number that a finite double is. -/
def value? (x : Float) : Option Rat := (parts? x).map Parts.value

theorem value?_eq (x : Float) : value? x = unpackedValue? x.toModel.unpack := by
  unfold value?
  rw [parts?_eq]
  cases x.toModel.unpack with
  | infinity s => rfl
  | notANumber => rfl
  | zero s => cases s <;> simp [partsOf?, unpackedValue?, Parts.value, Parts.signed, isNegative]
  | finite s m e hpos =>
    cases s <;>
      simp [partsOf?, unpackedValue?, Parts.value, Parts.signed, isNegative, signOf]

theorem Parts.value_eq_div (p : Parts) : p.value = (p.num : Rat) / (p.den : Nat) := by
  have hnum : (Nat.pow 2 p.exponent.toNat : Nat) = 2 ^ p.exponent.toNat := rfl
  have hden : p.den = 2 ^ (-p.exponent).toNat := rfl
  rw [Parts.value, Parts.num, hnum, hden]
  push_cast
  rw [mul_div_assoc, ← zpow_natCast, ← zpow_natCast, ← zpow_sub₀ two_ne_zero]
  congr 2
  omega

/-- The whole part of the parts is that of their number. -/
theorem Parts.floor_eq (p : Parts) : p.floor = ⌊p.value⌋ := by
  rw [p.value_eq_div, Rat.floor_intCast_div_natCast]
  rfl

theorem floor?_of_value {x : Float} {r : Rat} (h : value? x = some r) : floor? x = some ⌊r⌋ := by
  obtain ⟨p, hp, rfl⟩ := Option.map_eq_some_iff.1 h
  rw [floor?, hp, Option.map_some, p.floor_eq]

/-- The value of a double is a point of the grid. -/
theorem grid_of_value {x : Float} {r : Rat} (h : value? x = some r) : Grid r := by
  rw [value?_eq] at h
  have hcanonical := (isCanonical_unpack x.toModel).1
  cases hx : x.toModel.unpack with
  | infinity s =>
    rw [hx] at h
    cases h
  | notANumber =>
    rw [hx] at h
    cases h
  | zero s =>
    rw [hx] at h
    cases h
    exact grid_natCast (n := 0) (by norm_num)
  | finite s m e hpos =>
    rw [hx] at h hcanonical
    cases h
    have hm : ((m : Int)) < 2 ^ 53 := by exact_mod_cast hcanonical.lt
    have hgrid : Grid ((m : Int) * 2 ^ e) := ⟨m, e, by rwa [Nat.abs_cast], hcanonical.ge, rfl⟩
    cases s with
    | negative => simpa [signOf] using hgrid.neg
    | positive => simpa [signOf] using hgrid

/-- The double is nearest to `x`, or `x` is too large. -/
def RoundsTo (x : Rat) (y : Float) : Prop :=
  ∃ r, Nearest x r ∧ (value? y = some r ∨ value? y = none ∧ 2 ^ 1024 ≤ |r|)

theorem Rounded.roundsTo {x : Rat} {f : UnpackedFloat} (h : Rounded x f) :
    RoundsTo x (.ofModel (.pack f)) := by
  obtain ⟨hcanonical, r, hr, hnearest⟩ := h
  refine ⟨r, hnearest, ?_⟩
  rw [value?_eq]
  by_cases hrange : InRange f
  · left
    rw [unpack_pack hcanonical hrange]
    exact hr
  · right
    cases f with
    | infinity s => exact absurd trivial hrange
    | notANumber => exact absurd trivial hrange
    | zero s => exact absurd trivial hrange
    | finite s m e hpos =>
      have hlarge : 971 < e := not_le.1 hrange
      rw [unpack_pack_large hlarge]
      refine ⟨rfl, ?_⟩
      cases hr
      have hfull : ((2 ^ 52 : Nat) : Rat) ≤ m := by
        exact_mod_cast hcanonical.full.resolve_right (by omega)
      have hunit : (2 : Rat) ^ (972 : Int) ≤ 2 ^ e := zpow_le_zpow_right₀ one_le_two hlarge
      have hsize : |signOf s * (m * 2 ^ e)| = m * 2 ^ e := by
        have hpos : (0 : Rat) ≤ m * 2 ^ e := by positivity
        cases s <;> simp [signOf, abs_of_nonneg hpos]
      rw [hsize]
      calc (2 : Rat) ^ 1024 = ((2 ^ 52 : Nat) : Rat) * 2 ^ (972 : Int) := by
            rw [Nat.cast_pow, Nat.cast_ofNat, ← zpow_natCast, ← zpow_natCast,
              ← zpow_add₀ two_ne_zero]
            rfl
        _ ≤ m * 2 ^ e := mul_le_mul hfull hunit (by positivity) (Nat.cast_nonneg m)

/-- What is not larger than a point of the grid does not become too large by rounding. -/
theorem RoundsTo.value_of_grid {x z : Rat} {y : Float} (h : RoundsTo x y) (hz : Grid z)
    (hbound : z < 2 ^ 1024) (hx : |x| ≤ z) : ∃ r, value? y = some r ∧ Nearest x r := by
  obtain ⟨r, hnearest, hr | ⟨-, hlarge⟩⟩ := h
  · exact ⟨r, hr, hnearest⟩
  · obtain ⟨hlow, hhigh⟩ := abs_le.1 hx
    have hsmall : |r| ≤ z := abs_le.2 ⟨hnearest.ge hz.neg hlow, hnearest.le hz hhigh⟩
    exact absurd (hlarge.trans hsmall) (not_le.2 hbound)

/-- What is not larger than a whole number of 53 bits does not become too large by rounding. -/
theorem RoundsTo.value_of_le {x : Rat} {y : Float} (h : RoundsTo x y) {n : Nat} (hn : n < 2 ^ 53)
    (hx : |x| ≤ n) : ∃ r, value? y = some r ∧ Nearest x r := by
  have hbound : (n : Rat) < 2 ^ 1024 := by
    have hlt : (n : Rat) < 2 ^ 53 := by exact_mod_cast hn
    exact hlt.trans_le (pow_le_pow_right₀ one_le_two (by norm_num))
  exact h.value_of_grid (grid_natCast hn) hbound hx

/-- A whole number of 53 bits is not rounded. -/
theorem RoundsTo.value_natCast {n : Nat} {y : Float} (h : RoundsTo n y) (hn : n < 2 ^ 53) :
    value? y = some (n : Rat) := by
  obtain ⟨r, hr, hnearest⟩ := h.value_of_le hn (by rw [Nat.abs_cast])
  rw [hr, hnearest.eq_self (grid_natCast hn)]

end RhythmTiles.Binary64
