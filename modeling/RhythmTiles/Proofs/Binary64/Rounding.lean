import RhythmTiles.Proofs.Binary64.Nearest

/-!
# Rounding

Arithmetic on doubles is done on unpacked ones, whose mantissas are shifted right until they have 53
bits. Two residual bits remember what is shifted out (`Represents`), which is enough to round to the
nearest integer at the end. So the result is a nearest point of the grid (`rounded_roundWithAccuracy`),
and has the form in which doubles are packed (`IsCanonical`).
-/

namespace RhythmTiles.Binary64

open Float.Model Float.Model.UnpackedFloat

/-! ## Residual bits -/

/-- The number lies where the mantissa and its residual bits say. -/
def Represents (em : ExtendedMantissa) (y : Rat) : Prop :=
  match em.roundBit, em.stickyBit with
  | false, false => y = em.mantissa
  | false, true => em.mantissa < y ∧ y < em.mantissa + 1 / 2
  | true, false => y = em.mantissa + 1 / 2
  | true, true => em.mantissa + 1 / 2 < y ∧ y < em.mantissa + 1

theorem represents_exact (m : Nat) : Represents (.ofMantissaAndAccuracy m .exact) m := rfl

theorem Represents.bounds {em : ExtendedMantissa} {y : Rat} (h : Represents em y) :
    em.mantissa ≤ y ∧ y < em.mantissa + 1 := by
  obtain ⟨m, r, s⟩ := em
  cases r <;> cases s <;> simp only [Represents] at h <;> constructor <;> linarith

/-- A half of the number lies where the shifted mantissa says. -/
theorem Represents.shiftRightOne {em : ExtendedMantissa} {y : Rat} (h : Represents em y) :
    Represents em.shiftRightOne (y / 2) := by
  obtain ⟨m, r, s⟩ := em
  have hdiv : ((m % 2 : Nat) : Rat) + 2 * ((m / 2 : Nat) : Rat) = m := by
    exact_mod_cast Nat.mod_add_div m 2
  rcases Nat.mod_two_eq_zero_or_one m with hm | hm <;> cases r <;> cases s <;>
    simp only [Represents, ExtendedMantissa.shiftRightOne, hm, Nat.cast_zero, Nat.cast_one,
      bne_self_eq_false, Nat.reduceBNe, Bool.or_false, Bool.or_true] at h hdiv ⊢ <;>
    first | linarith | constructor <;> linarith

theorem Represents.shiftRight {em : ExtendedMantissa} {y : Rat} (h : Represents em y) (k : Nat) :
    Represents (em >>> k) (y / 2 ^ k) := by
  show Represents (k.repeat ExtendedMantissa.shiftRightOne em) _
  induction k with
  | zero => simpa [Nat.repeat] using h
  | succ k ih =>
    rw [Nat.repeat, pow_succ, ← div_div]
    exact ih.shiftRightOne

/-- The rounded mantissa is the nearest integer. -/
theorem Represents.rounded {em : ExtendedMantissa} {y : Rat} (h : Represents em y) :
    |(em.roundedMantissa : Rat) - y| ≤ 1 / 2 := by
  obtain ⟨m, r, s⟩ := em
  have htie : ((m % 2 : Nat) : Rat) ≤ 1 := by exact_mod_cast Nat.le_of_lt_succ (Nat.mod_lt m two_pos)
  have htie' : (0 : Rat) ≤ ((m % 2 : Nat) : Rat) := Nat.cast_nonneg _
  rw [abs_le]
  cases r <;> cases s <;>
    simp only [Represents, ExtendedMantissa.roundedMantissa, ExtendedMantissa.accuracy,
      Accuracy.roundToNearestEven, Nat.cast_add, Nat.cast_one] at h ⊢ <;>
    constructor <;> linarith

/-! ## Target exponents -/

theorem targetExponent_eq (t : Int) :
    Format.binary64.targetExponent t = max (t - 53) (-1074) := rfl

/-- A mantissa with enough bits for its exponent is not shifted left. -/
theorem le_targetExponent_iff {m : Nat} {e : Int} :
    e ≤ Format.binary64.targetExponent (totalExponent m e) ↔ 52 ≤ m.log2 ∨ e ≤ -1074 := by
  rw [targetExponent_eq, totalExponent, le_max_iff]
  omega

/-- The form in which a double is packed, but for the upper end of exponents: all bits are used,
unless the exponent is the least. -/
structure Canonical (m : Nat) (e : Int) : Prop where
  lt : m < 2 ^ 53
  ge : -1074 ≤ e
  full : 2 ^ 52 ≤ m ∨ e = -1074

/-! ## Unpacked doubles -/

/-- One with a sign. -/
def signOf : Sign → Rat
  | .negative => -1
  | .positive => 1

theorem signOf_mul (s t : Sign) : signOf (s * t) = signOf s * signOf t := by
  cases s <;> cases t <;> simp only [signOf] <;> norm_num

theorem apply_eq (s : Sign) (n : Int) : ((s.apply n : Int) : Rat) = signOf s * n := by
  cases s <;> simp [Sign.apply, signOf]

def unpackedValue? : UnpackedFloat → Option Rat
  | .zero _ => some 0
  | .finite s m e _ => some (signOf s * (m * 2 ^ e))
  | _ => none

/-- The form in which doubles are packed. -/
def IsCanonical : UnpackedFloat → Prop
  | .finite _ m e _ => Canonical m e
  | _ => True

/-- A number that can be packed, and is nearest to `x`. -/
structure Rounded (x : Rat) (f : UnpackedFloat) : Prop where
  canonical : IsCanonical f
  nearest : ∃ r, unpackedValue? f = some r ∧ Nearest x r

theorem Nearest.signed {x r : Rat} (h : Nearest x r) (s : Sign) :
    Nearest (signOf s * x) (signOf s * r) := by
  cases s with
  | negative =>
    rw [signOf, neg_one_mul, neg_one_mul]
    exact h.neg
  | positive =>
    rw [signOf, one_mul, one_mul]
    exact h

/-! ## Rounding a mantissa -/

theorem mantissa_ofMantissaAndAccuracy (m : Nat) (acc : Accuracy) :
    (ExtendedMantissa.ofMantissaAndAccuracy m acc).mantissa = m := by
  cases acc with
  | exact => rfl
  | inexact order => cases order <;> rfl

theorem shiftToTargetExponent_eq {m : Nat} {e : Int} {k : Nat}
    (h : (Format.binary64.targetExponent (totalExponent m e) - e).toNat = k) (acc : Accuracy) :
    shiftToTargetExponent Format.binary64 m e acc =
      (ExtendedMantissa.ofMantissaAndAccuracy m acc >>> k, e + k) := by
  rw [← h]
  rfl

/-- The first shift leaves at most 53 bits, and all of them unless the exponent is the least. -/
theorem shiftToTargetExponent_spec {m : Nat} {e : Int} {acc : Accuracy} {x : Rat}
    (hx : Represents (.ofMantissaAndAccuracy m acc) (x / 2 ^ e))
    (he : 52 ≤ m.log2 ∨ e ≤ -1074) {em : ExtendedMantissa} {t : Int}
    (h : shiftToTargetExponent Format.binary64 m e acc = (em, t)) :
    Represents em (x / 2 ^ t) ∧ -1074 ≤ t ∧ x / 2 ^ t < 2 ^ 53 ∧
      (2 ^ 52 ≤ x / 2 ^ t ∨ t = -1074) := by
  obtain ⟨hlow, hhigh⟩ := hx.bounds
  rw [mantissa_ofMantissaAndAccuracy] at hlow hhigh
  have hle : e ≤ Format.binary64.targetExponent (totalExponent m e) := le_targetExponent_iff.2 he
  obtain ⟨k, hk⟩ := Int.le.dest hle
  rw [shiftToTargetExponent_eq (k := k) (by rw [← hk, add_sub_cancel_left, Int.toNat_natCast])] at h
  obtain ⟨rfl, rfl⟩ := Prod.mk.inj h
  rw [targetExponent_eq, totalExponent] at hk
  have hscale : x / 2 ^ (e + k) = x / 2 ^ e / 2 ^ k := by
    rw [zpow_add₀ two_ne_zero, zpow_natCast, div_div]
  have hunit : (0 : Rat) < 2 ^ k := by positivity
  rw [hscale]
  refine ⟨hx.shiftRight k, by omega, ?_, ?_⟩
  · -- the shift drops all bits beyond the 53rd
    have hbits : ((m + 1 : Nat) : Rat) ≤ ((2 ^ (53 + k) : Nat) : Rat) := by
      have hlog : m < 2 ^ (m.log2 + 1) := Nat.lt_log2_self
      exact_mod_cast hlog.trans_le (Nat.pow_le_pow_right two_pos (by omega))
    rw [div_lt_iff₀ hunit, ← pow_add]
    push_cast at hbits
    linarith
  · rcases eq_or_ne (e + k) (-1074) with hleast | hleast
    · exact Or.inr hleast
    · left
      -- above the least exponent the first bit is kept
      have hbits : ((2 ^ (52 + k) : Nat) : Rat) ≤ m := by
        have hlog : m.log2 = 52 + k := by omega
        have hm : m ≠ 0 := by
          rintro rfl
          rw [Nat.log2_zero] at hlog
          omega
        rw [← hlog]
        exact_mod_cast Nat.log2_self_le hm
      rw [le_div_iff₀ hunit, ← pow_add]
      push_cast at hbits
      linarith

/-- The second shift only undoes a carry. -/
theorem shiftToTargetExponent_exact {r : Nat} {t : Int} (hr : r ≤ 2 ^ 53) (ht : -1074 ≤ t) :
    shiftToTargetExponent Format.binary64 r t .exact =
      if r < 2 ^ 53 then (⟨r, false, false⟩, t) else (⟨2 ^ 52, false, false⟩, t + 1) := by
  split_ifs with hlt
  · have hlog : r.log2 < 53 := by
      rcases eq_or_ne r 0 with rfl | hne
      · decide
      · exact (Nat.log2_lt hne).2 hlt
    have hk : (Format.binary64.targetExponent (totalExponent r t) - t).toNat = 0 := by
      rw [targetExponent_eq, totalExponent]
      omega
    rw [shiftToTargetExponent_eq hk, Nat.cast_zero, add_zero]
    rfl
  · obtain rfl : r = 2 ^ 53 := by omega
    have hk : (Format.binary64.targetExponent (totalExponent (2 ^ 53) t) - t).toNat = 1 := by
      rw [targetExponent_eq, totalExponent, Nat.log2_two_pow]
      omega
    rw [shiftToTargetExponent_eq hk]
    rfl

/-- **Rounding with residual bits gives a nearest point of the grid.** -/
theorem rounded_roundWithAccuracy (s : Sign) {m : Nat} {e : Int} {acc : Accuracy} {x : Rat}
    (hx : Represents (.ofMantissaAndAccuracy m acc) (x / 2 ^ e))
    (he : 52 ≤ m.log2 ∨ e ≤ -1074) :
    Rounded (signOf s * x) (roundWithAccuracy Format.binary64 s m e acc) := by
  rcases hfirst : shiftToTargetExponent Format.binary64 m e acc with ⟨em, t⟩
  obtain ⟨hem, ht, hlt, hfull⟩ := shiftToTargetExponent_spec hx he hfirst
  obtain ⟨r, hr⟩ : ∃ r, em.roundedMantissa = r := ⟨_, rfl⟩
  have hround := hem.rounded
  rw [hr] at hround
  have hunit : (0 : Rat) < 2 ^ t := zpow_pos two_pos t
  have hnearest : Nearest x (r * 2 ^ t) := by
    have hint : |((r : Int) : Rat) - x / 2 ^ t| ≤ 1 / 2 := by exact_mod_cast hround
    have hscaled := nearest_of_scaled hint hfull
    rwa [div_mul_cancel₀ _ hunit.ne', Int.cast_natCast] at hscaled
  have hbits : r ≤ 2 ^ 53 := by
    have := (abs_le.1 hround).2
    have : (r : Rat) < ((2 ^ 53 + 1 : Nat) : Rat) := by push_cast; linarith
    exact Nat.lt_succ_iff.1 (by exact_mod_cast this)
  have hfull : 2 ^ 52 ≤ r ∨ t = -1074 := by
    refine hfull.imp_left fun hle => ?_
    have := (abs_le.1 hround).1
    have : ((2 ^ 52 : Nat) : Rat) < ((r + 1 : Nat) : Rat) := by push_cast; linarith
    exact Nat.lt_succ_iff.1 (by exact_mod_cast this)
  unfold roundWithAccuracy
  simp only [hfirst, hr, shiftToTargetExponent_exact hbits ht]
  by_cases hcarry : r < 2 ^ 53
  · simp only [if_pos hcarry]
    split_ifs with hzero
    · refine ⟨trivial, 0, rfl, ?_⟩
      rw [hzero, Nat.cast_zero, zero_mul] at hnearest
      simpa using hnearest.signed s
    · exact ⟨⟨hcarry, ht, hfull⟩, _, rfl, hnearest.signed s⟩
  · -- the carry needs one bit more: the same number, an exponent higher
    obtain rfl : r = 2 ^ 53 := by omega
    simp only [if_neg hcarry]
    refine ⟨⟨by norm_num, by omega, Or.inl le_rfl⟩, _, rfl, ?_⟩
    have hsame : ((2 ^ 53 : Nat) : Rat) * 2 ^ t = ((2 ^ 52 : Nat) : Rat) * 2 ^ (t + 1) := by
      rw [zpow_add_one₀ two_ne_zero]
      push_cast
      ring
    rw [← hsame]
    exact hnearest.signed s

/-! ## Rounding exact numbers -/

theorem log2_shiftLeft {m : Nat} (hm : m ≠ 0) (k : Nat) : (m <<< k).log2 = m.log2 + k := by
  have hpos : 0 < 2 ^ k := Nat.two_pow_pos k
  rw [Nat.shiftLeft_eq, Nat.log2_eq_iff (Nat.mul_ne_zero hm hpos.ne'), pow_add, add_right_comm,
    pow_add (2 : Nat) (m.log2 + 1)]
  exact ⟨Nat.mul_le_mul_right _ (Nat.log2_self_le hm),
    Nat.mul_lt_mul_of_pos_right Nat.lt_log2_self hpos⟩

theorem shiftLeft_mul (m k : Nat) (e : Int) : ((m <<< k : Nat) : Rat) * 2 ^ (e - k) = m * 2 ^ e := by
  rw [Nat.shiftLeft_eq, zpow_sub₀ two_ne_zero, zpow_natCast]
  push_cast
  field_simp

theorem rounded_round (s : Sign) {m : Nat} (hm : m ≠ 0) (e : Int) :
    Rounded (signOf s * (m * 2 ^ e)) (round Format.binary64 s m e) := by
  obtain ⟨k, hk⟩ :
      ∃ k, (e - Format.binary64.targetExponent (totalExponent m e)).toNat = k := ⟨_, rfl⟩
  have hround : round Format.binary64 s m e =
      roundWithAccuracy Format.binary64 s (m <<< k) (e - k) .exact := by
    rw [← hk]
    rfl
  rw [hround]
  apply rounded_roundWithAccuracy
  · rw [← shiftLeft_mul m k e, mul_div_cancel_right₀ _ (zpow_ne_zero _ two_ne_zero)]
    exact represents_exact _
  · rw [log2_shiftLeft hm]
    rw [targetExponent_eq, totalExponent] at hk
    omega

/-- A whole number of units is rounded to a nearest point of the grid. -/
theorem rounded_normalize (n e : Int) (zero : Sign) :
    Rounded (n * 2 ^ e) (UnpackedFloat.normalize Format.binary64 n e zero) := by
  unfold UnpackedFloat.normalize
  rcases lt_trichotomy n 0 with hn | rfl | hn
  · have hround := rounded_round .negative (m := (-n).toNat) (by omega) e
    have hcast : (((-n).toNat : Nat) : Rat) = -n := by
      have : (((-n).toNat : Nat) : Int) = -n := Int.toNat_of_nonneg (by omega)
      exact_mod_cast this
    rw [compare_lt_iff_lt.2 hn]
    rwa [hcast, signOf, neg_one_mul, neg_mul, neg_neg] at hround
  · rw [compare_eq_iff_eq.2 rfl, Int.cast_zero, zero_mul]
    exact ⟨trivial, 0, rfl, nearest_self 0⟩
  · have hround := rounded_round .positive (m := n.toNat) (by omega) e
    have hcast : ((n.toNat : Nat) : Rat) = n := by
      have : ((n.toNat : Nat) : Int) = n := Int.toNat_of_nonneg hn.le
      exact_mod_cast this
    rw [compare_gt_iff_gt.2 hn]
    rwa [hcast, signOf, one_mul] at hround

end RhythmTiles.Binary64
