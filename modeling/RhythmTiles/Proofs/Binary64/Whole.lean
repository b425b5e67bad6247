import RhythmTiles.Proofs.Binary64.Arithmetic

/-!
# Whole numbers as doubles

A whole number becomes a nearest double (`roundsTo_ofNat`, `roundsTo_ofInt`). A double that is a nearest
one of a whole number is whole again (`Nearest.whole`), so that a number of a signed 64-bit word comes
back as a whole number; it is the same number when it is a point of the grid, or the greatest of the word
(`exists_whole?_ofInt`).
-/

namespace RhythmTiles.Binary64

open Float.Model Float.Model.UnpackedFloat

variable {x : Float} {a r z : Rat} {n : Int}

/-! ## Rounding a whole number -/

theorem mul_finite {s t : Sign} {m n : Nat} {e d : Int} (hm : 0 < m) (hn : 0 < n) :
    UnpackedFloat.mul Format.binary64 (.finite s m e hm) (.finite t n d hn) =
      roundWithAccuracy Format.binary64 (s * t) (m * n) (e + d) .exact := rfl

theorem rounded_ofScientific {n : Nat} (hne : n ≠ 0) :
    Rounded n (UnpackedFloat.ofScientific Format.binary64 n 0) := by
  have hlow : ¬(0 : Int) < -(2 ^ Format.binary64.exponentBits + (n.log2 : Int)) := by
    have : (0 : Int) ≤ 2 ^ Format.binary64.exponentBits := by positivity
    omega
  unfold UnpackedFloat.ofScientific
  rw [dif_neg hne, if_neg (by decide), if_neg hlow, if_pos le_rfl, mul_finite]
  have hround : Rounded (signOf (.positive * .positive) * n)
      (roundWithAccuracy Format.binary64 (.positive * .positive)
        (n <<< Format.binary64.mantissaBits * 10 ^ (0 : Int).toNat)
        (-Format.binary64.mantissaBits + 0) .exact) := by
    rw [Int.toNat_zero, pow_zero, mul_one, add_zero]
    apply rounded_roundWithAccuracy
    · have hshift := shiftLeft_mul n Format.binary64.mantissaBits 0
      rw [zpow_zero, mul_one, zero_sub] at hshift
      rw [← hshift, mul_div_cancel_right₀ _ (zpow_ne_zero _ two_ne_zero)]
      exact represents_exact _
    · left
      rw [log2_shiftLeft hne]
      exact Nat.le_add_left _ _
  rwa [signOf_mul, signOf, one_mul, one_mul] at hround

theorem roundsTo_ofNat (n : Nat) : RoundsTo n (Float.ofNat n) := by
  by_cases hn : n < 2 ^ 53
  · exact ⟨n, nearest_self _, Or.inl (value?_ofNat hn)⟩
  · have hslow : Float.ofNat n =
        .ofModel (.pack (UnpackedFloat.ofScientific Format.binary64 n 0)) := by
      show Float.ofScientific n false 0 = _
      unfold Float.ofScientific
      rw [dif_neg (fun h => hn h.1)]
      rfl
    rw [hslow]
    exact (rounded_ofScientific (by rintro rfl; exact hn (by norm_num))).roundsTo

theorem unpack_neg (x : Float) : (-x).toModel.unpack = x.toModel.unpack.neg := by
  obtain ⟨hcanonical, hrange⟩ := isCanonical_unpack x.toModel
  apply unpack_pack <;> cases hx : x.toModel.unpack <;>
    simp_all [UnpackedFloat.neg, IsCanonical, InRange]

theorem value?_neg (x : Float) : value? (-x) = (value? x).map (- ·) := by
  rw [value?_eq, value?_eq, unpack_neg]
  cases x.toModel.unpack with
  | infinity s => rfl
  | notANumber => rfl
  | zero s => simp [UnpackedFloat.neg, unpackedValue?]
  | finite s m e hpos => simp [UnpackedFloat.neg, unpackedValue?, signOf_neg]

theorem RoundsTo.neg (h : RoundsTo a x) : RoundsTo (-a) (-x) := by
  obtain ⟨r, hnearest, hr | ⟨hr, hlarge⟩⟩ := h
  · exact ⟨-r, hnearest.neg, Or.inl (by rw [value?_neg, hr]; rfl)⟩
  · exact ⟨-r, hnearest.neg, Or.inr ⟨by rw [value?_neg, hr]; rfl, by rwa [abs_neg]⟩⟩

/-- A whole number becomes a nearest double. -/
theorem roundsTo_ofInt (n : Int) : RoundsTo n (Float.ofInt n) := by
  cases n with
  | ofNat n => exact_mod_cast roundsTo_ofNat n
  | negSucc n =>
    rw [Int.cast_negSucc]
    exact (roundsTo_ofNat (n + 1)).neg

/-! ## Whole points of the grid -/

/-- From `2 ^ 53` on the grid holds whole numbers only. -/
theorem Grid.whole (hz : Grid z) (hlarge : 2 ^ 53 ≤ |z|) : ∃ k : Int, z = k := by
  obtain ⟨m, e, hm, -, rfl⟩ := hz
  have hexp : 0 ≤ e := by
    by_contra hneg
    have hunit : (2 : Rat) ^ e ≤ 1 := zpow_le_one_of_nonpos₀ one_le_two (by omega)
    have hsize : |(m : Rat)| < 2 ^ 53 := by exact_mod_cast hm
    rw [abs_mul, abs_of_pos (zpow_pos two_pos e : (0 : Rat) < 2 ^ e)] at hlarge
    have hshort := mul_le_mul_of_nonneg_left hunit (abs_nonneg (m : Rat))
    linarith
  obtain ⟨k, rfl⟩ := Int.eq_ofNat_of_zero_le hexp
  exact ⟨m * 2 ^ k, by push_cast; rw [zpow_natCast]⟩

theorem grid_two_pow (k : Nat) : Grid (2 ^ k) :=
  ⟨1, k, by norm_num, by omega, by rw [Int.cast_one, one_mul, zpow_natCast]⟩

/-- The whole numbers up to `2 ^ 53` are points of the grid. -/
theorem grid_intCast (h : |n| ≤ 2 ^ 53) : Grid n := by
  rcases h.lt_or_eq with hlt | heq
  · exact ⟨n, 0, hlt, by norm_num, by rw [zpow_zero, mul_one]⟩
  · have hgrid := grid_two_pow 53
    rcases abs_choice n with hn | hn <;> rw [hn] at heq
    · rw [heq]
      exact_mod_cast hgrid
    · rw [← neg_neg n, heq]
      exact_mod_cast hgrid.neg

/-- A nearest point of a whole number is whole. -/
theorem Nearest.whole (h : Nearest n r) (hr : Grid r) : ∃ k : Int, r = k := by
  by_cases hsmall : |n| ≤ 2 ^ 53
  · exact ⟨n, h.eq_self (grid_intCast hsmall)⟩
  · apply hr.whole
    have hgrid := grid_two_pow 53
    rcases lt_abs.1 (not_le.1 hsmall) with hlarge | hlarge
    · have hle : (2 : Rat) ^ 53 ≤ n := by exact_mod_cast hlarge.le
      exact (h.ge hgrid hle).trans (le_abs_self r)
    · have hle : (2 : Rat) ^ 53 ≤ -n := by exact_mod_cast hlarge.le
      exact (h.neg.ge hgrid hle).trans (neg_le_abs r)

/-- The greatest number of a signed word is rounded up. -/
theorem Nearest.two_pow_le (h : Nearest ((2 ^ 63 - 1 : Int) : Rat) r) (hr : Grid r) : 2 ^ 63 ≤ r := by
  have hnear := h _ (grid_two_pow 63)
  have hlow : 2 ^ 63 - 2 ≤ r := by
    have hdistance := (abs_le.1 hnear).1
    push_cast at hdistance
    norm_num at hdistance ⊢
    linarith
  -- the next point of the grid below `2 ^ 63` is `2 ^ 10` less
  have hnext := hr.succ_le (m := 2 ^ 53 - 1) (e := 10) (by norm_num) (by norm_num at hlow ⊢; linarith)
  norm_num at hnext ⊢
  exact hnext

/-! ## Whole doubles -/

theorem Parts.isWhole_iff (p : Parts) : p.isWhole = true ↔ ∃ k : Int, p.value = k := by
  have hden : ((p.den : Nat) : Rat) ≠ 0 := by
    have : p.den ≠ 0 := (Nat.two_pow_pos _).ne'
    exact_mod_cast this
  rw [Parts.isWhole, beq_iff_eq, ← Int.dvd_iff_emod_eq_zero, p.value_eq_div]
  constructor
  · rintro ⟨k, hk⟩
    refine ⟨k, ?_⟩
    rw [hk]
    push_cast
    rw [mul_div_cancel_left₀ _ hden]
  · rintro ⟨k, hk⟩
    refine ⟨k, ?_⟩
    rw [div_eq_iff hden] at hk
    rw [mul_comm]
    exact_mod_cast hk

theorem whole?_eq_some : whole? x = some n ↔ value? x = some (n : Rat) := by
  unfold whole? value?
  cases parts? x with
  | none => simp
  | some p =>
    rw [Option.bind_some, Option.map_some]
    constructor
    · intro h
      split at h
      · rename_i hwhole
        obtain ⟨k, hk⟩ := p.isWhole_iff.1 hwhole
        rw [p.floor_eq, hk, Int.floor_intCast] at h
        rw [hk, Option.some.inj h]
      · cases h
    · intro h
      have hvalue : p.value = n := Option.some.inj h
      rw [if_pos (p.isWhole_iff.2 ⟨n, hvalue⟩), p.floor_eq, hvalue, Int.floor_intCast]

/-- Doubles are finite and positive when their values are positive. -/
theorem isFinite_and_pos_iff : (x.isFinite = true ∧ 0 < x) ↔ ∃ q, value? x = some q ∧ 0 < q := by
  have hzero : value? (0 : Float) = some 0 := value?_ofNat (n := 0) (by norm_num)
  constructor
  · rintro ⟨hfinite, hpos⟩
    obtain ⟨q, hq⟩ := value_of_isFinite hfinite
    exact ⟨q, hq, (lt_iff hzero hq).1 hpos⟩
  · rintro ⟨q, hq, hpos⟩
    exact ⟨isFinite_of_value hq, (lt_iff hzero hq).2 hpos⟩

/-- **A number of a signed word comes back as a whole number**: a nearest point of the grid, and brought
into the word the number itself just when it is such a point, or the greatest of the word. -/
theorem exists_whole?_ofInt (hlow : -2 ^ 63 ≤ n) (hhigh : n < 2 ^ 63) :
    ∃ k : Int, whole? (Float.ofInt n) = some k ∧ Nearest n k ∧
      (clampInt64 k = n ↔ Grid n ∨ n = 2 ^ 63 - 1) := by
  have hsize : |(n : Rat)| ≤ 2 ^ 63 := by
    have : |n| ≤ 2 ^ 63 := abs_le.2 ⟨hlow, hhigh.le⟩
    exact_mod_cast this
  obtain ⟨r, hr, hnearest⟩ := (roundsTo_ofInt n).value_of_grid (grid_two_pow 63)
    (pow_lt_pow_right₀ one_lt_two (by norm_num)) hsize
  have hgrid := grid_of_value hr
  obtain ⟨k, rfl⟩ := hnearest.whole hgrid
  refine ⟨k, whole?_eq_some.2 hr, hnearest, ?_⟩
  unfold clampInt64
  constructor
  · intro h
    by_cases hkept : n = k
    · exact Or.inl (hkept ▸ hgrid)
    · -- what the word cuts off is at its end, and its least number is a point of the grid
      rcases le_or_gt k 0x7fffffffffffffff with hle | hgt
      · left
        obtain rfl : n = -2 ^ 63 := by omega
        exact_mod_cast (grid_two_pow 63).neg
      · right
        omega
  · rintro (hself | rfl)
    · have hkept : (k : Rat) = n := hnearest.eq_self hself
      obtain rfl : k = n := by exact_mod_cast hkept
      omega
    · have hup : (2 : Int) ^ 63 ≤ k := by exact_mod_cast hnearest.two_pow_le hgrid
      omega

end RhythmTiles.Binary64
