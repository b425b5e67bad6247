import Mathlib

/-!
# Nearest doubles

The grid is the set of all numbers that a double can be, as if exponents had no upper end. Whoever
rounds to the nearest point of the grid never steps over a point of it (`Nearest.le`, `Nearest.ge`) and
leaves the points themselves as they are (`Nearest.eq_self`). A whole number is not reached from a
relative distance of `2 ^ -53` below it (`Nearest.lt_of_le`). An integer nearest to a scaled number
gives a nearest point, if the scale fits (`nearest_of_scaled`).
-/

namespace RhythmTiles.Binary64

/-- The numbers with a mantissa of 53 bits and an exponent from -1074 on. -/
def Grid (x : Rat) : Prop := ∃ n e : Int, |n| < 2 ^ 53 ∧ -1074 ≤ e ∧ x = n * 2 ^ e

/-- No point of the grid is nearer to `x` than `r`. -/
def Nearest (x r : Rat) : Prop := ∀ z, Grid z → |r - x| ≤ |z - x|

/-- A power of two is a whole multiple of a lower one. -/
theorem two_zpow_eq_mul {e f : Int} (h : e ≤ f) :
    (2 : Rat) ^ f = ((2 ^ (f - e).toNat : Nat) : Rat) * 2 ^ e := by
  obtain ⟨k, rfl⟩ := Int.le.dest h
  rw [zpow_add₀ two_ne_zero, mul_comm, add_sub_cancel_left, Int.toNat_natCast, zpow_natCast]
  push_cast
  rfl

/-! ## The grid -/

theorem Grid.neg {x : Rat} (h : Grid x) : Grid (-x) := by
  obtain ⟨n, e, hn, he, rfl⟩ := h
  exact ⟨-n, e, by rwa [abs_neg], he, by push_cast; ring⟩

/-- A point of the grid stays one when it is doubled so many times. -/
theorem Grid.mul_two_pow {x : Rat} (h : Grid x) (k : Nat) : Grid (x * 2 ^ k) := by
  obtain ⟨n, e, hn, he, rfl⟩ := h
  exact ⟨n, e + k, hn, by omega, by rw [zpow_add₀ two_ne_zero, zpow_natCast]; ring⟩

theorem grid_natCast {n : Nat} (h : n < 2 ^ 53) : Grid n :=
  ⟨n, 0, by rw [Nat.abs_cast]; exact_mod_cast h, by norm_num, by simp⟩

theorem grid_before_pow {k : Nat} (hk : k < 53) : Grid (2 ^ k * (1 - 2⁻¹ ^ 53)) := by
  refine ⟨2 ^ 53 - 1, k - 53, by norm_num, by omega, ?_⟩
  rw [zpow_sub₀ two_ne_zero, zpow_natCast]
  norm_num
  ring

/-- A point before a whole number of so many bits. -/
theorem grid_before {n k : Nat} (hk : k < 53) (hn : n < 2 ^ (k + 1)) (hpos : 0 < n) :
    Grid (n - 2 ^ k * 2⁻¹ ^ 52) := by
  have hbits : n * 2 ^ (52 - k) < 2 ^ 53 := by
    calc n * 2 ^ (52 - k) < 2 ^ (k + 1) * 2 ^ (52 - k) :=
          Nat.mul_lt_mul_of_pos_right hn (by positivity)
      _ = 2 ^ 53 := by rw [← pow_add]; congr 1; omega
  have hone : 1 ≤ n * 2 ^ (52 - k) := Nat.mul_pos hpos (by positivity)
  have hunit : (2 : Rat) ^ ((k : Int) - 52) = 2 ^ k * 2⁻¹ ^ 52 := by
    rw [zpow_sub₀ two_ne_zero, zpow_natCast]
    norm_num
    ring
  have hscale : (2 : Rat) ^ (52 - k) * (2 ^ k * 2⁻¹ ^ 52) = 1 := by
    rw [← mul_assoc, ← pow_add, Nat.sub_add_cancel (by omega)]
    norm_num
  refine ⟨(n * 2 ^ (52 - k) : Nat) - 1, k - 52, by rw [abs_lt]; omega, by omega, ?_⟩
  push_cast
  rw [hunit, sub_mul, mul_assoc, hscale]
  ring

/-- Between two neighbours of the grid there is no point of it. -/
theorem Grid.succ_le {z : Rat} (h : Grid z) {m : Nat} {e : Int} (hm : 2 ^ 52 ≤ m)
    (hlt : (m : Rat) * 2 ^ e < z) : ((m + 1 : Nat) : Rat) * 2 ^ e ≤ z := by
  obtain ⟨n, f, hn, -, rfl⟩ := h
  have he : (0 : Rat) < 2 ^ e := zpow_pos two_pos e
  rcases le_or_gt e f with hle | hlt'
  · -- the point is a multiple of the unit
    have hmul : (n : Rat) * 2 ^ f = ((n * (2 ^ (f - e).toNat : Nat) : Int) : Rat) * 2 ^ e := by
      rw [two_zpow_eq_mul hle]
      push_cast
      ring
    rw [hmul] at hlt ⊢
    have hint : (m : Int) < n * (2 ^ (f - e).toNat : Nat) := by
      have := lt_of_mul_lt_mul_right hlt he.le
      exact_mod_cast this
    have hint : ((m + 1 : Nat) : Int) ≤ n * (2 ^ (f - e).toNat : Nat) := by push_cast at hint ⊢; omega
    exact mul_le_mul_of_nonneg_right (by exact_mod_cast hint) he.le
  · -- the point has a finer unit, so it is not above `2 ^ 52` units
    have hn : (n : Rat) ≤ 2 ^ 53 := by exact_mod_cast (lt_of_abs_lt hn).le
    have hfine : (2 : Rat) ^ f * 2 ≤ 2 ^ e := by
      rw [← zpow_add_one₀ two_ne_zero]
      exact zpow_le_zpow_right₀ one_le_two hlt'
    have hf : (0 : Rat) < 2 ^ f := zpow_pos two_pos f
    have hm : (2 : Rat) ^ 52 ≤ m := by exact_mod_cast hm
    nlinarith

/-! ## What rounding keeps -/

section

variable {x r z : Rat}

theorem nearest_self (x : Rat) : Nearest x x := by
  intro z _
  rw [sub_self, abs_zero]
  exact abs_nonneg _

theorem Nearest.neg (h : Nearest x r) : Nearest (-x) (-r) := by
  intro z hz
  have hmirror := h (-z) hz.neg
  rwa [← abs_neg, ← abs_neg (z - -x), show -(-r - -x) = r - x by ring,
    show -(z - -x) = -z - x by ring]

theorem Nearest.ge (h : Nearest x r) (hz : Grid z) (hle : z ≤ x) : z ≤ r := by
  by_contra hlt
  have hnear := h z hz
  rw [abs_of_nonpos (by linarith), abs_of_nonpos (by linarith)] at hnear
  linarith

theorem Nearest.le (h : Nearest x r) (hz : Grid z) (hle : x ≤ z) : r ≤ z := by
  have hmirror := h.neg.ge hz.neg (neg_le_neg hle)
  linarith

theorem Nearest.eq_self (h : Nearest x r) (hx : Grid x) : r = x :=
  le_antisymm (h.le hx le_rfl) (h.ge hx le_rfl)

/-- Rounding keeps the order. -/
theorem Nearest.mono {x' r' : Rat} (h : Nearest x r) (hr : Grid r) (h' : Nearest x' r') (hr' : Grid r')
    (hlt : x < x') : r ≤ r' := by
  by_contra hgt
  have hpos : 0 < r - r' := sub_pos.2 (not_le.1 hgt)
  -- the middle of the two results would lie between the numbers, from both sides
  have hlow : r + r' ≤ 2 * x := by
    have hsq := sq_le_sq.2 (h r' hr')
    have hprod : (r - r') * (r + r' - 2 * x) ≤ 0 := by linear_combination hsq
    linarith [nonpos_of_mul_nonpos_right hprod hpos]
  have hhigh : 2 * x' ≤ r + r' := by
    have hsq := sq_le_sq.2 (h' r hr)
    have hprod : (r - r') * (2 * x' - (r + r')) ≤ 0 := by linear_combination hsq
    linarith [nonpos_of_mul_nonpos_right hprod hpos]
  linarith

/-- Rounding does not step up to a number when some point is nearer. -/
theorem Nearest.lt_of_nearer (h : Nearest x r) (hz : Grid z) {w : Rat} (hlt : |z - x| < w - x) :
    r < w := by
  have hnear := h z hz
  have hself := le_abs_self (r - x)
  linarith

/-- A whole number is not reached from a relative distance of `2 ^ -53` below. -/
theorem Nearest.lt_of_le (h : Nearest x r) {n : Nat} (hpos : 0 < n) (hn : n < 2 ^ 53)
    (hx : x ≤ n * (1 - 2⁻¹ ^ 53)) : r < n := by
  obtain ⟨k, hlow, hhigh⟩ : ∃ k, 2 ^ k ≤ n ∧ n < 2 ^ (k + 1) :=
    ⟨n.log2, Nat.log2_self_le hpos.ne', Nat.lt_log2_self⟩
  have hk : k < 53 := (Nat.pow_lt_pow_iff_right one_lt_two).1 (hlow.trans_lt hn)
  have hunit : (0 : Rat) < 2 ^ k := by positivity
  -- the point below a power of two is half as far as the points below its successors
  rcases hlow.eq_or_lt with rfl | hlow
  · have hle := h.le (grid_before_pow hk) (by exact_mod_cast hx)
    push_cast
    linarith
  · have hlow : (2 : Rat) ^ k < n := by exact_mod_cast hlow
    rcases le_total x (n - 2 ^ k * 2⁻¹ ^ 52) with hle | hge
    · have hle := h.le (grid_before hk hhigh hpos) hle
      linarith
    · refine h.lt_of_nearer (grid_before hk hhigh hpos) ?_
      rw [abs_of_nonpos (by linarith)]
      linarith

end

/-! ## Whole parts -/

/-- Rounding keeps the whole part of a number that is not within `1 / 1024` below the next. -/
theorem Nearest.floor_eq {x r : Rat} (h : Nearest x r) {n : Nat} (hn : n + 1 < 2 ^ 43) (hlow : n ≤ x)
    (hhigh : x ≤ n + 1 - 1 / 1024) : ⌊r⌋ = n := by
  have hnext : Grid (n + 1 - 1 / 1024 : Rat) := by
    refine ⟨1024 * (n + 1) - 1, -10, ?_, by norm_num, by norm_num; ring⟩
    rw [abs_lt]
    omega
  rw [Int.floor_eq_iff]
  constructor
  · exact_mod_cast h.ge (grid_natCast (by omega)) hlow
  · have hle := h.le hnext hhigh
    norm_num at hle ⊢
    linarith

/-- Rounding leaves a number between two whole numbers that is far enough below the upper. -/
theorem Nearest.floor_eq_pred {x r : Rat} (h : Nearest x r) {n : Nat} (hpos : 0 < n) (hn : n < 2 ^ 53)
    (hlow : (n : Rat) - 1 ≤ x) (hhigh : x ≤ n * (1 - 2⁻¹ ^ 53)) : ⌊r⌋ = n - 1 := by
  have hgrid : Grid ((n - 1 : Nat) : Rat) := grid_natCast (by omega)
  rw [Nat.cast_sub hpos, Nat.cast_one] at hgrid
  have hge := h.ge hgrid hlow
  have hlt := h.lt_of_le hpos hn hhigh
  rw [Int.floor_eq_iff]
  push_cast
  constructor <;> linarith

/-! ## Rounding at a scale -/

/-- An integer within a half is as near as any. -/
theorem abs_sub_le_of_half {y : Rat} {k : Int} (h : |(k : Rat) - y| ≤ 1 / 2) (j : Int) :
    |(k : Rat) - y| ≤ |(j : Rat) - y| := by
  rcases eq_or_ne j k with rfl | hne
  · exact le_rfl
  · have hone : (1 : Rat) ≤ |(j : Rat) - k| := by
      have : (1 : Int) ≤ |j - k| := Int.one_le_abs (sub_ne_zero.2 hne)
      exact_mod_cast this
    have htriangle := abs_sub_le (j : Rat) y k
    rw [abs_sub_comm y k] at htriangle
    linarith

/-- An integer within a half of `y` gives the nearest point to `y` units, where the unit is the finest,
or `y` fills the mantissa. -/
theorem nearest_of_scaled {y : Rat} {k : Int} {e : Int} (h : |(k : Rat) - y| ≤ 1 / 2)
    (hfull : 2 ^ 52 ≤ y ∨ e = -1074) : Nearest (y * 2 ^ e) (k * 2 ^ e) := by
  have he : (0 : Rat) < 2 ^ e := zpow_pos two_pos e
  rintro z ⟨n, f, hn, hf, rfl⟩
  -- enough in units of `2 ^ e`
  suffices hscaled : ∃ w : Rat, (n : Rat) * 2 ^ f = w * 2 ^ e ∧ |(k : Rat) - y| ≤ |w - y| by
    obtain ⟨w, hw, hle⟩ := hscaled
    rw [hw, ← sub_mul, ← sub_mul, abs_mul, abs_mul]
    exact mul_le_mul_of_nonneg_right hle (abs_nonneg _)
  rcases le_or_gt e f with hle | hlt
  · refine ⟨(n * (2 ^ (f - e).toNat : Nat) : Int), ?_, abs_sub_le_of_half h _⟩
    rw [two_zpow_eq_mul hle]
    push_cast
    ring
  · -- a finer unit: the point is not above `2 ^ 52` units, which are a point at this scale
    have hfull : 2 ^ 52 ≤ y := hfull.resolve_right (by omega)
    refine ⟨n * 2 ^ f / 2 ^ e, (div_mul_cancel₀ _ he.ne').symm, ?_⟩
    have hn : (n : Rat) ≤ 2 ^ 53 := by exact_mod_cast (lt_of_abs_lt hn).le
    have hfine : (2 : Rat) ^ f * 2 ≤ 2 ^ e := by
      rw [← zpow_add_one₀ two_ne_zero]
      exact zpow_le_zpow_right₀ one_le_two hlt
    have hbelow : (n : Rat) * 2 ^ f / 2 ^ e ≤ 2 ^ 52 := by
      rw [div_le_iff₀ he]
      have : (0 : Rat) < 2 ^ f := zpow_pos two_pos f
      nlinarith
    have hedge := abs_sub_le_of_half h (2 ^ 52)
    have hcast : ((2 ^ 52 : Int) : Rat) = 2 ^ 52 := by norm_num
    have hbefore := neg_le_abs (n * 2 ^ f / 2 ^ e - y)
    rw [hcast, abs_of_nonpos (sub_nonpos.2 hfull)] at hedge
    linarith

end RhythmTiles.Binary64
